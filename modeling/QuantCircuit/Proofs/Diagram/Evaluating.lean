import QuantCircuit.Proofs.Circuit.Evaluation
import QuantCircuit.Proofs.Diagram.Operating

namespace QuantCircuit

namespace Assignment

theorem ofEntries_of_getElem? {entries : List Bool} (found : entries[v]? = some value) :
    ofEntries entries v = value := by
  simp [ofEntries, List.getD_eq_getElem?_getD, found]

theorem getElem?_eq_ofEntries {entries : List Bool} (inside : v < entries.length) :
    entries[v]? = some (ofEntries entries v) := by
  simp [ofEntries, inside]

theorem ofEntries_set {entries : List Bool} (inside : v < entries.length) (value : Bool) :
    ofEntries (entries.set v value) = (ofEntries entries).set v value := by
  funext w
  by_cases same : w = v
  · subst w
    simp [ofEntries, inside]
  · simp [ofEntries, same, Ne.symm same]

/-- Lists of one length with the same entries at all other positions than the listed ones. -/
def EntriesAgreeOff (vars : List Nat) (entries others : List Bool) : Prop :=
  others.length = entries.length ∧ ∀ v, v ∉ vars → others[v]? = entries[v]?

theorem EntriesAgreeOff.agreeOff {vars : List Nat} {entries others : List Bool}
    (agree : EntriesAgreeOff vars entries others) :
    AgreeOff vars (ofEntries entries) (ofEntries others) := by
  intro v outside
  simp [ofEntries, List.getD_eq_getElem?_getD, agree.2 v outside]

theorem AgreeOff.exists_entries {vars : List Nat} {entries : List Bool} {τ : Assignment}
    (agree : AgreeOff vars (ofEntries entries) τ) :
    ∃ others, EntriesAgreeOff vars entries others ∧
      ∀ v, v < entries.length → ofEntries others v = τ v := by
  refine ⟨(List.range entries.length).map τ, ⟨by simp, fun v outside => ?_⟩, fun v inside => ?_⟩
  · by_cases inside : v < entries.length
    · rw [getElem?_eq_ofEntries inside, agree v outside]
      simp [inside]
    · simp [inside]
  · exact ofEntries_of_getElem? (by simp [inside])

end Assignment

namespace Diagram

open Assignment

variable {d e : Diagram} {f g result : Handle} {operation : Operation} {entries : List Bool}
variable {σ : Assignment} {position v limit : Nat}

@[simp] theorem walk_const (d : Diagram) (position : Nat) (entries : List Bool) (value : Bool) :
    d.walk position entries (.const value) = .const value := by
  induction entries generalizing position with
  | nil => rfl
  | cons entry rest ih => simp [walk, ih]

/-- Entries that reach every variable a function looks at lead to its value. -/
theorem walk_eq_const (valid : d.Valid) (holds : d.Holds f) (first : d.From position f)
    (agree : ∀ (index : Nat) (value : Bool), entries[index]? = some value →
      σ (position + index) = value)
    (covers : ∀ v, ¬ Ignores (d.value · f) v → v < position + entries.length) :
    d.walk position entries f = .const (d.value σ f) := by
  induction entries generalizing f position with
  | nil =>
    cases f with
    | const value => simp
    | node index =>
      obtain ⟨n, found⟩ := exists_getElem? holds
      have inside := covers n.label (valid.not_ignores_root found)
      exact absurd (first n found) (Nat.not_le.mpr inside)
  | cons entry rest ih =>
    cases f with
    | const value => simp
    | node index =>
      obtain ⟨n, found⟩ := exists_getElem? holds
      have later : ∀ (index : Nat) (value : Bool), rest[index]? = some value →
          σ (position + 1 + index) = value := by
        intro index value located
        rw [Nat.add_assoc, Nat.add_comm 1]
        exact agree (index + 1) value (by simpa using located)
      have length : position + (entry :: rest).length = position + 1 + rest.length := by
        rw [List.length_cons]
        omega
      simp only [walk, node?_node, found]
      by_cases here : n.label = position
      · have children := valid.holds_children found
        have ordered := valid.ordered index n found
        have blind (v : Nat) := mt (valid.ignores_children (v := v) found)
        have decided : σ n.label = entry := here ▸ agree 0 entry (by simp)
        rw [if_pos here, valid.value_node found, decided]
        cases entry with
        | true =>
          refine ih children.2 (fun m located => here ▸ ordered.2 m located) later fun v looks => ?_
          exact length ▸ covers v (blind v fun both => looks both.2)
        | false =>
          refine ih children.1 (fun m located => here ▸ ordered.1 m located) later fun v looks => ?_
          exact length ▸ covers v (blind v fun both => looks both.1)
      · rw [if_neg here]
        refine ih holds (fun m located => ?_) later fun v looks => length ▸ covers v looks
        exact Nat.lt_of_le_of_ne (first m located)
          (Option.some.inj (found.symm.trans located) ▸ Ne.symm here)

theorem evaluate_eq_value (valid : d.Valid) (holds : d.Holds f)
    (covers : ∀ v, ¬ Ignores (d.value · f) v → v < entries.length) :
    d.evaluate f entries = some (d.value (ofEntries entries) f) := by
  have walked : d.walk 0 entries f = .const (d.value (ofEntries entries) f) := by
    apply walk_eq_const valid holds (fun _ _ => Nat.zero_le _)
    · intro index value found
      rw [Nat.zero_add]
      exact ofEntries_of_getElem? found
    · intro v looks
      rw [Nat.zero_add]
      exact covers v looks
  rw [evaluate, walked]
  rfl

/-- The entries reach every label of the table. -/
def Covers (d : Diagram) (entries : List Bool) : Prop :=
  ∀ n ∈ d.nodes, n.label < entries.length

instance (d : Diagram) (entries : List Bool) : Decidable (d.Covers entries) :=
  inferInstanceAs (Decidable (∀ n ∈ d.nodes, n.label < entries.length))

theorem Covers.of_length_eq {others : List Bool} (covers : d.Covers entries)
    (length : others.length = entries.length) : d.Covers others :=
  fun n member => length ▸ covers n member

theorem Covers.ignores (covers : d.Covers entries) (valid : d.Valid) (holds : d.Holds f)
    (behind : entries.length ≤ v) : Ignores (d.value · f) v := by
  refine Classical.byContradiction fun looks => ?_
  obtain ⟨n, decision, rfl⟩ :=
    mem_support_iff_decision.mp ((mem_support_iff valid holds).mpr looks)
  obtain ⟨index, found, _⟩ := mem_decisions_iff.mp decision
  exact absurd (covers n (Array.mem_of_getElem? found)) (Nat.not_lt.mpr behind)

theorem Covers.evaluate (covers : d.Covers entries) (valid : d.Valid) (holds : d.Holds f) :
    d.evaluate f entries = some (d.value (ofEntries entries) f) :=
  evaluate_eq_value valid holds fun _ looks =>
    Nat.lt_of_not_le fun behind => looks (covers.ignores valid holds behind)

/-- Fixing an entry fixes the variable, if the function looks at it at all. -/
theorem Covers.evaluate_set (covers : d.Covers entries) (valid : d.Valid) (holds : d.Holds f)
    (v : Nat) (value : Bool) :
    d.evaluate f (entries.set v value) = some (d.value ((ofEntries entries).set v value) f) := by
  rw [(covers.of_length_eq List.length_set).evaluate valid holds]
  by_cases inside : v < entries.length
  · rw [ofEntries_set inside]
  · have behind := Nat.le_of_not_lt inside
    have ignored : d.value ((ofEntries entries).set v value) f = d.value (ofEntries entries) f :=
      covers.ignores valid holds behind _ value
    rw [ignored, List.set_eq_of_length_le behind]

theorem Covers.exists_entries_iff (covers : d.Covers entries) (valid : d.Valid)
    (holds : d.Holds f) (vars : List Nat) (value : Bool) :
    (∃ others, EntriesAgreeOff vars entries others ∧ d.evaluate f others = some value) ↔
      ∃ τ, (ofEntries entries).AgreeOff vars τ ∧ d.value τ f = value := by
  have same {others : List Bool} (agree : EntriesAgreeOff vars entries others) :
      d.evaluate f others = some (d.value (ofEntries others) f) :=
    (covers.of_length_eq agree.1).evaluate valid holds
  constructor
  · rintro ⟨others, agree, reached⟩
    exact ⟨ofEntries others, agree.agreeOff, Option.some.inj ((same agree).symm.trans reached)⟩
  · rintro ⟨τ, agree, reached⟩
    obtain ⟨others, agreeEntries, entry⟩ := agree.exists_entries
    refine ⟨others, agreeEntries, ?_⟩
    have equal : d.value (ofEntries others) f = d.value τ f := by
      refine readsOnly_support valid holds _ _ fun v member => entry v ?_
      refine Nat.lt_of_not_le fun behind => ?_
      exact (mem_support_iff valid holds).mp member (covers.ignores valid holds behind)
    rw [same agreeEntries, equal, reached]

theorem Grows.walk_eq (grows : d.Grows e) (valid : d.Valid) (holds : d.Holds f) :
    e.walk position entries f = d.walk position entries f := by
  induction entries generalizing f position with
  | nil => rfl
  | cons entry rest ih =>
    rw [walk, walk, grows.node?_eq holds]
    cases f with
    | const value => exact ih (holds_const d value)
    | node index =>
      obtain ⟨n, found⟩ := exists_getElem? holds
      have children := valid.holds_children found
      simp only [node?_node, found]
      apply ih
      split
      · cases entry with
        | true => exact children.2
        | false => exact children.1
      · exact holds

theorem Grows.evaluate_eq (grows : d.Grows e) (valid : d.Valid) (holds : d.Holds f) :
    e.evaluate f entries = d.evaluate f entries := by
  rw [evaluate, evaluate, grows.walk_eq valid holds]

/-- The old table is the beginning of the new one. -/
theorem Grows.nodes_isPrefix (grows : d.Grows e) : d.nodes.toList <+: e.nodes.toList := by
  rw [List.prefix_iff_getElem?]
  intro index inside
  have found : d.nodes[index]? = some d.nodes.toList[index] := by
    rw [← Array.getElem?_toList]
    exact List.getElem?_eq_getElem inside
  rw [Array.getElem?_toList]
  exact grows.kept index _ found

namespace Operation

def labels : Operation → List Nat
  | ofVariable literal => [literal.toNat]
  | terminal label => [label]
  | _ => []

/-- What evaluation should say of the function that the operation makes, given what it says of
the operands. -/
def Promises (d : Diagram) (entries : List Bool) : Operation → Option Bool → Prop
  | ofVariable literal, result => result = entries[literal.toNat]?
  | terminal label, result => result = entries[label]?
  | not f, result => ∃ a, d.evaluate f entries = some a ∧ result = some !a
  | and f g, result => ∃ a b, d.evaluate f entries = some a ∧ d.evaluate g entries = some b ∧
      result = some (a && b)
  | or f g, result => ∃ a b, d.evaluate f entries = some a ∧ d.evaluate g entries = some b ∧
      result = some (a || b)
  | select test yes no, result => ∃ a b, d.evaluate test entries = some a ∧
      d.evaluate (if a then yes else no) entries = some b ∧ result = some b
  | restrict f literal, result => ∃ a,
      d.evaluate f (entries.set literal.natAbs (0 < literal)) = some a ∧ result = some a
  | abstract .ex literals f, result => ∃ a, result = some a ∧
      (a = true ↔ ∃ others, EntriesAgreeOff (literals.map Int.natAbs) entries others ∧
        d.evaluate f others = some true)
  | abstract .all literals f, result => ∃ a, result = some a ∧
      (a = true ↔ ∀ others, EntriesAgreeOff (literals.map Int.natAbs) entries others →
        d.evaluate f others = some true)

theorem ignores_meaning (ignored : ∀ f ∈ operation.operands, Ignores (d.value · f) v)
    (apart : v ∉ operation.labels) : Ignores (operation.meaning d) v := by
  intro σ value
  cases operation with
  | ofVariable literal =>
    have different : literal.toNat ≠ v := fun same => apart (by simp [labels, same])
    exact Assignment.set_other σ value different
  | terminal label =>
    have different : label ≠ v := fun same => apart (by simp [labels, same])
    exact Assignment.set_other σ value different
  | not f =>
    have ignoredF := ignored f (by simp [operands]) σ value
    simp only [meaning, ignoredF]
  | and f g =>
    have ignoredF := ignored f (by simp [operands]) σ value
    have ignoredG := ignored g (by simp [operands]) σ value
    simp only [meaning, ignoredF, ignoredG]
  | or f g =>
    have ignoredF := ignored f (by simp [operands]) σ value
    have ignoredG := ignored g (by simp [operands]) σ value
    simp only [meaning, ignoredF, ignoredG]
  | select test yes no =>
    have ignoredTest := ignored test (by simp [operands]) σ value
    have ignoredYes := ignored yes (by simp [operands]) σ value
    have ignoredNo := ignored no (by simp [operands]) σ value
    simp only [meaning, ignoredTest, ignoredYes, ignoredNo]
  | restrict f literal =>
    exact (ignored f (by simp [operands])).comp_set literal.natAbs _ σ value
  | abstract q literals f =>
    exact q.ignores_overVars (ignored f (by simp [operands])) _ σ value

/-- The promise is kept by a result with the meaning of the operation. -/
theorem promises_meaning (valid : d.Valid) (holds : d.HoldsAll operation.operands)
    (covers : d.Covers entries) (reached : ∀ label ∈ operation.labels, label < entries.length) :
    operation.Promises d entries (some (operation.meaning d (ofEntries entries))) := by
  simp only [HoldsAll] at holds
  cases operation with
  | ofVariable literal =>
    exact (getElem?_eq_ofEntries (reached literal.toNat (by simp [labels]))).symm
  | terminal label => exact (getElem?_eq_ofEntries (reached label (by simp [labels]))).symm
  | not f =>
    have holdsF : d.Holds f := holds f (by simp [operands])
    exact ⟨_, covers.evaluate valid holdsF, rfl⟩
  | and f g =>
    obtain ⟨holdsF, holdsG⟩ : d.Holds f ∧ d.Holds g := by simpa [operands] using holds
    exact ⟨_, _, covers.evaluate valid holdsF, covers.evaluate valid holdsG, rfl⟩
  | or f g =>
    obtain ⟨holdsF, holdsG⟩ : d.Holds f ∧ d.Holds g := by simpa [operands] using holds
    exact ⟨_, _, covers.evaluate valid holdsF, covers.evaluate valid holdsG, rfl⟩
  | select test yes no =>
    obtain ⟨holdsTest, holdsYes, holdsNo⟩ : d.Holds test ∧ d.Holds yes ∧ d.Holds no := by
      simpa [operands] using holds
    refine ⟨_, _, covers.evaluate valid holdsTest, ?_, rfl⟩
    cases chosen : d.value (ofEntries entries) test with
    | true => simp [meaning, chosen, covers.evaluate valid holdsYes]
    | false => simp [meaning, chosen, covers.evaluate valid holdsNo]
  | restrict f literal =>
    have holdsF : d.Holds f := holds f (by simp [operands])
    exact ⟨_, covers.evaluate_set valid holdsF _ _, rfl⟩
  | abstract q literals f =>
    have holdsF : d.Holds f := holds f (by simp [operands])
    have changed := covers.exists_entries_iff valid holdsF (literals.map Int.natAbs)
    cases q with
    | ex =>
      refine ⟨_, rfl, ?_⟩
      rw [changed]
      exact Quantifier.overVars_ex_iff _ _ _
    | all =>
      refine ⟨_, rfl, ?_⟩
      refine (Quantifier.overVars_all_iff _ _ _).trans ⟨fun everywhere others agree => ?_,
        fun everywhere τ agree => ?_⟩
      · have evaluated := (covers.of_length_eq agree.1).evaluate valid holdsF
        rw [evaluated, everywhere _ agree.agreeOff]
      · refine Classical.byContradiction fun fails => ?_
        obtain ⟨others, agreeEntries, refuted⟩ :=
          (changed false).mpr ⟨τ, agree, Bool.eq_false_iff.mpr fails⟩
        simp [everywhere others agreeEntries] at refuted

end Operation

/-- Whatever was done to the diagram before, an operation that succeeds keeps its promise for
all entries that reach the labels in use, and every operation leaves the old nodes where they
are and the old functions as they are. -/
theorem perform_evaluates (reached : Reachable limit d) (holds : d.HoldsAll operation.operands) :
    (d.nodes.toList <+: (operation.perform d).2.nodes.toList ∧
      ∀ f, d.Holds f → (operation.perform d).2.Holds f ∧
        ∀ entries, (operation.perform d).2.evaluate f entries = d.evaluate f entries) ∧
    ∀ result, (operation.perform d).1 = .ok result → (operation.perform d).2.Holds result ∧
      ∀ entries, d.Covers entries → (∀ label ∈ operation.labels, label < entries.length) →
        operation.Promises d entries ((operation.perform d).2.evaluate result entries) := by
  obtain ⟨valid, _⟩ := reached.valid
  obtain ⟨validLater, grows⟩ := perform_spec valid holds
  refine ⟨⟨grows.nodes_isPrefix, fun f old => ⟨grows.holds old, fun entries =>
    grows.evaluate_eq valid old⟩⟩, fun result succeeded => ?_⟩
  obtain ⟨_, _, held, right⟩ := (ensures_perform valid holds).of_ok (Prod.ext succeeded rfl)
  refine ⟨held, fun entries covers inside => ?_⟩
  have same : ((operation.perform d).2.value · result) = operation.meaning d := funext right
  have evaluated : (operation.perform d).2.evaluate result entries =
      some (operation.meaning d (ofEntries entries)) := by
    rw [evaluate_eq_value validLater held, right]
    intro v looks
    refine Nat.lt_of_not_le fun behind => looks ?_
    rw [same]
    refine Operation.ignores_meaning (fun f member => ?_) fun member => ?_
    · exact covers.ignores valid (holds f member) behind
    · exact absurd (inside v member) (Nat.not_lt.mpr behind)
  rw [evaluated]
  exact Operation.promises_meaning valid holds covers inside

/-- Quantified variables may be listed in any order, more than once, negated, or for nothing. -/
theorem pair_perform_evaluates :
    let operation : Operation := .abstract .ex [2, 7, -2] (.node 2)
    (operation.perform pair).1 = .ok (.node 1) ∧
      operation.Promises pair [false, true, false]
        ((operation.perform pair).2.evaluate (.node 1) [false, true, false]) := by
  intro operation
  have succeeded : (operation.perform pair).1 = .ok (.node 1) := by decide +kernel
  have holds : pair.HoldsAll operation.operands := by decide +kernel
  have covers : pair.Covers [false, true, false] := by decide +kernel
  exact ⟨succeeded, ((perform_evaluates reachable_pair holds).2 _ succeeded).2 _ covers
    (by simp [operation, Operation.labels])⟩

end Diagram

end QuantCircuit
