import QuantCircuit.Circuit.Dependencies
import QuantCircuit.Proofs.Circuit.Polarity

namespace QuantCircuit

namespace Occurrences

/-- The variable occurs, through an odd or an even number of negations. -/
def contains (o : Occurrences) (odd : Bool) (v : Nat) : Bool :=
  if odd then o.negative.contains v else o.positive.contains v

@[simp] theorem contains_empty (odd : Bool) (v : Nat) : contains {} odd v = false := by
  simp [contains]

@[simp] theorem contains_swap (o : Occurrences) (odd : Bool) (v : Nat) :
    o.swap.contains odd v = o.contains (!odd) v := by
  cases odd <;> rfl

@[simp] theorem contains_union (o p : Occurrences) (odd : Bool) (v : Nat) :
    (o.union p).contains odd v = (o.contains odd v || p.contains odd v) := by
  cases odd <;> simp [contains, union]

@[simp] theorem contains_erase (o : Occurrences) (odd : Bool) (w v : Nat) :
    (o.erase w).contains odd v = (o.contains odd v && !decide (w = v)) := by
  cases odd <;> simp [contains, erase]

theorem contains_foldl_union (sets : List Occurrences) (o : Occurrences) (odd : Bool) (v : Nat) :
    (sets.foldl union o).contains odd v = true ↔
      o.contains odd v = true ∨ ∃ p ∈ sets, p.contains odd v = true := by
  induction sets generalizing o with
  | nil => simp
  | cons p rest ih => simp [ih, or_assoc]

theorem contains_foldl_erase (vars : List Nat) (o : Occurrences) (odd : Bool) (v : Nat) :
    (vars.foldl erase o).contains odd v = true ↔ o.contains odd v = true ∧ v ∉ vars := by
  induction vars generalizing o with
  | nil => simp
  | cons w rest ih =>
    simp only [List.foldl_cons, ih, contains_erase, Bool.and_eq_true, Bool.not_eq_true',
      decide_eq_false_iff_not, List.mem_cons, not_or, and_assoc]
    exact and_congr_right fun _ => and_congr_left fun _ => ne_comm

end Occurrences

namespace Dependencies

variable {c : Circuit} {d : Dependencies} {gate : Gate} {l : Literal} {id count : Nat}

/-- The analysis of the variables and the first few gates. -/
structure Analyses (c : Circuit) (d : Dependencies) (count : Nat) : Prop where
  maxVar_eq : d.maxVar = c.maxVar
  size_eq : d.occurrences.size = c.maxVar + count
  contains_iff : ∀ (id : Nat) (o : Occurrences), d.occurrences[id]? = some o →
    ∀ odd v, o.contains odd v = true ↔ c.Sees v odd (id : Int)

theorem Analyses.exists_below (analyses : Analyses c d count) (nonzero : l ≠ 0)
    (inside : l.natAbs < c.maxVar + count) :
    ∃ o, d.below? l = some o ∧ ∀ odd v, o.contains odd v = true ↔ c.Sees v odd l := by
  have bound : l.natAbs < d.occurrences.size := by rw [analyses.size_eq]; exact inside
  have located := Array.getElem?_eq_getElem bound
  refine ⟨_, by rw [below?, located]; rfl, fun odd v => ?_⟩
  rw [Circuit.sees_natAbs_iff, ← analyses.contains_iff _ _ located]
  by_cases negative : l < 0
  · have notPositive : ¬ 0 < l := Int.not_lt.mpr (Int.le_of_lt negative)
    simp [negative, notPositive]
  · have positive : 0 < l := Int.lt_iff_le_and_ne.mpr ⟨Int.not_lt.mp negative, Ne.symm nonzero⟩
    simp [negative, positive]

theorem Analyses.ofInput_eq (analyses : Analyses c d count) (nonzero : l ≠ 0)
    (inside : l.natAbs < c.maxVar + count) :
    ∃ o, (∀ arithmetic, d.ofInput l arithmetic = .ok o) ∧
      ∀ odd v, o.contains odd v = true ↔ c.Sees v odd l := by
  obtain ⟨o, found, sees⟩ := analyses.exists_below nonzero inside
  refine ⟨o, fun arithmetic => ?_, sees⟩
  rw [ofInput, Circuit.checkLiteral_eq_ok nonzero (by rwa [analyses.size_eq]), found]
  rfl

theorem Analyses.mapM_ofInput (analyses : Analyses c d count) {inputs : List Literal}
    (inside : ∀ l ∈ inputs, l ≠ 0 ∧ l.natAbs < c.maxVar + count) :
    ∃ sets, (∀ arithmetic, inputs.mapM (d.ofInput · arithmetic) = .ok sets) ∧ ∀ odd v,
      (∃ o ∈ sets, o.contains odd v = true) ↔ ∃ l ∈ inputs, c.Sees v odd l := by
  induction inputs with
  | nil => exact ⟨[], fun _ => rfl, by simp⟩
  | cons l rest ih =>
    obtain ⟨nonzero, below⟩ := inside l (by simp)
    obtain ⟨o, first, sees⟩ := analyses.ofInput_eq nonzero below
    obtain ⟨sets, others, see⟩ := ih fun other member => inside other (by simp [member])
    refine ⟨o :: sets, fun arithmetic => ?_, fun odd v => by simp [sees, see]⟩
    rw [List.mapM_cons, first, others]
    rfl

theorem Analyses.hiddenBy_eq (analyses : Analyses c d count) (valid : c.WellFormed)
    (found : c.gate? id = some gate) :
    ∃ bound, (∀ arithmetic, d.hiddenBy gate arithmetic = .ok bound) ∧
      ∀ v, v ∈ bound ↔ gate.Binds v := by
  by_cases kind : gate.connective.isQuantifier = true
  · refine ⟨gate.bound.map Int.natAbs, fun arithmetic => ?_, by simp [Gate.Binds, kind]⟩
    rw [hiddenBy, if_pos kind, analyses.maxVar_eq, Circuit.mapM_boundVariable
      (valid.bound_lt _ gate found)]
  · exact ⟨[], fun _ => by rw [hiddenBy, if_neg kind], by simp [Gate.Binds, kind]⟩

theorem Analyses.addGate (analyses : Analyses c d count) (valid : c.WellFormed)
    (found : c.gate? (c.maxVar + count) = some gate) :
    ∃ e, (∀ arithmetic, d.addGate gate arithmetic = .ok e) ∧ Analyses c e (count + 1) := by
  obtain ⟨sets, read, see⟩ := analyses.mapM_ofInput (valid.inputs_lt _ gate found)
  obtain ⟨bound, hidden, binds⟩ := analyses.hiddenBy_eq valid found
  have added (arithmetic : Arithmetic) : d.addGate gate arithmetic = .ok ⟨d.maxVar,
      d.occurrences.push (bound.foldl Occurrences.erase (sets.foldl Occurrences.union {}))⟩ := by
    unfold Dependencies.addGate
    rw [read, hidden]
    rfl
  refine ⟨_, added, analyses.maxVar_eq, by simp [analyses.size_eq, Nat.add_assoc], ?_⟩
  intro id o located odd v
  simp only [Array.getElem?_push] at located
  split at located
  · rename_i last
    obtain rfl := Option.some.inj located
    obtain rfl := last.trans analyses.size_eq
    rw [Circuit.sees_natCast_gate_iff found, Occurrences.contains_foldl_erase, binds,
      Occurrences.contains_foldl_union, ← see]
    simp only [Occurrences.contains_empty, Bool.false_eq_true, false_or, and_comm]
  · exact analyses.contains_iff id o located odd v

theorem analyses_variables (c : Circuit) :
    Analyses c ⟨c.maxVar, ((List.range c.maxVar).map ofVariable).toArray⟩ 0 := by
  refine ⟨rfl, by simp, fun id o located odd v => ?_⟩
  have located : (List.range c.maxVar)[id]?.map ofVariable = some o := by simpa using located
  obtain ⟨w, listed, rfl⟩ := Option.map_eq_some_iff.mp located
  obtain ⟨below, rfl⟩ := List.getElem?_eq_some_iff.mp listed
  rw [List.length_range] at below
  rw [List.getElem_range, Circuit.sees_natCast_variable_iff (Circuit.gate?_eq_none_of_lt below),
    ofVariable]
  by_cases zero : id = 0
  · simp [zero]
    omega
  · cases odd <;> simp [zero, Occurrences.contains]
    omega

theorem analyses_gates (valid : c.WellFormed) (before rest : List Gate)
    (listed : c.gates.toList = before ++ rest) (analyses : Analyses c d before.length) :
    ∃ e, (∀ arithmetic, rest.foldlM (addGate · · arithmetic) d = .ok e) ∧
      Analyses c e c.gates.size := by
  induction rest generalizing d before with
  | nil =>
    have size : c.gates.size = before.length := by
      rw [← Array.length_toList, listed, List.append_nil]
    exact ⟨d, fun _ => rfl, size ▸ analyses⟩
  | cons gate rest ih =>
    have located : c.gates.toList[before.length]? = some gate := by simp [listed]
    have found : c.gate? (c.maxVar + before.length) = some gate :=
      Circuit.gate?_of_located (by simpa using located)
    obtain ⟨e, added, next⟩ := analyses.addGate valid found
    obtain ⟨last, all, covers⟩ := ih (before ++ [gate]) (by simp [listed]) (by simpa using next)
    refine ⟨last, fun arithmetic => ?_, covers⟩
    rw [List.foldlM_cons, added]
    exact all arithmetic

theorem ofCircuit_any (valid : c.WellFormed) :
    ∃ d, (∀ arithmetic, ofCircuit c arithmetic = .ok d) ∧ Analyses c d c.gates.size := by
  have started := analyses_variables c
  obtain ⟨d, computed, analyses⟩ :=
    analyses_gates valid [] c.gates.toList rfl started
  refine ⟨d, fun arithmetic => ?_, analyses⟩
  rw [ofCircuit, ← Array.foldlM_toList]
  exact computed arithmetic

/-- The analysis of a well-formed circuit succeeds and covers all its identifiers. -/
theorem ofCircuit_spec (valid : c.WellFormed) :
    ∃ d, ofCircuit c = .ok d ∧ Analyses c d c.gates.size := by
  obtain ⟨d, computed, analyses⟩ := ofCircuit_any valid
  exact ⟨d, computed .checked, analyses⟩

theorem ofCircuit_eq (valid : c.WellFormed) (analysed : ofCircuit c = .ok d)
    (arithmetic : Arithmetic) : ofCircuit c arithmetic = .ok d := by
  obtain ⟨e, computed, _⟩ := ofCircuit_any valid
  obtain rfl := Except.ok.inj (analysed.symm.trans (computed .checked))
  exact computed arithmetic

/-- The polarity of a variable tells through which numbers of negations it is seen. -/
theorem Analyses.polarity_iff (analyses : Analyses c d count) (nonzero : l ≠ 0)
    (inside : l.natAbs < c.maxVar + count) (v : Nat) :
    ((d.polarity l (v : Int)).1 = true ↔ c.Sees v false l) ∧
      ((d.polarity l (v : Int)).2 = true ↔ c.Sees v true l) := by
  obtain ⟨o, found, sees⟩ := analyses.exists_below nonzero inside
  simp only [polarity, found, if_neg (Int.not_ofNat_neg v), ← sees]
  exact ⟨Iff.rfl, Iff.rfl⟩

theorem Analyses.depends_iff (analyses : Analyses c d count) (nonzero : l ≠ 0)
    (inside : l.natAbs < c.maxVar + count) (v : Nat) :
    d.depends l (v : Int) = true ↔ c.Occurs v l.natAbs := by
  obtain ⟨even, odd⟩ := analyses.polarity_iff nonzero inside v
  rw [depends, Bool.or_eq_true, even, odd, Circuit.occurs_iff_sees]

theorem Analyses.supportSize_eq (analyses : Analyses c d count) (nonzero : l ≠ 0)
    (inside : l.natAbs < c.maxVar + count) :
    d.supportSize l =
      (List.range' 1 (c.maxVar - 1)).countP fun v : Nat => d.depends l (v : Int) := by
  obtain ⟨o, found, sees⟩ := analyses.exists_below nonzero inside
  have depends_eq (v : Nat) : d.depends l (v : Int) = (o.positive.union o.negative).contains v := by
    simp only [depends, polarity, found, if_neg (Int.not_ofNat_neg v),
      VariableSet.contains_union]
    rfl
  have zero : (o.positive.union o.negative).contains 0 = false := by
    rw [← depends_eq, ← Bool.not_eq_true, analyses.depends_iff nonzero inside]
    exact fun occurs => Nat.lt_irrefl 0 occurs.pos
  simp only [supportSize, found, VariableSet.elements, depends_eq, analyses.maxVar_eq,
    ← List.countP_eq_length_filter]
  -- the set may hold no zero, which is no variable
  cases c.maxVar with
  | zero => rfl
  | succ below =>
    rw [List.range_eq_range', List.range'_succ, List.countP_cons_of_neg (by simp [zero])]
    rfl

/-- The analysis is exact about the gates: a variable occurs positively below a literal iff
some path from the literal to it crosses an even number of negations, and negatively iff some
path crosses an odd number. It is sound about the values: what occurs in one way only moves
the literal in one direction, and what does not occur does not move it. -/
theorem ofCircuit_exact (valid : c.WellFormed) :
    ∃ d, ofCircuit c = .ok d ∧ ∀ l, c.Defines l →
      (∀ x : Nat,
        ((d.polarity l (x : Int)).1 = true ↔
          ∃ path, c.Path x l path ∧ Even (path.countP (· < 0))) ∧
        ((d.polarity l (x : Int)).2 = true ↔
          ∃ path, c.Path x l path ∧ Odd (path.countP (· < 0))) ∧
        ((d.polarity l (x : Int)).2 = false → Increasing (c.meaning l) x) ∧
        ((d.polarity l (x : Int)).1 = false → Decreasing (c.meaning l) x) ∧
        (d.depends l (x : Int) = false → Ignores (c.meaning l) x)) ∧
      d.supportSize l =
        (List.range' 1 (c.maxVar - 1)).countP fun x : Nat => d.depends l (x : Int) := by
  obtain ⟨d, computed, analyses⟩ := ofCircuit_spec valid
  refine ⟨d, computed, fun l defined => ⟨fun x => ?_, ?_⟩⟩
  · obtain ⟨even, odd⟩ := analyses.polarity_iff defined.1 defined.2 x
    refine ⟨even.trans Circuit.sees_false_iff, odd.trans Circuit.sees_true_iff, ?_, ?_, ?_⟩
    · intro absent
      rw [← Bool.not_eq_true, odd] at absent
      exact increasing_iff_prefers.mpr (Circuit.prefers_meaning valid defined absent)
    · intro absent
      rw [← Bool.not_eq_true, even] at absent
      exact decreasing_iff_prefers.mpr (Circuit.prefers_meaning valid defined absent)
    · intro absent
      rw [← Bool.not_eq_true, analyses.depends_iff defined.1 defined.2] at absent
      exact Circuit.ignores_meaning valid defined absent
  · exact analyses.supportSize_eq defined.1 defined.2

/-- A circuit in which one gate is shared by two paths of different signs, below and above a
gate that binds a variable of it. -/
def sharing : Circuit where
  name := "sharing"
  maxVar := 4
  gates := #[{ connective := .or, inputs := [1, -2, 3] }, .quantify .all [3] (-4),
    { connective := .and, inputs := [5, 3, -4] }]
  output? := some 6
  names := #["", "1", "2", "3", "4", "5", "6"]
  origin := #[0, 1, 2, 3, 4, 5, 6]

theorem sharing_ofCircuit_exact :
    ∃ d, ofCircuit sharing = .ok d ∧ d.polarity 6 2 = (true, false) ∧
      d.polarity (-6) 2 = (false, true) ∧ d.polarity 6 3 = (true, true) ∧
      d.depends 5 3 = false ∧ d.supportSize 5 = 2 ∧ Increasing (sharing.meaning 6) 2 ∧
      Decreasing (sharing.meaning (-6)) 2 ∧ Ignores (sharing.meaning 5) 3 := by
  obtain ⟨d, computed, exactly⟩ := ofCircuit_exact (by decide : sharing.WellFormed)
  have analysis : ofCircuit sharing = .ok ⟨4, #[{}, ⟨⟨2⟩, {}⟩, ⟨⟨4⟩, {}⟩, ⟨⟨8⟩, {}⟩,
    ⟨⟨10⟩, ⟨4⟩⟩, ⟨⟨4⟩, ⟨2⟩⟩, ⟨⟨12⟩, ⟨10⟩⟩]⟩ := by rfl
  obtain rfl := Except.ok.inj (computed.symm.trans analysis)
  obtain ⟨_, _, increasing, _⟩ := (exactly 6 ⟨by decide, by decide⟩).1 2
  obtain ⟨_, _, _, decreasing, _⟩ := (exactly (-6) ⟨by decide, by decide⟩).1 2
  obtain ⟨_, _, _, _, ignores⟩ := (exactly 5 ⟨by decide, by decide⟩).1 3
  exact ⟨_, analysis, by decide, by decide, by decide, by decide, by decide,
    increasing (by decide), decreasing (by decide), ignores (by decide)⟩

end Dependencies

end QuantCircuit
