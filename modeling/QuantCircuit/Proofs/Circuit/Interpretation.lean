import QuantCircuit.Proofs.Circuit.Gates
import QuantCircuit.Proofs.Quantification

/-! The interpretation of a well-formed circuit solves the equations of its gates, and
is their only solution. Functions of identifiers read variables of the circuit only. -/

namespace QuantCircuit

/-- A connective is the one a quantifier distributes over, or quantifies. -/
theorem Connective.eq_distributesOver_or_gate (connective : Connective) :
    ∃ q : Quantifier, connective = q.distributesOver ∨ connective = q.gate := by
  cases connective with
  | and => exact ⟨.all, .inl rfl⟩
  | or => exact ⟨.ex, .inl rfl⟩
  | all => exact ⟨.all, .inr rfl⟩
  | ex => exact ⟨.ex, .inr rfl⟩

theorem Connective.eq_dual_distributesOver {connective : Connective} {q : Quantifier}
    (plain : ¬ connective.isQuantifier = true) (other : connective ≠ q.distributesOver) :
    connective = q.dual.distributesOver := by
  cases q <;> cases connective <;> simp_all [Connective.isQuantifier, Connective.quantifier?,
    Quantifier.dual, Quantifier.distributesOver]

@[simp] theorem Quantifier.isQuantifier_gate (q : Quantifier) : q.gate.isQuantifier = true := by
  simp [Connective.isQuantifier]

@[simp] theorem Quantifier.isQuantifier_distributesOver (q : Quantifier) :
    q.distributesOver.isQuantifier = false := by
  cases q <;> rfl

namespace Interpretation

variable {id next count : Nat}

theorem literal_neg (functions : Interpretation) {l : Int} (nonzero : l ≠ 0) (σ : Assignment) :
    functions.literal (-l) σ = !functions.literal l σ := by
  by_cases below : l < 0
  · have positive : ¬ 0 < l := by omega
    simp [literal, below, positive]
  · have positive : 0 < l := by omega
    simp [literal, below, positive]

theorem literal_congr {functions others : Interpretation} {l : Literal}
    (same : functions l.natAbs = others l.natAbs) : functions.literal l = others.literal l := by
  funext σ
  simp [literal, same]

theorem extend_of_lt (functions : Interpretation) (gates : List Gate) (before : id < next) :
    functions.extend next gates id = functions id := by
  induction gates generalizing functions next with
  | nil => rfl
  | cons gate rest ih =>
    rw [extend, ih _ (by omega)]
    have different : id ≠ next := by omega
    simp [Interpretation.set, different]

theorem extend_of_le (functions : Interpretation) (gates : List Gate)
    (behind : next + gates.length ≤ id) : functions.extend next gates id = functions id := by
  induction gates generalizing functions next with
  | nil => rfl
  | cons gate rest ih =>
    rw [List.length_cons] at behind
    rw [extend, ih _ (by omega)]
    have different : id ≠ next := by omega
    simp [Interpretation.set, different]

theorem extend_take_of_lt (functions : Interpretation) (gates : List Gate)
    (before : id < next + count) :
    functions.extend next (gates.take count) id = functions.extend next gates id := by
  induction gates generalizing functions next count with
  | nil => simp
  | cons gate rest ih =>
    cases count with
    | zero =>
      have early : id < next := before
      rw [extend_of_lt _ _ early, extend_of_lt _ _ early]
    | succ count => exact ih _ (by omega)

theorem extend_getElem? (functions : Interpretation) (next : Nat) {gates : List Gate}
    {position : Nat} (found : gates[position]? = some gate) :
    functions.extend next gates (next + position) =
      gate.meaning (functions.extend next (gates.take position)) := by
  induction gates generalizing functions next position with
  | nil => simp at found
  | cons first rest ih =>
    cases position with
    | zero =>
      have same : first = gate := by simpa using found
      subst first
      rw [Nat.add_zero, extend, extend_of_lt _ _ (Nat.lt_add_one next)]
      simp [Interpretation.set, extend]
    | succ position =>
      have later := ih (functions.set next (first.meaning functions)) (next + 1)
        (by simpa using found)
      rw [extend, show next + (position + 1) = next + 1 + position by omega, later]
      rfl

end Interpretation

namespace Gate

variable {gate : Gate} {q : Quantifier}

/-- A conjunction or disjunction is settled iff one of its inputs settles it. -/
theorem meaning_eq_decisive (functions : Interpretation)
    (kind : gate.connective = q.distributesOver) (σ : Assignment) :
    gate.meaning functions σ = q.decisive ↔
      ∃ l ∈ gate.inputs, functions.literal l σ = q.decisive := by
  cases q <;> simp [Gate.meaning, kind, Quantifier.distributesOver, Quantifier.decisive]

theorem meaning_quantifier (functions : Interpretation) (kind : gate.connective = q.gate) :
    gate.meaning functions =
      q.overVars (functions.literal gate.body) (gate.bound.map Int.natAbs) := by
  funext σ
  cases q <;> simp [Gate.meaning, kind, Quantifier.gate]

theorem firstInput_eq (some : gate.inputs ≠ []) : gate.firstInput = .ok gate.body := by
  obtain ⟨l, rest, inputs⟩ := List.exists_cons_of_ne_nil some
  simp [firstInput, body, inputs]

theorem inputs_eq_body (kind : gate.connective = q.gate)
    (arity : gate.connective.isQuantifier → gate.inputs.length = 1) :
    gate.inputs = [gate.body] := by
  obtain ⟨l, only⟩ := List.length_eq_one_iff.mp (arity (by simp [kind]))
  simp [Gate.body, only]

theorem eq_quantify (kind : gate.connective = q.gate)
    (arity : gate.connective.isQuantifier → gate.inputs.length = 1) :
    gate = quantify q gate.bound gate.body := by
  have only := inputs_eq_body kind arity
  cases gate with
  | mk connective inputs bound =>
    have same : connective = q.gate := kind
    have single : inputs = [_] := only
    rw [same, single]
    rfl

theorem meaning_congr {functions others : Interpretation}
    (arity : gate.connective.isQuantifier → gate.inputs.length = 1)
    (same : ∀ l ∈ gate.inputs, functions.literal l = others.literal l) :
    gate.meaning functions = gate.meaning others := by
  obtain ⟨q, kind | kind⟩ := gate.connective.eq_distributesOver_or_gate
  · funext σ
    apply eq_of_eq_decisive
    rw [meaning_eq_decisive functions kind, meaning_eq_decisive others kind]
    constructor
    · rintro ⟨l, member, settled⟩
      exact ⟨l, member, same l member ▸ settled⟩
    · rintro ⟨l, member, settled⟩
      exact ⟨l, member, (same l member).symm ▸ settled⟩
  · have body := same gate.body (by simp [inputs_eq_body kind arity])
    rw [meaning_quantifier functions kind, meaning_quantifier others kind, body]

theorem readsOnly_meaning {functions : Interpretation} {relevant : Nat → Prop}
    (arity : gate.connective.isQuantifier → gate.inputs.length = 1)
    (inputs : ∀ l ∈ gate.inputs, ReadsOnly (functions.literal l) relevant) :
    ReadsOnly (gate.meaning functions) relevant := by
  obtain ⟨q, kind | kind⟩ := gate.connective.eq_distributesOver_or_gate
  · intro σ τ agree
    apply eq_of_eq_decisive
    rw [meaning_eq_decisive functions kind, meaning_eq_decisive functions kind]
    constructor
    · rintro ⟨l, member, settled⟩
      exact ⟨l, member, inputs l member σ τ agree ▸ settled⟩
    · rintro ⟨l, member, settled⟩
      exact ⟨l, member, (inputs l member σ τ agree).symm ▸ settled⟩
  · have body := inputs gate.body (by simp [inputs_eq_body kind arity])
    rw [meaning_quantifier functions kind]
    exact (q.readsOnly_overVars body _).mono fun v facts => facts.1

end Gate

namespace Circuit

variable {c : Circuit} {id : Nat}

theorem interpretation_variable (missing : c.gate? id = none) :
    c.interpretation id = fun σ => σ id := by
  rcases gate?_eq_none_iff.mp missing with below | beyond
  · exact Interpretation.extend_of_lt _ _ below
  · exact Interpretation.extend_of_le _ _ (by simpa [maxGate] using beyond)

/-- A gate denotes what its connective makes of what its inputs denote. -/
theorem interpretation_gate (valid : c.WellFormed) (found : c.gate? id = some gate) :
    c.interpretation id = gate.meaning c.interpretation := by
  obtain ⟨notBelow, located⟩ := gate?_eq_some_iff.mp found
  have position : c.maxVar + (id - c.maxVar) = id := by omega
  have listed : c.gates.toList[id - c.maxVar]? = some gate := by simpa using located
  have extended := Interpretation.extend_getElem? (fun v σ => σ v) c.maxVar listed
  rw [position] at extended
  rw [interpretation, extended]
  apply Gate.meaning_congr (valid.one_input id gate found)
  intro l member
  have earlier := (valid.inputs_lt id gate found l member).2
  exact Interpretation.literal_congr (Interpretation.extend_take_of_lt _ _ (by omega))

/-- The equations of the gates have one solution. -/
theorem interpretation_unique (valid : c.WellFormed) {functions : Interpretation} {limit : Nat}
    (leaves : ∀ id, c.gate? id = none → id < limit → functions id = c.interpretation id)
    (gates : ∀ id gate, c.gate? id = some gate → id < limit →
      functions id = gate.meaning functions) :
    ∀ id, id < limit → functions id = c.interpretation id := by
  intro id
  induction id using Nat.strongRecOn with
  | _ id ih =>
    intro inside
    cases found : c.gate? id with
    | none => exact leaves id found inside
    | some gate =>
      rw [gates id gate found inside, interpretation_gate valid found]
      apply Gate.meaning_congr (valid.one_input id gate found)
      intro l member
      have earlier := (valid.inputs_lt id gate found l member).2
      exact Interpretation.literal_congr (ih l.natAbs earlier (Nat.lt_trans earlier inside))

theorem meaning_neg (c : Circuit) {l : Int} (nonzero : l ≠ 0) (σ : Assignment) :
    c.meaning (-l) σ = !c.meaning l σ :=
  Interpretation.literal_neg _ nonzero σ

@[simp] theorem meaning_natCast (c : Circuit) (id : Nat) :
    c.meaning (id : Int) = c.interpretation id := by
  funext σ
  have notNegative : ¬ ((id : Int) < 0) := by omega
  simp [meaning, Interpretation.literal, notNegative]

theorem readsOnly_interpretation (valid : c.WellFormed) (positive : 0 < id)
    (below : id < c.maxGate) :
    ReadsOnly (c.interpretation id) fun v => 0 < v ∧ v < c.maxVar := by
  induction id using Nat.strongRecOn with
  | _ id ih =>
    cases found : c.gate? id with
    | none =>
      have small := lt_maxVar_of_gate?_eq_none found below
      intro σ τ agree
      rw [interpretation_variable found]
      exact agree id ⟨positive, small⟩
    | some gate =>
      rw [interpretation_gate valid found]
      apply Gate.readsOnly_meaning (valid.one_input id gate found)
      intro l member σ τ agree
      obtain ⟨nonzero, earlier⟩ := valid.inputs_lt id gate found l member
      have same := ih l.natAbs earlier (Int.natAbs_pos.mpr nonzero)
        (Nat.lt_trans earlier below) σ τ agree
      simp [Interpretation.literal, same]

theorem readsOnly_meaning (valid : c.WellFormed) (defined : c.Defines l) :
    ReadsOnly (c.meaning l) fun v => 0 < v ∧ v < c.maxVar := by
  intro σ τ agree
  have same := readsOnly_interpretation valid (Int.natAbs_pos.mpr defined.1) defined.2 σ τ agree
  simp [meaning, Interpretation.literal, same]

/-- Gates behind the ones a circuit has do not change what these denote. -/
theorem interpretation_of_more_gates {more : Circuit} (valid : c.WellFormed)
    (validMore : more.WellFormed) (leaves : more.maxVar = c.maxVar)
    (kept : ∀ id gate, c.gate? id = some gate → more.gate? id = some gate)
    (below : id < c.maxGate) : more.interpretation id = c.interpretation id := by
  refine interpretation_unique valid ?_ ?_ id below
  · intro id missing inside
    have small := lt_maxVar_of_gate?_eq_none missing inside
    rw [interpretation_variable missing,
      interpretation_variable (gate?_eq_none_of_lt (by omega))]
  · intro id gate found _
    exact interpretation_gate validMore (kept id gate found)

end Circuit

end QuantCircuit
