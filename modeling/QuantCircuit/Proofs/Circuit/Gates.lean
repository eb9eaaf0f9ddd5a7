import QuantCircuit.Circuit.WellFormed

namespace QuantCircuit.Circuit

variable {c : Circuit} {id : Nat}

/-- The literal is a variable or a gate of the circuit, perhaps negated. -/
def Defines (c : Circuit) (l : Literal) : Prop :=
  l ≠ 0 ∧ l.natAbs < c.maxGate

theorem defines_natCast (positive : 0 < id) (below : id < c.maxGate) : c.Defines (id : Int) :=
  ⟨Int.natCast_ne_zero.mpr (Nat.ne_of_gt positive), by rwa [Int.natAbs_natCast]⟩

theorem gate?_eq_none_of_lt (below : id < c.maxVar) : c.gate? id = none := by
  simp [gate?, below]

theorem gate?_eq_some_iff :
    c.gate? id = some gate ↔ c.maxVar ≤ id ∧ c.gates[id - c.maxVar]? = some gate := by
  unfold gate?
  split
  · rename_i below
    simp
    omega
  · rename_i notBelow
    simp only [Nat.not_lt] at notBelow
    simp [notBelow]

theorem gate?_of_located {position : Nat} (located : c.gates[position]? = some gate) :
    c.gate? (c.maxVar + position) = some gate :=
  gate?_eq_some_iff.mpr ⟨Nat.le_add_right .., by rwa [Nat.add_sub_cancel_left]⟩

theorem gateOf?_eq_some_iff {l : Literal} :
    c.gateOf? l = some gate ↔ 0 ≤ l ∧ c.gate? l.natAbs = some gate := by
  unfold gateOf?
  split
  · rename_i negative
    simp [Int.not_le.mpr negative]
  · rename_i notNegative
    simp [Int.not_lt.mp notNegative]

theorem lt_maxGate_of_gate? (found : c.gate? id = some gate) : id < c.maxGate := by
  obtain ⟨notBelow, located⟩ := gate?_eq_some_iff.mp found
  have bound := (Array.getElem?_eq_some_iff.mp located).1
  unfold maxGate
  omega

theorem lt_size_of_gate? {position : Nat} (found : c.gate? (c.maxVar + position) = some gate) :
    position < c.gates.size := by
  have below := lt_maxGate_of_gate? found
  unfold maxGate at below
  omega

theorem maxVar_le_of_gate? (found : c.gate? id = some gate) : c.maxVar ≤ id :=
  (gate?_eq_some_iff.mp found).1

theorem gate?_of_lt_maxGate (notBelow : c.maxVar ≤ id) (below : id < c.maxGate) :
    ∃ gate, c.gate? id = some gate := by
  have bound : id - c.maxVar < c.gates.size := by
    unfold maxGate at below
    omega
  exact ⟨c.gates[id - c.maxVar], gate?_eq_some_iff.mpr ⟨notBelow, by simp [bound]⟩⟩

theorem gate?_eq_none_iff : c.gate? id = none ↔ id < c.maxVar ∨ c.maxGate ≤ id := by
  constructor
  · intro missing
    by_cases below : id < c.maxVar
    · exact .inl below
    · refine .inr (Nat.le_of_not_lt fun inside => ?_)
      obtain ⟨gate, found⟩ := gate?_of_lt_maxGate (Nat.le_of_not_lt below) inside
      simp [missing] at found
  · intro outside
    cases found : c.gate? id with
    | none => rfl
    | some gate =>
      have lower := maxVar_le_of_gate? found
      have upper := lt_maxGate_of_gate? found
      omega

/-- An identifier in use that no gate defines is a variable. -/
theorem lt_maxVar_of_gate?_eq_none (missing : c.gate? id = none) (below : id < c.maxGate) :
    id < c.maxVar :=
  (gate?_eq_none_iff.mp missing).resolve_right (Nat.not_le_of_lt below)

theorem checkLiteral_eq_ok {l : Literal} {max : Nat} {arithmetic : Arithmetic} (nonzero : l ≠ 0)
    (below : l.natAbs < max) : checkLiteral l max arithmetic = .ok () := by
  unfold checkLiteral
  exact if_pos ⟨nonzero, below⟩

theorem getGate_eq (found : c.gateOf? l = some gate) : c.getGate l = .ok gate := by
  rw [getGate, found]

theorem isGate_iff {l : Literal} : c.isGate l = true ↔ ∃ gate, c.gate? l.natAbs = some gate := by
  simp only [isGate, Bool.and_eq_true, decide_eq_true_eq]
  constructor
  · rintro ⟨notBelow, below⟩
    exact gate?_of_lt_maxGate notBelow below
  · rintro ⟨gate, found⟩
    exact ⟨maxVar_le_of_gate? found, lt_maxGate_of_gate? found⟩

theorem of_output (output : c.output = .ok l) : c.output? = some l := by
  unfold Circuit.output at output
  split at output
  · exact (Except.ok.inj output) ▸ ‹_›
  · exact nomatch output

theorem boundVariable_eq {v : Literal} {maxVar : Nat} {arithmetic : Arithmetic} (positive : 0 < v)
    (below : v.natAbs < maxVar) : boundVariable v maxVar arithmetic = .ok v.natAbs := by
  have notNegative : ¬ v < 0 := Int.not_lt.mpr (Int.le_of_lt positive)
  rw [boundVariable, checkLiteral_eq_ok (Int.ne_of_gt positive) below]
  simp only [notNegative, if_false]
  rfl

theorem mapM_boundVariable {bound : List Literal} {maxVar : Nat} {arithmetic : Arithmetic}
    (inside : ∀ v ∈ bound, 0 < v ∧ v.natAbs < maxVar) :
    bound.mapM (boundVariable · maxVar arithmetic) = .ok (bound.map Int.natAbs) := by
  induction bound with
  | nil => rfl
  | cons v rest ih =>
    obtain ⟨positive, below⟩ := inside v (by simp)
    rw [List.mapM_cons, boundVariable_eq positive below,
      ih fun other member => inside other (by simp [member])]
    rfl

theorem boundVariables_eq {gate : Gate} (positive : ∀ v ∈ gate.bound, 0 < v) :
    gate.boundVariables = .ok (gate.bound.map Int.natAbs) := by
  have none : gate.bound.find? (· < 0) = none := by
    rw [List.find?_eq_none]
    intro v member
    have notNegative : ¬ v < 0 := Int.not_lt.mpr (Int.le_of_lt (positive v member))
    simp [notNegative]
  rw [Gate.boundVariables, none]

/-- The same conditions, each of them over finitely many entries. -/
theorem wellFormed_iff (c : Circuit) : c.WellFormed ↔
    0 < c.maxVar ∧
    (∀ id < c.maxGate, ∀ gate ∈ c.gate? id,
      (∀ l ∈ gate.inputs, l ≠ 0 ∧ l.natAbs < id) ∧
      (∀ v ∈ gate.bound, 0 < v ∧ v.natAbs < c.maxVar) ∧
      (gate.connective.isQuantifier → gate.inputs.length = 1)) ∧
    (∀ l ∈ c.output?, l ≠ 0 ∧ l.natAbs < c.maxGate) ∧
    (∀ block ∈ c.blocks, block.vars ≠ [] ∧ ∀ v ∈ block.vars, 0 < v ∧ v < c.maxVar) ∧
    (c.blocks.flatMap (·.vars)).Nodup ∧
    c.origin.size = c.maxGate ∧
    (∀ entry ∈ c.origin.toList.tail, 0 < entry ∧ entry < c.names.size) ∧
    c.origin.toList.tail.Nodup := by
  constructor
  · intro valid
    exact ⟨valid.maxVar_pos, fun id _ gate found => ⟨valid.inputs_lt id gate found,
      valid.bound_lt id gate found, valid.one_input id gate found⟩, valid.output_lt,
      fun block member => ⟨valid.block_nonempty block member, valid.block_lt block member⟩,
      valid.block_nodup, valid.origin_size, valid.origin_lt, valid.origin_nodup⟩
  · rintro ⟨positive, gates, output, blocks, distinct, size, bounded, injective⟩
    have checked {id : Nat} {gate : Gate} (found : c.gate? id = some gate) :=
      gates id (lt_maxGate_of_gate? found) gate found
    exact {
      maxVar_pos := positive
      inputs_lt := fun _ _ found => (checked found).1
      bound_lt := fun _ _ found => (checked found).2.1
      one_input := fun _ _ found => (checked found).2.2
      output_lt := output
      block_nonempty := fun block member => (blocks block member).1
      block_lt := fun block member => (blocks block member).2
      block_nodup := distinct
      origin_size := size
      origin_lt := bounded
      origin_nodup := injective }

instance (c : Circuit) : Decidable c.WellFormed := decidable_of_iff' _ c.wellFormed_iff

theorem WellFormed.withOutput (valid : c.WellFormed) (defined : c.Defines l) :
    WellFormed { c with output? := some l } where
  maxVar_pos := valid.maxVar_pos
  inputs_lt := valid.inputs_lt
  bound_lt := valid.bound_lt
  one_input := valid.one_input
  output_lt := by
    intro other given
    exact Option.some.inj given ▸ defined
  block_nonempty := valid.block_nonempty
  block_lt := valid.block_lt
  block_nodup := valid.block_nodup
  origin_size := valid.origin_size
  origin_lt := valid.origin_lt
  origin_nodup := valid.origin_nodup

theorem WellFormed.withBlocks (valid : c.WellFormed) {blocks : List Block}
    (nonempty : ∀ block ∈ blocks, block.vars ≠ [])
    (inside : ∀ block ∈ blocks, ∀ v ∈ block.vars, 0 < v ∧ v < c.maxVar)
    (distinct : (blocks.flatMap (·.vars)).Nodup) : WellFormed { c with blocks } where
  maxVar_pos := valid.maxVar_pos
  inputs_lt := valid.inputs_lt
  bound_lt := valid.bound_lt
  one_input := valid.one_input
  output_lt := valid.output_lt
  block_nonempty := nonempty
  block_lt := inside
  block_nodup := distinct
  origin_size := valid.origin_size
  origin_lt := valid.origin_lt
  origin_nodup := valid.origin_nodup

end QuantCircuit.Circuit
