import QuantCircuit.Circuit.Basic

/-! What every circuit satisfies that is built by the operations on circuits, as long
as no quantifier gate binds a negative literal. -/

namespace QuantCircuit.Circuit

structure WellFormed (c : Circuit) : Prop where
  maxVar_pos : 0 < c.maxVar
  /-- Gates read earlier identifiers. -/
  inputs_lt : ∀ id gate, c.gate? id = some gate → ∀ l ∈ gate.inputs, l ≠ 0 ∧ l.natAbs < id
  bound_lt : ∀ id gate, c.gate? id = some gate → ∀ v ∈ gate.bound, 0 < v ∧ v.natAbs < c.maxVar
  one_input : ∀ id gate, c.gate? id = some gate → gate.connective.isQuantifier →
    gate.inputs.length = 1
  output_lt : ∀ l, c.output? = some l → l ≠ 0 ∧ l.natAbs < c.maxGate
  block_nonempty : ∀ block ∈ c.blocks, block.vars ≠ []
  block_lt : ∀ block ∈ c.blocks, ∀ v ∈ block.vars, 0 < v ∧ v < c.maxVar
  /-- Blocks are disjoint and list no variable twice. -/
  block_nodup : (c.blocks.flatMap (·.vars)).Nodup
  origin_size : c.origin.size = c.maxGate
  origin_lt : ∀ entry ∈ c.origin.toList.tail, 0 < entry ∧ entry < c.names.size
  origin_nodup : c.origin.toList.tail.Nodup

theorem wellFormed_empty (name : String) : WellFormed { name } where
  maxVar_pos := Nat.one_pos
  inputs_lt := by
    intro id gate found
    simp [gate?] at found
  bound_lt := by
    intro id gate found
    simp [gate?] at found
  one_input := by
    intro id gate found
    simp [gate?] at found
  output_lt := by
    intro l found
    simp at found
  block_nonempty := by
    intro block member
    simp at member
  block_lt := by
    intro block member
    simp at member
  block_nodup := List.nodup_nil
  origin_size := rfl
  origin_lt := by
    intro entry member
    simp at member
  origin_nodup := List.nodup_nil

end QuantCircuit.Circuit
