import QuantCircuit.Proofs.Circuit.Reordering
import QuantCircuit.Proofs.Qcir.Writing

/-! The order in which a text mentions the identifiers of a circuit first. The variables in no
block come before the others, and all variables before the gates. -/

namespace QuantCircuit.Qcir

open Circuit

variable {c : Circuit} {v id k : Nat}

/-- The variables as they are written: those in no block come before the blocks. -/
def writtenOrder (c : Circuit) : List Nat :=
  (freeVariables c).map Int.natAbs ++ c.blocks.flatMap (·.vars)

/-- The identifiers as they are written, up to a number of gates. -/
def writtenIds (c : Circuit) (k : Nat) : List Nat :=
  writtenOrder c ++ List.range' c.maxVar k

theorem quantifierOf?_eq_none_iff :
    (c.quantifierOf? v).isNone = true ↔ v ∉ c.blocks.flatMap (·.vars) := by
  simp only [quantifierOf?, Option.isNone_map, Option.isNone_iff_eq_none, List.find?_eq_none,
    List.any_eq_true, beq_iff_eq, Int.natCast_inj, List.mem_flatMap]
  constructor
  · rintro none ⟨block, present, member⟩
    exact none block present ⟨v, member, rfl⟩
  · rintro outside block present ⟨w, member, same⟩
    exact outside ⟨block, present, same ▸ member⟩

theorem natAbs_freeVariables (c : Circuit) : (freeVariables c).map Int.natAbs =
    (List.range' 1 (c.maxVar - 1)).filter (· ∉ c.blocks.flatMap (·.vars)) := by
  have number : Int.natAbs ∘ Int.ofNat = id := rfl
  rw [freeVariables, List.filter_map, List.map_map, number, List.map_id]
  refine List.filter_congr fun v _ => Bool.eq_iff_iff.mpr ?_
  rw [decide_eq_true_eq]
  exact quantifierOf?_eq_none_iff

theorem mem_writtenOrder (valid : c.WellFormed) : v ∈ writtenOrder c ↔ 0 < v ∧ v < c.maxVar := by
  rw [writtenOrder, natAbs_freeVariables, List.mem_append, List.mem_filter, mem_variables]
  constructor
  · intro either
    rcases either with free | bound
    · exact free.1
    · obtain ⟨block, present, member⟩ := List.mem_flatMap.mp bound
      exact valid.block_lt block present v member
  · intro inside
    by_cases bound : v ∈ c.blocks.flatMap (·.vars)
    · exact .inr bound
    · exact .inl ⟨inside, decide_eq_true bound⟩

theorem lists_writtenOrder (valid : c.WellFormed) : c.Lists (writtenOrder c) := by
  refine ⟨?_, fun _ => (mem_writtenOrder valid).mp⟩
  rw [writtenOrder, natAbs_freeVariables]
  refine List.nodup_append.mpr ⟨List.filter_sublist.nodup List.nodup_range', valid.block_nodup, ?_⟩
  intro v free w bound same
  exact of_decide_eq_true (List.mem_filter.mp free).2 (same ▸ bound)

theorem inOrder_writtenOrder (valid : c.WellFormed) :
    c.inOrder (writtenOrder c) = writtenOrder c := by
  have none : (List.range' 1 (c.maxVar - 1)).filter (· ∉ writtenOrder c) = [] := by
    refine List.filter_eq_nil_iff.mpr fun v member => ?_
    simpa using (mem_writtenOrder valid).mpr (mem_variables.mp member)
  rw [inOrder, none, List.append_nil]

theorem length_writtenOrder (valid : c.WellFormed) : (writtenOrder c).length + 1 = c.maxVar := by
  have length := (lists_writtenOrder valid).length_inOrder
  have positive := valid.maxVar_pos
  rw [inOrder_writtenOrder valid] at length
  omega

theorem mem_writtenIds (valid : c.WellFormed) :
    id ∈ writtenIds c k ↔ 0 < id ∧ id < c.maxVar + k := by
  have positive := valid.maxVar_pos
  rw [writtenIds, List.mem_append, mem_writtenOrder valid, List.mem_range'_1]
  omega

theorem nodup_writtenIds (valid : c.WellFormed) (k : Nat) : (writtenIds c k).Nodup := by
  refine List.nodup_append.mpr ⟨(lists_writtenOrder valid).1, List.nodup_range', ?_⟩
  intro v variable_ w gate same
  have below := ((mem_writtenOrder valid).mp variable_).2
  have behind := (List.mem_range'_1.mp gate).1
  omega

/-- The number of an identifier is its place in the text. -/
theorem writtenIds_place (valid : c.WellFormed) (positive : 0 < id) (below : id < c.maxGate) :
    (writtenIds c c.gates.size)[(c.reordering (writtenOrder c)).place id - 1]? = some id ∧
      0 < (c.reordering (writtenOrder c)).place id := by
  have lists := lists_writtenOrder valid
  have length := length_writtenOrder valid
  by_cases small : id < c.maxVar
  · obtain ⟨first, last, located⟩ := lists.place_variable ⟨positive, small⟩
    rw [inOrder_writtenOrder valid] at located
    refine ⟨?_, first⟩
    rw [writtenIds, List.getElem?_append_left (by omega), located]
  · have place := lists.place_gate (Nat.le_of_not_lt small) below
    unfold maxGate at below
    rw [place, writtenIds, List.getElem?_append_right (by omega), List.getElem?_range' (by omega)]
    exact ⟨congrArg some (by omega), positive⟩

/-- The numbers that the identifiers have when the text is read. -/
def readNumbering (c : Circuit) : Numbering :=
  c.reordering (writtenOrder c)

theorem readNumbering_variables (valid : c.WellFormed) :
    (writtenOrder c).map (readNumbering c).place = List.range' 1 (c.maxVar - 1) := by
  have lists := lists_writtenOrder valid
  have length := length_writtenOrder valid
  refine List.ext_getElem? fun position => ?_
  rw [List.getElem?_map]
  cases located : (writtenOrder c)[position]? with
  | none =>
    have behind := List.getElem?_eq_none_iff.mp located
    rw [List.getElem?_eq_none (by rw [List.length_range']; omega)]
    rfl
  | some v =>
    have inside := (List.getElem?_eq_some_iff.mp located).1
    have place := lists.place_at ((inOrder_writtenOrder valid).symm ▸ located)
    rw [List.getElem?_range' (by omega), Option.map_some, readNumbering, place]
    exact congrArg some (by omega)

theorem readNumbering_gate (valid : c.WellFormed) (low : c.maxVar ≤ id) (below : id < c.maxGate) :
    (readNumbering c).place id = id :=
  (lists_writtenOrder valid).place_gate low below

end QuantCircuit.Qcir
