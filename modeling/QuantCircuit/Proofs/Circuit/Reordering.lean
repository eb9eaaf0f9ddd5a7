import QuantCircuit.Circuit.Reorder
import QuantCircuit.Proofs.Circuit.Relocating

namespace QuantCircuit

theorem placeInOrder_other (list : List Nat) (start : Nat) (places : Array Nat)
    (outside : i ∉ list) : (placeInOrder places (list.zipIdx start))[i]? = places[i]? := by
  unfold placeInOrder
  induction list generalizing start places with
  | nil => rfl
  | cons first rest ih =>
    have different : first ≠ i := fun same => outside (by simp [same])
    rw [List.zipIdx_cons, List.foldl_cons, ih _ _ fun member => outside (by simp [member])]
    simp [different]

theorem placeInOrder_at {list : List Nat} (distinct : list.Nodup) {start : Nat}
    {places : Array Nat} {position : Nat} (located : list[position]? = some i)
    (inside : i < places.size) :
    (placeInOrder places (list.zipIdx start))[i]? = some (start + position + 1) := by
  induction list generalizing start places position with
  | nil => simp at located
  | cons first rest ih =>
    obtain ⟨fresh, distinctRest⟩ := List.nodup_cons.mp distinct
    cases position with
    | zero =>
      obtain rfl : first = i := by simpa using located
      have others := placeInOrder_other rest (start + 1)
        (places.setIfInBounds first (start + 1)) fresh
      simpa [placeInOrder, inside] using others
    | succ position =>
      have bound : i < (places.setIfInBounds first (start + 1)).size := by simpa using inside
      have next := @ih distinctRest (start + 1) _ position (by simpa using located) bound
      rw [show start + (position + 1) + 1 = start + 1 + position + 1 by omega]
      simpa [placeInOrder] using next

namespace Circuit

variable {c : Circuit} {first : List Nat} {out : Literal} {v : Nat}

/-- A list of variables of the circuit without repeats. -/
def Lists (c : Circuit) (first : List Nat) : Prop :=
  first.Nodup ∧ ∀ v ∈ first, 0 < v ∧ v < c.maxVar

theorem Lists.mem_inOrder (lists : c.Lists first) : v ∈ c.inOrder first ↔ 0 < v ∧ v < c.maxVar := by
  rw [inOrder, List.mem_append, List.mem_filter, mem_variables]
  constructor
  · intro listed
    exact listed.elim (lists.2 v) And.left
  · intro inside
    by_cases member : v ∈ first
    · exact .inl member
    · exact .inr ⟨inside, by simpa using member⟩

theorem Lists.nodup_inOrder (lists : c.Lists first) : (c.inOrder first).Nodup := by
  refine List.nodup_append.mpr ⟨lists.1, List.filter_sublist.nodup List.nodup_range', ?_⟩
  intro v member w other same
  have outside := (List.mem_filter.mp other).2
  simp [← same, member] at outside

theorem Lists.length_inOrder (lists : c.Lists first) :
    (c.inOrder first).length = c.maxVar - 1 := by
  have same : (c.inOrder first).Perm (List.range' 1 (c.maxVar - 1)) :=
    (List.perm_ext_iff_of_nodup lists.nodup_inOrder List.nodup_range').mpr fun v =>
      lists.mem_inOrder.trans mem_variables.symm
  rw [same.length_eq, List.length_range']

theorem Lists.place_at (lists : c.Lists first) {position : Nat}
    (located : (c.inOrder first)[position]? = some v) :
    (c.reordering first).place v = position + 1 := by
  have below := (lists.mem_inOrder.mp (List.mem_of_getElem? located)).2
  have inside : v < (Array.range c.maxGate).size := by
    rw [Array.size_range]
    exact Nat.lt_of_lt_of_le below (Nat.le_add_right ..)
  have entry := @placeInOrder_at v _ lists.nodup_inOrder 0 _ _ located inside
  rw [Numbering.place, Array.getD_eq_getD_getElem?, reordering, entry, Nat.zero_add]
  rfl

theorem Lists.place_other (lists : c.Lists first) (other : ¬ (0 < v ∧ v < c.maxVar)) :
    (c.reordering first).place v = if v < c.maxGate then v else 0 := by
  have outside : v ∉ c.inOrder first := fun member => other (lists.mem_inOrder.mp member)
  have entry := placeInOrder_other (c.inOrder first) 0 (Array.range c.maxGate) outside
  rw [Numbering.place, Array.getD_eq_getD_getElem?, reordering, entry, Array.getElem?_range]
  split <;> rfl

theorem Lists.place_gate (lists : c.Lists first) (large : c.maxVar ≤ v) (below : v < c.maxGate) :
    (c.reordering first).place v = v := by
  rw [lists.place_other fun inside => Nat.not_lt.mpr large inside.2, if_pos below]

theorem Lists.place_variable (lists : c.Lists first) (inside : 0 < v ∧ v < c.maxVar) :
    0 < (c.reordering first).place v ∧ (c.reordering first).place v < c.maxVar ∧
      (c.inOrder first)[(c.reordering first).place v - 1]? = some v := by
  obtain ⟨position, located⟩ := List.mem_iff_getElem?.mp (lists.mem_inOrder.mpr inside)
  have short := (List.getElem?_eq_some_iff.mp located).1
  rw [lists.length_inOrder] at short
  rw [lists.place_at located]
  exact ⟨Nat.succ_pos _, by omega, located⟩

theorem Lists.place_ne_zero (lists : c.Lists first) (positive : 0 < v) (below : v < c.maxGate) :
    (c.reordering first).place v ≠ 0 := by
  by_cases variable_ : v < c.maxVar
  · exact Nat.ne_of_gt (lists.place_variable ⟨positive, variable_⟩).1
  · rw [lists.place_gate (Nat.le_of_not_lt variable_) below]
    exact Nat.ne_of_gt positive

theorem Lists.place_injective (lists : c.Lists first) (v w : Nat)
    (same : (c.reordering first).place v = (c.reordering first).place w)
    (kept : (c.reordering first).place v ≠ 0) : v = w := by
  have other {v : Nat} (outside : ¬ (0 < v ∧ v < c.maxVar))
      (kept : (c.reordering first).place v ≠ 0) :
      (c.reordering first).place v = v ∧ c.maxVar ≤ v := by
    have place := lists.place_other outside
    rw [place] at kept
    split at kept
    · rename_i below
      rw [if_pos below] at place
      exact ⟨place, by omega⟩
    · exact absurd rfl kept
  by_cases insideV : 0 < v ∧ v < c.maxVar
  · obtain ⟨_, smallV, atV⟩ := lists.place_variable insideV
    by_cases insideW : 0 < w ∧ w < c.maxVar
    · obtain ⟨_, _, atW⟩ := lists.place_variable insideW
      rw [same, atW] at atV
      exact (Option.some.inj atV).symm
    · obtain ⟨placeW, large⟩ := other insideW (same ▸ kept)
      omega
  · obtain ⟨placeV, large⟩ := other insideV kept
    by_cases insideW : 0 < w ∧ w < c.maxVar
    · have smallW := (lists.place_variable insideW).2.1
      omega
    · have placeW := (other insideW (same ▸ kept)).1
      omega

theorem Lists.countP_keepsGate (lists : c.Lists first) (valid : c.WellFormed) {position : Nat}
    (inside : position < c.gates.size) :
    (List.range position).countP ((c.reordering first).keepsGate c) = position := by
  rw [List.countP_eq_length.mpr, List.length_range]
  intro i member
  have small := Nat.lt_trans (List.mem_range.mp member) inside
  have positive := valid.maxVar_pos
  rw [Numbering.keepsGate, lists.place_gate (Nat.le_add_right ..) (Nat.add_lt_add_left small _)]
  simp
  omega

theorem Lists.fits (lists : c.Lists first) (valid : c.WellFormed) :
    (c.reordering first).Fits c where
  maxVar_pos := valid.maxVar_pos
  zero := by
    rw [lists.place_other fun inside => Nat.lt_irrefl 0 inside.1]
    split <;> rfl
  injective := lists.place_injective
  variable_lt := by
    intro v small
    by_cases positive : 0 < v
    · exact (lists.place_variable ⟨positive, small⟩).2.1
    · rw [lists.place_other fun inside => positive inside.1]
      split
      · exact small
      · exact valid.maxVar_pos
  onto := by
    intro p positive below
    have small : p < c.maxVar := below
    have inside : p - 1 < (c.inOrder first).length := by
      rw [lists.length_inOrder]
      omega
    have located := List.getElem?_eq_getElem inside
    have bounds := lists.mem_inOrder.mp (List.mem_of_getElem? located)
    exact ⟨_, bounds.2, (lists.place_at located).trans (by omega)⟩
  gate_eq := by
    intro position inside _
    rw [lists.place_gate (Nat.le_add_right ..) (Nat.add_lt_add_left inside _),
      lists.countP_keepsGate valid inside]
    rfl
  inputs := by
    intro id gate found _ l member
    obtain ⟨nonzero, earlier⟩ := valid.inputs_lt id gate found l member
    exact lists.place_ne_zero (Int.natAbs_pos.mpr nonzero)
      (Nat.lt_trans earlier (lt_maxGate_of_gate? found))
  bound := by
    intro id gate found _ v member
    obtain ⟨positive, small⟩ := valid.bound_lt id gate found v member
    exact lists.place_ne_zero (Int.natAbs_pos.mpr (Int.ne_of_gt positive))
      (Nat.lt_of_lt_of_le small (Nat.le_add_right ..))
  output := by
    intro l output
    obtain ⟨nonzero, below⟩ := valid.output_lt l output
    exact lists.place_ne_zero (Int.natAbs_pos.mpr nonzero) below

end Circuit

def Block.sorted (block : Block) : Block :=
  { block with vars := block.vars.mergeSort }

namespace Block

theorem mem_sorted {block : Block} : v ∈ block.sorted.vars ↔ v ∈ block.vars :=
  (List.mergeSort_perm _ _).mem_iff

theorem flatMap_vars_sorted (blocks : List Block) :
    ((blocks.map sorted).flatMap (·.vars)).Perm (blocks.flatMap (·.vars)) := by
  induction blocks with
  | nil => exact .refl _
  | cons block rest ih =>
    rw [List.map_cons, List.flatMap_cons, List.flatMap_cons]
    exact (List.mergeSort_perm block.vars _).append ih

/-- The order within a block does not matter. -/
theorem close_sorted (f : Assignment → Bool) (choices : Choices) (blocks : List Block) :
    close f ((blocks.map sorted).map (·.without choices)) =
      close f (blocks.map (·.without choices)) := by
  induction blocks with
  | nil => rfl
  | cons block rest ih =>
    rw [List.map_cons, List.map_cons, List.map_cons, close, close, ih]
    apply Quantifier.overVars_congr_mem
    intro v
    rw [without, without, List.mem_filter, List.mem_filter, mem_sorted]

end Block

namespace Circuit

variable {c : Circuit} {first : List Nat} {out : Literal} {v : Nat}

theorem wellFormed_sorted (valid : c.WellFormed) :
    WellFormed { c with blocks := c.blocks.map Block.sorted } := by
  have bounds : ∀ block ∈ c.blocks.map Block.sorted,
      block.vars ≠ [] ∧ ∀ v ∈ block.vars, 0 < v ∧ v < c.maxVar := by
    intro block member
    obtain ⟨old, present, rfl⟩ := List.mem_map.mp member
    refine ⟨fun empty => valid.block_nonempty old present ?_, fun v listed => ?_⟩
    · refine List.eq_nil_iff_forall_not_mem.mpr fun v listed => ?_
      simpa [empty] using Block.mem_sorted.mpr listed
    · exact valid.block_lt old present v (Block.mem_sorted.mp listed)
  have distinct := (Block.flatMap_vars_sorted c.blocks).nodup_iff.mpr valid.block_nodup
  exact valid.withBlocks (fun block member => (bounds block member).1)
    (fun block member => (bounds block member).2) distinct

theorem transports_sorted (valid : c.WellFormed) (output : c.output? = some out) :
    Transports c out { c with blocks := c.blocks.map Block.sorted } out id := by
  apply transports_of_close_eq (wellFormed_sorted valid) valid (valid.output_lt out output) output
    rfl (fun _ _ => rfl)
  intro choices
  exact Block.close_sorted _ choices c.blocks

theorem wellFormed_reorderVariables (valid : c.WellFormed) (lists : c.Lists first) :
    (c.reorderVariables first).WellFormed :=
  wellFormed_sorted (wellFormed_renumber valid (lists.fits valid))

theorem transports_reorderVariables (valid : c.WellFormed) (output : c.output? = some out)
    (lists : c.Lists first) : ∃ r place, Transports c out (c.reorderVariables first) r place := by
  have moved := transports_renumber valid (lists.fits valid) output
  exact ⟨_, _, moved.trans (transports_sorted moved.valid moved.output)⟩

theorem getD_mark {seen : Array Bool} {id v : Nat} :
    (seen.setIfInBounds id true).getD v true = false ↔ seen.getD v true = false ∧ v ≠ id := by
  rw [Array.getD_eq_getD_getElem?, Array.getD_eq_getD_getElem?, Array.getElem?_setIfInBounds]
  by_cases same : id = v
  · subst same
    by_cases inside : id < seen.size <;> simp [inside]
  · simp [same, Ne.symm same]

/-- A traversal meets variables that have not been seen, each of them once. -/
theorem traverse_spec (valid : c.WellFormed) (steps : Nat) (stack : List Nat) (seen : Array Bool)
    (positive : ∀ id ∈ stack, 0 < id) (sized : seen.size = c.maxGate) :
    c.Lists (c.traverse steps stack seen) ∧
      ∀ v ∈ c.traverse steps stack seen, seen.getD v true = false := by
  induction steps generalizing stack seen with
  | zero => simp [traverse, Lists]
  | succ steps ih =>
    cases stack with
    | nil => simp [traverse, Lists]
    | cons id stack =>
      have others : ∀ id ∈ stack, 0 < id := fun other member => positive other (by simp [member])
      rw [traverse]
      split
      · exact ih stack seen others sized
      · rename_i unseen
        have fresh : seen.getD id true = false := by simpa using unseen
        have below : id < c.maxGate := by
          rw [← sized]
          apply Nat.lt_of_not_le
          intro beyond
          simp [Array.getD_eq_getD_getElem?, beyond] at fresh
        have marked : (seen.setIfInBounds id true).size = c.maxGate := by simpa using sized
        dsimp only
        split
        · rename_i missing
          have small := lt_maxVar_of_gate?_eq_none missing below
          obtain ⟨⟨distinct, bounds⟩, unmet⟩ := ih stack _ others marked
          refine ⟨⟨List.nodup_cons.mpr ⟨fun again => ?_, distinct⟩, ?_⟩, ?_⟩
          · exact (getD_mark.mp (unmet id again)).2 rfl
          · simpa using ⟨⟨positive id (by simp), small⟩, bounds⟩
          · intro v member
            rcases List.mem_cons.mp member with rfl | later
            · exact fresh
            · exact (getD_mark.mp (unmet v later)).1
        · rename_i gate found
          obtain ⟨lists, unmet⟩ := ih (gate.inputs.map Int.natAbs ++ stack) _ (by
            intro other member
            rcases List.mem_append.mp member with input | before
            · obtain ⟨l, read, rfl⟩ := List.mem_map.mp input
              exact Int.natAbs_pos.mpr (valid.inputs_lt id gate found l read).1
            · exact others other before) marked
          exact ⟨lists, fun v member => (getD_mark.mp (unmet v member)).1⟩

theorem lists_traversalOrder (valid : c.WellFormed) (defined : c.Defines out) :
    c.Lists (c.traversalOrder out) := by
  have positive : 0 < out.natAbs := Int.natAbs_pos.mpr defined.1
  exact (traverse_spec valid _ _ _ (by simpa using positive) (by simp)).1

theorem nodup_eraseDups [BEq α] [LawfulBEq α] (list : List α) : list.eraseDups.Nodup := by
  induction length : list.length using Nat.strongRecOn generalizing list with
  | _ n ih =>
    cases list with
    | nil => simp
    | cons first rest =>
      have shorter := List.length_filter_le (fun v => !v == first) rest
      rw [List.eraseDups_cons, List.nodup_cons, List.mem_eraseDups]
      refine ⟨by simp, ih _ ?_ _ rfl⟩
      rw [List.length_cons] at length
      omega

theorem mentioned_inside (valid : c.WellFormed)
    (member : v ∈ (c.gates.toList.flatMap (·.inputs)).map Int.natAbs) : 0 < v ∧ v < c.maxGate := by
  obtain ⟨l, input, rfl⟩ := List.mem_map.mp member
  obtain ⟨gate, present, read⟩ := List.mem_flatMap.mp input
  obtain ⟨position, located⟩ := List.mem_iff_getElem?.mp present
  have found : c.gate? (c.maxVar + position) = some gate :=
    gate?_of_located (by simpa using located)
  obtain ⟨nonzero, earlier⟩ := valid.inputs_lt _ gate found l read
  exact ⟨Int.natAbs_pos.mpr nonzero, Nat.lt_trans earlier (lt_maxGate_of_gate? found)⟩

theorem lists_appearanceOrder (valid : c.WellFormed) : c.Lists c.appearanceOrder := by
  refine ⟨nodup_eraseDups _, fun v member => ?_⟩
  obtain ⟨listed, small⟩ := List.mem_filter.mp (List.mem_eraseDups.mp member)
  exact ⟨(mentioned_inside valid listed).1, by simpa using small⟩

theorem reorderByTraversal_eq (output : c.output? = some out) :
    c.reorderByTraversal = .ok (c.reorderVariables (c.traversalOrder out)) := by
  rw [reorderByTraversal, Circuit.output, output]
  rfl

/-- Reordering by a traversal succeeds and transports the formula. -/
theorem transports_reorderByTraversal (valid : c.WellFormed) (output : c.output? = some out) :
    ∃ m r place, c.reorderByTraversal = .ok m ∧ Transports c out m r place := by
  obtain ⟨r, place, transports⟩ := transports_reorderVariables valid output
    (lists_traversalOrder valid (valid.output_lt out output))
  exact ⟨_, r, place, reorderByTraversal_eq output, transports⟩

theorem transports_reorderByAppearance (valid : c.WellFormed) (output : c.output? = some out) :
    ∃ r place, Transports c out c.reorderByAppearance r place :=
  transports_reorderVariables valid output (lists_appearanceOrder valid)

end Circuit

end QuantCircuit
