import Mathlib.Data.List.Sort
import Mathlib.Data.Set.Function
import Mathlib.Order.Interval.Set.Defs
import QuantCircuit.Proofs.Circuit.Reordering
import QuantCircuit.Proofs.Circuit.Restating

/-! Reordering gives the variables new numbers and does nothing else. The orders are found in
the same way under the new numbers, where they list the variables from the first one on, so that
reordering once more changes nothing. -/

namespace QuantCircuit

theorem eraseDups_map [BEq α] [LawfulBEq α] [BEq β] [LawfulBEq β] {f : α → β} {list : List α}
    (injective : ∀ a ∈ list, ∀ b ∈ list, f a = f b → a = b) :
    (list.map f).eraseDups = list.eraseDups.map f := by
  induction length : list.length using Nat.strongRecOn generalizing list with
  | _ count ih =>
    cases list with
    | nil => rfl
    | cons first rest =>
      have shorter : (rest.filter fun a => !a == first).length < count := by
        have fewer := List.length_filter_le (fun a => !a == first) rest
        rw [List.length_cons] at length
        omega
      have same : (rest.map f).filter (fun b => !b == f first) =
          (rest.filter fun a => !a == first).map f := by
        rw [List.filter_map]
        refine congrArg (List.map f) (List.filter_congr fun a member => ?_)
        have iff : f a = f first ↔ a = first :=
          ⟨injective a (by simp [member]) first (by simp), congrArg f⟩
        rw [Bool.eq_iff_iff]
        simp [iff]
      have inside {a : α} (member : a ∈ rest.filter fun a => !a == first) : a ∈ first :: rest :=
        List.mem_cons_of_mem _ (List.mem_of_mem_filter member)
      rw [List.map_cons, List.eraseDups_cons, List.eraseDups_cons, List.map_cons, same,
        ih _ shorter (fun a here b there => injective a (inside here) b (inside there)) rfl]

namespace Block

theorem pairwise_sorted (block : Block) : block.sorted.vars.Pairwise (· ≤ ·) :=
  List.pairwise_mergeSort' (· ≤ ·) block.vars

theorem sorted_sorted (block : Block) : block.sorted.sorted = block.sorted := by
  have vars : block.sorted.vars.mergeSort = block.sorted.vars :=
    List.mergeSort_eq_self (· ≤ ·) block.pairwise_sorted
  rw [sorted, vars]

end Block

/-- The numbering drops nothing, and gates keep their numbers. -/
structure Numbering.Permutes (n : Numbering) (c : Circuit) : Prop where
  fits : n.Fits c
  maxVar_eq : n.maxVar = c.maxVar
  place_ne_zero : ∀ id, 0 < id → id < c.maxGate → n.place id ≠ 0
  gate_eq : ∀ id, c.maxVar ≤ id → id < c.maxGate → n.place id = id

namespace Circuit

variable {c m : Circuit} {n : Numbering} {first : List Nat} {out : Literal} {id v count : Nat}
variable {seen others : Array Bool}

theorem Lists.permutes (lists : c.Lists first) (valid : c.WellFormed) :
    (c.reordering first).Permutes c where
  fits := lists.fits valid
  maxVar_eq := rfl
  place_ne_zero := fun _ => lists.place_ne_zero
  gate_eq := fun _ large below => lists.place_gate large below

theorem Lists.bijOn (lists : c.Lists first) (valid : c.WellFormed) :
    Set.BijOn (c.reordering first).place (Set.Ico 1 c.maxVar) (Set.Ico 1 c.maxVar) := by
  have fits := lists.fits valid
  refine ⟨fun v inside => ?_, fun v inside w _ same => ?_, fun p inside => ?_⟩
  · obtain ⟨positive, small, _⟩ := lists.place_variable inside
    exact ⟨positive, small⟩
  · exact fits.injective v w same (Nat.ne_of_gt (lists.place_variable inside).1)
  · obtain ⟨v, small, rfl⟩ := fits.onto p inside.1 inside.2
    have nonzero : v ≠ 0 := by
      rintro rfl
      exact Nat.ne_of_gt inside.1 fits.zero
    exact ⟨v, ⟨Nat.pos_of_ne_zero nonzero, small⟩, rfl⟩

theorem gates_permuted (valid : c.WellFormed) (permutes : n.Permutes c) :
    (c.renumber n).gates = c.gates.map n.gate := by
  refine gates_renumber_of_all fun position inside => ?_
  exact permutes.place_ne_zero _ (Nat.add_pos_left valid.maxVar_pos _)
    (Nat.add_lt_add_left inside _)

theorem maxGate_permuted (valid : c.WellFormed) (permutes : n.Permutes c) :
    (c.renumber n).maxGate = c.maxGate := by
  rw [maxGate, maxGate, maxVar_renumber, permutes.maxVar_eq, gates_permuted valid permutes,
    Array.size_map]

/-- The same identifiers have been visited under the new numbers. -/
def VisitedAlike (c : Circuit) (n : Numbering) (seen others : Array Bool) : Prop :=
  ∀ id, 0 < id → id < c.maxGate → others.getD (n.place id) true = seen.getD id true

theorem VisitedAlike.visit (alike : c.VisitedAlike n seen others) (fits : n.Fits c)
    (kept : n.place id ≠ 0) :
    c.VisitedAlike n (seen.setIfInBounds id true) (others.setIfInBounds (n.place id) true) := by
  intro v positive below
  have different : n.place v ≠ n.place id ↔ v ≠ id :=
    not_congr ⟨fun equal => fits.injective v id equal (equal ▸ kept), congrArg n.place⟩
  rw [← Bool.not_inj_iff, Bool.eq_iff_iff]
  simp only [Bool.not_eq_true', getD_mark, alike v positive below, different]

/-- A traversal meets the same variables under the new numbers, in the same order. -/
theorem traverse_permuted (valid : c.WellFormed) (permutes : n.Permutes c) (steps : Nat)
    (stack : List Nat) (inside : ∀ id ∈ stack, 0 < id ∧ id < c.maxGate)
    (alike : c.VisitedAlike n seen others) :
    (c.renumber n).traverse steps (stack.map n.place) others =
      (c.traverse steps stack seen).map n.place := by
  induction steps generalizing stack seen others with
  | zero => simp [traverse]
  | succ steps ih =>
    cases stack with
    | nil => simp [traverse]
    | cons id stack =>
      obtain ⟨⟨positive, below⟩, rest⟩ := List.forall_mem_cons.mp inside
      have kept := permutes.place_ne_zero id positive below
      -- both traversals skip the first identifier on the stack, or neither does
      rw [List.map_cons, traverse, traverse, alike id positive below]
      split
      · exact ih stack rest alike
      · have next := alike.visit permutes.fits kept
        dsimp only
        cases found : c.gate? id with
        | none =>
          have small := lt_maxVar_of_gate?_eq_none found below
          rw [gate?_eq_none_of_lt (permutes.fits.variable_lt id small)]
          exact congrArg (n.place id :: ·) (ih stack rest next)
        | some gate =>
          rw [renumbered_gate permutes.fits found kept]
          have inputs : (n.gate gate).inputs.map Int.natAbs =
              (gate.inputs.map Int.natAbs).map n.place := by
            simp [Numbering.gate]
          dsimp only
          rw [inputs, ← List.map_append]
          refine ih _ (List.forall_mem_append.mpr ⟨fun v read => ?_, rest⟩) next
          obtain ⟨l, listed, rfl⟩ := List.mem_map.mp read
          obtain ⟨nonzero, earlier⟩ := valid.inputs_lt id gate found l listed
          exact ⟨Int.natAbs_pos.mpr nonzero, Nat.lt_trans earlier below⟩

theorem traversalOrder_permuted (valid : c.WellFormed) (permutes : n.Permutes c)
    (defined : c.Defines out) : (c.renumber n).traversalOrder (n.literal out) =
      (c.traversalOrder out).map n.place := by
  have steps : (c.renumber n).gates.foldl (fun steps gate => steps + gate.inputs.length) 1 =
      c.gates.foldl (fun steps gate => steps + gate.inputs.length) 1 := by
    rw [gates_permuted valid permutes, Array.foldl_map]
    simp [Numbering.gate]
  rw [traversalOrder, traversalOrder, steps, maxGate_permuted valid permutes,
    Numbering.natAbs_literal]
  refine traverse_permuted valid permutes _ [out.natAbs] ?_ fun id positive below => ?_
  · simpa using ⟨defined.1, defined.2⟩
  · have placed := place_lt_maxGate permutes.fits below (permutes.place_ne_zero id positive below)
    rw [maxGate_permuted valid permutes] at placed
    simp [Array.getD_eq_getD_getElem?, placed, below]

theorem appearanceOrder_permuted (valid : c.WellFormed) (permutes : n.Permutes c) :
    (c.renumber n).appearanceOrder = c.appearanceOrder.map n.place := by
  let mentioned := (c.gates.toList.flatMap (·.inputs)).map Int.natAbs
  have renamed : ((c.renumber n).gates.toList.flatMap (·.inputs)).map Int.natAbs =
      mentioned.map n.place := by
    rw [gates_permuted valid permutes, Array.toList_map]
    simp [mentioned, List.flatMap_map, List.map_flatMap, Numbering.gate, Function.comp_def]
  have variables_ : (mentioned.map n.place).filter (· < (c.renumber n).maxVar) =
      (mentioned.filter (· < c.maxVar)).map n.place := by
    rw [List.filter_map]
    refine congrArg (List.map n.place) (List.filter_congr fun v member => ?_)
    obtain ⟨positive, below⟩ := mentioned_inside valid member
    refine decide_eq_decide.mpr ⟨fun small => Nat.lt_of_not_le fun large => ?_,
      permutes.fits.variable_lt v⟩
    rw [permutes.gate_eq v large below, maxVar_renumber, permutes.maxVar_eq] at small
    exact Nat.not_lt_of_le large small
  rw [appearanceOrder, renamed, variables_]
  refine eraseDups_map fun v here w _ same => ?_
  obtain ⟨positive, below⟩ := mentioned_inside valid (List.mem_of_mem_filter here)
  exact permutes.fits.injective v w same (permutes.place_ne_zero v positive below)

/-- The variables get the numbers from one on, the listed ones first. -/
theorem Lists.map_place_inOrder (lists : c.Lists first) :
    (c.inOrder first).map (c.reordering first).place = List.range' 1 (c.maxVar - 1) := by
  refine List.ext_getElem (by simp [lists.length_inOrder]) fun position inside _ => ?_
  rw [List.length_map] at inside
  rw [List.getElem_map, lists.place_at (List.getElem?_eq_getElem inside), List.getElem_range']
  omega

theorem Lists.length_le (lists : c.Lists first) : first.length ≤ c.maxVar - 1 := by
  rw [← lists.length_inOrder, inOrder, List.length_append]
  exact Nat.le_add_right ..

theorem Lists.map_place (lists : c.Lists first) :
    first.map (c.reordering first).place = List.range' 1 first.length := by
  have all := congrArg (List.take first.length) lists.map_place_inOrder
  rwa [inOrder, List.map_append, List.take_left' (List.length_map _),
    List.take_range'_of_length_ge lists.length_le] at all

theorem lists_range' (few : count ≤ c.maxVar - 1) : c.Lists (List.range' 1 count) := by
  refine ⟨List.nodup_range', fun v member => ?_⟩
  rw [List.mem_range'_1] at member
  omega

theorem inOrder_range' (few : count ≤ c.maxVar - 1) :
    c.inOrder (List.range' 1 count) = List.range' 1 (c.maxVar - 1) := by
  have split : List.range' 1 (c.maxVar - 1) =
      List.range' 1 count ++ List.range' (1 + count) (c.maxVar - 1 - count) := by
    rw [List.range'_append_1, Nat.add_sub_cancel' few]
  have listed : (List.range' 1 count).filter (· ∉ List.range' 1 count) = [] :=
    List.filter_eq_nil_iff.mpr fun v member => by
      simpa only [decide_eq_true_eq, not_not] using member
  have others : (List.range' (1 + count) (c.maxVar - 1 - count)).filter
      (· ∉ List.range' 1 count) = List.range' (1 + count) (c.maxVar - 1 - count) := by
    refine List.filter_eq_self.mpr fun v member => ?_
    rw [List.mem_range'_1] at member
    simp only [List.mem_range'_1, decide_eq_true_eq]
    omega
  rw [inOrder, split, List.filter_append, listed, others, List.nil_append]

theorem place_range' (few : count ≤ c.maxVar - 1) (below : id < c.maxGate) :
    (c.reordering (List.range' 1 count)).place id = id := by
  have lists := lists_range' few
  by_cases inside : 0 < id ∧ id < c.maxVar
  · have located : (c.inOrder (List.range' 1 count))[id - 1]? = some id := by
      rw [inOrder_range' few, List.getElem?_range' (by omega)]
      exact congrArg some (by omega)
    rw [lists.place_at located]
    omega
  · rw [lists.place_other inside, if_pos below]

theorem reorderVariables_range' (valid : c.WellFormed) (zero : c.origin[0]? = some 0)
    (sorted : c.blocks.map Block.sorted = c.blocks) (few : count ≤ c.maxVar - 1) :
    c.reorderVariables (List.range' 1 count) = c := by
  have same : c.renumber (c.reordering (List.range' 1 count)) = c :=
    renumber_eq_self valid ((lists_range' few).fits valid) zero rfl fun id => place_range' few
  rw [reorderVariables, same]
  show { c with blocks := c.blocks.map Block.sorted } = c
  rw [sorted]

/-- Reordering by what an order has become changes nothing more. -/
theorem reorderVariables_again (valid : c.WellFormed) (lists : c.Lists first) :
    (c.reorderVariables first).reorderVariables (first.map (c.reordering first).place) =
      c.reorderVariables first := by
  rw [lists.map_place]
  refine reorderVariables_range' (wellFormed_reorderVariables valid lists) ?_ ?_ lists.length_le
  · exact origin_renumber_zero c valid.maxVar_pos
  · show ((c.renumber (c.reordering first)).blocks.map Block.sorted).map Block.sorted = _
    rw [List.map_map]
    exact List.map_congr_left fun block _ => block.sorted_sorted

theorem quantifierOf?_sorted (c : Circuit) (l : Literal) :
    { c with blocks := c.blocks.map Block.sorted : Circuit }.quantifierOf? l =
      c.quantifierOf? l := by
  have has (block : Block) : (block.sorted.vars.any fun v => v == l) =
      block.vars.any fun v => v == l :=
    (List.mergeSort_perm block.vars _).any_eq
  simp only [quantifierOf?, List.find?_map, Option.map_map, Function.comp_def, has]
  rfl

theorem evaluate_sorted (valid : c.WellFormed) (entries : List Bool) :
    { c with blocks := c.blocks.map Block.sorted : Circuit }.evaluate entries =
      c.evaluate entries := by
  obtain absent | ⟨out, output⟩ := Option.eq_none_or_eq_some c.output?
  · rw [evaluate_of_no_output absent]
    exact evaluate_of_no_output (c := { c with blocks := c.blocks.map Block.sorted }) absent entries
  · rw [computes_meaning valid output]
    exact computes_meaning (wellFormed_sorted valid) output entries

theorem Restates.sorted (restates : Restates c m n) (valid : m.WellFormed) :
    Restates c { m with blocks := m.blocks.map Block.sorted } n where
  output := restates.output
  evaluate_eq := by
    intro entries others agree
    rw [evaluate_sorted valid, restates.evaluate_eq entries others agree]
  quantifierOf?_eq := by
    intro v kept
    rw [quantifierOf?_sorted, restates.quantifierOf?_eq v kept]
  nameOf_eq := restates.nameOf_eq
  truth_eq := by
    intro out output
    have outputLater : m.output? = some (n.literal out) :=
      restates.output.trans (congrArg (Option.map n.literal) output)
    rw [← restates.truth_eq out output]
    exact (transports_sorted valid outputLater).truth_eq

/-- The circuit is another one under new numbers for the variables. Blocks keep their places and
quantifiers and list their variables in increasing order. -/
structure Renames (c m : Circuit) (n : Numbering) : Prop extends Restates c m n where
  permutes : Set.BijOn n.place (Set.Ico 1 c.maxVar) (Set.Ico 1 c.maxVar)
  gate_eq : ∀ id, c.maxVar ≤ id → id < c.maxGate → n.place id = id
  maxVar_eq : m.maxVar = c.maxVar
  gates_eq : m.gates = c.gates.map n.gate
  blocks : List.Forall₂ (fun old new => new.quantifier = old.quantifier ∧
    new.vars.Perm (old.vars.map n.place) ∧ new.vars.Pairwise (· < ·)) c.blocks m.blocks

theorem renames_reorderVariables (valid : c.WellFormed) (lists : c.Lists first) :
    Renames c (c.reorderVariables first) (c.reordering first) := by
  have permutes := lists.permutes valid
  have validNew := wellFormed_renumber valid permutes.fits
  refine ⟨(restates_renumber valid permutes.fits).sorted validNew, lists.bijOn valid,
    permutes.gate_eq, rfl, gates_permuted valid permutes, ?_⟩
  have renamed := blocks_renumber_of_all valid fun v positive small =>
    permutes.place_ne_zero v positive (Nat.lt_of_lt_of_le small (Nat.le_add_right ..))
  have blocks : (c.reorderVariables first).blocks = c.blocks.map fun block =>
      Block.sorted ⟨block.quantifier, block.vars.map (c.reordering first).place⟩ := by
    show (c.renumber (c.reordering first)).blocks.map Block.sorted = _
    rw [renamed, List.map_map]
    rfl
  rw [blocks, List.forall₂_map_right_iff, List.forall₂_same]
  intro block present
  refine ⟨rfl, List.mergeSort_perm _ _, ?_⟩
  have distinct : (block.vars.map (c.reordering first).place).Nodup := by
    refine (List.nodup_flatMap.mp validNew.block_nodup).1 ⟨block.quantifier, _⟩ ?_
    rw [renamed]
    exact List.mem_map_of_mem present
  exact (Block.pairwise_sorted _).imp₂ (fun _ _ => Nat.lt_of_le_of_ne)
    ((List.mergeSort_perm _ _).nodup_iff.mpr distinct)

theorem traverse_congr (variables_ : m.maxVar = c.maxVar) (gates : m.gates = c.gates)
    (steps : Nat) (stack : List Nat) (seen : Array Bool) :
    m.traverse steps stack seen = c.traverse steps stack seen := by
  induction steps generalizing stack seen with
  | zero => simp [traverse]
  | succ steps ih =>
    cases stack with
    | nil => simp [traverse]
    | cons id stack => simp only [traverse, ih, gate?, variables_, gates]

theorem traversalOrder_reorderVariables (valid : c.WellFormed) (defined : c.Defines out)
    (lists : c.Lists first) :
    (c.reorderVariables first).traversalOrder ((c.reordering first).literal out) =
      (c.traversalOrder out).map (c.reordering first).place := by
  rw [← traversalOrder_permuted valid (lists.permutes valid) defined]
  exact traverse_congr (m := c.reorderVariables first) (c := c.renumber (c.reordering first))
    rfl rfl _ _ _

/-- Both orders only rename the variables, and applying one of them once more changes nothing. -/
theorem reorderings_rename (valid : c.WellFormed) :
    (∀ out, c.output? = some out → ∃ m, c.reorderByTraversal = .ok m ∧
      Renames c m (c.reordering (c.traversalOrder out)) ∧ m.reorderByTraversal = .ok m) ∧
    Renames c c.reorderByAppearance (c.reordering c.appearanceOrder) ∧
    c.reorderByAppearance.reorderByAppearance = c.reorderByAppearance := by
  refine ⟨fun out output => ?_, ?_, ?_⟩
  · have defined := valid.output_lt out output
    have lists := lists_traversalOrder valid defined
    have renames := renames_reorderVariables valid lists
    have outputLater : (c.reorderVariables (c.traversalOrder out)).output? =
        some ((c.reordering (c.traversalOrder out)).literal out) := output_renumber _ output
    refine ⟨_, reorderByTraversal_eq output, renames, ?_⟩
    rw [reorderByTraversal_eq outputLater, traversalOrder_reorderVariables valid defined lists,
      reorderVariables_again valid lists]
  · exact renames_reorderVariables valid (lists_appearanceOrder valid)
  · have lists := lists_appearanceOrder valid
    have order : c.reorderByAppearance.appearanceOrder =
        c.appearanceOrder.map (c.reordering c.appearanceOrder).place :=
      appearanceOrder_permuted valid (lists.permutes valid)
    rw [reorderByAppearance, order]
    exact reorderVariables_again valid lists

/-- The fourth variable is in no block, and the second one is bound by a gate. -/
def scattered : Circuit where
  name := "scattered"
  maxVar := 5
  blocks := [⟨.ex, [1, 3]⟩]
  gates := #[{ connective := .or, inputs := [4, -2] }, .quantify .all [2] 5,
    { connective := .and, inputs := [-3, 6, 1] }]
  output? := some 7
  names := #["", "a", "b", "c", "d", "5", "6", "7"]
  origin := #[0, 1, 2, 3, 4, 5, 6, 7]

theorem scattered_reorderings_rename :
    (∃ m, scattered.reorderByTraversal = .ok m ∧ m.nameOf 1 = "c" ∧
      m.truth 7 = scattered.truth 7 ∧ m.reorderByTraversal = .ok m) ∧
    scattered.reorderByAppearance.nameOf 1 = "d" ∧
    scattered.reorderByAppearance.reorderByAppearance = scattered.reorderByAppearance := by
  obtain ⟨traversal, appearance, again⟩ := reorderings_rename (by decide : scattered.WellFormed)
  obtain ⟨m, computed, renames, againTraversal⟩ := traversal 7 rfl
  have order : scattered.traversalOrder 7 = [3, 4, 2, 1] := by decide
  have orderAppearance : scattered.appearanceOrder = [4, 2, 3, 1] := by decide
  rw [order] at renames
  rw [orderAppearance] at appearance
  have name := renames.nameOf_eq 3 (by decide) (by decide)
  have nameAppearance := appearance.nameOf_eq 4 (by decide) (by decide)
  exact ⟨⟨m, computed, name, renames.truth_eq 7 rfl, againTraversal⟩, nameAppearance, again⟩

end Circuit

end QuantCircuit
