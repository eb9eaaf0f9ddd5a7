import Mathlib.Data.List.Induction
import QuantCircuit.Proofs.Circuit.Rearranging

namespace QuantCircuit

namespace Block

variable {block : Block} {blocks others : List Block} {q : Quantifier} {vars more : List Nat}

/-- Puts a block behind those joined so far: into the last one of them if that has its
quantifier. -/
def joinLast (joined : List Block) (block : Block) : List Block :=
  match joined with
  | [] => [block]
  | [last] =>
    if last.quantifier = block.quantifier then [⟨last.quantifier, last.vars ++ block.vars⟩]
    else [last, block]
  | first :: next :: rest => first :: joinLast (next :: rest) block

theorem joinRuns_cons_congr (same : joinRuns blocks = joinRuns others) :
    joinRuns (block :: blocks) = joinRuns (block :: others) := by
  rw [joinRuns, joinRuns, same]

theorem joinRuns_parts (q : Quantifier) (vars more : List Nat) (rest : List Block) :
    joinRuns (⟨q, vars⟩ :: ⟨q, more⟩ :: rest) = joinRuns (⟨q, vars ++ more⟩ :: rest) := by
  rw [joinRuns, joinRuns, joinRuns]
  cases joinRuns rest with
  | nil => simp
  | cons next further =>
    by_cases same : next.quantifier = q
    · simp [same]
    · simp [same]

theorem joinRuns_singletons (nonempty : block.vars ≠ []) (rest : List Block) :
    joinRuns (block.singletons ++ rest) = joinRuns (block :: rest) := by
  obtain ⟨q, vars⟩ := block
  dsimp only at nonempty
  induction vars with
  | nil => exact absurd rfl nonempty
  | cons v more ih =>
    cases more with
    | nil => rfl
    | cons w further =>
      calc joinRuns (singletons ⟨q, v :: w :: further⟩ ++ rest)
          = joinRuns (⟨q, [v]⟩ :: (singletons ⟨q, w :: further⟩ ++ rest)) := rfl
        _ = joinRuns (⟨q, [v]⟩ :: ⟨q, w :: further⟩ :: rest) :=
            joinRuns_cons_congr (ih (List.cons_ne_nil w further))
        _ = joinRuns (⟨q, v :: w :: further⟩ :: rest) := joinRuns_parts q [v] (w :: further) rest

theorem joinRuns_flatMap_singletons (nonempty : ∀ block ∈ blocks, block.vars ≠ []) :
    joinRuns (blocks.flatMap singletons) = joinRuns blocks := by
  induction blocks with
  | nil => rfl
  | cons block rest ih =>
    obtain ⟨first, others⟩ := List.forall_mem_cons.mp nonempty
    rw [List.flatMap_cons, joinRuns_singletons first]
    exact joinRuns_cons_congr (ih others)

theorem flatMap_singletons_eq (blocks : List Block) :
    blocks.flatMap singletons = (bindings blocks).map fun binding => ⟨binding.1, [binding.2]⟩ := by
  induction blocks with
  | nil => rfl
  | cons block rest ih =>
    rw [List.flatMap_cons, bindings_cons, List.map_append, ih, singletons, List.map_map]
    rfl

theorem joinRuns_eq_iff (nonempty : ∀ block ∈ blocks, block.vars ≠ [])
    (nonemptyOthers : ∀ block ∈ others, block.vars ≠ []) :
    joinRuns blocks = joinRuns others ↔ bindings blocks = bindings others := by
  constructor
  · intro same
    rw [← bindings_joinRuns blocks, same, bindings_joinRuns]
  · intro same
    rw [← joinRuns_flatMap_singletons nonempty, ← joinRuns_flatMap_singletons nonemptyOthers,
      flatMap_singletons_eq, flatMap_singletons_eq, same]

/-- Neighbours have different quantifiers. -/
def Alternates (blocks : List Block) : Prop :=
  blocks.IsChain fun block next => block.quantifier ≠ next.quantifier

theorem alternates_joinRuns (blocks : List Block) : Alternates (joinRuns blocks) := by
  unfold Alternates
  induction blocks with
  | nil => exact .nil
  | cons block rest ih =>
    rw [joinRuns]
    cases joined : joinRuns rest with
    | nil => exact .singleton block
    | cons next further =>
      rw [joined] at ih
      dsimp only
      by_cases same : next.quantifier = block.quantifier
      · -- the joined block has the quantifier of the one whose place it takes
        rw [if_pos same]
        cases further with
        | nil => exact .singleton _
        | cons second more =>
          rw [List.isChain_cons_cons] at ih ⊢
          exact ⟨same ▸ ih.1, ih.2⟩
      · rw [if_neg same, List.isChain_cons_cons]
        exact ⟨Ne.symm same, ih⟩

theorem joinRuns_concat (blocks : List Block) (block : Block) :
    joinRuns (blocks ++ [block]) = joinLast (joinRuns blocks) block := by
  induction blocks with
  | nil => rfl
  | cons first rest ih =>
    rw [List.cons_append, joinRuns, joinRuns, ih]
    rcases joinRuns rest with _ | ⟨next, _ | ⟨second, more⟩⟩
    · by_cases same : block.quantifier = first.quantifier
      · simp [joinLast, same]
      · simp [joinLast, same, Ne.symm same]
    · by_cases same : next.quantifier = block.quantifier
      · by_cases before : next.quantifier = first.quantifier
        · simp [joinLast, ← same, before]
        · simp [joinLast, same, same ▸ before]
      · by_cases before : next.quantifier = first.quantifier
        · simp [joinLast, before, before ▸ same]
        · simp [joinLast, same, before]
    · by_cases before : next.quantifier = first.quantifier
      · cases more with
        | nil => simp [joinLast, before]
        | cons third others => simp [joinLast, before]
      · simp [joinLast, before]

/-- Runs may be joined from the outermost block on, each block with what has been joined
before it. -/
theorem joinRuns_eq_foldl (blocks : List Block) : joinRuns blocks = blocks.foldl joinLast [] := by
  induction blocks using List.reverseRecOn with
  | nil => rfl
  | append_singleton front block ih => rw [joinRuns_concat, ih, List.foldl_concat]

end Block

namespace Circuit

variable {c m : Circuit} {blocks : List Block}

theorem freeVariables_of_bindings_eq (same : Block.bindings blocks = Block.bindings c.blocks) :
    freeVariables { c with blocks } = c.freeVariables := by
  have vars : blocks.flatMap (·.vars) = c.blocks.flatMap (·.vars) := by
    rw [← Block.map_snd_bindings, same, Block.map_snd_bindings]
  have open_ (m : Circuit) (v : Nat) :
      m.quantifierOf? (v : Literal) = none ↔ v ∉ m.blocks.flatMap (·.vars) := by
    rw [quantifierOf?_eq_none_iff, List.mem_flatMap]
    simp
  refine List.filter_congr fun v _ => ?_
  rw [Bool.eq_iff_iff, Option.isNone_iff_eq_none, Option.isNone_iff_eq_none, open_, open_, vars]

/-- The truth does not depend on how the variables are grouped. -/
theorem truth_of_bindings_eq (same : Block.bindings blocks = Block.bindings c.blocks)
    (out : Literal) : truth { c with blocks } out = c.truth out := by
  unfold truth
  rw [freeVariables_of_bindings_eq same, Block.close_eq_bind, Block.close_eq_bind, same]
  rfl

/-- Only the blocks are different, and the truth is the same. -/
structure Regroups (c m : Circuit) : Prop where
  eq_withBlocks : m = { c with blocks := m.blocks }
  truth_eq : ∀ out, m.truth out = c.truth out

theorem regroups_splitBlocks (c : Circuit) : Regroups c c.splitBlocks :=
  ⟨rfl, truth_of_bindings_eq (Block.bindings_singletons c.blocks)⟩

theorem regroups_combineBlocks (c : Circuit) : Regroups c c.combineBlocks :=
  ⟨rfl, truth_of_bindings_eq (Block.bindings_joinRuns c.blocks)⟩

/-- Combining makes two prefixes equal iff they bind the same variables in the same order, and
leaves a prefix in which quantifiers alternate. Splitting and combining undo each other up to
that, neither does anything twice, and both touch the blocks only and keep the truth. -/
theorem combineBlocks_canonical (nonempty : ∀ block ∈ c.blocks, block.vars ≠ [])
    (nonemptyOther : ∀ block ∈ m.blocks, block.vars ≠ []) :
    (c.combineBlocks.blocks = m.combineBlocks.blocks ↔
        Block.bindings c.blocks = Block.bindings m.blocks) ∧
      c.combineBlocks.blocks = c.blocks.foldl Block.joinLast [] ∧
      Block.Alternates c.combineBlocks.blocks ∧
      Block.bindings c.combineBlocks.blocks = Block.bindings c.blocks ∧
      c.splitBlocks.combineBlocks = c.combineBlocks ∧
      c.combineBlocks.splitBlocks = c.splitBlocks ∧
      c.combineBlocks.combineBlocks = c.combineBlocks ∧
      c.splitBlocks.splitBlocks = c.splitBlocks ∧
      Regroups c c.splitBlocks ∧ Regroups c c.combineBlocks := by
  have split {blocks others : List Block} (same : Block.bindings blocks = Block.bindings others) :
      blocks.flatMap Block.singletons = others.flatMap Block.singletons := by
    rw [Block.flatMap_singletons_eq, Block.flatMap_singletons_eq, same]
  have again : Block.joinRuns (Block.joinRuns c.blocks) = Block.joinRuns c.blocks :=
    (Block.joinRuns_eq_iff (Block.joinRuns_nonempty nonempty) nonempty).mpr
      (Block.bindings_joinRuns c.blocks)
  have only {blocks others : List Block} (same : blocks = others) :
      ({ c with blocks } : Circuit) = { c with blocks := others } := by
    rw [same]
  exact ⟨Block.joinRuns_eq_iff nonempty nonemptyOther, Block.joinRuns_eq_foldl c.blocks,
    Block.alternates_joinRuns c.blocks, Block.bindings_joinRuns c.blocks,
    only (Block.joinRuns_flatMap_singletons nonempty),
    only (split (Block.bindings_joinRuns c.blocks)), only again,
    only (split (Block.bindings_singletons c.blocks)),
    regroups_splitBlocks c, regroups_combineBlocks c⟩

/-- Neighbouring blocks have the same quantifier, and variables are not in order. -/
def sliced : Circuit where
  name := "sliced"
  maxVar := 6
  blocks := [⟨.ex, [2]⟩, ⟨.ex, [1, 4]⟩, ⟨.all, [3]⟩, ⟨.all, [5]⟩]
  gates := #[{ connective := .or, inputs := [2, -3, 5] }]
  output? := some 6
  names := #["", "a", "b", "c", "d", "e", "g"]
  origin := #[0, 1, 2, 3, 4, 5, 6]

theorem sliced_combineBlocks_canonical :
    sliced.combineBlocks.blocks =
        (combineBlocks
          { sliced with blocks := [⟨.ex, [2, 1]⟩, ⟨.ex, [4]⟩, ⟨.all, [3, 5]⟩] }).blocks ∧
      Block.Alternates sliced.combineBlocks.blocks ∧
      sliced.splitBlocks.combineBlocks = sliced.combineBlocks ∧
      sliced.combineBlocks.truth 6 = sliced.truth 6 := by
  obtain ⟨same, _, alternates, _, combined, _, _, _, _, regroups⟩ := combineBlocks_canonical
    (c := sliced) (m := { sliced with blocks := [⟨.ex, [2, 1]⟩, ⟨.ex, [4]⟩, ⟨.all, [3, 5]⟩] })
    (by decide) (by decide)
  exact ⟨same.mpr (by decide), alternates, combined, regroups.truth_eq 6⟩

end Circuit

end QuantCircuit
