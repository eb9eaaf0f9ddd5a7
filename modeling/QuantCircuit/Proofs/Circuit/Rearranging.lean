import QuantCircuit.Circuit.Blocks
import QuantCircuit.Proofs.Circuit.Transport

namespace QuantCircuit

abbrev Binding := Quantifier × Nat

namespace Block

/-- What the blocks bind, the outermost variable first. -/
def bindings (blocks : List Block) : List Binding :=
  blocks.flatMap fun block => block.vars.map (block.quantifier, ·)

/-- The function with variables quantified one by one, the first one outermost. -/
def bind (f : Assignment → Bool) : List Binding → Assignment → Bool
  | [], σ => f σ
  | (q, v) :: rest, σ => q.overBool fun value => bind f rest (σ.set v value)

variable {f : Assignment → Bool} {blocks : List Block} {choices : Choices}

@[simp] theorem bindings_cons (block : Block) (rest : List Block) :
    bindings (block :: rest) = block.vars.map (block.quantifier, ·) ++ bindings rest :=
  List.flatMap_cons

theorem bind_append (f : Assignment → Bool) (q : Quantifier) (vars : List Nat)
    (rest : List Binding) :
    bind f (vars.map (q, ·) ++ rest) = q.overVars (bind f rest) vars := by
  induction vars with
  | nil => rfl
  | cons v more ih =>
    funext σ
    rw [List.map_cons, List.cons_append, bind, Quantifier.overVars, ih]

/-- Quantifying blocks is quantifying what they bind. -/
theorem close_eq_bind (f : Assignment → Bool) (blocks : List Block) :
    close f blocks = bind f (bindings blocks) := by
  induction blocks with
  | nil => rfl
  | cons block rest ih => rw [close, ih, bindings_cons, bind_append]

theorem bindings_without (choices : Choices) (blocks : List Block) :
    bindings (blocks.map (·.without choices)) =
      (bindings blocks).filter fun binding => (choices binding.2).isNone := by
  induction blocks with
  | nil => rfl
  | cons block rest ih =>
    rw [List.map_cons, bindings_cons, bindings_cons, List.filter_append, ih, List.filter_map]
    rfl

theorem map_snd_bindings (blocks : List Block) :
    (bindings blocks).map Prod.snd = blocks.flatMap (·.vars) := by
  induction blocks with
  | nil => rfl
  | cons block rest ih => simp [ih, Function.comp_def]

theorem bindings_singletons (blocks : List Block) :
    bindings (blocks.flatMap singletons) = bindings blocks := by
  have single (block : Block) :
      bindings block.singletons = block.vars.map (block.quantifier, ·) := by
    rw [bindings, singletons, List.flatMap_map, List.map_eq_flatMap]
    rfl
  induction blocks with
  | nil => rfl
  | cons block rest ih =>
    rw [List.flatMap_cons, bindings_cons, ← ih, ← single]
    exact List.flatMap_append

theorem bindings_joinRuns (blocks : List Block) : bindings (joinRuns blocks) = bindings blocks := by
  induction blocks with
  | nil => rfl
  | cons block rest ih =>
    rw [bindings_cons, ← ih, joinRuns]
    cases joinRuns rest with
    | nil => rfl
    | cons next more =>
      by_cases same : next.quantifier = block.quantifier
      · simp [same]
      · simp [same]

theorem joinRuns_nonempty (nonempty : ∀ block ∈ blocks, block.vars ≠ []) :
    ∀ block ∈ joinRuns blocks, block.vars ≠ [] := by
  induction blocks with
  | nil => exact nonempty
  | cons block rest ih =>
    have first := nonempty block (by simp)
    have others := ih fun other member => nonempty other (by simp [member])
    rw [joinRuns]
    cases joined : joinRuns rest with
    | nil => simpa using first
    | cons next more =>
      rw [joined] at others
      by_cases same : next.quantifier = block.quantifier
      · simpa [same, first] using fun other member => others other (by simp [member])
      · simpa [same, first] using others

end Block

namespace Circuit

variable {c : Circuit} {out : Literal} {blocks : List Block}

theorem wellFormed_of_bindings_eq (valid : c.WellFormed)
    (nonempty : ∀ block ∈ blocks, block.vars ≠ [])
    (same : Block.bindings blocks = Block.bindings c.blocks) : WellFormed { c with blocks } := by
  have vars : blocks.flatMap (·.vars) = c.blocks.flatMap (·.vars) := by
    rw [← Block.map_snd_bindings, same, Block.map_snd_bindings]
  have bounds : ∀ block ∈ blocks, ∀ v ∈ block.vars, 0 < v ∧ v < c.maxVar := by
    intro block present v member
    have listed : v ∈ c.blocks.flatMap (·.vars) :=
      vars ▸ List.mem_flatMap.mpr ⟨block, present, member⟩
    obtain ⟨old, before, inside⟩ := List.mem_flatMap.mp listed
    exact valid.block_lt old before v inside
  have distinct : (blocks.flatMap (·.vars)).Nodup := vars ▸ valid.block_nodup
  exact valid.withBlocks nonempty bounds distinct

theorem wellFormed_splitBlocks (valid : c.WellFormed) : c.splitBlocks.WellFormed := by
  refine wellFormed_of_bindings_eq valid (fun block member => ?_)
    (Block.bindings_singletons c.blocks)
  obtain ⟨whole, _, listed⟩ := List.mem_flatMap.mp member
  obtain ⟨v, _, rfl⟩ := List.mem_map.mp listed
  simp

theorem wellFormed_combineBlocks (valid : c.WellFormed) : c.combineBlocks.WellFormed :=
  wellFormed_of_bindings_eq valid (Block.joinRuns_nonempty valid.block_nonempty)
    (Block.bindings_joinRuns c.blocks)

/-- A rearrangement of the blocks that binds the same variables in the same order. -/
theorem transports_of_bindings_eq (valid : c.WellFormed) (output : c.output? = some out)
    (validNew : WellFormed { c with blocks })
    (same : Block.bindings blocks = Block.bindings c.blocks) :
    Transports c out { c with blocks } out id := by
  apply transports_of_close_eq validNew valid (valid.output_lt out output) output rfl
    (fun _ _ => rfl)
  intro choices
  rw [Block.close_eq_bind, Block.close_eq_bind, Block.bindings_without, Block.bindings_without, same]
  rfl

theorem transports_splitBlocks (valid : c.WellFormed) (output : c.output? = some out) :
    Transports c out c.splitBlocks out id :=
  transports_of_bindings_eq valid output (wellFormed_splitBlocks valid)
    (Block.bindings_singletons c.blocks)

theorem transports_combineBlocks (valid : c.WellFormed) (output : c.output? = some out) :
    Transports c out c.combineBlocks out id :=
  transports_of_bindings_eq valid output (wellFormed_combineBlocks valid)
    (Block.bindings_joinRuns c.blocks)

end Circuit

end QuantCircuit
