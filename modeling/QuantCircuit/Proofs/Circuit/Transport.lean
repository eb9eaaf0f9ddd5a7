import QuantCircuit.Proofs.Circuit.Fixing

/-! The truth of a formula with some variables fixed, and circuits derived from one another
that agree on it, whatever is fixed. -/

namespace QuantCircuit

/-- The variables of the block that are not fixed. -/
def Block.without (block : Block) (choices : Choices) : Block :=
  { block with vars := block.vars.filter fun v => (choices v).isNone }

/-- The truth of the formula with some variables fixed and taken out of their blocks. -/
def Circuit.truthFixing (c : Circuit) (output : Literal) (choices : Choices) : Bool :=
  Quantifier.ex.overVars
    (Block.close (fun σ => c.meaning output (σ.fix choices)) (c.blocks.map (·.without choices)))
    c.freeVariables fun _ => false

theorem ReadsOnly.fix {f : Assignment → Bool} (reads : ReadsOnly f relevant) (choices : Choices) :
    ReadsOnly (fun σ => f (σ.fix choices)) fun v => relevant v ∧ choices v = none := by
  intro σ τ agree
  refine reads _ _ fun v isRelevant => ?_
  unfold Assignment.fix
  cases fixed : choices v with
  | none => simpa using agree v ⟨isRelevant, fixed⟩
  | some value => rfl

namespace Circuit

variable {c m n : Circuit} {out r s : Literal} {choices : Choices} {v : Nat}

theorem map_without_eq_self {blocks : List Block}
    (open_ : ∀ block ∈ blocks, ∀ v ∈ block.vars, choices v = none) :
    blocks.map (·.without choices) = blocks := by
  conv => rhs; rw [← List.map_id blocks]
  refine List.map_congr_left fun block present => ?_
  rw [Block.without, List.filter_eq_self.mpr fun v member => by simp [open_ block present v member]]
  rfl

theorem truthFixing_none (c : Circuit) (out : Literal) : c.truthFixing out .none = c.truth out := by
  have blocks : c.blocks.map (·.without .none) = c.blocks :=
    map_without_eq_self fun _ _ _ _ => rfl
  unfold truthFixing truth
  rw [blocks]
  rfl

/-- The formula with some variables fixed is true iff some assignment makes it true. -/
theorem truthFixing_eq_true_iff (valid : c.WellFormed) (defined : c.Defines out)
    (choices : Choices) : c.truthFixing out choices = true ↔
      ∃ τ, Block.close (fun σ => c.meaning out (σ.fix choices))
        (c.blocks.map (·.without choices)) τ = true := by
  refine Quantifier.overVars_ex_of_readsOnly ?_ _
  have reads := Block.readsOnly_close ((readsOnly_meaning valid defined).fix choices)
    (c.blocks.map (·.without choices))
  refine reads.mono fun v ⟨⟨range, open_⟩, outside⟩ => mem_freeVariables.mpr ⟨range, ?_⟩
  intro block present member
  refine outside (block.without choices) (List.mem_map.mpr ⟨block, present, rfl⟩) ?_
  exact List.mem_filter.mpr ⟨member, by simp [open_]⟩

theorem truthFixing_congr (valid : c.WellFormed) (defined : c.Defines out) {others : Choices}
    (same : ∀ v, 0 < v → v < c.maxVar → choices v = others v) :
    c.truthFixing out choices = c.truthFixing out others := by
  have output : (fun σ : Assignment => c.meaning out (σ.fix choices)) =
      fun σ => c.meaning out (σ.fix others) := by
    funext σ
    refine readsOnly_meaning valid defined _ _ fun v ⟨positive, below⟩ => ?_
    rw [Assignment.fix, Assignment.fix, same v positive below]
  have blocks : c.blocks.map (·.without choices) = c.blocks.map (·.without others) := by
    refine List.map_congr_left fun block present => ?_
    have vars : block.vars.filter (fun v => (choices v).isNone) =
        block.vars.filter fun v => (others v).isNone :=
      List.filter_congr fun v member => by
        obtain ⟨positive, below⟩ := valid.block_lt block present v member
        rw [same v positive below]
    rw [Block.without, Block.without, vars]
  rw [truthFixing, truthFixing, output, blocks]

theorem inner_open (valid : c.WellFormed) {block : Block} {rest : List Block}
    (blocks : c.blocks = block :: rest) (only : ∀ v, (choices v).isSome → v ∈ block.vars) :
    ∀ other ∈ rest, ∀ v ∈ other.vars, choices v = none := by
  intro other present v member
  have distinct := valid.block_nodup
  rw [blocks, List.flatMap_cons] at distinct
  rw [← Option.not_isSome_iff_eq_none]
  intro made
  exact (List.nodup_append.mp distinct).2.2 v (only v made) v
    (List.mem_flatMap.mpr ⟨other, present, member⟩) rfl

/-- If the outermost block is fixed as a whole, the other blocks are left. -/
theorem truthFixing_outermost (valid : c.WellFormed) (defined : c.Defines out) {block : Block}
    {rest : List Block} (blocks : c.blocks = block :: rest)
    (all : ∀ v, (choices v).isSome ↔ v ∈ block.vars) : c.truthFixing out choices = true ↔
      ∃ τ : Assignment, Block.close (c.meaning out) rest (τ.fix choices) = true := by
  have open_ := inner_open valid blocks fun v => (all v).mp
  have first : (block.without choices).vars = [] := by
    refine List.filter_eq_nil_iff.mpr fun v member => ?_
    obtain ⟨value, made⟩ := Option.isSome_iff_exists.mp ((all v).mpr member)
    simp [made]
  have left (σ : Assignment) : Block.close (fun τ => c.meaning out (τ.fix choices))
      (c.blocks.map (·.without choices)) σ = Block.close (c.meaning out) rest (σ.fix choices) := by
    rw [blocks, List.map_cons, Block.close, first, map_without_eq_self open_,
      Block.close_fix _ _ open_]
    rfl
  simp only [truthFixing_eq_true_iff valid defined, left]

/-- A circuit derived from another one. Variables may have new numbers, zero if they are
dropped, but keep their names, and fixing some of them has the same effect on the truth. -/
structure Transports (c : Circuit) (out : Literal) (m : Circuit) (r : Literal)
    (place : Nat → Nat) : Prop where
  valid : m.WellFormed
  output : m.output? = some r
  zero : place 0 = 0
  lt_maxVar : ∀ v, v < c.maxVar → place v < m.maxVar
  onto : ∀ p, 0 < p → p < m.maxVar → ∃ v, 0 < v ∧ v < c.maxVar ∧ place v = p
  nameOf_eq : ∀ v : Nat, v < c.maxVar → place v ≠ 0 → m.nameOf (place v) = c.nameOf v
  truthFixing_eq : ∀ choices : Choices, choices 0 = none →
    m.truthFixing r choices = c.truthFixing out fun v => choices (place v)

theorem transports_self (valid : c.WellFormed) (output : c.output? = some out) :
    Transports c out c out id where
  valid := valid
  output := output
  zero := rfl
  lt_maxVar := fun _ below => below
  onto := fun p positive below => ⟨p, positive, below, rfl⟩
  nameOf_eq := fun _ _ _ => rfl
  truthFixing_eq := fun _ _ => rfl

theorem Transports.trans {place further : Nat → Nat} (first : Transports c out m r place)
    (second : Transports m r n s further) : Transports c out n s (further ∘ place) where
  valid := second.valid
  output := second.output
  zero := by rw [Function.comp_apply, first.zero, second.zero]
  lt_maxVar := fun v below => second.lt_maxVar _ (first.lt_maxVar v below)
  onto := by
    intro p positive below
    obtain ⟨q, positiveQ, belowQ, rfl⟩ := second.onto p positive below
    obtain ⟨v, positiveV, belowV, rfl⟩ := first.onto q positiveQ belowQ
    exact ⟨v, positiveV, belowV, rfl⟩
  nameOf_eq := by
    intro v below kept
    have keptFirst : place v ≠ 0 := fun zero => kept (by
      rw [Function.comp_apply, zero, second.zero])
    rw [← first.nameOf_eq v below keptFirst]
    exact second.nameOf_eq _ (first.lt_maxVar v below) kept
  truthFixing_eq := by
    intro choices zero
    rw [second.truthFixing_eq choices zero,
      first.truthFixing_eq (fun v => choices (further v)) (by rw [second.zero, zero])]
    rfl

theorem Transports.truth_eq {place : Nat → Nat} (transports : Transports c out m r place) :
    m.truth r = c.truth out := by
  rw [← truthFixing_none, transports.truthFixing_eq .none rfl, ← truthFixing_none]
  rfl

theorem transports_of_close_eq (valid : m.WellFormed) (before : c.WellFormed)
    (defined : c.Defines out) (output : m.output? = some r) (maxVar_eq : m.maxVar = c.maxVar)
    (nameOf_eq : ∀ v : Nat, v < c.maxVar → m.nameOf v = c.nameOf v)
    (close_eq : ∀ choices : Choices,
      Block.close (fun σ => m.meaning r (σ.fix choices)) (m.blocks.map (·.without choices)) =
        Block.close (fun σ => c.meaning out (σ.fix choices)) (c.blocks.map (·.without choices))) :
    Transports c out m r id where
  valid := valid
  output := output
  zero := rfl
  lt_maxVar := fun _ below => maxVar_eq ▸ below
  onto := fun p positive below => ⟨p, positive, maxVar_eq ▸ below, rfl⟩
  nameOf_eq := fun v below _ => nameOf_eq v below
  truthFixing_eq := by
    intro choices _
    rw [Bool.eq_iff_iff, truthFixing_eq_true_iff valid (valid.output_lt r output), close_eq,
      ← truthFixing_eq_true_iff before defined]
    rfl

end Circuit

end QuantCircuit
