import QuantCircuit.Proofs.Circuit.Fixing
import QuantCircuit.Proofs.Solver.Closing

namespace QuantCircuit.Solver

open Diagram

variable {c : Circuit} {d : Diagram} {f : Handle} {g : Assignment → Bool} {s t : Solver}
variable {block : Block} {rest : List Block}

/-- If the inner blocks are quantified and no free variable is looked at, the variables of
the outermost block are left. -/
theorem readsOnly_outermost (reads : ReadsOnly g fun v => 0 < v ∧ v < c.maxVar)
    (blocks : c.blocks = block :: rest)
    (free : ∀ v : Nat, c.quantifierOf? (v : Literal) = none → Ignores (Block.close g rest) v) :
    ReadsOnly (Block.close g rest) (· ∈ block.vars) := by
  have inner := Block.readsOnly_close reads rest
  have ignored : ∀ v ∈ c.freeVariables, Ignores (Block.close g rest) v := by
    intro v member
    exact free v (Circuit.quantifierOf?_eq_none_iff.mpr (Circuit.mem_freeVariables.mp member).2)
  refine (inner.of_ignores_list ignored).mono ?_
  rintro v ⟨⟨range, outside⟩, bound⟩
  refine Classical.byContradiction fun absent => bound ?_
  refine Circuit.mem_freeVariables.mpr ⟨range, fun other present => ?_⟩
  rw [blocks] at present
  rcases List.mem_cons.mp present with rfl | later
  · exact absent
  · exact outside other later

theorem free_ignored_of_not_entangled (blocks : c.blocks = block :: rest)
    (universal : block.quantifier = .all) (open_ : ¬ Entangled c g) (v : Nat)
    (absent : c.quantifierOf? (v : Literal) = none) : Ignores (Block.close g rest) v := by
  refine Classical.byContradiction fun looks => open_ ?_
  exact (entangled_cons_iff blocks).mpr ⟨universal, v, absent, looks⟩

/-- A function of the variables of a universal block is true with them quantified iff it
is never false. -/
theorem exists_close_all_iff (blocks : c.blocks = block :: rest)
    (universal : block.quantifier = .all)
    (reads : ReadsOnly (Block.close g rest) (· ∈ block.vars)) :
    (∃ τ, Block.close g c.blocks τ = true) ↔ ∀ σ, Block.close g rest σ = true := by
  rw [blocks]
  simp only [Block.close, universal]
  constructor
  · rintro ⟨τ, holds⟩ σ
    have everywhere := (Quantifier.overVars_all_iff ..).mp holds
    have agree : τ.AgreeOff block.vars fun v => if v ∈ block.vars then σ v else τ v := by
      intro v outside
      simp [outside]
    rw [← everywhere _ agree]
    apply reads
    intro v member
    simp [member]
  · intro everywhere
    exact ⟨fun _ => false, (Quantifier.overVars_all_iff ..).mpr fun τ _ => everywhere τ⟩

theorem exists_close_ex_iff (blocks : c.blocks = block :: rest)
    (existential : block.quantifier = .ex) :
    (∃ τ, Block.close g c.blocks τ = true) ↔ ∃ σ, Block.close g rest σ = true := by
  rw [blocks]
  simp only [Block.close, existential, Quantifier.overVars_ex_iff]
  constructor
  · rintro ⟨_, τ, _, holds⟩
    exact ⟨τ, holds⟩
  · rintro ⟨σ, holds⟩
    exact ⟨σ, σ, .refl _ σ, holds⟩

/-- The outermost quantifier gets its way on a function that takes its decisive value. -/
theorem truth_iff_exists_decisive (reads : ReadsOnly g fun v => 0 < v ∧ v < c.maxVar)
    (blocks : c.blocks = block :: rest) (open_ : ¬ Entangled c g) :
    ((∃ τ, Block.close g c.blocks τ = true) ↔ block.quantifier = .ex) ↔
      ∃ σ, Block.close g rest σ = block.quantifier.decisive := by
  cases kind : block.quantifier with
  | all =>
    have outermost := readsOnly_outermost reads blocks
      (free_ignored_of_not_entangled blocks kind open_)
    rw [exists_close_all_iff blocks kind outermost]
    simp [Quantifier.decisive]
  | ex =>
    rw [exists_close_ex_iff blocks kind]
    simp [Quantifier.decisive]

theorem verdictOf_iff (valid : d.Valid) (reads : ReadsOnly g fun v => 0 < v ∧ v < c.maxVar)
    (remains : Remains c g d f) :
    verdictOf c f = true ↔ ∃ τ, Block.close g c.blocks τ = true := by
  obtain ⟨holds, ⟨_, value, rfl, settled⟩ | ⟨block, rest, blocks, open_, value⟩⟩ := remains
  · exact settled
  · cases f with
    | const b =>
      have same : Block.close g rest = fun _ => b := funext fun σ => by rw [← value, value_const]
      simp only [blocks, Block.close, same, Quantifier.overVars_const]
      simp [verdictOf, Handle.asConstant]
    | node index =>
      obtain ⟨σ, reached⟩ := valid.exists_value holds block.quantifier.decisive (by simp)
      have truth := (truth_iff_exists_decisive reads blocks open_).mpr ⟨σ, value σ ▸ reached⟩
      rw [truth]
      simp [verdictOf, Handle.asConstant, blocks]

end QuantCircuit.Solver
