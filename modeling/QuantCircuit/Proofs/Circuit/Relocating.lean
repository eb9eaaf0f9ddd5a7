import QuantCircuit.Proofs.Circuit.Keeping
import QuantCircuit.Proofs.Circuit.Transport

namespace QuantCircuit

theorem Quantifier.overVars_filter (q : Quantifier) {f : Assignment → Bool} {p : Nat → Bool}
    (ignored : ∀ v ∈ vars, p v = false → Ignores f v) :
    q.overVars f (vars.filter p) = q.overVars f vars := by
  induction vars with
  | nil => rfl
  | cons v rest ih =>
    have inner := ih fun w member => ignored w (by simp [member])
    funext σ
    cases kept : p v with
    | true =>
      rw [List.filter_cons_of_pos kept, overVars, overVars, inner]
    | false =>
      have still := q.ignores_overVars (ignored v (by simp) kept) rest
      rw [List.filter_cons_of_neg (by simp [kept]), overVars, inner]
      simp only [still σ, overBool_const]

namespace Circuit

variable {c : Circuit} {n : Numbering} {out : Literal} {choices : Choices} {v id : Nat}

theorem place_ne_zero_of_occurs (fits : n.Fits c) (occurs : c.Occurs v id)
    (kept : n.place id ≠ 0) : n.place v ≠ 0 := by
  induction occurs with
  | leaf _ _ => exact kept
  | input found member _ _ ih => exact ih (fits.inputs _ _ found kept _ member)

theorem vars_block_without (n : Numbering) (block : Block) (choices : Choices) :
    ((n.block block).without choices).vars =
      ((block.without fun v => choices (n.place v)).vars.filter fun v => n.place v ≠ 0).map
        n.place := by
  simp only [Numbering.block, Block.without, List.filter_map, List.filter_filter]
  congr 1
  refine List.filter_congr fun v _ => ?_
  simp only [Function.comp_apply, Bool.and_comm]

theorem close_renumber (fits : n.Fits c) {f g : Assignment → Bool}
    (same : ∀ τ, f τ = g fun v => τ (n.place v)) (dropped : ∀ v, n.place v = 0 → Ignores g v)
    (choices : Choices) (blocks : List Block) (τ : Assignment) :
    Block.close f (((blocks.map n.block).filter (!·.vars.isEmpty)).map (·.without choices)) τ =
      Block.close g (blocks.map (·.without fun v => choices (n.place v)))
        fun v => τ (n.place v) := by
  induction blocks generalizing τ with
  | nil => exact same τ
  | cons block rest ih =>
    let before := block.without fun v => choices (n.place v)
    let inner := rest.map (·.without fun v => choices (n.place v))
    have kept : block.quantifier.overVars (Block.close g inner)
        (before.vars.filter fun v => n.place v ≠ 0) =
        block.quantifier.overVars (Block.close g inner) before.vars := by
      refine block.quantifier.overVars_filter fun v _ zero => ?_
      exact Block.ignores_close (dropped v (by simpa using zero)) inner
    have apart : ∀ v ∈ before.vars.filter (fun v => n.place v ≠ 0), ∀ w,
        n.place w = n.place v → w = v := by
      intro v member w equal
      have nonzero : n.place v ≠ 0 := by simpa using (List.mem_filter.mp member).2
      exact fits.injective w v equal (equal ▸ nonzero)
    have renamed := block.quantifier.overVars_rename ih apart τ
    rw [kept, ← vars_block_without] at renamed
    rw [List.map_cons, List.filter_cons]
    split
    · exact renamed
    · rename_i empty
      have none : (n.block block).vars = [] := by simpa using empty
      have nothing : ((n.block block).without choices).vars = [] := by
        rw [Block.without, none]
        rfl
      rw [nothing] at renamed
      exact renamed

/-- Every assignment to what is kept comes from one to the new numbers. -/
theorem exists_renumbered (fits : n.Fits c) (σ : Assignment) :
    ∃ τ : Assignment, ∀ v, n.place v ≠ 0 → τ (n.place v) = σ v := by
  classical
  refine ⟨fun p => decide (∃ v, n.place v = p ∧ σ v = true), fun v kept => ?_⟩
  rw [Bool.eq_iff_iff, decide_eq_true_iff]
  constructor
  · rintro ⟨w, equal, value⟩
    exact fits.injective v w equal.symm kept ▸ value
  · intro value
    exact ⟨v, rfl, value⟩

/-- New numbers that fit transport the formula. -/
theorem transports_renumber (valid : c.WellFormed) (fits : n.Fits c)
    (output : c.output? = some out) :
    Transports c out (c.renumber n) (n.literal out) n.place := by
  have validNew := wellFormed_renumber valid fits
  have outputNew := output_renumber n output
  have defined := valid.output_lt out output
  have kept := fits.output out output
  refine ⟨validNew, outputNew, fits.zero, fits.variable_lt, ?_, ?_, ?_⟩
  · intro p positive below
    obtain ⟨v, small, rfl⟩ := fits.onto p positive below
    refine ⟨v, Nat.pos_of_ne_zero fun zero => ?_, small, rfl⟩
    rw [zero, fits.zero] at positive
    exact Nat.lt_irrefl 0 positive
  · intro v below nonzero
    have positive : 0 < v := Nat.pos_of_ne_zero fun zero => nonzero (zero ▸ fits.zero)
    exact nameOf_renumber valid fits positive (Nat.lt_of_lt_of_le below (Nat.le_add_right ..)) nonzero
  · intro choices zero
    let old : Choices := fun v => choices (n.place v)
    have same (τ : Assignment) : (c.renumber n).meaning (n.literal out) (τ.fix choices) =
        c.meaning out (Assignment.fix (fun v => τ (n.place v)) old) :=
      meaning_renumber valid fits defined kept _
    have reads : ReadsOnly (fun σ => c.meaning out (σ.fix old)) fun v => n.place v ≠ 0 :=
      ((readsOnly_meaning_occurs valid defined).fix old).mono fun v facts =>
        place_ne_zero_of_occurs fits facts.1 kept
    have closed := close_renumber fits same
      (fun v dropped => reads.ignores (not_not_intro dropped)) choices c.blocks
    rw [Bool.eq_iff_iff, truthFixing_eq_true_iff validNew (validNew.output_lt _ outputNew),
      truthFixing_eq_true_iff valid defined]
    constructor
    · rintro ⟨τ, reached⟩
      exact ⟨_, (closed τ).symm.trans reached⟩
    · rintro ⟨σ, reached⟩
      obtain ⟨τ, agree⟩ := exists_renumbered fits σ
      refine ⟨τ, (closed τ).trans (Eq.trans ?_ reached)⟩
      exact Block.readsOnly_close reads _ _ _ fun v facts => agree v facts.1

end Circuit

end QuantCircuit
