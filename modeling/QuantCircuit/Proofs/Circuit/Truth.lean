import QuantCircuit.Proofs.Circuit.Interpretation

namespace QuantCircuit

/-- If a function reads listed variables only, quantifying these existentially asks for
any assignment that makes it true. -/
theorem Quantifier.overVars_ex_of_readsOnly {vars : List Nat} (reads : ReadsOnly f (· ∈ vars))
    (σ : Assignment) : ex.overVars f vars σ = true ↔ ∃ τ, f τ = true := by
  rw [overVars_ex_iff]
  constructor
  · rintro ⟨τ, _, reached⟩
    exact ⟨τ, reached⟩
  · rintro ⟨τ, reached⟩
    refine ⟨fun v => if v ∈ vars then τ v else σ v, ?_, ?_⟩
    · intro v outside
      simp [outside]
    · rw [← reached]
      apply reads
      intro v member
      simp [member]

namespace Circuit

variable {c : Circuit} {v : Nat}

theorem block_has_iff {block : Block} :
    (block.vars.any fun w => (w : Literal) == (v : Literal)) = true ↔ v ∈ block.vars := by
  rw [List.any_eq_true]
  constructor
  · rintro ⟨w, member, same⟩
    have equal : (w : Int) = v := by simpa using same
    exact Int.ofNat_inj.mp equal ▸ member
  · intro member
    exact ⟨v, member, by simp⟩

theorem quantifierOf?_eq_none_iff :
    c.quantifierOf? (v : Literal) = none ↔ ∀ block ∈ c.blocks, v ∉ block.vars := by
  simp only [quantifierOf?, Option.map_eq_none_iff, List.find?_eq_none, block_has_iff]

theorem exists_block (valid : c.WellFormed) (found : c.quantifierOf? (v : Literal) = some q) :
    ∃ before block after, c.blocks = before ++ block :: after ∧ block.quantifier = q ∧
      v ∈ block.vars ∧ (∀ other ∈ before, v ∉ other.vars) ∧ ∀ other ∈ after, v ∉ other.vars := by
  rw [quantifierOf?, Option.map_eq_some_iff] at found
  obtain ⟨block, located, kind⟩ := found
  obtain ⟨has, before, after, split, earlier⟩ := List.find?_eq_some_iff_append.mp located
  have member : v ∈ block.vars := block_has_iff.mp has
  refine ⟨before, block, after, split, kind, member, fun other listed inside => ?_, ?_⟩
  · have missing := earlier other listed
    simp [block_has_iff.mpr inside] at missing
  · intro other listed inside
    have distinct := valid.block_nodup
    rw [split, List.flatMap_append, List.flatMap_cons] at distinct
    have apart := (List.nodup_append.mp (List.nodup_append.mp distinct).2.1).2.2
    exact apart v member v (List.mem_flatMap.mpr ⟨other, listed, inside⟩) rfl

theorem quantifierOf?_eq_some_iff (valid : c.WellFormed) :
    c.quantifierOf? (v : Literal) = some q ↔
      ∃ block ∈ c.blocks, v ∈ block.vars ∧ block.quantifier = q := by
  constructor
  · intro found
    obtain ⟨_, block, _, split, kind, member, _⟩ := exists_block valid found
    exact ⟨block, by simp [split], member, kind⟩
  · rintro ⟨block, present, member, rfl⟩
    cases found : c.quantifierOf? (v : Literal) with
    | none => exact absurd member (quantifierOf?_eq_none_iff.mp found block present)
    | some q =>
      obtain ⟨before, own, after, split, rfl, _, absentBefore, absentAfter⟩ :=
        exists_block valid found
      rw [split, List.mem_append, List.mem_cons] at present
      rcases present with early | rfl | late
      · exact absurd member (absentBefore block early)
      · rfl
      · exact absurd member (absentAfter block late)

theorem mem_variables : v ∈ List.range' 1 (c.maxVar - 1) ↔ 0 < v ∧ v < c.maxVar := by
  rw [List.mem_range'_1]
  omega

theorem mem_freeVariables :
    v ∈ c.freeVariables ↔ (0 < v ∧ v < c.maxVar) ∧ ∀ block ∈ c.blocks, v ∉ block.vars := by
  rw [freeVariables, List.mem_filter, mem_variables, Option.isNone_iff_eq_none,
    quantifierOf?_eq_none_iff]

theorem readsOnly_close_free {f : Assignment → Bool}
    (reads : ReadsOnly f fun v => 0 < v ∧ v < c.maxVar) :
    ReadsOnly (Block.close f c.blocks) (· ∈ c.freeVariables) :=
  (Block.readsOnly_close reads c.blocks).mono fun _ facts => mem_freeVariables.mpr facts

/-- A formula is true iff some assignment makes the quantified output true. -/
theorem truth_eq_true_iff (valid : c.WellFormed) (defined : c.Defines out) :
    c.truth out = true ↔ ∃ τ, Block.close (c.meaning out) c.blocks τ = true :=
  Quantifier.overVars_ex_of_readsOnly (readsOnly_close_free (readsOnly_meaning valid defined)) _

end Circuit

end QuantCircuit
