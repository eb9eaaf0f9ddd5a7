import QuantCircuit.Edit.Operation
import QuantCircuit.Proofs.Circuit.Flattening
import QuantCircuit.Proofs.Circuit.Rearranging
import QuantCircuit.Proofs.Circuit.Reordering
import QuantCircuit.Proofs.Edit.Checking
import QuantCircuit.Proofs.Edit.Unnesting

namespace QuantCircuit

/-- A well-formed circuit with an entry in its table of names. The first entry belongs to no
identifier, and so well-formedness does not ask for it as long as nothing is declared. -/
structure Circuit.Stands (c : Circuit) : Prop where
  valid : c.WellFormed
  named : 0 < c.names.size

/-- Work in place either refuses the circuit and leaves it alone, or makes of it what was
computed. -/
inductive Performs (work : Edit Unit) (c : Circuit) (computed : Except Error Circuit)
    (reason : Prop) : Prop
  | refuses (fault : StructuralFault) (given : reason)
      (failed : computed = .error (.structural fault))
      (left : work c = (.error (.structural fault), c))
  | rewrites (m : Circuit) (absent : ¬ reason) (succeeded : computed = .ok m)
      (edited : work c = (.ok (), m)) (stands : m.Stands)

theorem Performs.edited_of_ok {work : Edit Unit} {c m : Circuit} {computed : Except Error Circuit}
    {reason : Prop} (performs : Performs work c computed reason) (succeeded : computed = .ok m) :
    work c = (.ok (), m) := by
  cases performs with
  | refuses _ _ failed _ => exact absurd (failed.symm.trans succeeded) (by simp)
  | rewrites _ _ computed edited _ => exact Except.ok.inj (computed.symm.trans succeeded) ▸ edited

namespace Circuit

variable {c m : Circuit} {n : Numbering} {out : Literal} {first : List Nat}
variable {arithmetic : Arithmetic}

theorem stands_new (name : String) : Stands { name } :=
  ⟨wellFormed_empty name, Nat.one_pos⟩

theorem performs_splitBlocks (stands : c.Stands) :
    Performs Edit.splitBlocks c (.ok c.splitBlocks) False :=
  .rewrites c.splitBlocks not_false rfl rfl ⟨wellFormed_splitBlocks stands.valid, stands.named⟩

theorem performs_combineBlocks (stands : c.Stands) :
    Performs Edit.combineBlocks c (.ok c.combineBlocks) False :=
  .rewrites c.combineBlocks not_false rfl rfl ⟨wellFormed_combineBlocks stands.valid, stands.named⟩

theorem performs_flatten (stands : c.Stands) :
    Performs (Edit.flatten arithmetic) c c.flatten (c.output? = none) := by
  cases output : c.output? with
  | none =>
    refine .refuses .noOutput rfl (by rw [flatten, Circuit.output, output]; rfl) ?_
    unfold Edit.flatten
    rw [run_get, run_lift_of_error (definedOutput_eq_error output)]
  | some out =>
    have rewrites := rewrites_flattenGates (c.cone out) (List.range c.gates.size) stands.valid
    refine .rewrites _ (by simp) (flatten_eq output) ?_
      ⟨rewrites.valid, rewrites.names_eq ▸ stands.named⟩
    exact run_flatten stands.valid.layered output (stands.valid.output_lt out output) arithmetic

theorem run_renumber (fits : n.Fits c) : Edit.renumber n c = (.ok (), c.renumber n) := by
  unfold Edit.renumber
  rw [run_get, run_lift_of_ok (check_eq_ok fits)]
  rfl

theorem stands_renumber (stands : c.Stands) (fits : n.Fits c) : (c.renumber n).Stands :=
  ⟨wellFormed_renumber stands.valid fits, stands.named⟩

theorem performs_cleanup (stands : c.Stands) :
    Performs (Edit.cleanup arithmetic) c c.cleanup
      (c.output? = none ∨ c.hasQuantifierGates = true) := by
  cases prenex : c.hasQuantifierGates with
  | true =>
    refine .refuses .cleanupNeedsPrenex (.inr rfl) ?_ ?_
    · rw [cleanup, if_pos prenex]
      rfl
    · unfold Edit.cleanup
      rw [run_get, if_pos prenex]
      rfl
  | false =>
    cases output : c.output? with
    | none =>
      obtain ⟨failed, left⟩ := reachable_of_no_output output
      refine .refuses .noOutput (.inl rfl) ?_ ?_
      · rw [cleanup, if_neg (by simp [prenex]), failed]
        rfl
      · unfold Edit.cleanup
        rw [run_get, if_neg (by simp [prenex])]
        exact run_bind_of_error left
    | some out =>
      obtain ⟨marked, reached, reachable⟩ := reachable_spec stands.valid output
      obtain ⟨marks, numbered, closed, _⟩ := reachable.numbering_eq stands.valid output
      have fits := closed.fits stands.valid
      have prenex : ¬ c.hasQuantifierGates = true := by simp [prenex]
      refine .rewrites (c.renumber (c.keeping marks)) (by simp) ?_ ?_ (stands_renumber stands fits)
      · rw [cleanup, if_neg prenex, reached, ← numbered]
        rfl
      unfold Edit.cleanup
      rw [run_get, if_neg prenex]
      refine (run_bind_of_ok (run_reachable stands.valid output reached)).trans ?_
      rw [run_get, numbered]
      exact run_renumber fits

theorem performs_cleanupGates (stands : c.Stands) :
    Performs (Edit.cleanupGates arithmetic) c c.cleanupGates (c.output? = none) := by
  cases output : c.output? with
  | none =>
    obtain ⟨failed, left⟩ := reachable_of_no_output output
    refine .refuses .noOutput rfl ?_ (run_bind_of_error left)
    rw [cleanupGates, failed]
    rfl
  | some out =>
    obtain ⟨marked, reached, reachable⟩ := reachable_spec stands.valid output
    obtain ⟨marks, numbered, closed, _⟩ := reachable.numbering_gates_eq stands.valid output
    have fits := closed.fits stands.valid
    refine .rewrites (c.renumber (c.keeping marks)) (by simp) ?_ ?_ (stands_renumber stands fits)
    · rw [cleanupGates, reached, ← numbered]
      rfl
    refine (run_bind_of_ok (run_reachable stands.valid output reached)).trans ?_
    rw [run_get, numbered]
    exact run_renumber fits

theorem run_reorderVariables (stands : c.Stands) (lists : c.Lists first) :
    Edit.reorderVariables first c = (.ok (), c.reorderVariables first) := by
  unfold Edit.reorderVariables
  rw [run_get, run_bind_of_ok (run_renumber (lists.fits stands.valid))]
  rfl

theorem performs_reorderByTraversal (stands : c.Stands) :
    Performs (Edit.reorderByTraversal arithmetic) c c.reorderByTraversal (c.output? = none) := by
  unfold Edit.reorderByTraversal reorderByTraversal
  cases output : c.output? with
  | none =>
    refine .refuses .noOutput rfl (by rw [Circuit.output, output]; rfl) ?_
    exact run_bind_of_error (metVariables_of_no_output output arithmetic)
  | some out =>
    have lists := lists_traversalOrder stands.valid (stands.valid.output_lt out output)
    refine .rewrites _ (by simp) (by rw [Circuit.output, output]; rfl) ?_
      ⟨wellFormed_reorderVariables stands.valid lists, stands.named⟩
    have defined := stands.valid.output_lt out output
    have met := run_metVariables stands.valid.layered output defined arithmetic
    exact (run_bind_of_ok met).trans (run_reorderVariables stands lists)

theorem performs_reorderByAppearance (stands : c.Stands) :
    Performs (Edit.reorderByAppearance arithmetic) c (.ok c.reorderByAppearance) False := by
  have lists := lists_appearanceOrder stands.valid
  refine .rewrites _ not_false rfl ?_ ⟨wellFormed_reorderVariables stands.valid lists, stands.named⟩
  unfold Edit.reorderByAppearance
  rw [run_get, run_lift_of_ok (checkInputs_eq_ok stands.valid arithmetic)]
  exact run_reorderVariables stands lists

end Circuit

end QuantCircuit
