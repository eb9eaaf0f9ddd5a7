import QuantCircuit.CommandLine.Run
import QuantCircuit.Proofs.Edit.Operating

namespace QuantCircuit.CommandLine

open Circuit

variable {settings : Settings} {c d m : Circuit} {out : Literal} {pass : Pass} {passes : List Pass}

/-- Passes in place compute what they do out of place, one after the other. -/
theorem foldlM_of_passed (stands : c.Stands)
    (passed : (passes.forM (·.edit .checked) : Edit Unit) c = (.ok (), m)) :
    passes.foldlM (fun c pass => pass.apply c) c = .ok m := by
  induction passes generalizing c with
  | nil =>
    obtain rfl : c = m := congrArg Prod.snd passed
    rfl
  | cons pass rest ih =>
    rw [List.forM_eq_forM, List.forM_cons, ← List.forM_eq_forM] at passed
    cases pass.performs .checked stands with
    | refuses fault given failed left =>
      rw [run_bind_of_error left] at passed
      exact absurd (congrArg Prod.fst passed) (by simp)
    | rewrites next absent succeeded edited stands =>
      rw [run_bind_of_ok edited] at passed
      rw [List.foldlM_cons, succeeded]
      exact ih stands passed

theorem foldlM_of_transformed (stands : c.Stands) (transformed : transform settings c = .ok m) :
    ∃ d, settings.rearrangements.foldlM (fun c pass => pass.apply c) c = .ok d ∧
      settings.descents.foldlM (fun c pass => pass.apply c) d = .ok m := by
  unfold transform at transformed
  split at transformed
  · rename_i ended
    obtain rfl := Except.ok.inj transformed
    have folded := foldlM_of_passed stands ended
    rw [List.foldlM_append] at folded
    exact exists_of_bind_eq_ok folded
  · cases transformed

theorem transports_rearrangement (valid : c.WellFormed) (output : c.output? = some out)
    (listed : pass ∈ settings.rearrangements) (applied : pass.apply c = .ok m) :
    ∃ r place, Transports c out m r place := by
  cases pass with
  | splitBlocks =>
    exact ⟨out, id, Except.ok.inj applied ▸ transports_splitBlocks valid output⟩
  | combineBlocks =>
    exact ⟨out, id, Except.ok.inj applied ▸ transports_combineBlocks valid output⟩
  | flatten =>
    obtain ⟨n, computed, transports⟩ := transports_flatten valid output
    obtain rfl := Except.ok.inj (computed.symm.trans applied)
    exact ⟨out, id, transports⟩
  | cleanup => exact transports_cleanup valid output applied
  | reorderByTraversal =>
    obtain ⟨n, r, place, computed, transports⟩ := transports_reorderByTraversal valid output
    obtain rfl := Except.ok.inj (computed.symm.trans applied)
    exact ⟨r, place, transports⟩
  | reorderByAppearance =>
    exact Except.ok.inj applied ▸ transports_reorderByAppearance valid output
  | cleanupGates | blocksToGates | miniscope =>
    rcases order : settings.reorder with _ | _ | _ <;>
      simp [Settings.rearrangements, order] at listed

theorem transports_rearrangements (valid : c.WellFormed) (output : c.output? = some out)
    (passed : settings.rearrangements.foldlM (fun c pass => pass.apply c) c = .ok m) :
    ∃ r place, Transports c out m r place := by
  refine foldlM_induction_mem (fun d => ∃ r place, Transports c out d r place) ?_
    ⟨out, id, transports_self valid output⟩ passed
  intro pass listed d n before applied
  obtain ⟨r, place, first⟩ := before
  obtain ⟨s, further, second⟩ := transports_rearrangement first.valid first.output listed applied
  exact ⟨s, _, first.trans second⟩

theorem collapses_descent (valid : c.WellFormed) (output : c.output? = some out)
    (listed : pass ∈ settings.descents) (applied : pass.apply c = .ok m) :
    Collapses c m out := by
  cases pass with
  | blocksToGates =>
    obtain ⟨n, computed, collapses⟩ := collapses_blocksToGates valid output
    exact Except.ok.inj (computed.symm.trans applied) ▸ collapses
  | miniscope =>
    obtain ⟨n, computed, collapses, _⟩ := miniscope_spec valid output
    exact Except.ok.inj (computed.symm.trans applied) ▸ collapses
  | _ => simp [Settings.descents] at listed

/-- Moving inner blocks into the gates leaves the circuit alone, or collapses its blocks. -/
theorem condenses_descents (valid : c.WellFormed) (output : c.output? = some out)
    (passed : settings.descents.foldlM (fun c pass => pass.apply c) c = .ok m) :
    ∃ r, Condenses c out m r := by
  have either : m = c ∨ Collapses c m out := by
    refine foldlM_induction_mem (fun d => d = c ∨ Collapses c d out) ?_ (.inl rfl) passed
    intro pass listed d n before applied
    rcases before with rfl | first
    · exact .inr (collapses_descent valid output listed applied)
    · obtain ⟨r, given, _⟩ := first.output
      exact .inr (first.trans given (collapses_descent first.valid given listed applied))
  rcases either with rfl | collapses
  · exact ⟨out, condenses_self valid output⟩
  · obtain ⟨r, given, _⟩ := collapses.output
    exact ⟨r, collapses.condenses valid (valid.output_lt out output) given⟩

/-- A transformed circuit comes from a transported one whose inner blocks may have moved. -/
theorem transform_spec (stands : c.Stands) (output : c.output? = some out)
    (transformed : transform settings c = .ok m) :
    ∃ d r place s, Transports c out d r place ∧ Condenses d r m s := by
  obtain ⟨d, rearranged, moved⟩ := foldlM_of_transformed stands transformed
  obtain ⟨r, place, transports⟩ := transports_rearrangements stands.valid output rearranged
  obtain ⟨s, condenses⟩ := condenses_descents transports.valid transports.output moved
  exact ⟨d, r, place, s, transports, condenses⟩

end QuantCircuit.CommandLine
