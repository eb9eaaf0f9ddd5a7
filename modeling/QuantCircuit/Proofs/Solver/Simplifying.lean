import QuantCircuit.Proofs.Solver.Rounds

/-! Simplification on the way to an answer. What it fixes are good choices for the output's
function, and what was fixed before a failure stays harmless for the next attempt. -/

namespace QuantCircuit.Solver

open Diagram

variable {c : Circuit} {goal : Assignment → Bool} {s t : Solver} {f r : Handle} {v : Nat}
variable {stale choices : Choices} {made : List (Nat × Bool)}

/-- The values that simplification has fixed. -/
def choicesOf (s : Solver) : Choices := fun v => s.forced[v]?

/-- Only the diagram, the counters and the fixed values differ. The diagram is valid and
grows, and the fixed values do no harm to the function `goal`. -/
structure Chooses (c : Circuit) (goal : Assignment → Bool) (s t : Solver) : Prop where
  circuit_eq : t.circuit = s.circuit
  options_eq : t.options = s.options
  progress_eq : t.progress = s.progress
  outer_eq : t.outerAbstracted = s.outerAbstracted
  limit_eq : t.diagram.limit = s.diagram.limit
  valid : t.diagram.Valid
  grows : s.diagram.Grows t.diagram
  harmless : c.Harmless goal (choicesOf t)

/-- The function at hand is the goal with the choices made in this attempt; values fixed
by attempts before are still there. -/
structure Chosen (c : Circuit) (goal : Assignment → Bool) (stale choices : Choices) (f : Handle)
    (s : Solver) : Prop where
  circuit_eq : s.circuit = c
  valid : s.diagram.Valid
  holds : s.diagram.Holds f
  narrows : c.Narrows goal (s.diagram.value · f) choices
  layered : ∀ v, choicesOf s v = (choices v).or (stale v)

theorem Chosen.reaches (chosen : Chosen c goal stale choices f s) (wellFormed : c.WellFormed)
    (reaches : Reaches f s made r t) : ∃ more, Chosen c goal stale more r t := by
  obtain ⟨more, narrows, layered⟩ :=
    chosen.narrows.fixes (chosen.circuit_eq ▸ reaches.fixes) wellFormed
  refine ⟨more, reaches.circuit_eq.trans chosen.circuit_eq, reaches.valid, reaches.holds, narrows,
    fun v => ?_⟩
  rw [choicesOf, reaches.forced_eq, getElem?_record, layered, Option.or_assoc, ← chosen.layered]
  rfl

theorem Chosen.chooses (chosen : Chosen c goal stale choices f s) (wellFormed : c.WellFormed)
    (harmless : c.Harmless goal stale) (reaches : Reaches f s made r t) : Chooses c goal s t where
  circuit_eq := reaches.circuit_eq
  options_eq := reaches.options_eq
  progress_eq := reaches.progress_eq
  outer_eq := reaches.outer_eq
  limit_eq := reaches.grows.limit_eq
  valid := reaches.valid
  grows := reaches.grows
  harmless := by
    obtain ⟨more, later⟩ := chosen.reaches wellFormed reaches
    exact later.narrows.harmless_over harmless later.layered

/-- Rounds of simplification keep the choices good. -/
theorem works_rounds {settled : Handle → Solver → Prop}
    {round : Handle → Solve (Handle × Bool)} (settling : Settling settled round)
    (wellFormed : c.WellFormed) (harmless : c.Harmless goal stale)
    (chosen : Chosen c goal stale choices f s) :
    Works (Chooses c goal) (rounds round f) s fun r t =>
      ∃ choices, Chosen c goal stale choices r t := by
  refine Ensures.mono (settling.ensures (chosen.circuit_eq ▸ wellFormed) chosen.valid
    chosen.holds) ?_ ?_
  · rintro r t ⟨⟨made, reaches⟩, _⟩
    exact ⟨chosen.chooses wellFormed harmless reaches, chosen.reaches wellFormed reaches⟩
  · rintro error t ⟨⟨made, r, reaches⟩, exhausted⟩
    exact ⟨chosen.chooses wellFormed harmless reaches, exhausted⟩

theorem works_propagateUnits (wellFormed : c.WellFormed) (harmless : c.Harmless goal stale)
    (chosen : Chosen c goal stale choices f s) :
    Works (Chooses c goal) (propagateUnits f) s fun g t =>
      ∃ choices, Chosen c goal stale choices g t := by
  rw [propagateUnits_eq]
  exact works_rounds settling_unitRound wellFormed harmless chosen

theorem works_eliminatePure (wellFormed : c.WellFormed) (harmless : c.Harmless goal stale)
    (chosen : Chosen c goal stale choices f s) :
    Works (Chooses c goal) (eliminatePure f) s fun g t =>
      ∃ choices, Chosen c goal stale choices g t := by
  rw [eliminatePure_eq]
  exact works_rounds settling_pureRound wellFormed harmless chosen

end QuantCircuit.Solver
