import QuantCircuit.Proofs.Solver.Abreast
import QuantCircuit.Proofs.Solver.Preserving

/-! How a solver is tuned does not show in its answers. Compilation and elimination come to
functions that the circuit determines; all the rest only asks for functions. -/

namespace QuantCircuit.Solver

open Diagram

variable {c : Circuit} {out : Literal} {spare : Nat} {s s' t t' : Solver} {f g : Handle}

/-- Without a promise about room, any two changes of the tables and counters will do that leave
the numbers of fixed variables alone. -/
theorem Follows.keep (follows : Follows (none : Option (Reserve spare)) s t) (kept : Keeps s s')
    (keptRight : Keeps t t') (same : bystanders s' = bystanders s)
    (sameRight : bystanders t' = bystanders t) :
    Follows (none : Option (Reserve spare)) s' t' where
  circuit_eq := by rw [kept.circuit_eq, keptRight.circuit_eq, follows.circuit_eq]
  options_eq := by rw [kept.options_eq, keptRight.options_eq, ← follows.options_eq]
  fold_eq impossible := nomatch impossible
  forced_eq := by rw [kept.forced_eq, keptRight.forced_eq, follows.forced_eq]
  outer_eq := by rw [kept.outer_eq, keptRight.outer_eq, follows.outer_eq]
  paired := {
    left := kept.valid
    right := keptRight.valid
    within := fun _ impossible => nomatch impossible
    fits := fun impossible => nomatch impossible }
  tracks := {
    units_eq := by
      have units : s'.statistics.units = s.statistics.units := congrArg (·.2.2.1) same
      have unitsRight : t'.statistics.units = t.statistics.units := congrArg (·.2.2.1) sameRight
      rw [units, unitsRight, follows.tracks.units_eq]
    pures_eq := by
      have pures : s'.statistics.pures = s.statistics.pures := congrArg (·.2.2.2) same
      have puresRight : t'.statistics.pures = t.statistics.pures := congrArg (·.2.2.2) sameRight
      rw [pures, puresRight, follows.tracks.pures_eq]
    peak_le := fun impossible => nomatch impossible }

/-- Two runs that come to one function, each in its own way. -/
theorem coupled_of_works {roomy : Prop} {work other : Solve Handle} {h : Assignment → Bool}
    {rel rel' : Solver → Solver → Prop} (cramped : ¬ roomy) (first : Works rel work s fun f s' =>
      s'.diagram.Holds f ∧ ∀ σ, s'.diagram.value σ f = h σ)
    (second : Works rel' other t fun g t' =>
      t'.diagram.Holds g ∧ ∀ σ, t'.diagram.value σ g = h σ) :
    Coupled roomy work other s t fun f s' g t' => rel s s' ∧ rel' t t' ∧ Alike f s' g t' := by
  intro f s' ran
  obtain ⟨related, holds, value⟩ := first.of_ok ran
  apply Ensures.mono second ?_ fun _ _ _ roomy => absurd roomy cramped
  intro g t' facts
  obtain ⟨relatedRight, holdsRight, valueRight⟩ := facts
  exact ⟨related, relatedRight, holds, holdsRight, fun σ => (value σ).trans (valueRight σ).symm⟩

/-- Whatever the options, compilation comes to what the literal denotes. -/
theorem coupled_compileLiteral (wellFormed : c.WellFormed) (circuit : s.circuit = c)
    (follows : Follows (none : Option (Reserve spare)) s t) (defined : c.Defines out) :
    Coupled (false = true) (compileLiteral out) (compileLiteral out) s t (Agrees false spare) := by
  have circuitRight : t.circuit = c := follows.circuit_eq.trans circuit
  have compiles := works_compileLiteral wellFormed circuit follows.paired.left defined
  have compilesRight := works_compileLiteral wellFormed circuitRight follows.paired.right defined
  have coupled := coupled_of_works Bool.false_ne_true compiles compilesRight
  apply ((preserves_compileLiteral out).coupled (preserves_compileLiteral out) coupled).mono
  intro f s' g t' facts
  obtain ⟨same, sameRight, kept, keptRight, alike⟩ := facts
  exact ⟨none, rfl, follows.keep kept keptRight same sameRight, alike⟩

namespace Elimination

theorem preserves (elimination : Elimination) (blocks : List Block) (f : Handle) :
    Preserves (elimination.work blocks f) := by
  cases elimination with
  | byBlock => exact preserves_abstractBlocks blocks f
  | byVariable => exact preserves_abstractBlocksByVariable blocks f

/-- Both ways of elimination come to the same function. -/
theorem concurrent (elimination other : Elimination) :
    Concurrent false spare elimination.work other.work := by
  intro room given blocks f s g t follows alike
  obtain rfl : room = none := Option.isNone_iff_eq_none.mp (by simpa using given)
  have same : (s.diagram.value · f) = (t.diagram.value · g) := funext alike.value_eq
  have closes := elimination.closing s f blocks follows.paired.left alike.left
  have closesRight := other.closing t g blocks follows.paired.right alike.right
  rw [← same] at closesRight
  have coupled := coupled_of_works Bool.false_ne_true closes closesRight
  apply ((elimination.preserves blocks f).coupled (other.preserves blocks g) coupled).mono
  intro h s' k t' facts
  obtain ⟨preserved, preservedRight, extended, extendedRight, alike'⟩ := facts
  have later := follows.keep extended.toKeeps extendedRight.toKeeps preserved preservedRight
  exact ⟨⟨later, extended.grows, extendedRight.grows, extended.progress_eq,
    extendedRight.progress_eq⟩, alike'⟩

end Elimination

/-- Runs that succeed give one verdict, one witness, and the same numbers of fixed variables,
however gates are folded and blocks eliminated, whatever is released, and whatever the limits. -/
theorem tuning_invisible (wellFormed : c.WellFormed) (options : SolverOptions)
    {fold fold' : Fold} {release release' : Bool} {limit limit' : Nat}
    {elimination elimination' : Elimination} {first second : Outcome}
    (ran : elimination.solve c { options with fold := fold, releaseDead := release } limit =
      .ok first)
    (ran' : elimination'.solve c { options with fold := fold', releaseDead := release' } limit' =
      .ok second) :
    second.verdict = first.verdict ∧ second.witness = first.witness ∧
      second.statistics.units = first.statistics.units ∧
      second.statistics.pures = first.statistics.pures := by
  have follows : Follows (none : Option (Reserve 0))
      (start c { options with fold := fold, releaseDead := release } limit)
      (start c { options with fold := fold', releaseDead := release' } limit') :=
    follows_start c options release release' nofun nofun
  have compiles (out : Literal) (output : c.output = .ok out) := by
    have defined := wellFormed.output_lt out (Circuit.of_output output)
    exact coupled_compileLiteral wellFormed rfl follows defined
  have coupled := coupled_solveWith
    (coupled_compileMatrix follows.circuit_eq follows.options_eq rfl rfl compiles)
    fun s t => coupled_eliminateWith (elimination.concurrent elimination') elimination.call
      elimination'.call
  have concurs := (coupled first _ (run_eq_ok ran)).of_ok (run_eq_ok ran')
  exact ⟨concurs.verdict_eq, concurs.witness_eq, concurs.tracks.units_eq, concurs.tracks.pures_eq⟩

/-- A circuit for its first variable, by way of constant gates. -/
def detour : Circuit where
  name := "detour"
  maxVar := 3
  blocks := [⟨.ex, [1]⟩, ⟨.all, [2]⟩]
  gates := #[
    { connective := .and, inputs := [1, 2, -1] },
    { connective := .or, inputs := [-3, 1] },
    { connective := .and, inputs := [4, 1] }]
  output? := some 5
  names := #["", "1", "2", "3", "4", "5"]
  origin := #[0, 1, 2, 3, 4, 5]

/-- Garbage is collected in the small table only; one variable is fixed in both. -/
theorem detour_tuning_invisible :
    let options : SolverOptions := { unitLiterals := true, pureLiterals := true, witness := true }
    let first : Outcome :=
      { verdict := true, witness := some [(1, true)]
        statistics := { gatesCompiled := 3, peakNodes := 4, units := 1, earlyTermination := true } }
    let second : Outcome :=
      { verdict := true, witness := some [(1, true)]
        statistics := { first.statistics with collections := 1 } }
    Elimination.byBlock.solve detour options 100 = .ok first ∧
      Elimination.byVariable.solve detour
        { options with fold := .balanced, releaseDead := true } 5 = .ok second ∧
      second.verdict = first.verdict ∧ second.witness = first.witness ∧
      second.statistics.units = first.statistics.units ∧
      second.statistics.pures = first.statistics.pures := by
  intro options first second
  have wellFormed : detour.WellFormed := by decide +kernel
  have ran : Elimination.byBlock.solve detour
      { options with fold := .linear, releaseDead := false } 100 = .ok first := by decide +kernel
  have ran' : Elimination.byVariable.solve detour
      { options with fold := .balanced, releaseDead := true } 5 = .ok second := by decide +kernel
  exact ⟨ran, ran', tuning_invisible wellFormed options ran ran'⟩

end QuantCircuit.Solver
