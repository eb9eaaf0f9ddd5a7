import QuantCircuit.Proofs.Solver.Abreast
import QuantCircuit.Proofs.Solver.Preserving
import QuantCircuit.Proofs.Solver.Tidying

/-! Releasing functions never costs room. At every moment each function in the table of the run
that releases is in the table of the run that does not, so what has to be made again fits. -/

namespace QuantCircuit.Solver

open Diagram

variable {c : Circuit} {out : Literal} {spare : Nat} {room : Option (Reserve spare)}
variable {s t : Solver} {functions : Array (Option Handle)} {state : Compilation}
variable {uses : Array (Option Nat)} {target : Nat}

/-- A run that collects garbage still follows one that does not. -/
theorem ensures_settleGate (follows : Follows room s t)
    (covers : Covers s.diagram t.diagram functions state.functions) (entry : Gate × Nat)
    (u : Solver) :
    Ensures (settleGate uses target entry u state) t
      (fun after t' => Follows room s t' ∧ Covers s.diagram t'.diagram functions after.functions)
      fun _ _ => False := by
  unfold settleGate
  split
  · have thinned := covers.thin (thins_releaseUnused_any u.circuit.maxVar uses target entry.2
      entry.1 state)
    obtain ⟨after, e, collections, ran, tidies⟩ :=
      collectGarbage_spec follows.paired.right thinned.holds_right
    have paired : Paired room s.diagram e := by
      refine ⟨follows.paired.left, tidies.valid, ?_, tidies.limit_eq ▸ follows.paired.fits⟩
      intro reserve given
      rcases thinned.small_or_within follows.paired.left tidies with small | swept
      · exact small.1 ▸ follows.paired.within reserve given
      · exact swept.2.mono fun _ => .inr
    exact Ensures.of_run ran
      ⟨follows.retabled id paired s.statistics.collections collections, thinned.tidy tidies⟩
  · exact ⟨follows, covers⟩

theorem coupled_compileGate_plain (follows : Follows room s t) (roomy : room.isSome)
    (covers : Covers s.diagram t.diagram functions state.functions) (entry : Gate × Nat) :
    Coupled room.isSome (storeGate functions entry) (compileGate uses target state entry) s t
      fun functions s' after t' =>
        Follows room s' t' ∧ Covers s'.diagram t'.diagram functions after.functions := by
  refine Coupled.congr ?_ (congrFun (bind_pure _).symm s) (compileGate_eq state entry t)
  apply Coupled.bind (shadows_storeGate follows roomy covers entry)
  intro functions s' slots t' facts
  apply Coupled.pure_left
  exact (ensures_settleGate facts.1.toFollows facts.2 entry t).mono_fail
    fun _ _ impossible => impossible.elim

/-- Compilation without releasing is followed by compilation with it, or without. -/
theorem coupled_compileLiteral_plain (follows : Follows room s t) (roomy : room.isSome)
    (plain : s.options.releaseDead = false) (literal : Literal) :
    Coupled room.isSome (compileLiteral literal) (compileLiteral literal) s t
      (Agrees room.isSome spare) := by
  refine Coupled.congr ?_ (compileLiteral_plain plain literal) rfl
  unfold compileLiteral
  apply Coupled.get_right
  apply Coupled.get_right
  rw [follows.circuit_eq]
  dsimp only
  let gates := gatesUpTo s.circuit literal
  have start := covers_none s.diagram t.diagram gates.length
  apply Coupled.bind (Coupled.foldlM
    (fun functions s state t =>
      Follows room s t ∧ Covers s.diagram t.diagram functions state.functions) gates
    (fun entry _ _ _ _ _ facts => coupled_compileGate_plain facts.1 roomy facts.2 entry)
    ⟨follows, start⟩)
  intro functions s' state t' facts
  apply Coupled.mono (shadows_onDiagram facts.1 (shadows_read facts.1.paired facts.2 _ literal))
  intro f s'' g t'' later
  exact ⟨room, rfl, later.1.toFollows, later.2⟩

/-- If a run succeeds, so does the same run with releasing. It comes to the same answer, and its
table is never larger than the other one was. -/
theorem releasing_spares (wellFormed : c.WellFormed) (output : c.output? = some out)
    (elimination : Elimination) {options : SolverOptions} {limit : Nat} {first : Outcome}
    (ran : elimination.solve c { options with releaseDead := false } limit = .ok first) :
    ∃ second, elimination.solve c { options with releaseDead := true } limit = .ok second ∧
      second.verdict = first.verdict ∧ second.witness = first.witness ∧
      second.statistics.peakNodes ≤ first.statistics.peakNodes := by
  have follows : Follows (some (Reserve.empty 0))
      (start c { options with releaseDead := false } limit)
      (start c { options with releaseDead := true } limit) :=
    follows_start c options false true (fun _ => rfl) fun _ => Nat.le_of_eq (Nat.zero_add limit)
  have compiles (literal : Literal) :=
    coupled_compileLiteral_plain follows rfl rfl literal
  obtain ⟨second, succeeded, concurs⟩ := elimination.exists_solve wellFormed output
    (coupled_compileMatrix follows.circuit_eq follows.options_eq rfl rfl fun out _ => compiles out)
    ran
  have peak := concurs.tracks.peak_le rfl
  exact ⟨second, succeeded, concurs.verdict_eq, concurs.witness_eq, by rwa [Nat.zero_add] at peak⟩

/-- A circuit with a gate that is not read. -/
def idleGate : Circuit where
  name := "idle"
  maxVar := 4
  blocks := [⟨.ex, [1]⟩, ⟨.all, [2, 3]⟩]
  gates := #[
    { connective := .and, inputs := [2, 3] },
    { connective := .or, inputs := [1] }]
  output? := some 5
  names := #["", "1", "2", "3", "4", "5"]
  origin := #[0, 1, 2, 3, 4, 5]

/-- Where the function of that gate is collected, three nodes are enough. -/
theorem idleGate_releasing_spares :
    let options : SolverOptions := { witness := true }
    let first : Outcome :=
      { verdict := true, witness := some [(1, true)]
        statistics := { gatesCompiled := 2, blocksEliminated := 1, peakNodes := 4 } }
    Elimination.byBlock.solve idleGate { options with releaseDead := false } 4 = .ok first ∧
      Elimination.byBlock.solve idleGate { options with releaseDead := false } 3 =
        .error (.tableExhausted 3) ∧
      Elimination.byBlock.solve idleGate { options with releaseDead := true } 3 = .ok
        { first with statistics :=
          { first.statistics with peakNodes := 3, collections := 1 } } ∧
      ∃ second, Elimination.byBlock.solve idleGate { options with releaseDead := true } 4 =
          .ok second ∧
        second.verdict = first.verdict ∧ second.witness = first.witness ∧
        second.statistics.peakNodes ≤ first.statistics.peakNodes := by
  intro options first
  have wellFormed : idleGate.WellFormed := by decide
  have ran : Elimination.byBlock.solve idleGate { options with releaseDead := false } 4 =
      .ok first := by decide +kernel
  exact ⟨ran, by decide +kernel, by decide +kernel, releasing_spares wellFormed rfl .byBlock ran⟩

end QuantCircuit.Solver
