import QuantCircuit.Proofs.Solver.Abreast
import QuantCircuit.Proofs.Solver.Preserving
import QuantCircuit.Proofs.Solver.Tidying

/-! Releasing with a larger table. A larger table is collected later, and may be the fuller one when
a large function is made: a higher limit alone is no promise. Three times the limit is one, because
what then may lie about between two gates is less than what the higher limit adds. -/

namespace QuantCircuit.Solver

open Diagram

variable {c : Circuit} {out : Literal} {spare : Nat} {room : Option (Reserve spare)}
variable {s t : Solver} {state other : Compilation} {uses : Array (Option Nat)} {target : Nat}

/-- Both solvers release, and the limit of the second one is higher, by at least twice the limit of
the first one. -/
structure Roomier (spare : Nat) (s t : Solver) : Prop where
  releases : s.options.releaseDead = true
  releasesRight : t.options.releaseDead = true
  limit_eq : t.diagram.limit = spare + s.diagram.limit
  spare_ge : 2 * s.diagram.limit ≤ spare

theorem Roomier.keep {s' t' : Solver} (roomier : Roomier spare s t)
    (same : s'.options = s.options) (sameRight : t'.options = t.options)
    (limit : s'.diagram.limit = s.diagram.limit)
    (limitRight : t'.diagram.limit = t.diagram.limit) : Roomier spare s' t' where
  releases := same ▸ roomier.releases
  releasesRight := sameRight ▸ roomier.releasesRight
  limit_eq := by rw [limit, limitRight, roomier.limit_eq]
  spare_ge := limit ▸ roomier.spare_ge

/-- Where the runs are between two gates: the second one has kept up, and it collects before there is
more garbage than spare room. -/
structure Outgrows (spare : Nat) (state : Compilation) (s : Solver) (other : Compilation)
    (t : Solver) : Prop extends Roomier spare s t where
  follows : ∃ reserve : Reserve spare, Follows (some reserve) s t
  covers : Covers s.diagram t.diagram state.functions other.functions
  collectAbove_le : other.collectAbove ≤ spare

/-- Both solvers release functions, and each may collect garbage. If the second one does, it has no
more left than the first one; if not, it is below its threshold. -/
theorem coupled_settleGate (follows : Follows room s t) (roomy : room.isSome)
    (roomier : Roomier spare s t)
    (covers : Covers s.diagram t.diagram state.functions other.functions)
    (low : other.collectAbove ≤ spare) (entry : Gate × Nat) {u v : Solver}
    (circuit : v.circuit = u.circuit) (releases : u.options.releaseDead = true)
    (releasesRight : v.options.releaseDead = true) :
    Coupled (true = true) (settleGate uses target entry u state)
      (settleGate uses target entry v other) s t (Outgrows spare) := by
  unfold settleGate
  rw [if_pos releases, if_pos releasesRight, circuit]
  have released : Covers s.diagram t.diagram
      (releaseUnused u.circuit.maxVar uses target entry.2 entry.1 state).functions
      (releaseUnused u.circuit.maxVar uses target entry.2 entry.1 other).functions :=
    covers.releaseUnused
  obtain ⟨after, d, collections, ran, tidies⟩ :=
    collectGarbage_spec follows.paired.left released.holds_left
  have tidied := released.tidy_left tidies
  obtain ⟨after', e, collections', ranRight, tidiesRight⟩ :=
    collectGarbage_spec follows.paired.right released.holds_right
  have limit : d.limit = s.diagram.limit := tidies.limit_eq
  have limitRight : e.limit = t.diagram.limit := tidiesRight.limit_eq
  have bounds : e.size ≤ spare ∧ after'.collectAbove ≤ spare := by
    rcases tidied.small_or_within tidies.valid tidiesRight with ⟨rfl, rfl, small⟩ | ⟨above, within⟩
    · -- nothing was collected, so the table is not above its old threshold
      rw [collectAbove_releaseUnused] at small ⊢
      exact ⟨small.trans low, low⟩
    · -- what is left is in the first table too, and the new threshold is at most halfway to the limit
      have left : e.size ≤ (Diagram.empty 0).size + d.size :=
        Within.size_le (within.mono fun _ => .inr) tidiesRight.valid
      have nothing : (Diagram.empty 0).size = 0 := rfl
      have full : d.size ≤ d.limit := tidies.valid.size_le
      have wide := roomier.spare_ge
      rw [above, roomier.limit_eq]
      omega
  -- whatever lies in the second table now is the reserve for the next gate
  have paired : Paired (some ⟨e, tidiesRight.valid, bounds.1⟩) d e := by
    refine ⟨tidies.valid, tidiesRight.valid, ?_, ?_⟩
    · intro reserve given
      obtain rfl := Option.some.inj given
      exact (within_provides e).mono fun _ => .inl
    · intro _
      rw [limit, limitRight, roomier.limit_eq]
  apply Coupled.of_run ran ranRight
  exact {
    toRoomier := roomier.keep rfl rfl limit limitRight
    follows := ⟨_, follows.retabled (fun _ => roomy) paired collections collections'⟩
    covers := tidied.tidy tidiesRight
    collectAbove_le := bounds.2 }

theorem Outgrows.coupled_compileGate (outgrows : Outgrows spare state s other t)
    (entry : Gate × Nat) :
    Coupled (true = true) (compileGate uses target state entry)
      (compileGate uses target other entry) s t (Outgrows spare) := by
  obtain ⟨reserve, follows⟩ := outgrows.follows
  apply Coupled.congr ?_ (compileGate_eq state entry s) (compileGate_eq other entry t)
  have stores := shadows_storeGate follows rfl outgrows.covers entry
  apply Coupled.bind ((preserves_storeGate _ entry).coupled (preserves_storeGate _ entry) stores)
  intro functions s' slots t' facts
  obtain ⟨same, sameRight, advance, covers⟩ := facts
  have options : s'.options = s.options := congrArg (·.1) same
  have optionsRight : t'.options = t.options := congrArg (·.1) sameRight
  have roomier := outgrows.toRoomier.keep options optionsRight advance.growsLeft.limit_eq
    advance.growsRight.limit_eq
  apply coupled_settleGate advance.toFollows rfl roomier
  · exact covers
  · exact outgrows.collectAbove_le
  · exact follows.circuit_eq
  · exact outgrows.releases
  · exact outgrows.releasesRight

/-- From tables without garbage, compilation keeps up. -/
theorem Roomier.coupled_compileLiteral {reserve : Reserve spare} (roomier : Roomier spare s t)
    (follows : Follows (some reserve) s t) (literal : Literal) :
    Coupled (true = true) (compileLiteral literal) (compileLiteral literal) s t
      (Agrees true spare) := by
  unfold compileLiteral
  apply Coupled.get
  apply Coupled.get
  rw [follows.circuit_eq]
  dsimp only
  let gates := gatesUpTo s.circuit literal
  let slots : Array (Option Handle) := Array.replicate gates.length none
  have start : Outgrows spare { functions := slots, collectAbove := s.diagram.limit / 2 } s
      { functions := slots, collectAbove := t.diagram.limit / 2 } t := by
    refine ⟨roomier, ⟨reserve, follows⟩, covers_none _ _ _, ?_⟩
    have limit := roomier.limit_eq
    have wide := roomier.spare_ge
    dsimp only
    omega
  apply Coupled.bind (Coupled.foldlM (Outgrows spare) gates
    (fun entry _ _ _ _ _ outgrows => outgrows.coupled_compileGate entry) start)
  intro state s' other t' outgrows
  obtain ⟨reserve', later⟩ := outgrows.follows
  apply Coupled.mono (shadows_onDiagram later (shadows_read later.paired outgrows.covers _ literal))
  intro f s'' g t'' facts
  exact ⟨some reserve', rfl, facts.1.toFollows, facts.2⟩

/-- With releasing, a run that succeeds does so with every limit that is at least three times as
high, and comes to the same answer. -/
theorem enlarging_succeeds (wellFormed : c.WellFormed) (output : c.output? = some out)
    (elimination : Elimination) {options : SolverOptions} (releases : options.releaseDead = true)
    {limit higher : Nat} (more : 3 * limit ≤ higher) {first : Outcome}
    (ran : elimination.solve c options limit = .ok first) :
    ∃ second, elimination.solve c options higher = .ok second ∧
      second.verdict = first.verdict ∧ second.witness = first.witness := by
  have fits : (higher - limit) + limit = higher := by omega
  have follows : Follows (some (Reserve.empty (higher - limit))) (start c options limit)
      (start c options higher) :=
    follows_start c options options.releaseDead options.releaseDead (fun _ => rfl)
      fun _ => Nat.le_of_eq fits
  have roomier : Roomier (higher - limit) (start c options limit) (start c options higher) := by
    refine ⟨releases, releases, fits.symm, ?_⟩
    show 2 * limit ≤ higher - limit
    omega
  obtain ⟨second, succeeded, concurs⟩ := elimination.exists_solve wellFormed output
    (coupled_compileMatrix follows.circuit_eq follows.options_eq rfl rfl fun out _ =>
      roomier.coupled_compileLiteral follows out) ran
  exact ⟨second, succeeded, concurs.verdict_eq, concurs.witness_eq⟩

/-- A circuit with five gates that are compiled for nothing before the one for its output. -/
def crowded : Circuit where
  name := "crowded"
  maxVar := 13
  blocks := [⟨.ex, [1]⟩, ⟨.ex, [2, 3, 4, 5, 6, 7, 8, 9, 10, 11, 12]⟩]
  gates := #[
    { connective := .and, inputs := [6, 5] },
    { connective := .and, inputs := [7, 13] },
    { connective := .and, inputs := [9, 8] },
    { connective := .and, inputs := [11, 10] },
    { connective := .and, inputs := [12, 15] },
    { connective := .and, inputs := [4, 3, 2, 1] }]
  output? := some 18
  names := #["", "1", "2", "3", "4", "5", "6", "7", "8", "9", "10", "11", "12", "13", "14", "15",
    "16", "17", "18"]
  origin := #[0, 1, 2, 3, 4, 5, 6, 7, 8, 9, 10, 11, 12, 13, 14, 15, 16, 17, 18]

/-- The last gate takes seven nodes. Under a limit of seven the table is empty when it is compiled;
under twice that limit too much garbage is left to lie. -/
theorem crowded_exhausts_larger :
    let options : SolverOptions := { releaseDead := true }
    crowded.WellFormed ∧ crowded.output? = some 18 ∧
      Elimination.byBlock.solve crowded options 7 = .ok
        { verdict := true, witness := none
          statistics :=
            { gatesCompiled := 6, blocksEliminated := 1, peakNodes := 7, collections := 4 } } ∧
      Elimination.byBlock.solve crowded options 14 = .error (.tableExhausted 14) := by
  intro options
  have wellFormed : crowded.WellFormed := by decide +kernel
  exact ⟨wellFormed, rfl, by decide +kernel, by decide +kernel⟩

theorem crowded_enlarging_succeeds :
    let options : SolverOptions := { releaseDead := true, witness := true }
    let first : Outcome :=
      { verdict := true, witness := some [(1, true)]
        statistics :=
          { gatesCompiled := 6, blocksEliminated := 1, peakNodes := 7, collections := 4 } }
    Elimination.byBlock.solve crowded options 7 = .ok first ∧
      ∃ second, Elimination.byBlock.solve crowded options 21 = .ok second ∧
        second.verdict = first.verdict ∧ second.witness = first.witness := by
  intro options first
  have wellFormed : crowded.WellFormed := by decide +kernel
  have ran : Elimination.byBlock.solve crowded options 7 = .ok first := by decide +kernel
  exact ⟨ran, enlarging_succeeds wellFormed rfl .byBlock rfl (by decide) ran⟩

end QuantCircuit.Solver
