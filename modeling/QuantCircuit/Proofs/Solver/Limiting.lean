import QuantCircuit.Proofs.Diagram.Limiting
import QuantCircuit.Proofs.Solver.Preserving
import QuantCircuit.Proofs.Solver.Running

namespace QuantCircuit.Solver

open Diagram

variable {α : Type} {c : Circuit} {out : Literal} {s : Solver}

def withLimit (s : Solver) (limit : Nat) : Solver :=
  { s with diagram := s.diagram.withLimit limit }

instance : Limited Solver := ⟨fun s => s.diagram.size, withLimit⟩

@[simp] theorem withLimit_circuit (s : Solver) (limit : Nat) :
    (s.withLimit limit).circuit = s.circuit := rfl

@[simp] theorem withLimit_diagram (s : Solver) (limit : Nat) :
    (s.withLimit limit).diagram = s.diagram.withLimit limit := rfl

theorem indifferent_get {next : Solver → Solve α} (rest : Indifferent (next s) s)
    (blind : ∀ limit, next (s.withLimit limit) = next s) : Indifferent (get >>= next) s :=
  .get rest blind

theorem indifferent_onDiagram {work : Build α} (indifferent : Indifferent work s.diagram) :
    Indifferent (onDiagram work) s := by
  obtain ⟨result, e, grows, within, beyond⟩ := indifferent
  refine ⟨result, { s with diagram := e }, grows, fun limit enough => ?_,
    fun limit enough less => ?_⟩
  · have ended : work (s.diagram.withLimit limit) = (result, e.withLimit limit) :=
      within limit enough
    show onDiagram work (s.withLimit limit) = _
    rw [onDiagram_run, withLimit_diagram, ended]
    rfl
  · obtain ⟨full, failed, filled⟩ := beyond limit enough less
    have ended : work (s.diagram.withLimit limit) = (.error (.tableExhausted limit), full) := failed
    refine ⟨{ s with diagram := full }, ?_, filled⟩
    show onDiagram work (s.withLimit limit) = _
    rw [onDiagram_run, withLimit_diagram, ended]
    rfl

theorem indifferent_count (update : Statistics → Statistics) (s : Solver) :
    Indifferent (count update) s :=
  .modify rfl fun _ => rfl

theorem indifferent_noteSize (s : Solver) : Indifferent noteSize s :=
  .modify rfl fun _ => rfl

theorem indifferent_force (v : Nat) (value : Bool) (s : Solver) :
    Indifferent (force v value) s :=
  .modify rfl fun _ => rfl

theorem indifferent_outOfStage (call : StagedCall) (s : Solver) :
    Indifferent (outOfStage call : Solve α) s :=
  .get (.throw _ s) fun _ => rfl

theorem indifferent_expectStage (stage : Stage) (call : StagedCall) (s : Solver) :
    Indifferent (expectStage stage call) s := by
  unfold expectStage
  apply Indifferent.get _ fun _ => rfl
  dsimp only
  cases s.progress.function? with
  | none => exact indifferent_outOfStage call s
  | some f =>
    dsimp only
    split
    · exact .pure f s
    · exact indifferent_outOfStage call s

theorem indifferent_noteFunction (stage : Stage) (f : Handle) (s : Solver) :
    Indifferent (noteFunction stage f) s :=
  .modify rfl fun _ => rfl

section Compiling

theorem indifferent_carry {operation : Handle → Handle → Build Handle}
    (each : ∀ f g d, Indifferent (operation f g) d) (level : Nat) (f : Handle)
    (partials : List Fold.Partial) (d : Diagram) :
    Indifferent (Fold.carry operation level f partials) d := by
  induction partials generalizing level f d with
  | nil => exact .pure _ d
  | cons earlier rest ih =>
    rw [Fold.carry]
    split
    · exact (each _ f d).bind fun g e => ih (level + 1) g e
    · exact .pure _ d

theorem indifferent_run (fold : Fold) {operation : Handle → Handle → Build Handle}
    (each : ∀ f g d, Indifferent (operation f g) d) (neutral : Handle) (functions : List Handle)
    (d : Diagram) : Indifferent (fold.run operation neutral functions) d := by
  cases fold with
  | linear => exact .foldlM each functions neutral d
  | balanced =>
    apply (Indifferent.foldlM (fun partials f d => indifferent_carry each 0 f partials d)
      functions [] d).bind
    intro partials e
    cases partials with
    | nil => exact .pure neutral e
    | cons last rest => exact .foldlM (fun f earlier d => each _ f d) rest _ e

theorem indifferent_combineInputs (fold : Fold) (gate : Gate) (functions : List Handle)
    (d : Diagram) : Indifferent (combineInputs fold gate functions) d := by
  unfold combineInputs
  cases gate.connective with
  | and => exact indifferent_run fold indifferent_and _ functions d
  | or => exact indifferent_run fold indifferent_or _ functions d
  | all =>
    cases functions with
    | nil => exact .throw _ d
    | cons f rest => exact indifferent_abstract .all _ _ d
  | ex =>
    cases functions with
    | nil => exact .throw _ d
    | cons f rest => exact indifferent_abstract .ex _ _ d

theorem indifferent_read (state : Compilation) (maxVar : Nat) (literal : Literal) (d : Diagram) :
    Indifferent (state.read maxVar literal) d := by
  have signed (f : Handle) (d : Diagram) :
      Indifferent (if literal < 0 then Diagram.not f else pure f) d := by
    split
    · exact indifferent_not f d
    · exact .pure f d
  unfold Compilation.read
  dsimp only
  split
  · exact (indifferent_ofVariable _ d).bind signed
  · split
    · exact signed _ d
    · exact .throw _ d

theorem indifferent_readInputs (state : Compilation) (maxVar id : Nat) (inputs : List Literal)
    (d : Diagram) : Indifferent (state.readInputs maxVar id inputs) d := by
  apply Indifferent.mapM
  intro literal d
  split
  · exact (Indifferent.throw _ d).bind fun _ e => indifferent_read state maxVar literal e
  · exact indifferent_read state maxVar literal d

theorem indifferent_storeGate (functions : Array (Option Handle)) (entry : Gate × Nat)
    (s : Solver) : Indifferent (storeGate functions entry) s := by
  unfold storeGate
  apply Indifferent.get _ fun _ => rfl
  apply Indifferent.get _ fun _ => rfl
  apply (indifferent_onDiagram (indifferent_readInputs _ _ _ _ _)).bind
  intro inputs t
  apply (indifferent_onDiagram (indifferent_combineInputs _ _ _ _)).bind
  intro f u
  apply (indifferent_count _ u).bind
  intro _ v
  exact (indifferent_noteSize v).bind fun _ w => .pure _ w

/-- The thresholds for garbage collection depend on the limit, but without releasing they are not
used. -/
theorem indifferent_compileLiteral (plain : s.options.releaseDead = false) (literal : Literal) :
    Indifferent (compileLiteral literal) s := by
  let gates := gatesUpTo s.circuit literal
  have indifferent : Indifferent (do
      let functions ← gates.foldlM storeGate (Array.replicate gates.length none)
      let state : Compilation := { functions, collectAbove := 0 }
      onDiagram (state.read s.circuit.maxVar literal)) s := by
    apply (Indifferent.foldlM indifferent_storeGate gates _ s).bind
    intro functions t
    exact indifferent_onDiagram (indifferent_read _ _ literal _)
  apply indifferent.congr
  intro limit
  exact compileLiteral_plain (s := s.withLimit limit) plain literal

end Compiling

section Simplifying

theorem indifferent_fixUnit (f : Handle) (unit : Nat × Bool) (s : Solver) :
    Indifferent (fixUnit f unit) s := by
  apply (indifferent_onDiagram (indifferent_restrict f _ _)).bind
  intro g t
  apply (indifferent_force _ _ t).bind
  intro _ u
  exact (indifferent_count _ u).bind fun _ v => .pure g v

theorem indifferent_propagateUnitsWithin (rounds : Nat) (f : Handle) (s : Solver) :
    Indifferent (propagateUnitsWithin rounds f) s := by
  induction rounds generalizing f s with
  | zero => exact .pure f s
  | succ rounds ih =>
    apply indifferent_get _ fun _ => rfl
    refine indifferent_get ?_ fun limit => by simp [unitLiterals]
    dsimp only
    split
    · exact .pure f s
    · exact (Indifferent.foldlM indifferent_fixUnit _ f s).bind ih

theorem indifferent_propagateUnits (f : Handle) (s : Solver) :
    Indifferent (propagateUnits f) s :=
  indifferent_get (indifferent_propagateUnitsWithin _ f s) fun _ => by simp

theorem indifferent_fixPure (current : Handle × Bool) (v : Nat) (s : Solver) :
    Indifferent (fixPure current v) s := by
  unfold fixPure
  apply Indifferent.get _ fun _ => rfl
  cases s.circuit.quantifierOf? (v : Literal) with
  | none => exact .pure current s
  | some q =>
    apply (indifferent_onDiagram (indifferent_restrict _ _ _)).bind
    intro below t
    apply (indifferent_onDiagram (indifferent_restrict _ _ _)).bind
    intro above u
    split
    · exact .pure current u
    · apply (indifferent_onDiagram (indifferent_abstract _ _ _ _)).bind
      intro both w
      cases preferred? q (below = both) (above = both) with
      | none => exact .pure current w
      | some value =>
        apply (indifferent_force v value w).bind
        intro _ x
        exact (indifferent_count _ x).bind fun _ y => .pure _ y

theorem indifferent_eliminatePureWithin (rounds : Nat) (f : Handle) (s : Solver) :
    Indifferent (eliminatePureWithin rounds f) s := by
  induction rounds generalizing f s with
  | zero => exact .pure f s
  | succ rounds ih =>
    refine indifferent_get ?_ fun limit => by simp
    apply (Indifferent.foldlM indifferent_fixPure _ (f, false) s).bind
    intro next t
    obtain ⟨g, changed⟩ := next
    cases changed with
    | true => exact ih g t
    | false => exact .pure g t

theorem indifferent_eliminatePure (f : Handle) (s : Solver) : Indifferent (eliminatePure f) s :=
  indifferent_get (indifferent_eliminatePureWithin _ f s) fun _ => by simp

end Simplifying

theorem indifferent_compileMatrix (plain : s.options.releaseDead = false) :
    Indifferent compileMatrix s := by
  have optional (asked : Bool) (first : Handle → Solve Handle)
      (each : ∀ f s, Indifferent (first f) s) (next : Handle → Solve Unit)
      (rest : ∀ f s, Indifferent (next f) s) (f : Handle) (s : Solver) :
      Indifferent (if asked = true then first f >>= next else pure f >>= next) s := by
    split
    · exact (each f s).bind rest
    · exact rest f s
  unfold compileMatrix
  apply Indifferent.get _ fun _ => rfl
  split
  · exact .of_same _ fun _ => rfl
  · apply Indifferent.get _ fun _ => rfl
    apply Indifferent.get _ fun _ => rfl
    cases s.circuit.output with
    | error e => exact .of_same _ fun _ => rfl
    | ok out =>
      apply (indifferent_compileLiteral plain out).bind
      intro f t
      apply optional _ _ indifferent_propagateUnits
      intro f t
      apply optional _ _ indifferent_eliminatePure
      intro f t
      exact .modify rfl fun _ => rfl

section Eliminating

theorem indifferent_stopEarly (f : Handle) (s : Solver) : Indifferent (stopEarly f) s :=
  (indifferent_count _ s).bind fun _ t => .pure f t

theorem indifferent_abstractBlocks (blocks : List Block) (f : Handle) (s : Solver) :
    Indifferent (abstractBlocks blocks f) s := by
  induction blocks generalizing f s with
  | nil => exact .pure f s
  | cons block rest ih =>
    rw [abstractBlocks]
    split
    · exact indifferent_stopEarly f s
    · apply (indifferent_onDiagram (indifferent_abstract _ _ f _)).bind
      intro g t
      apply (indifferent_count _ t).bind
      intro _ u
      exact (indifferent_noteSize u).bind fun _ v => ih g v

theorem indifferent_abstractVariables (q : Quantifier) (vars : List Nat) (f : Handle)
    (s : Solver) : Indifferent (abstractVariables q vars f) s := by
  induction vars generalizing f s with
  | nil => exact .pure _ s
  | cons v rest ih =>
    rw [abstractVariables]
    split
    · exact (indifferent_stopEarly f s).bind fun g t => .pure _ t
    · apply (indifferent_onDiagram (indifferent_abstract _ _ f _)).bind
      intro g t
      exact (indifferent_noteSize t).bind fun _ u => ih g u

theorem indifferent_abstractBlocksByVariable (blocks : List Block) (f : Handle) (s : Solver) :
    Indifferent (abstractBlocksByVariable blocks f) s := by
  induction blocks generalizing f s with
  | nil => exact .pure f s
  | cons block rest ih =>
    rw [abstractBlocksByVariable]
    apply (indifferent_abstractVariables _ _ f s).bind
    intro result t
    obtain ⟨g, finished⟩ := result
    cases finished with
    | true => exact (indifferent_count _ t).bind fun _ u => ih g u
    | false => exact .pure g t

theorem indifferent_closeFree (f : Handle) (s : Solver) : Indifferent (closeFree f) s := by
  have quantifies (free : List Nat) (f : Handle) (s : Solver) : Indifferent (do
      let f ← onDiagram (Diagram.abstract .ex (free.map Int.ofNat) f)
      noteSize
      return f) s :=
    (indifferent_onDiagram (indifferent_abstract _ _ f _)).bind fun g t =>
      (indifferent_noteSize t).bind fun _ u => .pure g u
  unfold closeFree
  apply indifferent_get _ fun _ => rfl
  refine indifferent_get ?_ fun limit => by simp [freeVariables]
  dsimp only
  split
  · exact .pure f s
  · split
    · exact quantifies _ f s
    · split
      · exact .pure f s
      · refine (Indifferent.modify ?_ ?_).bind fun _ t => ?_
        · rfl
        · exact fun _ => rfl
        · apply (indifferent_count _ t).bind
          intro _ u
          exact (indifferent_onDiagram (indifferent_abstract _ _ f _)).bind (quantifies _)

theorem indifferent_eliminateWith (call : StagedCall) {work : List Block → Handle → Solve Handle}
    (each : ∀ blocks f s, Indifferent (work blocks f) s) (s : Solver) :
    Indifferent (eliminateWith call work) s := by
  unfold eliminateWith
  apply (indifferent_expectStage _ call s).bind
  intro f s
  apply Indifferent.get _ fun _ => rfl
  apply (each _ f s).bind
  intro g t
  exact (indifferent_closeFree g t).bind fun r u => indifferent_noteFunction _ r u

end Eliminating

theorem indifferent_verdict (s : Solver) : Indifferent verdict s := by
  unfold verdict
  apply Indifferent.get _ fun _ => rfl
  cases s.progress.verdict? with
  | some value => exact .pure value s
  | none =>
    apply (indifferent_expectStage _ .verdict s).bind
    intro f s
    apply Indifferent.get _ fun _ => rfl
    refine Indifferent.bind (.modify ?_ ?_) fun _ t => .pure _ t
    · rfl
    · exact fun _ => rfl

theorem indifferent_assignBlock (f : Handle) (block : Block) (s : Solver) :
    Indifferent (assignBlock f block) s := by
  unfold assignBlock
  refine indifferent_get ?_ fun limit => by simp
  cases s.diagram.pickCube f (block.vars.map Int.ofNat) with
  | none => exact .throw _ s
  | some values => exact .get (.pure _ s) fun _ => rfl

theorem indifferent_target (f : Handle) (verdict : Bool) (s : Solver) :
    Indifferent (target f verdict) s := by
  cases verdict with
  | true => exact .pure f s
  | false => exact indifferent_onDiagram (indifferent_not f _)

theorem indifferent_expectVerdict (s : Solver) : Indifferent expectVerdict s := by
  unfold expectVerdict
  apply Indifferent.get _ fun _ => rfl
  dsimp only
  cases s.progress.verdict? with
  | none => exact indifferent_outOfStage .witness s
  | some value =>
    dsimp only
    split
    · exact .pure value s
    · exact indifferent_outOfStage .witness s

theorem indifferent_expectFunction (s : Solver) : Indifferent expectFunction s := by
  unfold expectFunction
  apply Indifferent.get _ fun _ => rfl
  cases s.progress.function? with
  | none => exact .throw _ s
  | some f => exact .pure f s

theorem indifferent_witness (s : Solver) : Indifferent witness s := by
  have searches (f : Handle) (value : Bool) (block : Block) (s : Solver) : Indifferent (do
      let r ← target f value
      let valuation ← assignBlock r block
      modify fun s => { s with progress := { s.progress with stage := .witnessReady } }
      return some valuation : Solve (Option Valuation)) s := by
    apply (indifferent_target f value s).bind
    intro r t
    apply (indifferent_assignBlock r block t).bind
    intro valuation u
    refine Indifferent.bind (.modify ?_ ?_) fun _ v => .pure _ v
    · rfl
    · exact fun _ => rfl
  unfold witness
  apply (indifferent_expectVerdict s).bind
  intro value s
  apply (indifferent_expectFunction s).bind
  intro f s
  apply Indifferent.get _ fun _ => rfl
  cases s.circuit.blocks.head? with
  | none => exact .pure none s
  | some block =>
    apply Indifferent.get _ fun _ => rfl
    split
    · exact .pure none s
    · split
      · exact .pure none s
      · cases value with
        | true => exact searches f true block s
        | false => exact searches f false block s

theorem indifferent_solveWith {eliminate : Solve Unit}
    (eliminates : ∀ s, Indifferent eliminate s) (plain : s.options.releaseDead = false) :
    Indifferent (solveWith eliminate) s := by
  unfold solveWith
  apply (indifferent_compileMatrix plain).bind
  intro _ t
  apply (eliminates t).bind
  intro _ t
  apply (indifferent_verdict t).bind
  intro verdict t
  have answers (result : Option Valuation) (t : Solver) : Indifferent (do
      return { verdict, witness := result, statistics := (← get).statistics } : Solve Outcome) t :=
    .get (.pure _ t) fun _ => rfl
  apply Indifferent.get _ fun _ => rfl
  dsimp only
  split
  · exact (indifferent_witness t).bind answers
  · exact answers none t

theorem Elimination.indifferent (elimination : Elimination) (s : Solver) :
    Indifferent (eliminateWith elimination.call elimination.work) s := by
  cases elimination with
  | byBlock => exact indifferent_eliminateWith _ indifferent_abstractBlocks s
  | byVariable => exact indifferent_eliminateWith _ indifferent_abstractBlocksByVariable s

/-- Without releasing, a run that succeeds does so with every higher limit, and finds out the
same to the last counter. With some limit it does succeed. -/
theorem limit_only_decides (wellFormed : c.WellFormed) (output : c.output? = some out)
    (elimination : Elimination) {options : SolverOptions} (plain : options.releaseDead = false) :
    (∀ limit higher outcome, limit ≤ higher →
      elimination.solve c options limit = .ok outcome →
      elimination.solve c options higher = .ok outcome) ∧
    ∃ limit outcome, elimination.solve c options limit = .ok outcome := by
  have indifferent : Indifferent (solveWith (eliminateWith elimination.call elimination.work))
      (start c options 0) :=
    indifferent_solveWith elimination.indifferent plain
  constructor
  · intro limit higher outcome more succeeded
    exact indifferent.succeeds_of_le (Nat.zero_le limit) more succeeded
  · have only (limit : Nat) (e : Error) (_ : 0 ≤ limit)
        (failed : elimination.solve c options limit = .error e) : e = .tableExhausted limit :=
      (ensures_solveWith wellFormed output elimination.closing elimination.call options
        limit).of_error (Prod.ext failed rfl)
    obtain ⟨outcome, last, unbounded⟩ := indifferent.exists_success only
    refine ⟨last.diagram.size, outcome, ?_⟩
    exact congrArg Prod.fst (unbounded.within _ (Nat.le_refl _))

/-- Three nodes are enough for a disjunction of two variables, and two are not. -/
theorem disjunction_limit_only_decides :
    let options : SolverOptions := { witness := true }
    let outcome : Outcome :=
      { verdict := true, witness := some [(1, true)]
        statistics := { gatesCompiled := 1, blocksEliminated := 1, peakNodes := 3 } }
    Elimination.byBlock.solve disjunction options 2 = .error (.tableExhausted 2) ∧
      Elimination.byBlock.solve disjunction options 3 = .ok outcome ∧
      Elimination.byBlock.solve disjunction options 1000000 = .ok outcome ∧
      ∃ limit outcome, Elimination.byVariable.solve disjunction options limit = .ok outcome := by
  intro options outcome
  have small : Elimination.byBlock.solve disjunction options 3 = .ok outcome := by decide +kernel
  exact ⟨by decide +kernel, small,
    (limit_only_decides (by decide) rfl .byBlock rfl).1 3 1000000 outcome (by decide) small,
    (limit_only_decides (by decide) rfl .byVariable rfl).2⟩

end QuantCircuit.Solver
