import QuantCircuit.Proofs.Solver.Preserving
import QuantCircuit.Proofs.Solver.Running
import QuantCircuit.Proofs.Solver.Shadowing

/-! Two whole runs, stage by stage: if the following one keeps up in compilation and in
elimination, it does so to the end, and finds out the same. -/

namespace QuantCircuit.Solver

open Diagram

variable {spare : Nat} {room : Option (Reserve spare)} {roomy : Bool} {s t : Solver} {f g : Handle}

/-- The second solver is where the first one is, with the same function at hand. -/
def Agrees (roomy : Bool) (spare : Nat) (f : Handle) (s : Solver) (g : Handle) (t : Solver) :
    Prop :=
  ∃ room : Option (Reserve spare), room.isSome = roomy ∧ Follows room s t ∧ Alike f s g t

/-- Both solvers have come to the stage, with the same function. -/
def Level (roomy : Bool) (spare : Nat) (stage : Handle → Progress) (s t : Solver) : Prop :=
  ∃ f g, s.progress = stage f ∧ t.progress = stage g ∧ Agrees roomy spare f s g t

/-- The function is at hand on two solvers that have not come to a stage yet. -/
def Begun (roomy : Bool) (spare : Nat) (f : Handle) (s : Solver) (g : Handle) (t : Solver) : Prop :=
  s.progress = .created ∧ t.progress = .created ∧ Agrees roomy spare f s g t

theorem Follows.withProgress (follows : Follows room s t) (p q : Progress) :
    Follows room { s with progress := p } { t with progress := q } :=
  { follows with paired := follows.paired }

theorem Agrees.note (agrees : Agrees roomy spare f s g t) (stage : Handle → Progress) :
    Level roomy spare stage { s with progress := stage f } { t with progress := stage g } := by
  obtain ⟨room, given, follows, alike⟩ := agrees
  exact ⟨f, g, rfl, rfl, room, given, follows.withProgress _ _, alike⟩

/-- A simplification that the options may ask for, and what comes after it. -/
theorem coupled_optional (asked : Bool) {first : Handle → Solve Handle} {next : Handle → Solve Unit}
    {post : Unit → Solver → Unit → Solver → Prop} (begun : Begun roomy spare f s g t)
    (shadows : ∀ {room : Option (Reserve spare)}, Follows room s t → Alike f s g t →
      Shadows room (first f) (first g) s t Alike)
    (rest : ∀ f s g t, Begun roomy spare f s g t → Coupled roomy (next f) (next g) s t post) :
    Coupled roomy (if asked = true then first f >>= next else pure f >>= next)
      (if asked = true then first g >>= next else pure g >>= next) s t post := by
  cases asked with
  | true =>
    obtain ⟨created, createdRight, room, rfl, follows, alike⟩ := begun
    apply Coupled.bind (shadows follows alike)
    intro h s' k t' facts
    exact rest h s' k t' ⟨facts.1.progressLeft.trans created,
      facts.1.progressRight.trans createdRight, room, rfl, facts.1.toFollows, facts.2⟩
  | false => exact rest f s g t begun

theorem coupled_compileMatrix (circuit : t.circuit = s.circuit)
    (options : t.options =
      { s.options with fold := t.options.fold, releaseDead := t.options.releaseDead })
    (created : s.progress = .created) (createdRight : t.progress = .created)
    (compiles : ∀ out, s.circuit.output = .ok out →
      Coupled roomy (compileLiteral out) (compileLiteral out) s t (Agrees roomy spare)) :
    Coupled roomy compileMatrix compileMatrix s t fun _ s' _ t' =>
      Level roomy spare .compiled s' t' := by
  have units : t.options.unitLiterals = s.options.unitLiterals := by rw [options]
  have pures : t.options.pureLiterals = s.options.pureLiterals := by rw [options]
  unfold compileMatrix
  apply Coupled.get
  rw [if_neg (by simp [created]), if_neg (by simp [createdRight])]
  apply Coupled.get
  apply Coupled.get
  rw [circuit, units, pures]
  cases found : s.circuit.output with
  | error error => exact Coupled.throw error
  | ok out =>
    apply Coupled.bind ((preserves_compileLiteral out).coupled (preserves_compileLiteral out)
      (compiles out found))
    intro f s₁ g t₁ facts
    obtain ⟨same, sameRight, agrees⟩ := facts
    have begun : Begun roomy spare f s₁ g t₁ :=
      ⟨(congrArg (·.2.1) same).trans created, (congrArg (·.2.1) sameRight).trans createdRight, agrees⟩
    apply coupled_optional _ begun shadows_propagateUnits
    intro f s₂ g t₂ begun
    apply coupled_optional _ begun shadows_eliminatePure
    intro f s₃ g t₃ begun
    obtain ⟨created, createdRight, agrees⟩ := begun
    exact Coupled.of_run (noteFunction_compiled created f) (noteFunction_compiled createdRight g)
      (agrees.note .compiled)

/-- Two ways of elimination leave the same function, if the tables agree as they should. -/
def Concurrent (roomy : Bool) (spare : Nat) (work other : List Block → Handle → Solve Handle) :
    Prop :=
  ∀ (room : Option (Reserve spare)), room.isSome = roomy → ∀ blocks f s g t,
    Follows room s t → Alike f s g t → Shadows room (work blocks f) (other blocks g) s t Alike

theorem coupled_eliminateWith {work other : List Block → Handle → Solve Handle}
    (concurrent : Concurrent roomy spare work other) (call later : StagedCall)
    (level : Level roomy spare .compiled s t) :
    Coupled roomy (eliminateWith call work) (eliminateWith later other) s t fun _ s' _ t' =>
      Level roomy spare .eliminated s' t' := by
  obtain ⟨f, g, progress, progressRight, room, rfl, follows, alike⟩ := level
  unfold eliminateWith
  apply Coupled.of_run_bind (expectStage_compiled call progress)
    (expectStage_compiled later progressRight)
  apply Coupled.get
  rw [follows.circuit_eq]
  apply Coupled.bind (concurrent room rfl _ f s g t follows alike)
  intro h s₁ k t₁ facts
  obtain ⟨inner, alike₁⟩ := facts
  apply Coupled.bind (shadows_closeFree inner.toFollows alike₁)
  intro r s₂ r' t₂ facts
  obtain ⟨outer, alike₂⟩ := facts
  have both := inner.trans outer
  exact Coupled.of_run (noteFunction_eliminated (both.progressLeft.trans progress) r)
    (noteFunction_eliminated (both.progressRight.trans progressRight) r')
    (Agrees.note ⟨room, rfl, outer.toFollows, alike₂⟩ .eliminated)

theorem coupled_verdict (level : Level roomy spare .eliminated s t) :
    Coupled roomy verdict verdict s t fun value s' value' t' =>
      value = value' ∧ Level roomy spare (.decided · value) s' t' := by
  obtain ⟨f, g, progress, progressRight, room, rfl, follows, alike⟩ := level
  have same : verdictOf t.circuit g = verdictOf s.circuit f := by
    unfold verdictOf
    rw [follows.circuit_eq, Matches.asConstant_eq follows.paired.left follows.paired.right alike]
  have ranRight := verdict_run progressRight
  rw [same] at ranRight
  apply Coupled.of_run (verdict_run progress) ranRight
  exact ⟨rfl, Agrees.note ⟨room, rfl, follows, alike⟩ (.decided · _)⟩

section Witness

theorem shadows_assignBlock (follows : Follows room s t) (alike : Alike f s g t) (block : Block) :
    Shadows room (assignBlock f block) (assignBlock g block) s t fun a _ b _ => a = b := by
  have picked : s.diagram.pickCube f (block.vars.map Int.ofNat) =
      t.diagram.pickCube g (block.vars.map Int.ofNat) :=
    Matches.pickCube_eq follows.paired.left follows.paired.right alike _
  unfold assignBlock
  apply Shadows.get
  rw [picked]
  cases t.diagram.pickCube g (block.vars.map Int.ofNat) with
  | none => exact .throw _
  | some values =>
    apply Shadows.get
    rw [follows.forced_eq]
    exact .pure follows rfl

theorem shadows_target (follows : Follows room s t) (alike : Alike f s g t) (verdict : Bool) :
    Shadows room (target f verdict) (target g verdict) s t Alike := by
  cases verdict with
  | true => exact .pure follows alike
  | false => exact shadows_not follows alike

theorem coupled_witness {value : Bool} (follows : Follows room s t) (alike : Alike f s g t)
    (decided : Decided s f value) (decidedRight : Decided t g value) :
    Coupled room.isSome witness witness s t fun a s' b t' => Follows room s' t' ∧ a = b := by
  have ran := witness_eq decided
  have ranRight := witness_eq decidedRight
  rw [follows.circuit_eq, follows.outer_eq] at ranRight
  have nothing : Coupled room.isSome (pure none : Solve (Option Valuation)) (pure none) s t
      fun a s' b t' => Follows room s' t' ∧ a = b := .pure ⟨follows, rfl⟩
  cases head : s.circuit.blocks.head? with
  | none =>
    simp only [head] at ran ranRight
    exact nothing.congr ran ranRight
  | some block =>
    simp only [head] at ran ranRight
    by_cases outer : s.outerAbstracted = true
    · rw [if_pos outer] at ran ranRight
      exact nothing.congr ran ranRight
    · rw [if_neg outer] at ran ranRight
      by_cases differs : value ≠ (block.quantifier == .ex)
      · rw [if_pos differs] at ran ranRight
        exact nothing.congr ran ranRight
      · rw [if_neg differs] at ran ranRight
        refine Coupled.congr ?_ ran ranRight
        apply Coupled.bind (shadows_target follows alike value)
        intro h s₁ k t₁ facts
        obtain ⟨advance₁, alike₁⟩ := facts
        apply Coupled.bind (shadows_assignBlock advance₁.toFollows alike₁ block)
        intro valuation s₂ valuation' t₂ facts
        obtain ⟨advance₂, same⟩ := facts
        apply Coupled.modify_bind
        exact .pure ⟨advance₂.toFollows.withProgress _ _, congrArg some same⟩

end Witness

/-- The runs have found out the same. With room, the second table was not larger than the first
one and a reserve. -/
structure Concurs (roomy : Prop) (spare : Nat) (first second : Outcome) : Prop where
  verdict_eq : second.verdict = first.verdict
  witness_eq : second.witness = first.witness
  tracks : Tracks roomy spare first.statistics second.statistics

/-- A run that keeps up in compilation and in elimination keeps up. -/
theorem coupled_solveWith {eliminate other : Solve Unit}
    (compiles : Coupled roomy compileMatrix compileMatrix s t fun _ s' _ t' =>
      Level roomy spare .compiled s' t')
    (eliminates : ∀ s t, Level roomy spare .compiled s t →
      Coupled roomy eliminate other s t fun _ s' _ t' => Level roomy spare .eliminated s' t') :
    Coupled roomy (solveWith eliminate) (solveWith other) s t fun a _ b _ =>
      Concurs roomy spare a b := by
  unfold solveWith
  apply Coupled.bind compiles
  intro _ s₁ _ t₁ level
  apply Coupled.bind (eliminates s₁ t₁ level)
  intro _ s₂ _ t₂ level
  apply Coupled.bind (coupled_verdict level)
  intro value s₃ value' t₃ facts
  obtain ⟨rfl, f, g, progress, progressRight, room, rfl, follows, alike⟩ := facts
  have asked : t₃.options.witness = s₃.options.witness := by rw [follows.options_eq]
  have answers (answer : Option Valuation) {s t : Solver}
      (tracks : Tracks room.isSome spare s.statistics t.statistics) :
      Coupled room.isSome
        (do return { verdict := value, witness := answer, statistics := (← get).statistics } :
          Solve Outcome)
        (do return { verdict := value, witness := answer, statistics := (← get).statistics } :
          Solve Outcome) s t fun a _ b _ => Concurs room.isSome spare a b := by
    apply Coupled.get
    apply Coupled.pure
    exact ⟨rfl, rfl, tracks⟩
  apply Coupled.get
  rw [asked]
  dsimp only
  split
  · apply Coupled.bind (coupled_witness follows alike (.inl progress) (.inl progressRight))
    intro answer s₄ answer' t₄ facts
    rw [← facts.2]
    exact answers answer facts.1.tracks
  · exact answers none follows.tracks

namespace Elimination

theorem concurrent_self (elimination : Elimination) (roomy : Bool) (spare : Nat) :
    Concurrent roomy spare elimination.work elimination.work := by
  intro room _ blocks f s g t follows alike
  cases elimination with
  | byBlock => exact shadows_abstractBlocks blocks follows alike
  | byVariable => exact shadows_abstractBlocksByVariable blocks follows alike

/-- With room in the second table, a run over it succeeds if compilation keeps up. -/
theorem exists_solve {c : Circuit} {out : Literal} (wellFormed : c.WellFormed)
    (output : c.output? = some out) (elimination : Elimination) {options options' : SolverOptions}
    {limit limit' : Nat} {first : Outcome}
    (compiles : Coupled (true = true) compileMatrix compileMatrix (start c options limit)
      (start c options' limit') fun _ s _ t => Level true spare .compiled s t)
    (ran : elimination.solve c options limit = .ok first) :
    ∃ second, elimination.solve c options' limit' = .ok second ∧
      Concurs (true = true) spare first second := by
  have coupled := coupled_solveWith compiles fun s t =>
    coupled_eliminateWith (elimination.concurrent_self true spare) elimination.call elimination.call
  have only := ensures_solveWith wellFormed output elimination.closing elimination.call options'
    limit'
  obtain ⟨second, t, succeeded, concurs⟩ := coupled.succeeds rfl (run_eq_ok ran)
    (only.mono (fun _ _ _ => True.intro) fun _ _ exhausted => exhausted)
  exact ⟨second, congrArg Prod.fst succeeded, concurs⟩

end Elimination

end QuantCircuit.Solver
