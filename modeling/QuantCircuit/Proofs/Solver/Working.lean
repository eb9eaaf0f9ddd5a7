import QuantCircuit.Proofs.Diagram.Building
import QuantCircuit.Solver.Basic

namespace QuantCircuit.Solver

variable {α β : Type} {s t u : Solver} {rel : Solver → Solver → Prop}

/-- Only the diagram and the counters differ, and the diagram is valid. -/
structure Keeps (s t : Solver) : Prop where
  circuit_eq : t.circuit = s.circuit
  options_eq : t.options = s.options
  progress_eq : t.progress = s.progress
  forced_eq : t.forced = s.forced
  outer_eq : t.outerAbstracted = s.outerAbstracted
  limit_eq : t.diagram.limit = s.diagram.limit
  valid : t.diagram.Valid

/-- Besides, handles of the diagram stay what they are. -/
structure Extends (s t : Solver) : Prop extends Keeps s t where
  grows : s.diagram.Grows t.diagram

/-- Even the counters are as before. -/
structure Built (s t : Solver) : Prop extends Extends s t where
  statistics_eq : t.statistics = s.statistics

theorem Keeps.refl (valid : s.diagram.Valid) : Keeps s s :=
  ⟨rfl, rfl, rfl, rfl, rfl, rfl, valid⟩

theorem Keeps.trans (first : Keeps s t) (second : Keeps t u) : Keeps s u where
  circuit_eq := second.circuit_eq.trans first.circuit_eq
  options_eq := second.options_eq.trans first.options_eq
  progress_eq := second.progress_eq.trans first.progress_eq
  forced_eq := second.forced_eq.trans first.forced_eq
  outer_eq := second.outer_eq.trans first.outer_eq
  limit_eq := second.limit_eq.trans first.limit_eq
  valid := second.valid

theorem Extends.refl (valid : s.diagram.Valid) : Extends s s :=
  ⟨.refl valid, .refl _⟩

theorem Extends.trans (first : Extends s t) (second : Extends t u) : Extends s u :=
  ⟨first.toKeeps.trans second.toKeeps, first.grows.trans second.grows⟩

theorem Built.refl (valid : s.diagram.Valid) : Built s s :=
  ⟨.refl valid, rfl⟩

theorem Built.trans (first : Built s t) (second : Built t u) : Built s u :=
  ⟨first.toExtends.trans second.toExtends, second.statistics_eq.trans first.statistics_eq⟩

/-- A way in which a solver may change: in several steps as in one, the limit aside. -/
structure Frame (rel : Solver → Solver → Prop) : Prop where
  trans : ∀ {s t u : Solver}, rel s t → rel t u → rel s u
  limit_eq : ∀ {s t : Solver}, rel s t → t.diagram.limit = s.diagram.limit

theorem frame_keeps : Frame Keeps :=
  ⟨Keeps.trans, Keeps.limit_eq⟩

theorem frame_extends : Frame Extends :=
  ⟨Extends.trans, fun extends_ => extends_.limit_eq⟩

/-- The work changes the solver as allowed; without error, result and solver then have
the property. -/
def Works (rel : Solver → Solver → Prop) (work : Solve α) (s : Solver)
    (post : α → Solver → Prop) : Prop :=
  Ensures work s (fun a t => rel s t ∧ post a t)
    fun error t => rel s t ∧ error = .tableExhausted s.diagram.limit

variable {work : Solve α} {mid : α → Solver → Prop} {post : β → Solver → Prop}

theorem works_pure {b : β} (same : rel s s) (reached : post b s) : Works rel (pure b) s post :=
  ⟨same, reached⟩

theorem Works.mono {better : α → Solver → Prop} (works : Works rel work s mid)
    (implies : ∀ a t, rel s t → mid a t → better a t) : Works rel work s better :=
  Ensures.mono works (fun a t ⟨related, reached⟩ => ⟨related, implies a t related reached⟩)
    fun _ _ failed => failed

theorem Works.bind {next : α → Solve β} (frame : Frame rel) (first : Works rel work s mid)
    (rest : ∀ a t, rel s t → mid a t → Works rel (next a) t post) :
    Works rel (work >>= next) s post := by
  refine Ensures.bind (Ensures.mono_fail first ?_) ?_
  · rintro error t facts
    exact facts
  · rintro a t ⟨related, reached⟩
    refine Ensures.mono (rest a t related reached) ?_ ?_
    · rintro b u ⟨relatedLater, done⟩
      exact ⟨frame.trans related relatedLater, done⟩
    · rintro error u ⟨relatedLater, exhausted⟩
      exact ⟨frame.trans related relatedLater, frame.limit_eq related ▸ exhausted⟩

theorem works_get {next : Solver → Solve β} (rest : Works rel (next s) s post) :
    Works rel (get >>= next) s post :=
  rest

theorem works_modify {change : Solver → Solver} (allowed : rel s (change s)) :
    Works rel (modify change) s fun _ t => t = change s :=
  ⟨allowed, rfl⟩

theorem Works.keeps (works : Works Extends work s mid) :
    Works Keeps work s fun a t => s.diagram.Grows t.diagram ∧ mid a t :=
  Ensures.mono works (fun _ _ ⟨related, reached⟩ => ⟨related.toKeeps, related.grows, reached⟩)
    fun _ _ ⟨related, exhausted⟩ => ⟨related.toKeeps, exhausted⟩

theorem onDiagram_run (work : Build α) (s : Solver) :
    onDiagram work s = ((work s.diagram).1, { s with diagram := (work s.diagram).2 }) := rfl

theorem built_onDiagram {work : Build α} {mid : α → Diagram → Prop}
    (builds : Diagram.Builds work s.diagram mid) :
    Works Built (onDiagram work) s fun a t => mid a t.diagram := by
  unfold Works Ensures onDiagram
  unfold Diagram.Builds Ensures at builds
  obtain ⟨circuit, options, d, progress, forced, outer, statistics⟩ := s
  simp only at builds ⊢
  rcases ended : work d with ⟨result, e⟩
  rw [ended] at builds
  cases result with
  | ok a =>
    obtain ⟨valid, grows, reached⟩ := builds
    exact ⟨⟨⟨⟨rfl, rfl, rfl, rfl, rfl, grows.limit_eq, valid⟩, grows⟩, rfl⟩, reached⟩
  | error e =>
    obtain ⟨valid, grows, exhausted⟩ := builds
    exact ⟨⟨⟨⟨rfl, rfl, rfl, rfl, rfl, grows.limit_eq, valid⟩, grows⟩, rfl⟩, exhausted⟩

theorem works_onDiagram {work : Build α} {mid : α → Diagram → Prop}
    (builds : Diagram.Builds work s.diagram mid) :
    Works Extends (onDiagram work) s fun a t => mid a t.diagram :=
  Ensures.mono (built_onDiagram builds)
    (fun _ _ ⟨built, reached⟩ => ⟨built.toExtends, reached⟩)
    fun _ _ ⟨built, exhausted⟩ => ⟨built.toExtends, exhausted⟩

theorem works_count (valid : s.diagram.Valid) (update : Statistics → Statistics) :
    Works Extends (count update) s fun _ t => t.diagram = s.diagram :=
  ⟨⟨⟨rfl, rfl, rfl, rfl, rfl, rfl, valid⟩, .refl _⟩, rfl⟩

theorem works_noteSize (valid : s.diagram.Valid) :
    Works Extends noteSize s fun _ t => t.diagram = s.diagram :=
  ⟨⟨⟨rfl, rfl, rfl, rfl, rfl, rfl, valid⟩, .refl _⟩, rfl⟩

variable {f g : Handle}

theorem expectStage_run {stage : Stage} (call : StagedCall)
    (function : s.progress.function? = some f) (there : s.progress.stage = stage) :
    expectStage stage call s = (.ok f, s) := by
  unfold expectStage
  rw [run_get]
  simp only [function, there, ↓reduceIte]
  rfl

theorem expectStage_compiled (call : StagedCall) (compiled : s.progress = .compiled f) :
    expectStage .matrixCompiled call s = (.ok f, s) :=
  expectStage_run call (by rw [compiled]) (by rw [compiled])

theorem expectStage_eliminated (call : StagedCall) (eliminated : s.progress = .eliminated f) :
    expectStage .prefixEliminated call s = (.ok f, s) :=
  expectStage_run call (by rw [eliminated]) (by rw [eliminated])

theorem noteFunction_run (stage : Stage) (f : Handle) (s : Solver) :
    noteFunction stage f s =
      (.ok (), { s with progress := { s.progress with stage, function? := some f } }) := rfl

theorem noteFunction_compiled (created : s.progress = .created) (f : Handle) :
    noteFunction .matrixCompiled f s = (.ok (), { s with progress := .compiled f }) := by
  rw [noteFunction_run, created]

theorem noteFunction_eliminated (compiled : s.progress = .compiled g) (f : Handle) :
    noteFunction .prefixEliminated f s = (.ok (), { s with progress := .eliminated f }) := by
  rw [noteFunction_run, compiled]

end QuantCircuit.Solver
