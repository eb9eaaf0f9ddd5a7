import QuantCircuit.Proofs.Diagram.Evaluating
import QuantCircuit.Proofs.Solver.Calls

namespace QuantCircuit.Solver

open Diagram

variable {c : Circuit} {out : Literal} {options : SolverOptions} {s t : Solver} {call : Call}

/-- The compiled function is the one that the output denotes. -/
def CompilesTo (c : Circuit) (out : Literal) (t : Solver) : Prop :=
  ∃ f, t.progress = .compiled f ∧ t.diagram.Valid ∧ t.diagram.Holds f ∧
    ∀ σ, t.diagram.value σ f = c.meaning out σ

theorem ensures_compileMatrix_plain (wellFormed : c.WellFormed) (output : c.output? = some out)
    (circuit : s.circuit = c) (valid : s.diagram.Valid) (created : s.progress = .created)
    (units : s.options.unitLiterals = false) (pures : s.options.pureLiterals = false) :
    Ensures compileMatrix s (fun _ t => CompilesTo c out t) fun _ t => Keeps s t := by
  unfold compileMatrix
  refine Ensures.get ?_
  rw [if_neg (by simp [created])]
  refine Ensures.get (Ensures.get ?_)
  simp only [circuit, Circuit.output, output, units, pures]
  refine Ensures.lift ?_
  refine Ensures.bind (Ensures.mono_fail (works_compileLiteral wellFormed circuit valid
    (wellFormed.output_lt out output)) fun _ _ facts => facts.1) ?_
  rintro f t ⟨kept, holds, value⟩
  exact Ensures.of_run (noteFunction_compiled (kept.progress_eq.trans created) f)
    ⟨f, rfl, kept.valid, holds, value⟩

theorem CompilesTo.evaluate (compiles : CompilesTo c out t) (wellFormed : c.WellFormed)
    (output : c.output? = some out) :
    ∃ f, t.progress = .compiled f ∧ ∀ entries : List Bool, c.maxVar ≤ entries.length →
      ∃ value, c.evaluate entries = .ok value ∧ t.diagram.evaluate f entries = some value := by
  obtain ⟨f, progress, valid, holds, value⟩ := compiles
  have defined : c.Defines out := wellFormed.output_lt out output
  refine ⟨f, progress, fun entries long =>
    ⟨_, Circuit.computes_meaning wellFormed output entries, ?_⟩⟩
  have reads : ∀ v, ¬ Ignores (t.diagram.value · f) v → v < entries.length := by
    intro v looks
    refine Nat.lt_of_lt_of_le (Nat.lt_of_not_le fun behind => looks ?_) long
    have ignored := (Circuit.readsOnly_meaning wellFormed defined).ignores (v := v)
      fun relevant => Nat.not_le.mpr relevant.2 behind
    rwa [funext value]
  rw [evaluate_eq_value valid holds reads, value]

/-- A call before compilation compiles, or leaves all but the diagram and counters alone. -/
theorem ensures_perform_of_created (wellFormed : c.WellFormed) (output : c.output? = some out)
    (circuit : s.circuit = c) (valid : s.diagram.Valid) (created : s.progress = .created)
    (units : s.options.unitLiterals = false) (pures : s.options.pureLiterals = false)
    (call : Call) :
    Ensures call.perform s (fun _ t => t.progress.stage ≠ .created) fun _ t => Keeps s t := by
  have refused {staged : StagedCall} (error : Error) (t : Solver)
      (refuses : Refuses staged s error t) : Keeps s t := by
    rw [refuses.1]
    exact .refl valid
  have early {work : List Block → Handle → Solve Handle} (staged : StagedCall) :
      Ensures (do eliminateWith staged work; return Reply.done) s
        (fun _ t => t.progress.stage ≠ .created) fun _ t => Keeps s t :=
    Ensures.bind (Ensures.mono_fail (ensures_eliminateWith_early (by simp [created])) refused)
      fun _ _ (reached : _ ≠ Stage.created) => Ensures.pure reached
  cases call with
  | compile =>
    refine Ensures.bind (ensures_compileMatrix_plain wellFormed output circuit valid created units
      pures) fun _ t compiles => ?_
    obtain ⟨f, progress, _⟩ := compiles
    exact Ensures.pure (by simp [progress])
  | eliminateBlocks => exact early .eliminateBlocks
  | eliminateVariables => exact early .eliminateVariables
  | verdict =>
    exact Ensures.map (Ensures.mono_fail (ensures_verdict_early (by rw [created])
      (by simp [created])) refused)
  | witness =>
    exact Ensures.map (Ensures.mono_fail (ensures_witness_early (by rw [created])) refused)

/-- A solver that has not compiled anything still has the circuit and the options it began with. -/
theorem keeps_of_created (wellFormed : c.WellFormed) (output : c.output? = some out)
    (units : options.unitLiterals = false) (pures : options.pureLiterals = false) (limit : Nat)
    (calls : List Call)
    (created : (afterCalls calls (start c options limit)).progress = .created) :
    Keeps (start c options limit) (afterCalls calls (start c options limit)) := by
  induction calls using List.reverseRecOn with
  | nil => exact .refl (valid_empty limit)
  | append_singleton calls call ih =>
    rw [afterCalls_snoc] at created ⊢
    obtain ⟨_, fresh | ⟨g, _, known⟩⟩ := reached_afterCalls wellFormed output options limit calls
    · have kept := ih fresh.created
      have step := ensures_perform_of_created wellFormed output fresh.circuit_eq fresh.valid
        fresh.created (kept.options_eq ▸ units) (kept.options_eq ▸ pures) call
      rcases ran : call.perform (afterCalls calls (start c options limit)) with ⟨result, t⟩
      rw [ran] at created
      cases result with
      | ok reply => exact absurd (congrArg Progress.stage created) (step.of_ok ran)
      | error error => exact kept.trans (step.of_error ran)
    · -- a solver that has compiled stays behind that stage
      have later : Known c out g (call.perform (afterCalls calls (start c options limit))).2 :=
        (Ensures.mono (ensures_perform_of_known wellFormed output known call)
          (fun _ _ facts => facts.2.1) fun _ _ facts => facts.1).state
      exact absurd (congrArg Progress.stage created) later.stage_ne

/-- Whatever a solver was asked before, what it compiles is evaluated to what the circuit is. -/
theorem compileMatrix_agrees (wellFormed : c.WellFormed) (output : c.output? = some out)
    (units : options.unitLiterals = false) (pures : options.pureLiterals = false) (limit : Nat)
    (calls : List Call)
    (compiled : compileMatrix (afterCalls calls (start c options limit)) = (.ok (), t)) :
    ∃ f, t.progress = .compiled f ∧ ∀ entries : List Bool, c.maxVar ≤ entries.length →
      ∃ value, c.evaluate entries = .ok value ∧ t.diagram.evaluate f entries = some value := by
  obtain ⟨_, fresh | ⟨g, _, known⟩⟩ := reached_afterCalls wellFormed output options limit calls
  · have created := fresh.created
    have kept := keeps_of_created wellFormed output units pures limit calls created
    have compiles := (ensures_compileMatrix_plain wellFormed output kept.circuit_eq kept.valid
      created (kept.options_eq ▸ units) (kept.options_eq ▸ pures)).of_ok compiled
    exact compiles.evaluate wellFormed output
  · have refused : Ensures compileMatrix (afterCalls calls (start c options limit))
        (fun _ _ => False) fun _ _ => True :=
      Ensures.mono_fail (ensures_compileMatrix_late known.stage_ne) fun _ _ _ => True.intro
    exact (refused.of_ok compiled).elim

/-- Quantifiers are nested and shared here, bind a variable twice, and bind it again. -/
def rebound : Circuit where
  name := "rebound"
  maxVar := 4
  blocks := [⟨.all, [1]⟩]
  gates := #[
    { connective := .and, inputs := [1, -2] },
    { connective := .ex, inputs := [4], bound := [2, 2] },
    { connective := .and, inputs := [5, 4, 3, 1] },
    { connective := .all, inputs := [-6], bound := [3, 2] },
    { connective := .or, inputs := [-7, 5, 2] }]
  output? := some (-8)
  names := #["", "1", "2", "3", "4", "5", "6", "7", "8"]
  origin := #[0, 1, 2, 3, 4, 5, 6, 7, 8]

/-- Functions are released and garbage is collected during this compilation. -/
theorem rebound_agrees :
    let s := afterCalls [.verdict] (start rebound { releaseDead := true, fold := .balanced } 8)
    (compileMatrix s).1 = .ok () ∧ (compileMatrix s).2.statistics.collections ≠ 0 ∧
      ∃ f, (compileMatrix s).2.progress = .compiled f ∧
        ∀ entries : List Bool, rebound.maxVar ≤ entries.length →
          ∃ value, rebound.evaluate entries = .ok value ∧
            (compileMatrix s).2.diagram.evaluate f entries = some value := by
  intro s
  have succeeded : (compileMatrix s).1 = .ok () := by decide +kernel
  have compiled : compileMatrix s = (.ok (), (compileMatrix s).2) := run_eq_ok succeeded
  have wellFormed : rebound.WellFormed := by decide +kernel
  exact ⟨succeeded, by decide +kernel,
    compileMatrix_agrees wellFormed rfl rfl rfl 8 [.verdict] compiled⟩

end QuantCircuit.Solver
