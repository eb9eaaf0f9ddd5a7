import Mathlib.Data.List.Induction
import QuantCircuit.Proofs.Circuit.Evaluation
import QuantCircuit.Proofs.Solver.Witnessing

namespace QuantCircuit.Solver

open Diagram

/-- The calls that a solver accepts. -/
inductive Call where
  | compile
  | eliminateBlocks
  | eliminateVariables
  | verdict
  | witness
  deriving DecidableEq, Repr

/-- What a successful call returns. -/
inductive Reply where
  | done
  | verdict (value : Bool)
  | witness (result : Option Valuation)
  deriving DecidableEq, Repr

namespace Call

def perform : Call → Solve Reply
  | compile => do compileMatrix; return .done
  | eliminateBlocks => do Solver.eliminateBlocks; return .done
  | eliminateVariables => do Solver.eliminateVariables; return .done
  | verdict => .verdict <$> Solver.verdict
  | witness => .witness <$> Solver.witness

/-- Calls other than compilation name themselves when they come at the wrong stage. -/
def staged? : Call → Option StagedCall
  | compile => none
  | eliminateBlocks => some .eliminateBlocks
  | eliminateVariables => some .eliminateVariables
  | verdict => some .verdict
  | witness => some .witness

/-- The errors a call may end in at a stage. -/
def MayFail (limit : Nat) (stage : Stage) (call : Call) (error : Error) : Prop :=
  error = .tableExhausted limit ∨
    (call = compile ∧ stage ≠ .created ∧ error = .structural .alreadyCompiled) ∨
    ∃ staged, call.staged? = some staged ∧ error = .structural (.outOfStage staged stage)

end Call

/-- The solver after some calls, whether they succeeded or failed. -/
def afterCalls (calls : List Call) (s : Solver) : Solver :=
  calls.foldl (fun s call => (call.perform s).2) s

variable {c : Circuit} {out : Literal} {g : Assignment → Bool} {s t : Solver} {limit : Nat}

/-- The reply is right if it is a verdict. -/
def Reply.Right (c : Circuit) (out : Literal) (reply : Reply) : Prop :=
  ∀ value, reply = .verdict value → value = c.truth out

theorem ensures_done {work : Solve Unit} {post : Solver → Prop} {fail : Error → Solver → Prop}
    (ensures : Ensures work s (fun _ t => post t) fail) :
    Ensures (do work; return Reply.done) s (fun reply t => reply.Right c out ∧ post t) fail :=
  Ensures.bind ensures fun _ _ reached =>
    Ensures.pure ⟨fun _ impossible => (nomatch impossible), reached⟩

/-- A call that comes at the wrong stage leaves the solver as it was. -/
theorem Call.refused {property : Solver → Prop} {call : Call} {staged : StagedCall}
    {error : Error} (kept : property s) (named : call.staged? = some staged)
    (refuses : Refuses staged s error t) :
    property t ∧ t.diagram.limit = s.diagram.limit ∧
      call.MayFail s.diagram.limit s.progress.stage error := by
  obtain ⟨rfl, structural⟩ := refuses
  exact ⟨kept, rfl, .inr (.inr ⟨staged, named, structural⟩)⟩

/-- Before compilation every call but compilation comes too early. -/
theorem ensures_perform_of_fresh (wellFormed : c.WellFormed) (output : c.output? = some out)
    (fresh : Fresh c out s) (call : Call) :
    Ensures call.perform s
      (fun reply t => reply.Right c out ∧ Compiles c out s.diagram.limit t)
      fun error t => Fresh c out t ∧ t.diagram.limit = s.diagram.limit ∧
        call.MayFail s.diagram.limit s.progress.stage error := by
  have created := fresh.created
  cases call with
  | compile =>
    refine ensures_done (Ensures.mono_fail (ensures_compileMatrix wellFormed output fresh) ?_)
    rintro error t ⟨later, limited, exhausted⟩
    exact ⟨later, limited, .inl exhausted⟩
  | eliminateBlocks =>
    exact ensures_done (Ensures.mono_fail (ensures_eliminateWith_early (by simp [created]))
      fun _ _ => Call.refused fresh rfl)
  | eliminateVariables =>
    exact ensures_done (Ensures.mono_fail (ensures_eliminateWith_early (by simp [created]))
      fun _ _ => Call.refused fresh rfl)
  | verdict =>
    exact Ensures.map (Ensures.mono_fail (ensures_verdict_early (by rw [created])
      (by simp [created])) fun _ _ => Call.refused fresh rfl)
  | witness =>
    exact Ensures.map (Ensures.mono_fail (ensures_witness_early (by rw [created]))
      fun _ _ => Call.refused fresh rfl)

/-- After compilation every call keeps what is known, whether it succeeds or fails. -/
theorem ensures_perform_of_known (wellFormed : c.WellFormed) (output : c.output? = some out)
    (known : Known c out g s) (call : Call) :
    Ensures call.perform s
      (fun reply t => reply.Right c out ∧ Known c out g t ∧ t.diagram.limit = s.diagram.limit)
      fun error t => Known c out g t ∧ t.diagram.limit = s.diagram.limit ∧
        call.MayFail s.diagram.limit s.progress.stage error := by
  have defined : c.Defines out := wellFormed.output_lt out output
  have eliminates {work : List Block → Handle → Solve Handle} {staged : StagedCall}
      (closing : Closing work) (named : call.staged? = some staged) :
      Ensures (eliminateWith staged work) s
        (fun _ t => Known c out g t ∧ t.diagram.limit = s.diagram.limit)
        fun error t => Known c out g t ∧ t.diagram.limit = s.diagram.limit ∧
          call.MayFail s.diagram.limit s.progress.stage error := by
    by_cases compiled : s.progress.stage = .matrixCompiled
    · obtain ⟨f, compiled⟩ := known.exists_compiled compiled
      refine Ensures.mono (ensures_eliminateWith closing staged known compiled) ?_ ?_
      · rintro _ t ⟨limited, later, _⟩
        exact ⟨later, limited⟩
      · rintro error t ⟨limited, later, _, exhausted⟩
        exact ⟨later, limited, .inl exhausted⟩
    · exact Ensures.mono_fail (ensures_eliminateWith_early compiled) fun _ _ =>
        Call.refused known named
  cases call with
  | compile =>
    refine ensures_done (Ensures.mono_fail (ensures_compileMatrix_late known.stage_ne) ?_)
    rintro error t ⟨rfl, structural⟩
    exact ⟨known, rfl, .inr (.inl ⟨rfl, known.stage_ne, structural⟩)⟩
  | eliminateBlocks => exact ensures_done (eliminates closing_abstractBlocks rfl)
  | eliminateVariables => exact ensures_done (eliminates closing_abstractBlocksByVariable rfl)
  | verdict =>
    refine Ensures.map (Ensures.mono (ensures_verdict wellFormed defined known) ?_
      fun _ _ => Call.refused known rfl)
    rintro value t ⟨limited, later, right, _⟩
    exact ⟨fun other same => Reply.verdict.inj same ▸ right, later, limited⟩
  | witness =>
    rcases known.progress_cases with ⟨f, progress⟩ | ⟨f, progress⟩ | ⟨f, verdict, decided⟩
    · exact Ensures.map (Ensures.mono_fail (ensures_witness_early (by rw [progress]))
        fun _ _ => Call.refused known rfl)
    · exact Ensures.map (Ensures.mono_fail (ensures_witness_early (by rw [progress]))
        fun _ _ => Call.refused known rfl)
    · refine Ensures.map (Ensures.mono (ensures_witness known decided) ?_ ?_)
      · intro result t answers
        exact ⟨fun _ impossible => (nomatch impossible), answers.known, answers.limit_eq⟩
      · rintro error t ⟨limited, later, _, exhausted⟩
        exact ⟨later, limited, .inl exhausted⟩

def CompiledBy (calls : List Call) (s : Solver) (g : Assignment → Bool) : Prop :=
  ∃ before after f, calls = before ++ after ∧ (afterCalls before s).progress = .compiled f ∧
    ((afterCalls before s).diagram.value · f) = g

/-- A solver that has seen some calls is as good as new, or knows what they compiled. -/
def Reached (c : Circuit) (out : Literal) (calls : List Call) (s : Solver) : Prop :=
  (afterCalls calls s).diagram.limit = s.diagram.limit ∧
    (Fresh c out (afterCalls calls s) ∨
      ∃ g, CompiledBy calls s g ∧ Known c out g (afterCalls calls s))

/-- What every call preserves is preserved by all calls together. -/
theorem afterCalls_induction (property : Solver → Prop)
    (step : ∀ s, property s → ∀ call : Call, property (call.perform s).2) (calls : List Call)
    (start : property s) : property (afterCalls calls s) := by
  induction calls generalizing s with
  | nil => exact start
  | cons call rest ih => exact ih (step s start call)

theorem afterCalls_snoc (calls : List Call) (call : Call) (s : Solver) :
    afterCalls (calls ++ [call]) s = (call.perform (afterCalls calls s)).2 := by
  simp [afterCalls]

theorem CompiledBy.snoc {calls : List Call} (compiled : CompiledBy calls s g) (call : Call) :
    CompiledBy (calls ++ [call]) s g := by
  obtain ⟨before, after, f, rfl, progress, value⟩ := compiled
  exact ⟨before, after ++ [call], f, by simp, progress, value⟩

theorem compiledBy_self {calls : List Call} {f : Handle}
    (progress : (afterCalls calls s).progress = .compiled f) :
    CompiledBy calls s ((afterCalls calls s).diagram.value · f) :=
  ⟨calls, [], f, (List.append_nil calls).symm, progress, rfl⟩

/-- One more call compiles the circuit or leaves the solver as good as new, and once something is
compiled it stays known. -/
theorem Reached.snoc (wellFormed : c.WellFormed) (output : c.output? = some out)
    {calls : List Call} (reached : Reached c out calls s) (call : Call) :
    Reached c out (calls ++ [call]) s := by
  obtain ⟨limited, fresh | ⟨g, compiled, known⟩⟩ := reached
  · have step := (Ensures.mono (ensures_perform_of_fresh wellFormed output fresh call)
      (fun _ t facts => show Compiles c out _ t ∨ Fresh c out t ∧ t.diagram.limit = _ from
        .inl facts.2) fun _ _ facts => .inr ⟨facts.1, facts.2.1⟩).state
    rw [← afterCalls_snoc] at step
    rcases step with ⟨same, f, progress, known⟩ | ⟨later, same⟩
    · exact ⟨same.trans limited, .inr ⟨_, compiledBy_self progress, known⟩⟩
    · exact ⟨same.trans limited, .inl later⟩
  · have step := (Ensures.mono (ensures_perform_of_known wellFormed output known call)
      (fun _ _ facts => facts.2) fun _ _ facts => ⟨facts.1, facts.2.1⟩).state
    rw [← afterCalls_snoc] at step
    obtain ⟨later, same⟩ := step
    exact ⟨same.trans limited, .inr ⟨g, compiled.snoc call, later⟩⟩

theorem reached_afterCalls (wellFormed : c.WellFormed) (output : c.output? = some out)
    (options : SolverOptions) (limit : Nat) (calls : List Call) :
    Reached c out calls (start c options limit) := by
  induction calls using List.reverseRecOn with
  | nil => exact ⟨rfl, .inl (fresh_start c out options limit)⟩
  | append_singleton calls call ih => exact ih.snoc wellFormed output call

/-- The function is there once the matrix is compiled, and the verdict once it is derived. -/
structure Complete (p : Progress) : Prop where
  function_isSome_iff : p.function?.isSome ↔ p.stage ≠ .created
  verdict_isSome_iff : p.verdict?.isSome ↔ .verdictReady ≤ p.stage

theorem Known.complete (known : Known c out g s) : Complete s.progress := by
  rcases known.progress_cases with ⟨f, progress⟩ | ⟨f, progress⟩ | ⟨f, verdict, progress | progress⟩
  all_goals
    rw [progress]
    exact ⟨by simp, by simp +decide⟩

/-- A circuit that is true: no value of the second variable makes the disjunction false
once the first one is true. -/
def disjunction : Circuit where
  name := "disjunction"
  maxVar := 3
  blocks := [⟨.ex, [1]⟩, ⟨.all, [2]⟩]
  gates := #[{ connective := .or, inputs := [1, 2] }]
  output? := some 3
  names := #["", "1", "2", "3"]
  origin := #[0, 1, 2, 3]

end QuantCircuit.Solver
