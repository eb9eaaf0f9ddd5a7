import QuantCircuit.Proofs.Coupling
import QuantCircuit.Proofs.Solver.Storing
import QuantCircuit.Solver.Eliminate

namespace QuantCircuit.Solver

open Diagram

variable {α β : Type} {s : Solver} {uses : Array (Option Nat)} {target : Nat}

/-- What compilation and elimination do not touch. -/
def bystanders (s : Solver) : SolverOptions × Progress × Nat × Nat :=
  (s.options, s.progress, s.statistics.units, s.statistics.pures)

/-- The work leaves the options, the stage and the numbers of fixed variables alone. -/
def Preserves (work : Solve α) : Prop :=
  ∀ s, bystanders (work s).2 = bystanders s

namespace Preserves

variable {work : Solve α}

theorem pure (a : α) : Preserves (Pure.pure a : Solve α) :=
  fun _ => rfl

theorem bind {next : α → Solve β} (first : Preserves work) (rest : ∀ a, Preserves (next a)) :
    Preserves (work >>= next) := by
  intro s
  have before := first s
  rcases ended : work s with ⟨result, t⟩
  rw [ended] at before
  cases result with
  | ok a =>
    rw [run_bind_of_ok ended]
    exact (rest a t).trans before
  | error e =>
    rw [run_bind_of_error ended]
    exact before

theorem get {next : Solver → Solve β} (rest : ∀ s, Preserves (next s)) :
    Preserves (MonadState.get >>= next) :=
  fun s => rest s s

theorem onDiagram (work : Build α) : Preserves (Solver.onDiagram work) :=
  fun _ => rfl

theorem count {update : Statistics → Statistics}
    (apart : ∀ statistics, (update statistics).units = statistics.units ∧
      (update statistics).pures = statistics.pures) : Preserves (Solver.count update) := by
  intro s
  have same := apart s.statistics
  show (s.options, s.progress, (update s.statistics).units, (update s.statistics).pures) = bystanders s
  rw [same.1, same.2]
  rfl

theorem noteSize : Preserves Solver.noteSize :=
  fun _ => rfl

theorem foldlM {step : β → α → Solve β} (each : ∀ b a, Preserves (step b a)) (entries : List α)
    (b : β) : Preserves (entries.foldlM step b) := by
  induction entries generalizing b with
  | nil => exact pure b
  | cons a rest ih =>
    rw [List.foldlM_cons]
    exact (each b a).bind ih

end Preserves

/-- What both runs leave alone is still there when they are done. -/
theorem Preserves.coupled {roomy : Prop} {lead : Solve α} {follow : Solve β} {t : Solver}
    {post : α → Solver → β → Solver → Prop} (preserves : Preserves lead)
    (preservesRight : Preserves follow) (coupled : Coupled roomy lead follow s t post) :
    Coupled roomy lead follow s t fun a s' b t' =>
      bystanders s' = bystanders s ∧ bystanders t' = bystanders t ∧ post a s' b t' := by
  intro a s' ran
  have same : bystanders s' = bystanders s := by
    have kept := preserves s
    rwa [ran] at kept
  apply Ensures.mono (coupled a s' ran).with_run ?_ fun _ _ failed => failed
  intro b t' facts
  have sameRight : bystanders t' = bystanders t := by
    have kept := preservesRight t
    rwa [facts.1] at kept
  exact ⟨same, sameRight, facts.2⟩

theorem preserves_storeGate (functions : Array (Option Handle)) (entry : Gate × Nat) :
    Preserves (storeGate functions entry) := by
  apply Preserves.get
  intro s
  apply Preserves.get
  intro t
  apply (Preserves.onDiagram _).bind
  intro inputs
  apply (Preserves.onDiagram _).bind
  intro f
  refine Preserves.bind (.count ?_) fun _ => Preserves.noteSize.bind fun _ => .pure _
  intro _
  exact ⟨rfl, rfl⟩

theorem preserves_collectGarbage (state : Compilation) : Preserves (collectGarbage state) := by
  apply Preserves.get
  intro s
  split
  · exact .pure state
  · apply (Preserves.onDiagram _).bind
    intro moved
    refine Preserves.bind (.count ?_) fun _ => .get fun t => .get fun u => .pure _
    intro _
    exact ⟨rfl, rfl⟩

theorem preserves_compileGate (state : Compilation) (entry : Gate × Nat) :
    Preserves (compileGate uses target state entry) := by
  intro s
  rw [compileGate_eq]
  apply (preserves_storeGate _ _).bind
  intro functions
  unfold settleGate
  split
  · exact preserves_collectGarbage _
  · exact .pure _

theorem preserves_compileLiteral (literal : Literal) : Preserves (compileLiteral literal) := by
  apply Preserves.get
  intro s
  apply Preserves.get
  intro t
  apply (Preserves.foldlM preserves_compileGate _ _).bind
  intro state
  exact .onDiagram _

theorem preserves_countBlock : Preserves countBlock :=
  .count fun _ => ⟨rfl, rfl⟩

theorem preserves_stopEarly (f : Handle) : Preserves (stopEarly f) :=
  Preserves.bind (.count fun _ => ⟨rfl, rfl⟩) fun _ => .pure f

theorem preserves_abstractBlocks (blocks : List Block) (f : Handle) :
    Preserves (abstractBlocks blocks f) := by
  induction blocks generalizing f with
  | nil => exact .pure f
  | cons block rest ih =>
    rw [abstractBlocks]
    split
    · exact preserves_stopEarly f
    · apply (Preserves.onDiagram _).bind
      intro g
      exact preserves_countBlock.bind fun _ => Preserves.noteSize.bind fun _ => ih g

theorem preserves_abstractVariables (q : Quantifier) (vars : List Nat) (f : Handle) :
    Preserves (abstractVariables q vars f) := by
  induction vars generalizing f with
  | nil => exact .pure _
  | cons v rest ih =>
    rw [abstractVariables]
    split
    · exact (preserves_stopEarly f).bind fun _ => .pure _
    · apply (Preserves.onDiagram _).bind
      intro g
      exact Preserves.noteSize.bind fun _ => ih g

theorem preserves_abstractBlocksByVariable (blocks : List Block) (f : Handle) :
    Preserves (abstractBlocksByVariable blocks f) := by
  induction blocks generalizing f with
  | nil => exact .pure f
  | cons block rest ih =>
    rw [abstractBlocksByVariable]
    apply (preserves_abstractVariables _ _ f).bind
    intro result
    obtain ⟨g, finished⟩ := result
    cases finished with
    | true => exact preserves_countBlock.bind fun _ => ih g
    | false => exact .pure g

/-- Without releasing, compiling gates is storing their functions. -/
theorem compileGates_plain (plain : s.options.releaseDead = false) (uses : Array (Option Nat))
    (target : Nat) (entries : List (Gate × Nat)) (state : Compilation) :
    entries.foldlM (compileGate uses target) state s =
      (do
        let functions ← entries.foldlM storeGate state.functions
        pure { state with functions }) s := by
  induction entries generalizing state s with
  | nil => rfl
  | cons entry rest ih =>
    have stores : compileGate uses target state entry s =
        (do
          let functions ← storeGate state.functions entry
          pure { state with functions }) s := by
      simp only [compileGate_eq, settleGate, plain, Bool.false_eq_true, ↓reduceIte]
    have kept := preserves_storeGate state.functions entry s
    rw [List.foldlM_cons, List.foldlM_cons, bind_assoc]
    rcases ended : storeGate state.functions entry s with ⟨result, t⟩
    rw [ended] at kept
    cases result with
    | ok functions =>
      rw [run_bind_of_ok ended] at stores ⊢
      rw [run_bind_of_ok stores]
      exact ih ((congrArg (·.1.releaseDead) kept).trans plain) _
    | error e =>
      rw [run_bind_of_error ended] at stores ⊢
      exact run_bind_of_error stores

/-- Nor are the thresholds for collecting garbage used. -/
theorem compileLiteral_plain (plain : s.options.releaseDead = false) (literal : Literal) :
    compileLiteral literal s =
      (do
        let gates := gatesUpTo s.circuit literal
        let functions ← gates.foldlM storeGate (Array.replicate gates.length none)
        let state : Compilation := { functions, collectAbove := 0 }
        onDiagram (state.read s.circuit.maxVar literal)) s := by
  let gates := gatesUpTo s.circuit literal
  let start : Compilation :=
    { functions := Array.replicate gates.length none, collectAbove := s.diagram.limit / 2 }
  have compiled := compileGates_plain plain (lastUses s.circuit.maxVar gates) literal.natAbs gates
    start
  unfold compileLiteral
  rw [run_get, run_get, run_bind_congr compiled, bind_assoc]
  rfl

end QuantCircuit.Solver
