import QuantCircuit.Circuit.Basic
import QuantCircuit.Diagram.Abstract
import QuantCircuit.Diagram.Collect

namespace QuantCircuit

/-- How a gate with many inputs becomes two-place operations: from left to right, or
neighbours of equal size first. -/
inductive Fold where
  | linear
  | balanced
  deriving DecidableEq, Repr, Inhabited

structure SolverOptions where
  /-- Fix existential variables whose value the compiled function forces. -/
  unitLiterals : Bool := false
  /-- Fix variables the compiled function is monotone in. -/
  pureLiterals : Bool := false
  /-- Forget the function of a gate after its last use, and collect garbage. -/
  releaseDead : Bool := false
  fold : Fold := .linear
  /-- Ask for an assignment of the outermost block. -/
  witness : Bool := false
  deriving DecidableEq, Repr

structure Statistics where
  gatesCompiled : Nat := 0
  blocksEliminated : Nat := 0
  /-- Elimination stopped with blocks left, because the function was constant. -/
  earlyTermination : Bool := false
  peakNodes : Nat := 0
  units : Nat := 0
  pures : Nat := 0
  collections : Nat := 0
  deriving DecidableEq, Repr

/-- How far the work has come, the function of the output, later with the inner blocks
quantified, and its truth. -/
structure Progress where
  stage : Stage := .created
  function? : Option Handle := none
  verdict? : Option Bool := none
  deriving DecidableEq, Repr

namespace Progress

/-! The forms that a run comes to. -/

@[match_pattern]
abbrev created : Progress := { }

@[match_pattern]
abbrev compiled (f : Handle) : Progress := ⟨.matrixCompiled, some f, none⟩

@[match_pattern]
abbrev eliminated (f : Handle) : Progress := ⟨.prefixEliminated, some f, none⟩

@[match_pattern]
abbrev decided (f : Handle) (verdict : Bool) : Progress := ⟨.verdictReady, some f, some verdict⟩

@[match_pattern]
abbrev witnessed (f : Handle) (verdict : Bool) : Progress := ⟨.witnessReady, some f, some verdict⟩

end Progress

structure Solver where
  circuit : Circuit
  options : SolverOptions
  diagram : Diagram
  progress : Progress := .created
  /-- The variables that simplification fixed. -/
  forced : Std.TreeMap Nat Bool := ∅
  /-- The outermost block was quantified together with the free variables. -/
  outerAbstracted : Bool := false
  statistics : Statistics := {}

/-- Work on a solver. Counters and nodes keep what was done before a failure. -/
abbrev Solve := ExceptT Error (StateM Solver)

namespace Solver

def start (circuit : Circuit) (options : SolverOptions) (limit : Nat) : Solver :=
  { circuit, options, diagram := .empty limit }

def onDiagram (work : Build α) : Solve α := fun
  | ⟨circuit, options, diagram, progress, forced, outerAbstracted, statistics⟩ =>
    let (result, diagram) := work diagram
    (result, ⟨circuit, options, diagram, progress, forced, outerAbstracted, statistics⟩)

def count (update : Statistics → Statistics) : Solve Unit :=
  modify fun s => { s with statistics := update s.statistics }

/-- Keeps the largest size of the table, dead nodes included. -/
def noteSize : Solve Unit :=
  modify fun s => { s with statistics :=
    { s.statistics with peakNodes := max s.statistics.peakNodes s.diagram.size } }

def outOfStage (call : StagedCall) : Solve α := do
  throw (.structural (.outOfStage call (← get).progress.stage))

/-- The function, for a call that belongs to one stage. -/
def expectStage (stage : Stage) (call : StagedCall) : Solve Handle := do
  let progress := (← get).progress
  match progress.function? with
  | some f => if progress.stage = stage then pure f else outOfStage call
  | none => outOfStage call

def noteFunction (stage : Stage) (f : Handle) : Solve Unit :=
  modify fun s => { s with progress := { s.progress with stage, function? := some f } }

def force (v : Nat) (value : Bool) : Solve Unit :=
  modify fun s => { s with forced := s.forced.insert v value }

end Solver

end QuantCircuit
