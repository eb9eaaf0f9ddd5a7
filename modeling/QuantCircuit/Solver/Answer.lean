import QuantCircuit.Solver.Compile
import QuantCircuit.Solver.Eliminate

namespace QuantCircuit

structure Outcome where
  verdict : Bool
  witness : Option Valuation
  statistics : Statistics
  deriving DecidableEq, Repr

namespace Solver

/-- A function that is not constant depends on the outermost block or on free
variables alone, and can be made true or false as the block's quantifier wants. -/
def verdictOf (c : Circuit) (f : Handle) : Bool :=
  match f.asConstant, c.blocks.head? with
  | some value, _ => value
  | none, some block => block.quantifier = .ex
  | none, none => true

def verdict : Solve Bool := do
  match (← get).progress.verdict? with
  | some value => return value
  | none =>
    let f ← expectStage .prefixEliminated .verdict
    let value := verdictOf (← get).circuit f
    modify fun s => { s with
      progress := { s.progress with stage := .verdictReady, verdict? := some value } }
    return value

def expectVerdict : Solve Bool := do
  let progress := (← get).progress
  match progress.verdict? with
  | some value => if .verdictReady ≤ progress.stage then pure value else outOfStage .witness
  | none => outOfStage .witness

def expectFunction : Solve Handle := do
  match (← get).progress.function? with
  | some f => pure f
  | none => throw (.structural .noFunction)

/-- The values of the block's variables on a path to true. Simplification's choices
come first. -/
def assignBlock (f : Handle) (block : Block) : Solve Valuation := do
  match (← get).diagram.pickCube f (block.vars.map Int.ofNat) with
  | none => throw (.structural .noAssignment)
  | some values =>
    let forced := (← get).forced
    return (block.vars.zip values).map fun (v, value) => (Int.ofNat v, forced.getD v value)

/-- An assignment of the outermost block: one that makes the rest true if the block
is existential and the circuit true, one that makes it false if the block is universal
and the circuit false. If the block was quantified together with free variables, no
single assignment need do. -/
def witness : Solve (Option Valuation) := do
  let value ← expectVerdict
  let f ← expectFunction
  match (← get).circuit.blocks.head? with
  | none => return none
  | some block =>
    if (← get).outerAbstracted then return none
    if value ≠ (block.quantifier == .ex) then return none
    let target ← if value then pure f else onDiagram (Diagram.not f)
    let valuation ← assignBlock target block
    modify fun s => { s with progress := { s.progress with stage := .witnessReady } }
    return some valuation

/-- Compiles, eliminates, decides and, if the options ask for it, looks for a witness. -/
def solveWith (eliminate : Solve Unit) : Solve Outcome := do
  compileMatrix
  eliminate
  let verdict ← verdict
  let witness ← if (← get).options.witness then witness else pure none
  return { verdict, witness, statistics := (← get).statistics }

def solve : Solve Outcome := solveWith eliminateBlocks

end Solver

end QuantCircuit
