import QuantCircuit.Solver.Simplify

namespace QuantCircuit

namespace Fold

/-- A partial result of a balanced fold; it stands for `2 ^ level` entries. -/
structure Partial where
  level : Nat
  function : Handle

/-- Adds a partial result to those in front of it, the last one first. Two of one
level make one of the next, as in counting with binary digits. -/
def carry (operation : Handle → Handle → Build Handle) (level : Nat) (f : Handle) :
    List Partial → Build (List Partial)
  | [] => pure [⟨level, f⟩]
  | earlier :: rest =>
    if earlier.level = level then do
      carry operation (level + 1) (← operation earlier.function f) rest
    else
      pure (⟨level, f⟩ :: earlier :: rest)

/-- The partial results are joined from the last one on, earlier ones on the left. -/
def joinPartials (operation : Handle → Handle → Build Handle) (neutral : Handle) :
    List Partial → Build Handle
  | [] => pure neutral
  | last :: rest => rest.foldlM (fun f earlier => operation earlier.function f) last.function

/-- The functions reduced with an operation, or its neutral element if there are none. -/
def run (fold : Fold) (operation : Handle → Handle → Build Handle) (neutral : Handle)
    (functions : List Handle) : Build Handle :=
  match fold with
  | linear => functions.foldlM operation neutral
  | balanced => do
    joinPartials operation neutral
      (← functions.foldlM (fun partials f => carry operation 0 f partials) [])

end Fold

namespace Solver

/-- The functions of the gates compiled so far, unless released, and the table size
above which garbage is collected. -/
structure Compilation where
  functions : Array (Option Handle)
  collectAbove : Nat

namespace Compilation

def read (state : Compilation) (maxVar : Nat) (literal : Literal) : Build Handle := do
  let id := literal.natAbs
  let f ←
    if id < maxVar then Diagram.ofVariable id
    else match state.functions[id - maxVar]? with
      | some (some f) => pure f
      | _ => throw (.structural (.gateUnavailable id))
  if literal < 0 then Diagram.not f else pure f

/-- The functions of the inputs of gate `id`, which must all come before it. -/
def readInputs (state : Compilation) (maxVar id : Nat) (inputs : List Literal) :
    Build (List Handle) :=
  inputs.mapM fun literal => do
    if id ≤ literal.natAbs then throw (.structural (.forwardReference id literal))
    state.read maxVar literal

def release (state : Compilation) (position : Nat) : Compilation :=
  { state with functions := state.functions.setIfInBounds position none }

/-- Puts relocated functions into the slots that hold one. -/
def refill : List (Option Handle) → List Handle → List (Option Handle)
  | some _ :: slots, f :: moved => some f :: refill slots moved
  | none :: slots, moved => none :: refill slots moved
  | _, _ => []

end Compilation

def combineInputs (fold : Fold) (gate : Gate) (functions : List Handle) : Build Handle :=
  match gate.connective, functions with
  | .and, _ => fold.run Diagram.and (.const true) functions
  | .or, _ => fold.run Diagram.or (.const false) functions
  | .all, f :: _ => Diagram.abstract .all gate.bound f
  | .ex, f :: _ => Diagram.abstract .ex gate.bound f
  | _, [] => throw (.outOfRange 0)

/-- For every gate, by position, the last of the given gates that reads it. -/
def lastUses (maxVar : Nat) (gates : List (Gate × Nat)) : Array (Option Nat) :=
  gates.foldl (fun uses entry =>
      entry.1.inputs.foldl (fun uses literal =>
        if literal.natAbs < maxVar then uses
        else uses.setIfInBounds (literal.natAbs - maxVar) (some entry.2)) uses)
    (Array.replicate gates.length none)

/-- Releases what gate `id` reads for the last time, and the gate itself if nothing
reads it and it is not the one compilation is for. -/
def releaseUnused (maxVar : Nat) (uses : Array (Option Nat)) (target id : Nat) (gate : Gate)
    (state : Compilation) : Compilation :=
  let state := gate.inputs.foldl (fun state literal =>
    if maxVar ≤ literal.natAbs ∧ uses[literal.natAbs - maxVar]? = some (some id) then
      state.release (literal.natAbs - maxVar)
    else state) state
  if id ≠ target ∧ uses[id - maxVar]? = some none then state.release (id - maxVar) else state

/-- Collects garbage if the table is large, and moves the threshold halfway between
the new size and the limit, but not below half the limit. -/
def collectGarbage (state : Compilation) : Solve Compilation := do
  if (← get).diagram.size ≤ state.collectAbove then return state
  let slots := state.functions.toList
  let moved ← onDiagram fun d =>
    let (moved, d) := d.collect (slots.filterMap fun slot => slot)
    (.ok moved, d)
  count fun statistics => { statistics with collections := statistics.collections + 1 }
  let size := (← get).diagram.size
  let limit := (← get).diagram.limit
  return {
    functions := (Compilation.refill slots moved).toArray
    collectAbove := max (limit / 2) (size + (limit - size) / 2) }

def compileGate (uses : Array (Option Nat)) (target : Nat) (state : Compilation)
    (entry : Gate × Nat) : Solve Compilation := do
  let (gate, id) := entry
  let maxVar := (← get).circuit.maxVar
  let options := (← get).options
  let inputs ← onDiagram (state.readInputs maxVar id gate.inputs)
  let f ← onDiagram (combineInputs options.fold gate inputs)
  let state := { state with functions := state.functions.setIfInBounds (id - maxVar) (some f) }
  count fun statistics => { statistics with gatesCompiled := statistics.gatesCompiled + 1 }
  noteSize
  if options.releaseDead then
    collectGarbage (releaseUnused maxVar uses target id gate state)
  else
    return state

/-- The gates up to the one the literal stands for, with their identifiers. -/
def gatesUpTo (c : Circuit) (literal : Literal) : List (Gate × Nat) :=
  (c.gates.toList.zipIdx c.maxVar).take (literal.natAbs + 1 - c.maxVar)

def compileLiteral (literal : Literal) : Solve Handle := do
  let c := (← get).circuit
  let gates := gatesUpTo c literal
  let start : Compilation :=
    { functions := Array.replicate gates.length none
      collectAbove := (← get).diagram.limit / 2 }
  let state ← gates.foldlM (compileGate (lastUses c.maxVar gates) literal.natAbs) start
  onDiagram (state.read c.maxVar literal)

/-- Builds the function of the output and simplifies it as the options say. -/
def compileMatrix : Solve Unit := do
  if (← get).progress.stage ≠ .created then throw (.structural .alreadyCompiled)
  let options := (← get).options
  let out ← (← get).circuit.output
  let f ← compileLiteral out
  let f ← if options.unitLiterals then propagateUnits f else pure f
  let f ← if options.pureLiterals then eliminatePure f else pure f
  noteFunction .matrixCompiled f

end Solver

end QuantCircuit
