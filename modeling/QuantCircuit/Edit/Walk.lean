import QuantCircuit.Circuit.Reduce
import QuantCircuit.Edit.Build

/-! Going through a circuit from the output down, with a stack or by recursion. Tables hold
what has been met, and every identifier and literal is checked when it is come to. -/

namespace QuantCircuit

namespace Circuit

variable (c : Circuit) (arithmetic : Arithmetic)

/-- The number of inputs that all gates have together. Every one of them is put on a stack at
most once. -/
def inputCount : Nat :=
  c.gates.foldl (fun count gate => count + gate.inputs.length) 0

def definedOutput : Except Error Literal := do
  let out ← c.output
  checkLiteral out c.maxGate arithmetic
  return out

def markBound (live : Array Bool) (literal : Literal) : Except Error (Array Bool) := do
  let v ← boundVariable literal c.maxVar arithmetic
  return live.setIfInBounds v true

/-- Marks the identifiers on the stack and those below them, and what the gates among these
bind. -/
def explore : Nat → List Nat → Array Bool → Except Error (Array Bool)
  | _, [], live => return live
  | 0, id :: _, _ => throw (.endless id)
  | steps + 1, id :: stack, live =>
    match live[id]? with
    | none => throw (.outOfRange id)
    | some true => explore steps stack live
    | some false =>
      if id < c.maxVar then explore steps stack (live.setIfInBounds id true)
      else do
        let gate ← c.getGate id
        let live ← gate.bound.foldlM (c.markBound arithmetic) (live.setIfInBounds id true)
        gate.inputs.forM (checkLiteral · id arithmetic)
        explore steps ((gate.inputs.map Int.natAbs).reverse ++ stack) live

/-- The variables in the order in which they are met from the identifiers on the stack. -/
def search : Nat → List Nat → Array Bool → Except Error (List Nat)
  | _, [], _ => return []
  | 0, id :: _, _ => throw (.endless id)
  | steps + 1, id :: stack, seen =>
    match seen[id]? with
    | none => throw (.outOfRange id)
    | some true => search steps stack seen
    | some false =>
      if id < c.maxVar then (id :: ·) <$> search steps stack (seen.setIfInBounds id true)
      else do
        let gate ← c.getGate id
        gate.inputs.reverse.forM (checkLiteral · id arithmetic)
        search steps (gate.inputs.map Int.natAbs ++ stack) (seen.setIfInBounds id true)

end Circuit

namespace Edit

open Circuit

variable (arithmetic : Arithmetic)

def reachable : Edit (Array Bool) := do
  let c ← get
  let out ← c.definedOutput arithmetic
  c.explore arithmetic (c.inputCount + 1) [out.natAbs] (Array.replicate c.maxGate false)

def metVariables : Edit (List Nat) := do
  let c ← get
  let out ← c.definedOutput arithmetic
  c.search arithmetic (c.inputCount + 1) [out.natAbs] (Array.replicate c.maxGate false)

/-- An input of a gate has to be an earlier identifier, and if it is a gate, the work goes on
there. -/
def enterInput (c : Circuit) (id : Nat) (work : Array Bool → Nat → Edit (Array Bool))
    (done : Array Bool) (literal : Literal) : Edit (Array Bool) := do
  checkLiteral literal id arithmetic
  if c.isGate literal then work done literal.natAbs else return done

/-- Merges into a gate once the gates below it are done, and returns which ones are done then.
There is a bound on the number of gates on a path. -/
def flattenBelow : Nat → Array Bool → Nat → Edit (Array Bool)
  | 0, _, id => throw (.endless id)
  | depth + 1, done, id => do
    let c ← get
    match done[id - c.maxVar]? with
    | none => throw (.outOfRange (id - c.maxVar))
    | some true => return done
    | some false =>
      let gate ← c.getGate id
      let done ← gate.inputs.foldlM (enterInput arithmetic c id (flattenBelow depth))
        (done.setIfInBounds (id - c.maxVar) true)
      unless gate.connective.isQuantifier do
        modify fun c => c.withGate (id - c.maxVar) (c.mergedGate gate)
      return done

def flatten : Edit Unit := do
  let c ← get
  let out ← c.definedOutput arithmetic
  if c.isGate out then
    discard <| flattenBelow arithmetic (c.gates.size + 1) (Array.replicate c.gates.size false)
      out.natAbs

end Edit

end QuantCircuit
