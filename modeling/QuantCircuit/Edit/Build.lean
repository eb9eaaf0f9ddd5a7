import QuantCircuit.Circuit.Basic

/-! Building a circuit in place. A call changes the circuit step by step, and what it has
changed before it fails stays changed. -/

namespace QuantCircuit

/-- Work on a circuit in place. -/
abbrev Edit := ExceptT Error (StateM Circuit)

namespace Edit

open Circuit

def recordName (name : String) : Edit Unit :=
  modify fun c => { c with names := c.names.push name, origin := c.origin.push c.names.size }

def declare (name : String) : Edit Nat := do
  let c ← get
  if !c.gates.isEmpty then throw (.structural (.lateDeclaration name))
  modify fun c => { c with maxVar := c.maxVar + 1 }
  recordName name
  return c.maxVar

def addVariable (q : Quantifier) (name : String) : Edit Nat := do
  let v ← declare name
  modify fun c => { c with blocks := joinBlock q v c.blocks }
  return v

def addBlock (q : Quantifier) (names : List String) : Edit (List Nat) := do
  let vars ← names.mapM declare
  unless vars.isEmpty do
    modify fun c => { c with blocks := c.blocks ++ [⟨q, vars⟩] }
  return vars

variable (arithmetic : Arithmetic)

def addNamedGate (gate : Gate) (name : String) : Edit Nat := do
  let c ← get
  gate.check c.maxVar c.maxGate arithmetic
  modify fun c => { c with gates := c.gates.push gate }
  recordName name
  return c.maxGate

def addGate (gate : Gate) : Edit Nat := do
  addNamedGate arithmetic gate (← get).freshName

def setOutput (literal : Literal) : Edit Unit := do
  let c ← get
  if c.gates.isEmpty then throw (.structural .outputBeforeGates)
  checkLiteral literal c.maxGate arithmetic
  modify fun c => { c with output? := some literal }

end Edit

end QuantCircuit
