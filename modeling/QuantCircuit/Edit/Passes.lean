import QuantCircuit.Circuit.Blocks
import QuantCircuit.Circuit.Miniscope
import QuantCircuit.Circuit.Reorder
import QuantCircuit.Edit.Walk

/-! Rewriting a circuit in place. A pass checks what it reads as it goes along, and gives up
in the middle of its work if a check fails. -/

namespace QuantCircuit

namespace Numbering

/-- Only kept identifiers may be renumbered. -/
def checkKept (n : Numbering) (literal : Literal) : Except Error Unit :=
  if n.place literal.natAbs = 0 then .error (.undefinedLiteral literal n.places.size) else .ok ()

/-- A kept gate takes the next number, and needs kept identifiers only. The count is that of
the gates kept before. -/
def checkGate (n : Numbering) (c : Circuit) (count : Nat) (entry : Gate × Nat) :
    Except Error Nat := do
  let place := n.place (c.maxVar + entry.2)
  if place = 0 then return count
  if place ≠ n.maxVar + count then throw (.structural .gatesOutOfOrder)
  entry.1.inputs.forM n.checkKept
  entry.1.bound.forM n.checkKept
  return count + 1

def check (n : Numbering) (c : Circuit) : Except Error Unit := do
  let _ ← c.gates.toList.zipIdx.foldlM (n.checkGate c) 0
  if let some literal := c.output? then n.checkKept literal

end Numbering

namespace Circuit

def checkInputs (c : Circuit) (arithmetic : Arithmetic) : Except Error Unit :=
  c.gates.toList.zipIdx.forM fun (gate, position) =>
    gate.inputs.forM fun literal => do
      checkLiteral literal c.maxGate arithmetic
      checkLiteral literal (c.maxVar + position) arithmetic

end Circuit

namespace Edit

open Circuit

def splitBlocks : Edit Unit := modify Circuit.splitBlocks

def combineBlocks : Edit Unit := modify Circuit.combineBlocks

def renumber (n : Numbering) : Edit Unit := do
  n.check (← get)
  modify (·.renumber n)

variable (arithmetic : Arithmetic)

def cleanup : Edit Unit := do
  if (← get).hasQuantifierGates then throw (.structural .cleanupNeedsPrenex)
  let live := (← reachable arithmetic).toList
  renumber
    { places := (numberMarked 1 live).toArray
      maxVar := 1 + (live.take (← get).maxVar).count true }

def cleanupGates : Edit Unit := do
  let live := (← reachable arithmetic).toList
  let maxVar := (← get).maxVar
  renumber
    { places := (List.range maxVar ++ numberMarked maxVar (live.drop maxVar)).toArray
      maxVar }

def reorderVariables (first : List Nat) : Edit Unit := do
  renumber ((← get).reordering first)
  modify fun c => { c with blocks := c.blocks.map fun block =>
    { block with vars := block.vars.mergeSort } }

def reorderByTraversal : Edit Unit := do
  reorderVariables (← metVariables arithmetic)

def reorderByAppearance : Edit Unit := do
  let c ← get
  c.checkInputs arithmetic
  reorderVariables c.appearanceOrder

/-- Takes the last block off, and quantifies the output by a new gate that binds it. -/
def moveLastBlock : Edit Unit := do
  let c ← get
  let out ← c.output
  if let some block := c.blocks.getLast? then
    modify fun c => { c with blocks := c.blocks.dropLast }
    let gate ← addGate arithmetic (.quantify block.quantifier (block.vars.map Int.ofNat) out)
    modify fun c => { c with output? := some gate }

def blocksToGates : Edit Unit := do
  (← get).blocks.tail.forM fun _ => moveLastBlock arithmetic

/-- Brings a quantifier down in the circuit itself. -/
def descend (work : ExceptT Error (StateM Descent) α) : Edit α := fun c =>
  let (result, state) := work { circuit := c }
  (result, state.circuit)

def quantifyOutput (q : Quantifier) (x : Nat) : Edit Unit := do
  let dependencies ← Dependencies.ofCircuit (← get) arithmetic
  let out ← (← get).output
  let literal ← descend (bringDown dependencies q x out)
  unless literal = out do setOutput arithmetic literal
  cleanupGates arithmetic

/-- Quantifies the output by the variables of the last block, and then takes it off. -/
def miniscopeLastBlock : Edit Unit := do
  if let some block := (← get).blocks.getLast? then
    block.vars.forM (quantifyOutput arithmetic block.quantifier)
    modify fun c => { c with blocks := c.blocks.dropLast }

def miniscope : Edit Unit := do
  (← get).blocks.tail.forM fun _ => miniscopeLastBlock arithmetic

end Edit

end QuantCircuit
