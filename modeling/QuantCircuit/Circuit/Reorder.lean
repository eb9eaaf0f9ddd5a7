import QuantCircuit.Circuit.Renumber

namespace QuantCircuit

/-- Listed identifiers get their positions, counted from one. -/
def placeInOrder (places : Array Nat) (list : List (Nat × Nat)) : Array Nat :=
  list.foldl (fun places entry => places.setIfInBounds entry.1 (entry.2 + 1)) places

namespace Circuit

/-- The variables met from the identifiers on the stack, each identifier being
visited once, inputs from left to right. Every input of a gate is put on the stack
at most once, which bounds the number of steps. -/
def traverse (c : Circuit) : Nat → List Nat → Array Bool → List Nat
  | steps + 1, id :: stack, seen =>
    if seen.getD id true then c.traverse steps stack seen
    else
      let seen := seen.setIfInBounds id true
      match c.gate? id with
      | none => id :: c.traverse steps stack seen
      | some gate => c.traverse steps (gate.inputs.map Int.natAbs ++ stack) seen
  | _, _, _ => []

/-- The variables in the order in which a depth-first traversal meets them. -/
def traversalOrder (c : Circuit) (literal : Literal) : List Nat :=
  c.traverse (c.gates.foldl (fun steps gate => steps + gate.inputs.length) 1) [literal.natAbs]
    (Array.replicate c.maxGate false)

/-- The variables in the order of their first occurrence in the gates. -/
def appearanceOrder (c : Circuit) : List Nat :=
  ((c.gates.toList.flatMap (·.inputs)).map Int.natAbs).filter (· < c.maxVar) |>.eraseDups

/-- The listed variables, and behind them all others. -/
def inOrder (c : Circuit) (first : List Nat) : List Nat :=
  first ++ (List.range' 1 (c.maxVar - 1)).filter (· ∉ first)

/-- The new numbers of the variables; gates keep theirs. -/
def reordering (c : Circuit) (first : List Nat) : Numbering where
  places := placeInOrder (Array.range c.maxGate) (c.inOrder first).zipIdx
  maxVar := c.maxVar

/-- Numbers the listed variables first, the others after them in their old order. -/
def reorderVariables (c : Circuit) (first : List Nat) : Circuit :=
  let c := c.renumber (c.reordering first)
  { c with blocks := c.blocks.map fun block =>
      { block with vars := block.vars.mergeSort } }

/-- Orders the variables as a traversal from the output meets them. -/
def reorderByTraversal (c : Circuit) : Except Error Circuit := do
  return c.reorderVariables (c.traversalOrder (← c.output))

/-- Orders the variables as the list of gates mentions them, whatever the output. -/
def reorderByAppearance (c : Circuit) : Circuit :=
  c.reorderVariables c.appearanceOrder

end Circuit

end QuantCircuit
