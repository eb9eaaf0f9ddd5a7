import QuantCircuit.Circuit.Renumber

/-! Merging nested gates, and removing what the output does not depend on. Gates only read
earlier identifiers, so one sweep from the last gate down finds what is below a literal, and
one sweep up merges children first. -/

namespace QuantCircuit.Circuit

/-- Marks the inputs of the marked ones among the first `count` gates. -/
def markInputs (c : Circuit) : Nat → Array Bool → Array Bool
  | 0, marked => marked
  | count + 1, marked => c.markInputs count <|
    match marked[c.maxVar + count]?, c.gates[count]? with
    | some true, some gate =>
      gate.inputs.foldl (fun marked l => marked.setIfInBounds l.natAbs true) marked
    | _, _ => marked

/-- Which identifiers a chain of gate inputs connects to the literal. -/
def cone (c : Circuit) (literal : Literal) : Array Bool :=
  c.markInputs c.gates.size
    ((Array.replicate c.maxGate false).setIfInBounds literal.natAbs true)

/-- What an input of a gate is replaced by: the inputs of a gate with the same
connective, the negated inputs of a negated gate with the dual one, else itself. -/
def mergedInput (c : Circuit) (connective : Connective) (literal : Literal) : List Literal :=
  match c.gate? literal.natAbs with
  | none => [literal]
  | some child =>
    if 0 < literal ∧ child.connective = connective then child.inputs
    else if literal < 0 ∧ child.connective = connective.dual then child.inputs.map (- ·)
    else [literal]

def mergedGate (c : Circuit) (gate : Gate) : Gate :=
  { gate with inputs := gate.inputs.flatMap (c.mergedInput gate.connective) }

def withGate (c : Circuit) (position : Nat) (gate : Gate) : Circuit :=
  { c with gates := c.gates.setIfInBounds position gate }

/-- Merges into the gate at a position, if it is marked and no quantifier gate. -/
def flattenGate (marked : Array Bool) (c : Circuit) (position : Nat) : Circuit :=
  match marked[c.maxVar + position]?, c.gates[position]? with
  | some true, some gate =>
    if gate.connective.isQuantifier then c else c.withGate position (c.mergedGate gate)
  | _, _ => c

/-- Flattens the gates below the output, children first. Gates that nothing reads
any more stay where they are. -/
def flatten (c : Circuit) : Except Error Circuit := do
  let out ← c.output
  return (List.range c.gates.size).foldl (flattenGate (c.cone out)) c

def liveGates (c : Circuit) (marked : Array Bool) : List Gate :=
  (c.gates.toList.zipIdx.filter fun entry => marked.getD (c.maxVar + entry.2) false).map (·.1)

/-- Which identifiers are reachable from the output; the bound variables of a
reachable gate count as reachable. -/
def reachable (c : Circuit) : Except Error (Array Bool) := do
  let out ← c.output
  let marked := c.cone out
  let bound ← (c.liveGates marked).flatMapM Gate.boundVariables
  return bound.foldl (fun marked v => marked.setIfInBounds v true) marked

/-- Drops unreachable variables and gates and numbers the rest densely. Only for
circuits without quantifier gates. -/
def cleanup (c : Circuit) : Except Error Circuit := do
  if c.hasQuantifierGates then throw (.structural .cleanupNeedsPrenex)
  let live := (← c.reachable).toList
  return c.renumber
    { places := (numberMarked 1 live).toArray
      maxVar := 1 + (live.take c.maxVar).count true }

/-- Drops unreachable gates and keeps all variables as they are. -/
def cleanupGates (c : Circuit) : Except Error Circuit := do
  let live := (← c.reachable).toList
  return c.renumber
    { places := (List.range c.maxVar ++ numberMarked c.maxVar (live.drop c.maxVar)).toArray
      maxVar := c.maxVar }

end QuantCircuit.Circuit
