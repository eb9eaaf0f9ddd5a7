import QuantCircuit.Solver.Basic

namespace QuantCircuit

/-- The value a decision leaves to its variable if the other one makes the function
false. -/
def Node.forcedValue? (n : Node) : Option Bool :=
  if n.low = .const false then some true
  else if n.high = .const false then some false
  else none

/-- The value on which all decisions on a variable agree that it is forced. -/
def forcedAt? (decisions : List Node) (v : Nat) : Option Bool :=
  match (decisions.filter (·.label = v)).map Node.forcedValue? with
  | some value :: rest => if rest.all (· = some value) then some value else none
  | _ => none

namespace Solver

/-- The existential variables that every decision on them forces to one value, in
increasing order. -/
def unitLiterals (c : Circuit) (d : Diagram) (f : Handle) : List (Nat × Bool) :=
  let decisions := d.decisions f
  (d.support f).filterMap fun (v : Nat) =>
    if c.quantifierOf? v = some .ex then (forcedAt? decisions v).map (v, ·) else none

def fixUnit (f : Handle) (unit : Nat × Bool) : Solve Handle := do
  let f ← onDiagram (Diagram.restrict f (Literal.ofVariable unit.1 unit.2))
  force unit.1 unit.2
  count fun statistics => { statistics with units := statistics.units + 1 }
  return f

/-- Rounds of fixing forced variables. Every round but the last one removes a
variable from the support. -/
def propagateUnitsWithin : Nat → Handle → Solve Handle
  | 0, f => pure f
  | rounds + 1, f => do
    let units := unitLiterals (← get).circuit (← get).diagram f
    if units.isEmpty then return f
    propagateUnitsWithin rounds (← units.foldlM fixUnit f)

def propagateUnits (f : Handle) : Solve Handle := do
  propagateUnitsWithin (((← get).diagram.support f).length + 1) f

/-- The value a quantifier prefers for a variable the function is monotone in. -/
def preferred? (q : Quantifier) (increasing decreasing : Bool) : Option Bool :=
  if increasing then some (q = .ex)
  else if decreasing then some (q = .all)
  else none

/-- Fixes one variable if the function is monotone in it, and says whether it did.
The function is increasing if its half below is its universal quantification, and
decreasing if the half above is. -/
def fixPure (current : Handle × Bool) (v : Nat) : Solve (Handle × Bool) := do
  let f := current.1
  match (← get).circuit.quantifierOf? v with
  | none => return current
  | some q =>
    let below ← onDiagram (Diagram.restrict f (Literal.ofVariable v false))
    let above ← onDiagram (Diagram.restrict f (Literal.ofVariable v true))
    if below = above then return current
    let both ← onDiagram (Diagram.abstract .all [v] f)
    match preferred? q (below = both) (above = both) with
    | none => return current
    | some value =>
      force v value
      count fun statistics => { statistics with pures := statistics.pures + 1 }
      return (if value then above else below, true)

/-- Rounds of fixing monotone variables. Every round but the last one removes a
variable from the support. -/
def eliminatePureWithin : Nat → Handle → Solve Handle
  | 0, f => pure f
  | rounds + 1, f => do
    let (f, changed) ← ((← get).diagram.support f).foldlM fixPure (f, false)
    if changed then eliminatePureWithin rounds f else return f

def eliminatePure (f : Handle) : Solve Handle := do
  eliminatePureWithin (((← get).diagram.support f).length + 1) f

end Solver

end QuantCircuit
