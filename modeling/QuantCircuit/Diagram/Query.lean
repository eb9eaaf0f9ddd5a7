import QuantCircuit.Diagram.Basic

namespace QuantCircuit.Diagram

/-- The decision at the root of a function; the label is read as a literal. -/
def top? (d : Diagram) (f : Handle) : Option (Literal × Handle × Handle) :=
  (d.node? f).map fun n => (.ofNumber n.label, n.low, n.high)

/-- Follows the entries of an assignment from the one at `position` on, each by its
own label. -/
def walk (d : Diagram) : Nat → List Bool → Handle → Handle
  | _, [], f => f
  | position, value :: rest, f => walk d (position + 1) rest <|
    match d.node? f with
    | some n => if n.label = position then (if value then n.high else n.low) else f
    | none => f

/-- The value of a function under an assignment indexed by label; none if the
assignment ends too early to decide it. -/
def evaluate (d : Diagram) (f : Handle) (assignment : List Bool) : Option Bool :=
  (d.walk 0 assignment f).asConstant

/-- Marks the nodes on a stack and those below them. The children of a node are put on the stack
when it is marked, so that there is a bound on the steps. -/
def explore (d : Diagram) : Nat → List Handle → Array Bool → Array Bool
  | steps + 1, f :: stack, live =>
    match f with
    | .const _ => d.explore steps stack live
    | .node index =>
      match live[index]?, d.nodes[index]? with
      | some false, some n =>
        d.explore steps (n.high :: n.low :: stack) (live.setIfInBounds index true)
      | _, _ => d.explore steps stack live
  | _, _, live => live

/-- Which nodes are reachable from the given functions. -/
def reachable (d : Diagram) (roots : List Handle) : Array Bool :=
  d.explore (roots.length + 2 * d.size) roots.reverse (Array.replicate d.size false)

/-- The decisions of a function, children first. -/
def decisions (d : Diagram) (f : Handle) : List Node :=
  ((d.nodes.zip (d.reachable [f])).toList.filter (·.2)).map (·.1)

def nodeCount (d : Diagram) (f : Handle) : Nat :=
  (d.decisions f).length

/-- The labels a function tests, in increasing order. -/
def support (d : Diagram) (f : Handle) : List Nat :=
  ((d.decisions f).map (·.label)).mergeSort.eraseReps

/-- The decisions on one path of a function to true. Every node other than the
constant false leads there, so it suffices to avoid that constant. -/
def pathToTrue (d : Diagram) : Nat → Handle → List (Nat × Bool)
  | bound + 1, f =>
    match d.node? f with
    | none => []
    | some n =>
      if n.low ≠ .const false then (n.label, false) :: d.pathToTrue bound n.low
      else (n.label, true) :: d.pathToTrue bound n.high
  | 0, _ => []

/-- Values for the variables of the literals that some satisfying assignment agrees
with; none if there is no satisfying assignment. -/
def pickCube (d : Diagram) (f : Handle) (literals : List Literal) : Option (List Bool) :=
  if f = .const false then none
  else
    let path := d.pathToTrue f.height f
    some (literals.map fun literal => (path.lookup literal.natAbs).getD false)

end QuantCircuit.Diagram
