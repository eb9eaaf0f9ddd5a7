import QuantCircuit.Error
import Std.Data.TreeMap

/-! Reduced ordered decision diagrams in one shared, bounded table. A function
is a handle: a constant, or the index of a decision node. Smaller labels are
tested first, and equal nodes share one index. -/

namespace QuantCircuit

/-- A Boolean function held by a diagram. -/
inductive Handle where
  | const (value : Bool)
  | node (index : Nat)
  deriving DecidableEq, Repr, Inhabited

/-- A decision: `low` where the variable `label` is false, `high` where it is true. -/
structure Node where
  label : Nat
  low : Handle
  high : Handle
  deriving DecidableEq, Repr, Inhabited

/-- The arguments of a selection whose result is remembered. -/
structure Selection where
  test : Handle
  yes : Handle
  no : Handle
  deriving DecidableEq, Repr

namespace Handle

/-- Both constants come before all nodes. -/
def rank : Handle → Nat
  | const false => 0
  | const true => 1
  | node index => index + 2

theorem rank_injective {f g : Handle} (same : f.rank = g.rank) : f = g := by
  rcases f with (_ | _) | i <;> rcases g with (_ | _) | j <;> simp_all [rank]

instance : Ord Handle := ⟨compareOn rank⟩

instance : Std.TransOrd Handle := inferInstanceAs (Std.TransCmp (compareOn rank))

instance : Std.LawfulEqOrd Handle where
  eq_of_compare same := rank_injective (Std.LawfulEqOrd.eq_of_compare same)

/-- A bound on the depth below a handle: children have smaller indices. -/
def height : Handle → Nat
  | const _ => 0
  | node index => index + 1

def asConstant : Handle → Option Bool
  | const value => some value
  | node _ => none

def isConstant (f : Handle) : Bool :=
  f.asConstant.isSome

end Handle

namespace Node

instance : Ord Node :=
  ⟨compareLex (compareOn label) (compareLex (compareOn low) (compareOn high))⟩

instance : Std.TransOrd Node := inferInstanceAs (Std.TransCmp (compareLex _ _))

instance : Std.LawfulEqOrd Node where
  eq_of_compare {m n} same := by
    rcases m with ⟨label, low, high⟩
    rcases n with ⟨label', low', high'⟩
    obtain ⟨labels, rest⟩ := Ordering.then_eq_eq.mp same
    obtain ⟨lows, highs⟩ := Ordering.then_eq_eq.mp rest
    obtain rfl : label = label' := Std.LawfulEqOrd.eq_of_compare labels
    obtain rfl : low = low' := Std.LawfulEqOrd.eq_of_compare lows
    obtain rfl : high = high' := Std.LawfulEqOrd.eq_of_compare highs
    rfl

end Node

namespace Selection

instance : Ord Selection :=
  ⟨compareLex (compareOn test) (compareLex (compareOn yes) (compareOn no))⟩

instance : Std.TransOrd Selection := inferInstanceAs (Std.TransCmp (compareLex _ _))

instance : Std.LawfulEqOrd Selection where
  eq_of_compare {r s} same := by
    rcases r with ⟨test, yes, no⟩
    rcases s with ⟨test', yes', no'⟩
    obtain ⟨tests, rest⟩ := Ordering.then_eq_eq.mp same
    obtain ⟨yeses, noes⟩ := Ordering.then_eq_eq.mp rest
    obtain rfl : test = test' := Std.LawfulEqOrd.eq_of_compare tests
    obtain rfl : yes = yes' := Std.LawfulEqOrd.eq_of_compare yeses
    obtain rfl : no = no' := Std.LawfulEqOrd.eq_of_compare noes
    rfl

end Selection

/-- The node table with its inverse, the remembered selections, and the number of
nodes at which it is full. -/
structure Diagram where
  nodes : Array Node := #[]
  unique : Std.TreeMap Node Nat := ∅
  selections : Std.TreeMap Selection Handle := ∅
  limit : Nat

/-- Work on a diagram. Nodes made before a failure stay in the table. -/
abbrev Build := ExceptT Error (StateM Diagram)

namespace Diagram

def defaultLimit : Nat := 16777216

def empty (limit : Nat) : Diagram := { limit }

def size (d : Diagram) : Nat := d.nodes.size

def node? (d : Diagram) : Handle → Option Node
  | .const _ => none
  | .node index => d.nodes[index]?

/-- The handle of a node: a node with equal children is its child, and an existing
node is shared. Only a new node counts against the limit. -/
def share (n : Node) : Build Handle := fun d =>
  if n.low = n.high then (.ok n.low, d)
  else match d.unique[n]? with
    | some index => (.ok (.node index), d)
    | none =>
      if d.limit ≤ d.nodes.size then (.error (.tableExhausted d.limit), d)
      else (.ok (.node d.nodes.size),
        { d with nodes := d.nodes.push n, unique := d.unique.insert n d.nodes.size })

/-- The function that is true where the variable `label` is. -/
def terminal (label : Nat) : Build Handle :=
  share ⟨label, .const false, .const true⟩

def ofVariable (literal : Literal) : Build Handle :=
  if literal ≤ 0 then throw (.undefinedLiteral literal Literal.maximum)
  else terminal literal.toNat

end Diagram

end QuantCircuit
