import QuantCircuit.Circuit.Basic
import Std.Data.TreeMap

/-! The value of the output under an assignment. Each gate is evaluated at most
once per scope; the body of a quantifier gate is a scope of its own for every
setting of the bound variables. These are set in the assignment itself, and set
back when the gate has its value. -/

namespace QuantCircuit

/-- The value of the body that settles a quantifier. -/
def Quantifier.decisive : Quantifier → Bool
  | all => false
  | ex => true

namespace Circuit

/-- Work on an assignment in place. -/
abbrev Assigning := StateT (Array Bool) (Except Error)

def valueOf (v : Nat) : Assigning Bool := do
  match (← get)[v]? with
  | some value => return value
  | none => throw (.outOfRange v)

def assign (v : Nat) (value : Bool) : Assigning Unit := do
  if v < (← get).size then modify (·.setIfInBounds v value) else throw (.outOfRange v)

/-- Sets the variables in turn, to false first, and stops once the quantifier is
settled. They are left as they were set last. -/
def quantifyOver (q : Quantifier) (body : Assigning Bool) : List Nat → Assigning Bool
  | [] => body
  | v :: rest => do
    assign v false
    let value ← quantifyOver q body rest
    if value = q.decisive then return value
    assign v true
    quantifyOver q body rest

def saved (vars : List Nat) : Assigning (List (Nat × Bool)) :=
  vars.mapM fun v => return (v, ← valueOf v)

def restore (values : List (Nat × Bool)) : Assigning Unit :=
  values.forM fun (v, value) => assign v value

/-- Quantifies the variables, which have their old values afterwards. -/
def quantifyInPlace (q : Quantifier) (vars : List Nat) (body : Assigning Bool) :
    Assigning Bool := do
  let before ← saved vars
  let value ← quantifyOver q body vars
  restore before
  return value

/-- The gate values found so far in one scope. -/
abbrev Values := Std.TreeMap Nat Bool

/-- The value that the scope has for a gate, or else the one the work finds now. -/
def remember (id : Nat) (find : StateT Values Assigning Bool) : StateT Values Assigning Bool := do
  if let some value := (← get)[id]? then return value
  let value ← find
  modify fun values => values.insert id value
  return value

/-- The value of a literal, with a bound on the number of gates on a path. -/
def evaluateWithin (c : Circuit) (depth : Nat) (literal : Literal) : StateT Values Assigning Bool :=
  (· ^^ decide (literal < 0)) <$>
    match depth, c.gate? literal.natAbs with
    | depth + 1, some gate => remember literal.natAbs <|
      match gate.connective.quantifier? with
      | some q => do
        let vars ← gate.boundVariables
        quantifyInPlace q vars do
          let body ← gate.firstInput
          (c.evaluateWithin depth body).run' ∅
      | none =>
        if gate.connective = .and then gate.inputs.allM (c.evaluateWithin depth)
        else gate.inputs.anyM (c.evaluateWithin depth)
    | _, _ => valueOf literal.natAbs

/-- The value of the output. Entry `i` of the assignment belongs to variable `i`;
entries that are not there are false. -/
def evaluate (c : Circuit) (assignment : List Bool) : Except Error Bool := do
  let out ← c.output
  let assignment := (Array.range c.maxVar).map fun v => assignment.getD v false
  ((c.evaluateWithin (c.gates.size + 1) out).run' ∅).run' assignment

end Circuit

end QuantCircuit
