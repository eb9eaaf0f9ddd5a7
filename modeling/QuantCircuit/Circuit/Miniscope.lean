import QuantCircuit.Circuit.Reduce
import QuantCircuit.Circuit.Dependencies
import Std.Data.TreeMap

namespace QuantCircuit.Circuit

/-- The state of bringing one variable's quantifier down: the circuit with the gates
added so far, and the literals found for a quantifier over a gate. -/
structure Descent where
  circuit : Circuit
  found : Std.TreeMap (Quantifier × Nat) Literal
    (compareLex (compareOn Prod.fst) (compareOn Prod.snd)) := ∅

abbrev Descend := StateT Descent (Except Error)

/-! The steps themselves ask no more of the monad than that it has the state and can fail. -/

namespace Descent

variable {m : Type → Type} [Monad m] [MonadStateOf Descent m] [MonadLiftT (Except Error) m]

def addGate (gate : Gate) : m Literal := do
  let state ← get
  let (id, circuit) ← state.circuit.addGate gate
  set { state with circuit }
  return id

def remember (q : Quantifier) (id : Nat) (literal : Literal) : m Unit :=
  modify fun state => { state with found := state.found.insert (q, id) literal }

/-- The quantifier commutes with the connective, so it goes to every input. -/
def distribute (down : Literal → m Literal) (id : Nat) (gate : Gate) : m Literal := do
  let inputs ← gate.inputs.mapM down
  if inputs = gate.inputs then return id
  addGate { connective := gate.connective, inputs }

/-- The quantifier does not commute with the connective: only the inputs that
mention the variable stay below it. -/
def divide (down : Literal → m Literal) (dependent : Literal → Bool)
    (q : Quantifier) (x : Nat) (gate : Gate) : m Literal := do
  let (inside, outside) := gate.inputs.partition dependent
  let inner ← match inside with
    | [single] => down single
    | _ => do
      let body ← addGate { connective := gate.connective, inputs := inside }
      addGate (.quantify q [x] body)
  if outside.isEmpty then return inner
  addGate { connective := gate.connective, inputs := outside ++ [inner] }

/-- The outer variables, followed by the inner ones that are not among them. -/
def mergeBound (outer inner : List Literal) : List Literal :=
  inner.foldl (fun bound v => if v ∈ bound then bound else bound ++ [v]) outer

/-- The gate carries the same quantifier: the variable goes into the body, and two
quantifiers that meet become one gate. -/
def absorb (down : Literal → m Literal) (q : Quantifier) (id : Nat) (gate : Gate) :
    m Literal := do
  let body ← gate.firstInput
  let result ← down body
  if result = body then return id
  let c := (← get).circuit
  if 0 < result ∧ c.isGate result then
    let inner ← c.getGate result
    if inner.connective = q.gate then
      return ← addGate (.quantify q (mergeBound gate.bound inner.bound) (← inner.firstInput))
  addGate (.quantify q gate.bound result)

/-- A gate that depends on the variable. -/
def bringGateDown (down : Literal → m Literal) (dependencies : Dependencies) (x : Nat)
    (q : Quantifier) (id : Nat) (gate : Gate) : m Literal :=
  if gate.isConstant then return id
  else if gate.connective = q.distributesOver then distribute down id gate
  else if gate.connective = q.gate then absorb down q id gate
  else if gate.connective.isQuantifier then addGate (.quantify q [x] id)
  else divide down (dependencies.depends · x) q x gate

/-- A literal that means the quantifier `q` over `x` of an identifier, with a bound
on the number of gates on a path. -/
def bringDownWithin (dependencies : Dependencies) (x : Nat) :
    Nat → Quantifier → Nat → m Literal
  | depth + 1, q, id => do
    let down (literal : Literal) : m Literal :=
      if literal < 0 then (- ·) <$> bringDownWithin dependencies x depth q.dual literal.natAbs
      else bringDownWithin dependencies x depth q literal.natAbs
    let c := (← get).circuit
    if id < c.maxVar then
      checkLiteral id c.maxVar
      if id ≠ x then return id
      addGate { connective := q.dual.distributesOver, inputs := [] }
    else
      if !dependencies.depends id x then return id
      if let some literal := (← get).found[(q, id)]? then return literal
      let gate ← c.getGate id
      let literal ← bringGateDown down dependencies x q id gate
      remember q id literal
      return literal
  | 0, _, id => (.error (.endless id) : Except Error Literal)

end Descent

/-- A literal that means the quantifier `q` over `x` of a literal. Negation turns the
quantifier into its dual. -/
def bringDown [Monad m] [MonadStateOf Descent m] [MonadLiftT (Except Error) m]
    (dependencies : Dependencies) (q : Quantifier) (x : Nat) (literal : Literal) :
    m Literal := do
  let depth := (← get).circuit.gates.size + 1
  if literal < 0 then (- ·) <$> Descent.bringDownWithin dependencies x depth q.dual literal.natAbs
  else Descent.bringDownWithin dependencies x depth q literal.natAbs

/-- Quantifies the output by one variable, as deep inside as the dependencies allow,
and drops the gates that nothing reads any more. -/
def quantifyOutput (q : Quantifier) (c : Circuit) (x : Nat) : Except Error Circuit := do
  let dependencies ← Dependencies.ofCircuit c
  let out ← c.output
  let (literal, state) ← (bringDown dependencies q x out : Descend Literal).run { circuit := c }
  if literal = out then state.circuit.cleanupGates
  else (← state.circuit.setOutput literal).cleanupGates

/-- Moves all blocks but the outermost one into the gates, innermost block first,
and the variables of a block in order. -/
def miniscope (c : Circuit) : Except Error Circuit :=
  match c.blocks with
  | outermost :: inner@(_ :: _) => do
    let c ← inner.reverse.foldlM
      (fun c block => block.vars.foldlM (quantifyOutput block.quantifier) c) c
    return { c with blocks := [outermost] }
  | _ => return c

end QuantCircuit.Circuit
