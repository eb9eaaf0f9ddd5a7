import QuantCircuit.Error

/-! Quantified Boolean circuits: blocks of quantified variables, gates over
earlier identifiers, and an output literal. Variables are numbered from one,
gates follow them; all variables are declared before the first gate. -/

namespace QuantCircuit

/-- A connective over literals. Quantifier gates have one input and bind the
variables listed in `bound`. -/
structure Gate where
  connective : Connective
  inputs : List Literal
  bound : List Literal := []
  deriving DecidableEq, Repr

/-- Consecutive variables of the formula under one quantifier. -/
structure Block where
  quantifier : Quantifier
  vars : List Nat
  deriving DecidableEq, Repr

/-- An assignment to some variables, in the order in which it is printed. -/
abbrev Valuation := List (Literal × Bool)

/-- A circuit under construction or in use. Blocks are listed from the outermost
one. `origin` leads from an identifier to the entry of `names` it was given when
it was declared; `names` only ever grows. -/
structure Circuit where
  name : String
  maxVar : Nat := 1
  blocks : List Block := []
  gates : Array Gate := #[]
  output? : Option Literal := none
  names : Array String := #[""]
  origin : Array Nat := #[0]
  deriving DecidableEq, Repr

/-- What happens where a result has too many digits: it is an error, or it wraps around. -/
inductive Arithmetic where
  | checked
  | wrapping
  deriving DecidableEq, Repr

/-- A literal is in range if its identifier is one of `1 .. max - 1`. The absolute value of
the lowest literal wraps around to a negative number, which is below every `max`. -/
def checkLiteral (literal : Literal) (max : Nat) (arithmetic : Arithmetic := .checked) :
    Except Error Unit :=
  if literal ≠ 0 ∧ literal.natAbs < max then
    .ok ()
  else if literal = .lowest then
    match arithmetic with
    | .checked => .error (.overflow literal)
    | .wrapping => .ok ()
  else
    .error (.undefinedLiteral literal max)

/-- The variable that a literal in a list of bound ones stands for. -/
def boundVariable (literal : Literal) (maxVar : Nat) (arithmetic : Arithmetic := .checked) :
    Except Error Nat := do
  checkLiteral literal maxVar arithmetic
  if literal < 0 then throw (.negatedBinding literal)
  return literal.natAbs

namespace Gate

def quantify (q : Quantifier) (bound : List Literal) (body : Literal) : Gate :=
  { connective := q.gate, inputs := [body], bound }

/-- A gate without inputs: true for a conjunction, false for a disjunction. -/
def isConstant (gate : Gate) : Bool :=
  gate.inputs.isEmpty

/-- The input a quantifier gate ranges over. -/
def body (gate : Gate) : Literal :=
  gate.inputs.headD 0

/-- The first input, which only a quantifier gate is sure to have. -/
def firstInput (gate : Gate) : Except Error Literal :=
  match gate.inputs with
  | body :: _ => .ok body
  | [] => .error (.outOfRange 0)

/-- The bound variables. A negative literal names none. -/
def boundVariables (gate : Gate) : Except Error (List Nat) :=
  match gate.bound.find? (· < 0) with
  | some literal => .error (.negatedBinding literal)
  | none => .ok (gate.bound.map Int.natAbs)

/-- Inputs are earlier identifiers, bound literals are variables, and a
quantifier gate has one input. -/
def check (gate : Gate) (maxVar maxGate : Nat) (arithmetic : Arithmetic := .checked) :
    Except Error Unit := do
  gate.inputs.forM (checkLiteral · maxGate arithmetic)
  gate.bound.forM (checkLiteral · maxVar arithmetic)
  if gate.connective.isQuantifier ∧ gate.inputs.length ≠ 1 then
    throw (.structural .quantifierArity)

end Gate

namespace Circuit

/-- One past the last gate; gates are `maxVar .. maxGate - 1`. -/
def maxGate (c : Circuit) : Nat :=
  c.maxVar + c.gates.size

def isVariable (c : Circuit) (literal : Literal) : Bool :=
  literal ≠ 0 && literal.natAbs < c.maxVar

def isGate (c : Circuit) (literal : Literal) : Bool :=
  c.maxVar ≤ literal.natAbs && literal.natAbs < c.maxGate

def gate? (c : Circuit) (id : Nat) : Option Gate :=
  if id < c.maxVar then none else c.gates[id - c.maxVar]?

/-- The gate a positive literal stands for. -/
def gateOf? (c : Circuit) (literal : Literal) : Option Gate :=
  if literal < 0 then none else c.gate? literal.natAbs

def getGate (c : Circuit) (literal : Literal) : Except Error Gate :=
  match c.gateOf? literal with
  | some gate => .ok gate
  | none => .error (.undefinedLiteral literal c.maxGate)

/-- A block by its position. A position that is not there is reported as a literal. -/
def getBlock (c : Circuit) (position : Nat) : Except Error Block :=
  match c.blocks[position]? with
  | some block => .ok block
  | none => .error (.undefinedLiteral (.ofNumber position) c.blocks.length)

def output (c : Circuit) : Except Error Literal :=
  match c.output? with
  | some literal => .ok literal
  | none => .error (.structural .noOutput)

def quantifierOf? (c : Circuit) (literal : Literal) : Option Quantifier :=
  (c.blocks.find? fun block => block.vars.any fun v => v == literal).map (·.quantifier)

def hasQuantifierGates (c : Circuit) : Bool :=
  c.gates.any (·.connective.isQuantifier)

/-- No quantifier gates, and the blocks list the variables in increasing order. -/
def isPrenex (c : Circuit) : Bool :=
  !c.hasQuantifierGates &&
    c.blocks.flatMap (·.vars) == List.range' 1 (c.maxVar - 1)

/-- The name an identifier was declared with, whatever it is numbered now. -/
def nameOf (c : Circuit) (literal : Literal) : String :=
  ((c.origin[literal.natAbs]?).bind (c.names[·]?)).getD "?"

def literalName (c : Circuit) (literal : Literal) : String :=
  if literal < 0 then "-" ++ c.nameOf literal else c.nameOf literal

def summary (c : Circuit) : String :=
  s!"Quantified circuit \"{c.name}\", with {c.maxVar - 1} variables, " ++
    s!"{c.gates.size} gates, {c.blocks.length} quantifier blocks."

/-- A new identifier's name, and the way back to it. -/
private def pushName (c : Circuit) (name : String) : Circuit :=
  { c with names := c.names.push name, origin := c.origin.push c.names.size }

/-- A variable in no block: free, unless quantifier gates bind it. -/
def addUnboundVariable (c : Circuit) (name : String) : Except Error (Nat × Circuit) :=
  if c.gates.isEmpty then
    .ok (c.maxVar, { c.pushName name with maxVar := c.maxVar + 1 })
  else
    .error (.structural (.lateDeclaration name))

def addUnboundVariables (c : Circuit) : List String → Except Error (List Nat × Circuit)
  | [] => .ok ([], c)
  | name :: rest => do
    let (v, c) ← c.addUnboundVariable name
    let (vars, c) ← c.addUnboundVariables rest
    return (v :: vars, c)

/-- Puts a variable into the last block if that has the quantifier, else into a
new block of its own. -/
def joinBlock (q : Quantifier) (v : Nat) : List Block → List Block
  | [] => [⟨q, [v]⟩]
  | [last] =>
    if last.quantifier = q then [⟨q, last.vars ++ [v]⟩] else [last, ⟨q, [v]⟩]
  | block :: rest => block :: joinBlock q v rest

def addVariable (c : Circuit) (q : Quantifier) (name : String) : Except Error (Nat × Circuit) := do
  let (v, c) ← c.addUnboundVariable name
  return (v, { c with blocks := joinBlock q v c.blocks })

/-- Opens a block even next to one with the same quantifier; no names, no block. -/
def addBlock (c : Circuit) (q : Quantifier) (names : List String) :
    Except Error (List Nat × Circuit) := do
  let (vars, c) ← c.addUnboundVariables names
  if vars.isEmpty then return (vars, c)
  return (vars, { c with blocks := c.blocks ++ [⟨q, vars⟩] })

def addNamedGate (c : Circuit) (gate : Gate) (name : String)
    (arithmetic : Arithmetic := .checked) : Except Error (Nat × Circuit) := do
  gate.check c.maxVar c.maxGate arithmetic
  return (c.maxGate, { c.pushName name with gates := c.gates.push gate })

/-- The `k`-th name to try for a gate: the base, then numbered variants of it. -/
def nameVariant (base : String) : Nat → String
  | 0 => base
  | k + 1 => s!"{base}_{k + 1}"

def untakenFrom (names : Array String) (base : String) : Nat → Nat → String
  | 0, k => nameVariant base k
  | tries + 1, k =>
    if names.contains (nameVariant base k) then untakenFrom names base tries (k + 1)
    else nameVariant base k

/-- A name no identifier was ever given. Among one more variants than there are
names, one is free. -/
def freshName (c : Circuit) : String :=
  untakenFrom c.names s!"g{c.names.size}" c.names.size 0

def addGate (c : Circuit) (gate : Gate) (arithmetic : Arithmetic := .checked) :
    Except Error (Nat × Circuit) :=
  c.addNamedGate gate c.freshName arithmetic

def setOutput (c : Circuit) (literal : Literal) (arithmetic : Arithmetic := .checked) :
    Except Error Circuit := do
  if c.gates.isEmpty then throw (.structural .outputBeforeGates)
  checkLiteral literal c.maxGate arithmetic
  return { c with output? := some literal }

end Circuit

end QuantCircuit
