import QuantCircuit.Circuit.Basic
import QuantCircuit.Qcir.Line
import Std.Data.TreeMap

/-! Reading a circuit from QCIR text. All blocks are declared first, then the
variables that only quantifier gates bind, then the gates in the order of the text.
The output may be named anywhere; the last line that does so counts. -/

namespace QuantCircuit.Qcir

/-- The circuit read so far, and what its names stand for. -/
structure Reader where
  circuit : Circuit
  ids : Std.TreeMap String Nat := ∅

namespace Reader

def literal (r : Reader) (line : Nat) (text : List Char) : Except Error Literal :=
  if !isLiteral text then .error (.unparsable line (String.ofList text))
  else
    let (sign, name) := match text with
      | '-' :: rest => ((-1 : Int), String.ofList rest)
      | _ => (1, String.ofList text)
    match r.ids[name]? with
    | some id => .ok (sign * id)
    | none => .error (.undefinedName line name)

/-- Block items are names, not yet known, and different from each other. -/
def checkItems (r : Reader) (line : Nat) (earlier : List (List Char)) :
    List (List Char) → Except Error Unit
  | [] => .ok ()
  | item :: rest =>
    if !isName item then .error (.unparsable line (String.ofList item))
    else if r.ids.contains (String.ofList item) ∨ item ∈ earlier then
      .error (.duplicateName line (String.ofList item))
    else r.checkItems line (item :: earlier) rest

def learn (r : Reader) (names : List String) (vars : List Nat) : Reader :=
  { r with ids := (names.zip vars).foldl (fun ids (name, v) => ids.insert name v) r.ids }

def declareBlock (r : Reader) (line : Nat) (quantifier : Option Quantifier)
    (arguments : List Char) : Except Error Reader := do
  let items := listItems arguments
  r.checkItems line [] items
  let names := items.map String.ofList
  let (vars, circuit) ← match quantifier with
    | some q => r.circuit.addBlock q names
    | none => r.circuit.addUnboundVariables names
  return { r with circuit }.learn names vars

/-- Declares a variable that a quantifier gate binds, unless a block did. -/
def declareBound (r : Reader) (item : Nat × List Char) : Except Error Reader := do
  let name := String.ofList item.2
  if r.ids.contains name then return r
  if !isName item.2 then throw (.unparsable item.1 name)
  let (v, circuit) ← r.circuit.addUnboundVariable name
  return { r with circuit }.learn [name] [v]

def readGate (r : Reader) (line : Nat) (connective : Connective) (arguments : List Char) :
    Except Error Gate :=
  match connective.quantifier? with
  | none => do
    let inputs ← (listItems arguments).mapM (r.literal line)
    return { connective, inputs }
  | some q =>
    let malformed := Error.unparsable line (String.ofList arguments)
    match Line.quantified? arguments with
    | none => throw malformed
    | some (bound, body) => do
      let bound ← (listItems bound).mapM (r.literal line)
      if bound.any (· < 0) then throw malformed
      return .quantify q bound (← r.literal line body)

def defineGate (r : Reader) (line : Nat) (name connective arguments : List Char) :
    Except Error Reader := do
  let gateName := String.ofList name
  if r.ids.contains gateName then throw (.duplicateName line gateName)
  match connective? connective with
  | none => throw (.unknownConnective line (String.ofList connective))
  | some connective =>
    let gate ← r.readGate line connective arguments
    let (id, circuit) ← r.circuit.addNamedGate gate gateName
    return { r with circuit }.learn [gateName] [id]

end Reader

/-- The first sweep: blocks. -/
def readBlocks (r : Reader) (entry : Nat × List Char) : Except Error Reader :=
  match Line.parse? entry.2 with
  | some (.block quantifier arguments) => r.declareBlock entry.1 quantifier arguments
  | _ => .ok r

/-- The second sweep: names bound by quantifier gates, with the lines that bind them. -/
def boundNames (entry : Nat × List Char) : List (Nat × List Char) :=
  ((Line.parse? entry.2).elim [] Line.boundItems).map (entry.1, ·)

/-- The third sweep: gates and outputs. Keeps the last output line. -/
def readGates (state : Reader × Option (Nat × List Char)) (entry : Nat × List Char) :
    Except Error (Reader × Option (Nat × List Char)) := do
  let (line, text) := entry
  match Line.parse? text with
  | some (.block ..) => return state
  | some (.output argument) => return (state.1, some (line, argument))
  | some (.gate name connective arguments) =>
    return (← state.1.defineGate line name connective arguments, state.2)
  | none => throw (.unparsable line (String.ofList text))

/-- Sets the output. A circuit without gates gets one that repeats its literal. -/
def finish (c : Circuit) (out : Literal) : Except Error Circuit := do
  if c.gates.isEmpty then
    let (gate, c) ← c.addGate { connective := .and, inputs := [out] }
    c.setOutput gate
  else
    c.setOutput out

def read (text name : String) : Except Error Circuit := do
  let lines := contentLines text
  let r ← lines.foldlM readBlocks { circuit := { name } }
  let r ← (lines.flatMap boundNames).foldlM Reader.declareBound r
  let (r, output) ← lines.foldlM readGates (r, none)
  match output with
  | none => throw .missingOutput
  | some (line, argument) => finish r.circuit (← r.literal line argument)

def readBytes (bytes : ByteArray) (name : String) : Except Error Circuit :=
  match String.fromUTF8? bytes with
  | some text => read text name
  | none => .error (.io .invalidUtf8)

end QuantCircuit.Qcir
