import QuantCircuit.Solver.Basic

/-! The arguments of the command line: switches, options with a value, and the name
of an input file. Short switches may be written together; a value may follow its
option, or be attached to it. -/

namespace QuantCircuit.CommandLine

inductive Order where
  | traversal
  | appearance
  deriving DecidableEq, Repr

structure Settings where
  input : Option String := none
  perVariable : Bool := false
  split : Bool := false
  combine : Bool := false
  flatten : Bool := false
  cleanup : Bool := false
  reorder : Option Order := none
  blocksToGates : Bool := false
  miniscope : Bool := false
  solver : SolverOptions := {}
  table : Nat := Diagram.defaultLimit
  write : Option String := none
  solve : Bool := true
  keepNames : Bool := false
  deriving DecidableEq, Repr

inductive Switch where
  | witness
  | quant
  | split
  | combine
  | flatten
  | cleanup
  | blocksToGates
  | miniscope
  | unit
  | pure
  | gc
  | noSolve
  | keepNames
  | verbose
  | help
  deriving DecidableEq, Repr

inductive ValueOption where
  | reorder
  | fold
  | table
  | write
  deriving DecidableEq, Repr

inductive CommandOption where
  | switch (switch : Switch)
  | value (option : ValueOption)
  deriving DecidableEq, Repr

/-- Why a command line is not carried out: help was asked for, or it is malformed. -/
inductive Refusal where
  | help
  | unknownOption (text : String)
  | unexpectedArgument (text : String)
  | unexpectedValue (option : String)
  | missingValue
  | invalidValue (value : String)
  | repeated (option : CommandOption)
  deriving DecidableEq, Repr

/-- An option as it is written and explained. -/
structure Entry where
  short : Option Char
  long : String
  option : CommandOption
  placeholder : String
  help : String

def entries : List Entry :=
  [⟨'e', "example", .switch .witness, "", "Print a witness for the outermost block"⟩,
    ⟨'q', "quant", .switch .quant, "",
      "Eliminate variables one by one instead of block by block"⟩,
    ⟨'s', "split", .switch .split, "", "Split every block into single-variable blocks"⟩,
    ⟨'c', "combine", .switch .combine, "", "Merge adjacent blocks with the same quantifier"⟩,
    ⟨'f', "flatten", .switch .flatten, "", "Merge nested gates with the same connective"⟩,
    ⟨none, "cleanup", .switch .cleanup, "", "Remove unreachable variables and gates"⟩,
    ⟨'r', "reorder", .value .reorder, " <ORDER>",
      "Renumber variables [possible values: traversal, appearance]"⟩,
    ⟨'p', "prefix-to-circuit", .switch .blocksToGates, "",
      "Move inner blocks into quantifier gates"⟩,
    ⟨'m', "miniscope", .switch .miniscope, "", "Push quantifiers into the circuit"⟩,
    ⟨'u', "unit", .switch .unit, "", "Eliminate unit literals"⟩,
    ⟨'l', "pure", .switch .pure, "", "Eliminate pure literals"⟩,
    ⟨'g', "gc", .switch .gc, "", "Release intermediate BDDs after their last use"⟩,
    ⟨none, "fold", .value .fold, " <FOLD>",
      "How n-ary gates are combined [default: linear] [possible values: linear, balanced]"⟩,
    ⟨'t', "table", .value .table, " <NODES>", "Maximal number of BDD nodes"⟩,
    ⟨'w', "write", .value .write, " <FILE>", "Write the transformed circuit as QCIR"⟩,
    ⟨none, "no-solve", .switch .noSolve, "", "Stop after the transformations"⟩,
    ⟨none, "keep-names", .switch .keepNames, "", "Write original names instead of numbers"⟩,
    ⟨'v', "verbose", .switch .verbose, "...", "More output, repeat for more"⟩,
    ⟨'h', "help", .switch .help, "", "Print help"⟩]

def Entry.line (entry : Entry) : String :=
  let short := match entry.short with
    | some c => "-" ++ c.toString ++ ", "
    | none => "    "
  let option := "--" ++ entry.long ++ entry.placeholder
  "  " ++ short ++ option ++ "".pushn ' ' (21 - option.length) ++ entry.help ++ "\n"

def helpText : String :=
  "Decides quantified Boolean circuits in QCIR format with BDDs\n\n" ++
    "Usage: qubi [OPTIONS] [INPUT]\n\n" ++
    "Arguments:\n  [INPUT]  Input circuit in QCIR format (default: stdin)\n\n" ++
    "Options:\n" ++ String.join (entries.map Entry.line)

def findShort? (c : Char) : Option CommandOption :=
  (entries.find? (·.short = some c)).map (·.option)

def findLong? (name : String) : Option CommandOption :=
  (entries.find? (·.long = name)).map (·.option)

/-- A number of nodes: decimal digits, perhaps after a plus sign, of at most 64 bits. -/
def parseTable? (text : String) : Option Nat :=
  let digits := match text.toList with
    | '+' :: rest => rest
    | rest => rest
  if digits.isEmpty ∨ !digits.all Char.isDigit then none
  else
    let number := digits.foldl (fun number c => 10 * number + (c.toNat - '0'.toNat)) 0
    if number < 18446744073709551616 then some number else none

def Settings.withValue? (settings : Settings) (value : String) :
    ValueOption → Option Settings
  | .reorder =>
    if value = "traversal" then some { settings with reorder := some .traversal }
    else if value = "appearance" then some { settings with reorder := some .appearance }
    else none
  | .fold =>
    if value = "linear" then
      some { settings with solver := { settings.solver with fold := .linear } }
    else if value = "balanced" then
      some { settings with solver := { settings.solver with fold := .balanced } }
    else none
  | .table => (parseTable? value).map fun table => { settings with table }
  | .write => if value.isEmpty then none else some { settings with write := some value }

def Settings.withSwitch (settings : Settings) : Switch → Settings
  | .witness => { settings with solver := { settings.solver with witness := true } }
  | .quant => { settings with perVariable := true }
  | .split => { settings with split := true }
  | .combine => { settings with combine := true }
  | .flatten => { settings with flatten := true }
  | .cleanup => { settings with cleanup := true }
  | .blocksToGates => { settings with blocksToGates := true }
  | .miniscope => { settings with miniscope := true }
  | .unit => { settings with solver := { settings.solver with unitLiterals := true } }
  | .pure => { settings with solver := { settings.solver with pureLiterals := true } }
  | .gc => { settings with solver := { settings.solver with releaseDead := true } }
  | .noSolve => { settings with solve := false }
  | .keepNames => { settings with keepNames := true }
  | .verbose | .help => settings

/-- The arguments read so far: the options used, the one that waits for its value,
and whether a double dash has ended the options. -/
structure Reading where
  settings : Settings := {}
  used : List CommandOption := []
  waiting : Option ValueOption := none
  onlyInput : Bool := false

namespace Reading

/-- Notes that an option is used. Only verbosity may be repeated. -/
def use (reading : Reading) (option : CommandOption) : Except Refusal Reading :=
  if option ∈ reading.used ∧ option ≠ .switch .verbose then .error (.repeated option)
  else .ok { reading with used := option :: reading.used }

def takeValue (reading : Reading) (option : ValueOption) (value : String) :
    Except Refusal Reading := do
  let reading ← reading.use (.value option)
  match reading.settings.withValue? value option with
  | some settings => return { reading with settings, waiting := none }
  | none => throw (.invalidValue value)

def takeSwitch (reading : Reading) (switch : Switch) : Except Refusal Reading := do
  if switch = .help then throw .help
  let reading ← reading.use (.switch switch)
  return { reading with settings := reading.settings.withSwitch switch }

/-- Short options written together. The first one that takes a value has the rest of
the text as its value, or the next argument if nothing is left. -/
def takeShort (reading : Reading) : List Char → Except Refusal Reading
  | [] => .ok reading
  | c :: rest =>
    match findShort? c, rest with
    | none, _ => .error (.unknownOption c.toString)
    | some (.switch switch), _ => do (← reading.takeSwitch switch).takeShort rest
    | some (.value option), [] => .ok { reading with waiting := some option }
    | some (.value option), '=' :: value => reading.takeValue option (String.ofList value)
    | some (.value option), value => reading.takeValue option (String.ofList value)

/-- A long option, with the text behind an equals sign as its value. -/
def takeLong (reading : Reading) (text : List Char) : Except Refusal Reading :=
  let name := String.ofList (text.takeWhile (· ≠ '='))
  match findLong? name, text.dropWhile (· ≠ '=') with
  | none, _ => .error (.unknownOption name)
  | some (.switch switch), [] => reading.takeSwitch switch
  | some (.switch _), _ => .error (.unexpectedValue name)
  | some (.value option), [] => .ok { reading with waiting := some option }
  | some (.value option), _ :: value => reading.takeValue option (String.ofList value)

def takeInput (reading : Reading) (path : String) : Except Refusal Reading :=
  if reading.settings.input.isSome then .error (.unexpectedArgument path)
  else if path.isEmpty then .error (.invalidValue path)
  else .ok { reading with settings := { reading.settings with input := some path } }

/-- An option that waits takes the next argument as its value, unless that looks like
an option itself. A single dash does not. -/
def take (reading : Reading) (argument : String) : Except Refusal Reading :=
  if reading.onlyInput then reading.takeInput argument
  else match argument.toList, reading.waiting with
    | '-' :: _ :: _, some _ => .error .missingValue
    | ['-', '-'], none => .ok { reading with onlyInput := true }
    | '-' :: '-' :: text, none => reading.takeLong text
    | '-' :: c :: text, none => reading.takeShort (c :: text)
    | _, some option => reading.takeValue option argument
    | _, none => reading.takeInput argument

end Reading

/-- Reads the arguments from left to right. -/
def Settings.ofArguments (arguments : List String) : Except Refusal Settings := do
  let reading ← arguments.foldlM Reading.take {}
  if reading.waiting.isSome then throw .missingValue
  return reading.settings

end QuantCircuit.CommandLine
