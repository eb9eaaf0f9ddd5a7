import QuantCircuit.Logic
import QuantCircuit.Text.Unicode

/-! The lines of a QCIR text. Comments and white space go first; what is left of a
line declares a block, names the output, or defines a gate:

    forall(x, y)
    output(-g)
    g = exists(z; h)

Keywords and connectives may be written in either case. -/

namespace QuantCircuit.Qcir

/-- Names are compared character by character. -/
instance lawfulBEqChars : LawfulBEq (List Char) := inferInstance

/-- The pieces of a text between separators. -/
def separate (separator : Char) (text : List Char) : List (List Char) :=
  text.foldr (fun c pieces =>
    if c = separator then [] :: pieces
    else match pieces with
      | first :: rest => (c :: first) :: rest
      | [] => [[c]]) [[]]

/-- The entries of a comma-separated list; empty ones do not count. -/
def listItems (text : List Char) : List (List Char) :=
  (separate ',' text).filter (!·.isEmpty)

def isNameChar (c : Char) : Bool :=
  Text.isWord c || c == '.' || c == '[' || c == ']'

def isName (text : List Char) : Bool :=
  !text.isEmpty && text.all isNameChar

/-- A name, with a minus sign in front if it is negated. -/
def isLiteral : List Char → Bool
  | '-' :: rest => isName rest
  | text => isName text

/-- The text before a comment, without its white space. -/
def strip (line : List Char) : List Char :=
  (line.takeWhile (· ≠ '#')).filter (!Text.isBlank ·)

/-- A word, and what the parentheses behind it hold up to the end of the line. -/
def call? (text : List Char) : Option (List Char × List Char) :=
  let word := text.takeWhile (· ≠ '(')
  let arguments := (text.drop (word.length + 1)).takeWhile fun c => c ≠ '(' && c ≠ ')'
  if text = word ++ '(' :: arguments ++ [')'] then some (word, arguments) else none

def lowercase (text : List Char) : List Char :=
  text.map Char.toLower

def connective? (text : List Char) : Option Connective :=
  [Connective.and, .or, .all, .ex].find? fun connective => connective.name.toList = lowercase text

/-- What a line says; arguments are not looked at yet. -/
inductive Line where
  /-- Variables of a block, or free ones if there is no quantifier. -/
  | block (quantifier : Option Quantifier) (arguments : List Char)
  | output (argument : List Char)
  | gate (name connective arguments : List Char)
  deriving DecidableEq, Repr

namespace Line

/-- The kind of block a keyword opens. The long s is a lower-case s for the purpose
of recognising a keyword, but makes no quantifier. -/
def blockKind? (word : List Char) : Option (Option Quantifier) :=
  let lower := lowercase word
  if lower = "forall".toList then some (some .all)
  else if lower = "exists".toList then some (some .ex)
  else if lower = "free".toList ∨
      lower.map (fun c => if c = 'ſ' then 's' else c) = "exists".toList then some none
  else none

/-- A name and a connective with an equals sign between them. -/
def definition? (text : List Char) : Option (List Char × List Char) :=
  let name := text.takeWhile (· ≠ '=')
  let connective := text.drop (name.length + 1)
  if text = name ++ '=' :: connective ∧ isName name ∧ connective ≠ [] ∧
      connective.all Char.isAlpha then
    some (name, connective)
  else none

/-- Reads a line without comments and white space. -/
def parse? (text : List Char) : Option Line := do
  let (word, arguments) ← call? text
  match blockKind? word with
  | some quantifier => return block quantifier arguments
  | none =>
    if lowercase word = "output".toList then return output arguments
    let (name, connective) ← definition? word
    return gate name connective arguments

/-- The arguments of a quantifier gate: bound variables and the body. -/
def quantified? (arguments : List Char) : Option (List Char × List Char) :=
  match separate ';' arguments with
  | [bound, body] => some (bound, body)
  | _ => none

def boundItems : Line → List (List Char)
  | gate _ connective arguments =>
    match (connective? connective).bind Connective.quantifier?, quantified? arguments with
    | some _, some (bound, _) => listItems bound
    | _, _ => []
  | _ => []

end Line

/-- The lines of a text that say something, with their numbers. -/
def contentLines (text : String) : List (Nat × List Char) :=
  (((separate '\n' text.toList).map strip).zipIdx 1).filterMap fun (line, number) =>
    if line.isEmpty then none else some (number, line)

end QuantCircuit.Qcir
