import Mathlib.Data.List.Forall2
import QuantCircuit.Circuit.Basic
import QuantCircuit.Text.Unicode

/-! The language QCIR. What a text says and which circuit it describes is given by relations, apart
from any way to find it out. -/

namespace QuantCircuit.Qcir

section Characters

/-- The code points with the property White_Space of Unicode. -/
def Blank (c : Char) : Prop :=
  (0x09 ≤ c.toNat ∧ c.toNat ≤ 0x0D) ∨ c.toNat = 0x20 ∨ c.toNat = 0x85 ∨ c.toNat = 0xA0 ∨
    c.toNat = 0x1680 ∨ (0x2000 ≤ c.toNat ∧ c.toNat ≤ 0x200A) ∨ c.toNat = 0x2028 ∨
    c.toNat = 0x2029 ∨ c.toNat = 0x202F ∨ c.toNat = 0x205F ∨ c.toNat = 0x3000

/-- What is left of a line without its white space and its comment. -/
inductive Bare : List Char → List Char → Prop
  | nil : Bare [] []
  | comment (rest : List Char) : Bare ('#' :: rest) []
  | blank {c : Char} {line left : List Char} (blank : Blank c) (bare : Bare line left) :
      Bare (c :: line) left
  | char {c : Char} {line left : List Char} (shown : ¬ Blank c) (other : c ≠ '#')
      (bare : Bare line left) : Bare (c :: line) (c :: left)

/-- The pieces of a text between all the separators in it. -/
structure Splits (separator : Char) (text : List Char) (pieces : List (List Char)) : Prop where
  nonempty : pieces ≠ []
  clean : ∀ piece ∈ pieces, separator ∉ piece
  whole : text = [separator].intercalate pieces

/-- The bare lines of a text, less those that are empty. -/
def Contains (text : List Char) (lines : List (List Char)) : Prop :=
  ∃ raw left, Splits '\n' text raw ∧ List.Forall₂ Bare raw left ∧ lines = left.filter (· ≠ [])

/-- The entries of a comma-separated list; empty ones do not count. -/
def Lists (text : List Char) (items : List (List Char)) : Prop :=
  ∃ pieces, Splits ',' text pieces ∧ items = pieces.filter (· ≠ [])

/-- The text is the word, each letter in either case. -/
def AnyCase (text : List Char) (word : String) : Prop :=
  List.Forall₂ (fun c letter => c = letter ∨ c = letter.toUpper) text word.toList

def NameChar (c : Char) : Prop :=
  c.isAlphanum ∨ c = '_' ∨
    (0x80 ≤ c.toNat ∧ ∃ range ∈ Text.wordRanges, range.1 ≤ c.toNat ∧ c.toNat ≤ range.2) ∨
    c = '.' ∨ c = '[' ∨ c = ']'

def IsName (text : List Char) : Prop :=
  text ≠ [] ∧ ∀ c ∈ text, NameChar c

/-- A name, perhaps negated. -/
structure Term where
  negated : Bool
  name : List Char
  deriving DecidableEq, Repr

inductive Denotes : List Char → Term → Prop
  | plain {name : List Char} (named : IsName name) : Denotes name ⟨false, name⟩
  | minus {name : List Char} (named : IsName name) : Denotes ('-' :: name) ⟨true, name⟩

/-- Arguments hold no parentheses. -/
def Flat (arguments : List Char) : Prop :=
  ∀ c ∈ arguments, c ≠ '(' ∧ c ≠ ')'

end Characters

section Lines

/-- What a line says. The argument of an output may be anything, as only the last one counts. -/
inductive Statement where
  /-- Variables of a block, or free ones if there is no quantifier. -/
  | block (quantifier : Option Quantifier) (names : List (List Char))
  | output (argument : List Char)
  | join (name : List Char) (connective : Connective) (inputs : List Term)
  | quantify (name : List Char) (quantifier : Quantifier) (bound : List (List Char)) (body : Term)
  deriving DecidableEq, Repr

/-- The keywords of blocks. With a long s in it, `exists` is a keyword but no quantifier. -/
inductive Opens : List Char → Option Quantifier → Prop
  | all {word : List Char} (spells : AnyCase word "forall") : Opens word (some .all)
  | ex {word : List Char} (spells : AnyCase word "exists") : Opens word (some .ex)
  | free {word : List Char} (spells : AnyCase word "free") : Opens word none
  | long {word : List Char} (long : 'ſ' ∈ word)
      (spells : AnyCase (word.map fun c => if c = 'ſ' then 's' else c) "exists") : Opens word none

inductive Connects : List Char → Connective → Prop
  | and {word : List Char} (spells : AnyCase word "and") : Connects word .and
  | or {word : List Char} (spells : AnyCase word "or") : Connects word .or
  | all {word : List Char} (spells : AnyCase word "forall") : Connects word .all
  | ex {word : List Char} (spells : AnyCase word "exists") : Connects word .ex

/-- What a bare line says. -/
inductive Says : List Char → Statement → Prop
  | block {keyword arguments : List Char} {quantifier : Option Quantifier}
      {names : List (List Char)} (opens : Opens keyword quantifier) (flat : Flat arguments)
      (lists : Lists arguments names) (named : ∀ name ∈ names, IsName name) :
      Says (keyword ++ '(' :: arguments ++ [')']) (.block quantifier names)
  | output {keyword argument : List Char} (spells : AnyCase keyword "output")
      (flat : Flat argument) : Says (keyword ++ '(' :: argument ++ [')']) (.output argument)
  | join {name word arguments : List Char} {connective : Connective} {items : List (List Char)}
      {inputs : List Term} (named : IsName name) (connects : Connects word connective)
      (plain : connective = .and ∨ connective = .or) (flat : Flat arguments)
      (lists : Lists arguments items) (denote : List.Forall₂ Denotes items inputs) :
      Says (name ++ '=' :: word ++ '(' :: arguments ++ [')']) (.join name connective inputs)
  | quantify {name word front back : List Char} {q : Quantifier} {bound : List (List Char)}
      {body : Term} (named : IsName name) (connects : Connects word q.gate)
      (flat : Flat (front ++ ';' :: back)) (once : ';' ∉ front ∧ ';' ∉ back)
      (lists : Lists front bound) (names : ∀ v ∈ bound, IsName v) (denotes : Denotes back body) :
      Says (name ++ '=' :: word ++ '(' :: (front ++ ';' :: back) ++ [')'])
        (.quantify name q bound body)

end Lines

namespace Script

/-- The names in the blocks, and those that are declared free. -/
def blockNames (script : List Statement) : List (List Char) :=
  script.flatMap fun
    | .block _ names => names
    | _ => []

def boundNames (script : List Statement) : List (List Char) :=
  script.flatMap fun
    | .quantify _ _ bound _ => bound
    | _ => []

/-- The variables: what blocks declare, and then what only quantifier gates bind, in the order
in which it first occurs. -/
def vars (script : List Statement) : List (List Char) :=
  blockNames script ++ ((boundNames script).filter (· ∉ blockNames script)).eraseDups

def gateNames (script : List Statement) : List (List Char) :=
  script.filterMap fun
    | .join name _ _ => some name
    | .quantify name _ _ _ => some name
    | _ => none

def lastOutput? (script : List Statement) : Option (List Char) :=
  (script.filterMap fun
    | .output argument => some argument
    | _ => none).getLast?

/-- A gate has a name that is not yet known, and reads names that are. -/
def Resolves (known : List (List Char)) : Statement → Prop
  | .join name _ inputs => name ∉ known ∧ ∀ input ∈ inputs, input.name ∈ known
  | .quantify name _ _ body => name ∉ known ∧ body.name ∈ known
  | _ => True

/-- What is asked of a script besides the form of its lines. Of the output lines the last one
counts, and it may name any gate. -/
structure Proper (script : List Statement) (out : Term) : Prop where
  blocks : (blockNames script).Nodup
  gates : ∀ before statement after, script = before ++ statement :: after →
    Resolves (vars script ++ gateNames before) statement
  output : ∃ argument, lastOutput? script = some argument ∧ Denotes argument out
  defined : out.name ∈ vars script ++ gateNames script

end Script

section Circuits

variable (known : List (List Char))

/-- Names are numbered from one, in their order. -/
def numberOf (name : List Char) : Nat :=
  known.idxOf name + 1

def Term.literal (term : Term) : Literal :=
  if term.negated then - (numberOf known term.name : Int) else numberOf known term.name

/-- A quantified block, unless it is empty. -/
def Statement.block? : Statement → Option Block
  | .block (some q) names => if names = [] then none else some ⟨q, names.map (numberOf known)⟩
  | _ => none

def Statement.gate? : Statement → Option Gate
  | .join _ connective inputs => some { connective, inputs := inputs.map (Term.literal known) }
  | .quantify _ q bound body =>
    some (.quantify q (bound.map fun v => (numberOf known v : Int)) (body.literal known))
  | _ => none

end Circuits

/-- A circuit whose identifiers are numbered in the order of their names. -/
def layOut (name : String) (known : List (List Char)) (maxVar : Nat) (blocks : List Block)
    (gates : List Gate) : Circuit where
  name
  maxVar
  blocks
  gates := gates.toArray
  names := ("" :: known.map String.ofList).toArray
  origin := (List.range (known.length + 1)).toArray

/-- The circuit with its output. If there is no gate yet, one is added that repeats it. -/
def withOutput (c : Circuit) (out : Literal) : Circuit :=
  if c.gates.isEmpty then
    { c with
      gates := #[{ connective := .and, inputs := [out] }]
      output? := some (c.maxVar : Int)
      names := c.names.push c.freshName
      origin := c.origin.push c.names.size }
  else { c with output? := some out }

/-- The circuit that a script describes. -/
def Script.describe (name : String) (script : List Statement) (out : Term) : Circuit :=
  let known := vars script ++ gateNames script
  withOutput
    (layOut name known ((vars script).length + 1) (script.filterMap (Statement.block? known))
      (script.filterMap (Statement.gate? known)))
    (out.literal known)

end QuantCircuit.Qcir
