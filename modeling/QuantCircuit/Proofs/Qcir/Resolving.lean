import QuantCircuit.Proofs.Qcir.Language
import QuantCircuit.Qcir.Line

/-! What the lines of a text come to when they are taken apart as the reader does it, but all of
them at once: a name stands for its position among all names, wherever it occurs. This lies between
the reader and the language. -/

namespace QuantCircuit.Qcir

/-- The lines of a text without comments and white space, less those that are empty. -/
def content (text : List Char) : List (List Char) :=
  ((separate '\n' text).map strip).filter (!·.isEmpty)

/-- The three shapes of a line. -/
inductive Shape : List Char → Line → Prop
  | block {keyword arguments : List Char} {quantifier : Option Quantifier}
      (opens : Line.blockKind? keyword = some quantifier) (flat : Flat arguments) :
      Shape (keyword ++ '(' :: arguments ++ [')']) (.block quantifier arguments)
  | output {keyword arguments : List Char} (names : lowercase keyword = "output".toList)
      (flat : Flat arguments) :
      Shape (keyword ++ '(' :: arguments ++ [')']) (.output arguments)
  | gate {name connective arguments : List Char} (named : isName name = true)
      (nonempty : connective ≠ []) (letters : ∀ c ∈ connective, c.isAlpha = true)
      (flat : Flat arguments) :
      Shape (name ++ '=' :: connective ++ '(' :: arguments ++ [')'])
        (.gate name connective arguments)

def blockItems (lines : List Line) : List (List Char) :=
  lines.flatMap fun
    | .block _ arguments => listItems arguments
    | _ => []

def variableNames (lines : List Line) : List (List Char) :=
  let declared := blockItems lines
  declared ++ ((lines.flatMap Line.boundItems).filter (· ∉ declared)).eraseDups

def gateNames (lines : List Line) : List (List Char) :=
  lines.filterMap fun
    | .gate name _ _ => some name
    | _ => none

def outputArguments (lines : List Line) : List (List Char) :=
  lines.filterMap fun
    | .output argument => some argument
    | _ => none

def lastOutput? (lines : List Line) : Option (List Char) :=
  (outputArguments lines).getLast?

def unsigned : List Char → List Char
  | '-' :: name => name
  | name => name

/-- The text is a literal over the names. -/
def Names (known : List (List Char)) (text : List Char) : Prop :=
  isLiteral text = true ∧ unsigned text ∈ known

/-- What the arguments of a gate have to be, given the names before it. -/
def ProperArguments (known : List (List Char)) (connective : Connective)
    (arguments : List Char) : Prop :=
  if connective.isQuantifier then
    ∃ bound body, Line.quantified? arguments = some (bound, body) ∧
      (∀ item ∈ listItems bound, isName item = true) ∧ Names known body
  else
    ∀ item ∈ listItems arguments, Names known item

/-- What a gate has to be, given the names before it. -/
def ProperGate (known : List (List Char)) (name connective arguments : List Char) : Prop :=
  name ∉ known ∧
    ∃ kind, connective? connective = some kind ∧ ProperArguments known kind arguments

/-- Every gate is proper, given the names and those of the gates before it. -/
def ProperGates (known : List (List Char)) (lines : List Line) : Prop :=
  ∀ before name connective arguments after,
    lines = before ++ .gate name connective arguments :: after →
      ProperGate (known ++ gateNames before) name connective arguments

/-- What the lines of a text have to be. -/
structure Proper (lines : List Line) : Prop where
  items_names : ∀ item ∈ blockItems lines, isName item = true
  items_nodup : (blockItems lines).Nodup
  gates : ProperGates (variableNames lines) lines
  output : ∃ argument, lastOutput? lines = some argument ∧
    Names (variableNames lines ++ gateNames lines) argument

def literalOf (known : List (List Char)) (text : List Char) : Literal :=
  if text.head? = some '-' then - (numberOf known (unsigned text) : Int)
  else numberOf known (unsigned text)

def gateOf (known : List (List Char)) (connective : Connective) (arguments : List Char) : Gate :=
  match connective.quantifier?, Line.quantified? arguments with
  | some q, some (bound, body) =>
    .quantify q ((listItems bound).map (literalOf known)) (literalOf known body)
  | _, _ => { connective, inputs := (listItems arguments).map (literalOf known) }

def blockOf (known : List (List Char)) : Line → Option Block
  | .block (some q) arguments =>
    if (listItems arguments).isEmpty then none
    else some ⟨q, (listItems arguments).map (numberOf known)⟩
  | _ => none

def definedGate (known : List (List Char)) : Line → Option Gate
  | .gate _ connective arguments => (connective? connective).map (gateOf known · arguments)
  | _ => none

/-- The circuit that proper lines describe. -/
def describe (name : String) (lines : List Line) : Circuit :=
  let known := variableNames lines ++ gateNames lines
  withOutput
    (layOut name known ((variableNames lines).length + 1) (lines.filterMap (blockOf known))
      (lines.filterMap (definedGate known)))
    (((lastOutput? lines).map (literalOf known)).getD 0)

end QuantCircuit.Qcir
