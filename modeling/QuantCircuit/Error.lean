import QuantCircuit.Logic

/-! What can go wrong, as causes; `Error.message` is the one place that words them. -/

namespace QuantCircuit

/-- How far a solver has come. -/
inductive Stage where
  | created
  | matrixCompiled
  | prefixEliminated
  | verdictReady
  | witnessReady
  deriving DecidableEq, Repr, Inhabited

/-- Stages stand in the order in which a run comes to them. -/
instance : LE Stage where
  le a b := a.ctorIdx ≤ b.ctorIdx

instance : DecidableLE Stage :=
  fun a b => inferInstanceAs (Decidable (a.ctorIdx ≤ b.ctorIdx))

def Stage.name : Stage → String
  | created => "Created"
  | matrixCompiled => "MatrixCompiled"
  | prefixEliminated => "PrefixEliminated"
  | verdictReady => "VerdictReady"
  | witnessReady => "WitnessReady"

/-- The calls that name themselves when they come at the wrong stage. -/
inductive StagedCall where
  | eliminateBlocks
  | eliminateVariables
  | verdict
  | witness
  deriving DecidableEq, Repr

def StagedCall.name : StagedCall → String
  | eliminateBlocks => "eliminate_prefix"
  | eliminateVariables => "eliminate_prefix_per_variable"
  | verdict => "verdict"
  | witness => "witness"

/-- A rule about the order or shape of calls was broken. -/
inductive StructuralFault where
  | lateDeclaration (name : String)
  | outputBeforeGates
  | noOutput
  | quantifierArity
  | cleanupNeedsPrenex
  | alreadyCompiled
  | outOfStage (call : StagedCall) (stage : Stage)
  | noFunction
  | forwardReference (gate : Nat) (literal : Literal)
  | gateUnavailable (gate : Nat)
  | noAssignment
  | gatesOutOfOrder
  deriving DecidableEq, Repr

inductive IoFault where
  | notFound
  | invalidUtf8
  | system (text : String)
  deriving DecidableEq, Repr

/-- A failed operation. Lines are counted from one. -/
inductive Error where
  /-- The literal's identifier is not one of `1 .. max - 1`. -/
  | undefinedLiteral (literal : Literal) (max : Int)
  | structural (fault : StructuralFault)
  /-- A node was needed and the diagram already holds `limit` of them. -/
  | tableExhausted (limit : Nat)
  | unparsable (line : Nat) (text : String)
  | duplicateName (line : Nat) (name : String)
  | undefinedName (line : Nat) (name : String)
  | unknownConnective (line : Nat) (text : String)
  | missingOutput
  | io (fault : IoFault)
  /-- A quantifier gate binds a negative literal, which names no variable. -/
  | negatedBinding (literal : Literal)
  /-- A table is read or written where it has no entry. -/
  | outOfRange (index : Nat)
  /-- The absolute value has too many digits. -/
  | overflow (literal : Literal)
  /-- An identifier below which reading inputs does not come to an end. -/
  | endless (id : Nat)
  deriving DecidableEq, Repr

def StructuralFault.message : StructuralFault → String
  | lateDeclaration name => s!"variable \"{name}\" declared after the first gate"
  | outputBeforeGates => "output set before any gate exists"
  | noOutput => "circuit has no output"
  | quantifierArity => "a quantifier gate has exactly one input"
  | cleanupNeedsPrenex => "cleanup needs a prenex circuit, use cleanup_matrix"
  | alreadyCompiled => "matrix already compiled"
  | outOfStage call stage => s!"{call.name} called in phase {stage.name}"
  | noFunction => "witness without a function"
  | forwardReference gate literal => s!"gate {gate} refers forward to {literal}"
  | gateUnavailable gate => s!"gate {gate} is not available"
  | noAssignment => "no assignment for a decided outermost block"
  | gatesOutOfOrder => "renumbering must keep gates in order"

def IoFault.message : IoFault → String
  | notFound => "No such file or directory (os error 2)"
  | invalidUtf8 => "stream did not contain valid UTF-8"
  | system text => text

def Error.message : Error → String
  | undefinedLiteral literal max => s!"literal {literal} is not defined [1..{max - 1}]"
  | structural fault => s!"structural error: {fault.message}"
  | tableExhausted limit => s!"BDD table exhausted ({limit} nodes)"
  | unparsable line text => s!"line {line}: cannot parse \"{text}\""
  | duplicateName line name => s!"line {line}: name \"{name}\" is already defined"
  | undefinedName line name => s!"line {line}: name \"{name}\" is not defined"
  | unknownConnective line text => s!"line {line}: unknown connective in \"{text}\""
  | missingOutput => "no output line found"
  | io fault => s!"I/O error: {fault.message}"
  | negatedBinding literal => s!"bound variable {literal} is negated"
  | outOfRange index => s!"no entry at {index}"
  | overflow literal => s!"no absolute value of {literal}"
  | endless id => s!"no end below {id}"

end QuantCircuit
