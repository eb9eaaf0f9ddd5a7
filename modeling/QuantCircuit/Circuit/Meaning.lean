import QuantCircuit.Circuit.Basic

/-! The Boolean function that a literal of a circuit denotes, and the truth of the
whole formula. Nothing is remembered and nothing is cut short here: conjunctions and
disjunctions take all inputs, and quantifiers both values. -/

namespace QuantCircuit

abbrev Assignment := Nat → Bool

def Assignment.set (σ : Assignment) (v : Nat) (value : Bool) : Assignment :=
  fun w => if w = v then value else σ w

namespace Quantifier

/-- The quantifier over one Boolean. -/
def overBool (q : Quantifier) (p : Bool → Bool) : Bool :=
  match q with
  | all => p false && p true
  | ex => p false || p true

/-- The quantifier over variables of an assignment, the first one outermost. -/
def overVars (q : Quantifier) (p : Assignment → Bool) : List Nat → Assignment → Bool
  | [], σ => p σ
  | v :: rest, σ => q.overBool fun value => overVars q p rest (σ.set v value)

end Quantifier

abbrev Interpretation := Nat → Assignment → Bool

def Interpretation.literal (functions : Interpretation) (literal : Literal) (σ : Assignment) :
    Bool :=
  functions literal.natAbs σ ^^ decide (literal < 0)

/-- The function of a gate over identifiers that are interpreted already. -/
def Gate.meaning (functions : Interpretation) (gate : Gate) (σ : Assignment) : Bool :=
  match gate.connective with
  | .and => gate.inputs.all (functions.literal · σ)
  | .or => gate.inputs.any (functions.literal · σ)
  | .all => Quantifier.all.overVars (functions.literal gate.body) (gate.bound.map Int.natAbs) σ
  | .ex => Quantifier.ex.overVars (functions.literal gate.body) (gate.bound.map Int.natAbs) σ

def Interpretation.set (functions : Interpretation) (id : Nat) (f : Assignment → Bool) :
    Interpretation :=
  fun other => if other = id then f else functions other

/-- Interprets gates one after the other, the first one as the identifier `next`. -/
def Interpretation.extend (functions : Interpretation) (next : Nat) :
    List Gate → Interpretation
  | [] => functions
  | gate :: rest => (functions.set next (gate.meaning functions)).extend (next + 1) rest

namespace Block

/-- The function with the variables of some blocks quantified, the first outermost. -/
def close (p : Assignment → Bool) : List Block → Assignment → Bool
  | [] => p
  | block :: rest => block.quantifier.overVars (close p rest) block.vars

end Block

namespace Circuit

def interpretation (c : Circuit) : Interpretation :=
  Interpretation.extend (fun v σ => σ v) c.maxVar c.gates.toList

/-- The function that a literal denotes. -/
def meaning (c : Circuit) (literal : Literal) : Assignment → Bool :=
  c.interpretation.literal literal

def freeVariables (c : Circuit) : List Nat :=
  (List.range' 1 (c.maxVar - 1)).filter fun v => (c.quantifierOf? v).isNone

/-- The value of the formula with the given output. Variables in no block are read as
existential ones outside of all blocks. -/
def truth (c : Circuit) (output : Literal) : Bool :=
  Quantifier.ex.overVars (Block.close (c.meaning output) c.blocks) c.freeVariables fun _ => false

end Circuit

end QuantCircuit
