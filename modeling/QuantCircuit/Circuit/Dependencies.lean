import QuantCircuit.Circuit.Basic

namespace QuantCircuit

/-- A set of variables, as the binary digits of a number. -/
structure VariableSet where
  digits : Nat := 0
  deriving DecidableEq, Repr

namespace VariableSet

def contains (s : VariableSet) (v : Nat) : Bool :=
  s.digits.testBit v

def singleton (v : Nat) : VariableSet := ⟨1 <<< v⟩

def union (s t : VariableSet) : VariableSet := ⟨s.digits ||| t.digits⟩

def erase (s : VariableSet) (v : Nat) : VariableSet :=
  if s.contains v then ⟨s.digits ^^^ (1 <<< v)⟩ else s

/-- The elements below a bound, in increasing order. -/
def elements (s : VariableSet) (bound : Nat) : List Nat :=
  (List.range bound).filter s.contains

@[simp] theorem contains_empty (v : Nat) : contains {} v = false := by
  simp [contains]

@[simp] theorem contains_singleton (v w : Nat) : (singleton v).contains w = decide (v = w) := by
  simp [contains, singleton, Nat.one_shiftLeft, Nat.testBit_two_pow]

@[simp] theorem contains_union (s t : VariableSet) (v : Nat) :
    (s.union t).contains v = (s.contains v || t.contains v) := by
  simp [contains, union]

@[simp] theorem contains_erase (s : VariableSet) (v w : Nat) :
    (s.erase v).contains w = (s.contains w && !decide (v = w)) := by
  by_cases member : s.contains v
  · by_cases same : v = w
    · subst w
      simp_all [contains, erase, Nat.one_shiftLeft]
    · simp_all [contains, erase, Nat.one_shiftLeft]
  · by_cases same : v = w
    · subst w
      simp_all [erase]
    · simp_all [erase]

end VariableSet

structure Occurrences where
  positive : VariableSet := {}
  negative : VariableSet := {}
  deriving DecidableEq, Repr

namespace Occurrences

def swap (o : Occurrences) : Occurrences := ⟨o.negative, o.positive⟩

def union (o p : Occurrences) : Occurrences :=
  ⟨o.positive.union p.positive, o.negative.union p.negative⟩

def erase (o : Occurrences) (v : Nat) : Occurrences :=
  ⟨o.positive.erase v, o.negative.erase v⟩

end Occurrences

/-- The occurrences below every identifier the circuit had when it was analysed. -/
structure Dependencies where
  maxVar : Nat
  occurrences : Array Occurrences
  deriving Repr

namespace Dependencies

def ofVariable (v : Nat) : Occurrences :=
  if v = 0 then {} else { positive := .singleton v }

/-- The occurrences below a literal, if its identifier was analysed. -/
def below? (d : Dependencies) (literal : Literal) : Option Occurrences :=
  (d.occurrences[literal.natAbs]?).map fun o => if 0 < literal then o else o.swap

/-- The occurrences below an input of the next gate. -/
def ofInput (d : Dependencies) (literal : Literal) (arithmetic : Arithmetic := .checked) :
    Except Error Occurrences := do
  checkLiteral literal d.occurrences.size arithmetic
  match d.below? literal with
  | some o => return o
  | none => throw (.outOfRange literal.natAbs)

/-- The variables that cannot be seen through a gate. -/
def hiddenBy (d : Dependencies) (gate : Gate) (arithmetic : Arithmetic := .checked) :
    Except Error (List Nat) :=
  if gate.connective.isQuantifier then gate.bound.mapM (boundVariable · d.maxVar arithmetic)
  else .ok []

/-- A gate sees what its inputs see, less what it binds. -/
def addGate (d : Dependencies) (gate : Gate) (arithmetic : Arithmetic := .checked) :
    Except Error Dependencies := do
  let inputs ← gate.inputs.mapM (d.ofInput · arithmetic)
  let bound ← d.hiddenBy gate arithmetic
  let occurrences := bound.foldl Occurrences.erase (inputs.foldl Occurrences.union {})
  return { d with occurrences := d.occurrences.push occurrences }

def ofCircuit (c : Circuit) (arithmetic : Arithmetic := .checked) : Except Error Dependencies :=
  c.gates.foldlM (addGate · · arithmetic)
    ⟨c.maxVar, ((List.range c.maxVar).map ofVariable).toArray⟩

/-- Whether the variable `x` occurs positively and negatively below a literal.
Nothing is known of identifiers made after the analysis, so they may hold anything. -/
def polarity (d : Dependencies) (literal x : Literal) : Bool × Bool :=
  match d.below? literal with
  | none => (true, true)
  | some o =>
    if x < 0 then (false, false)
    else (o.positive.contains x.natAbs, o.negative.contains x.natAbs)

def depends (d : Dependencies) (literal x : Literal) : Bool :=
  (d.polarity literal x).1 || (d.polarity literal x).2

def supportSize (d : Dependencies) (literal : Literal) : Nat :=
  match d.below? literal with
  | none => d.maxVar - 1
  | some o => ((o.positive.union o.negative).elements d.maxVar).length

end Dependencies

end QuantCircuit
