import Std.Data.TreeMap

namespace QuantCircuit

/-- A signed identifier: its absolute value names a variable or a gate, and a
negative literal stands for the negation. -/
abbrev Literal := Int

namespace Literal

def maximum : Literal := 2147483647

/-- The one number of 32 binary digits that has no absolute value of 32 digits. It is no
signed identifier, but calls may be given it. -/
def lowest : Literal := -2147483648

/-- A number read as a literal of 32 binary digits, the first of which is the sign. -/
def ofNumber (n : Nat) : Literal := Int.bmod n 4294967296

/-- The literal that is true if the variable has the value. -/
def ofVariable (v : Nat) (value : Bool) : Literal :=
  if value then v else - (v : Int)

@[simp] theorem natAbs_ofVariable (v : Nat) (value : Bool) : (ofVariable v value).natAbs = v := by
  cases value <;> simp [ofVariable]

end Literal

/-- The quantifier of a block, or of a quantifier gate. -/
inductive Quantifier where
  | all
  | ex
  deriving DecidableEq, Repr, Inhabited

inductive Connective where
  | and
  | or
  | all
  | ex
  deriving DecidableEq, Repr, Inhabited

namespace Quantifier

def dual : Quantifier → Quantifier
  | all => ex
  | ex => all

def gate : Quantifier → Connective
  | all => .all
  | ex => .ex

/-- The connective a quantifier commutes with: a universal quantifier over a
conjunction is the conjunction of the universal quantifiers, and dually. -/
def distributesOver : Quantifier → Connective
  | all => .and
  | ex => .or

def name : Quantifier → String
  | all => "forall"
  | ex => "exists"

/-- Universal comes first in the order of quantifiers. -/
def rank : Quantifier → Nat
  | all => 0
  | ex => 1

theorem rank_injective {p q : Quantifier} (same : p.rank = q.rank) : p = q := by
  cases p <;> cases q <;> simp_all [rank]

instance : Ord Quantifier := ⟨compareOn rank⟩

instance : Std.TransOrd Quantifier := inferInstanceAs (Std.TransCmp (compareOn rank))

instance : Std.LawfulEqOrd Quantifier where
  eq_of_compare same := rank_injective (Std.LawfulEqOrd.eq_of_compare same)

@[simp] theorem dual_dual (q : Quantifier) : q.dual.dual = q := by cases q <;> rfl

end Quantifier

namespace Connective

/-- De Morgan's partner: the connective of the negated gate over negated inputs. -/
def dual : Connective → Connective
  | and => or
  | or => and
  | all => ex
  | ex => all

/-- The quantifier of a quantifier gate; conjunction and disjunction have none. -/
def quantifier? : Connective → Option Quantifier
  | all => some .all
  | ex => some .ex
  | and | or => none

def isQuantifier (connective : Connective) : Bool :=
  connective.quantifier?.isSome

def name : Connective → String
  | and => "and"
  | or => "or"
  | all => "forall"
  | ex => "exists"

@[simp] theorem dual_dual (connective : Connective) : connective.dual.dual = connective := by
  cases connective <;> rfl

end Connective

theorem Connective.gate_of_quantifier? {connective : Connective} {q : Quantifier}
    (quantifies : connective.quantifier? = some q) : q.gate = connective := by
  cases connective <;> cases quantifies <;> rfl

theorem Connective.isQuantifier_of_quantifier? {connective : Connective} {q : Quantifier}
    (quantifies : connective.quantifier? = some q) : connective.isQuantifier = true := by
  rw [isQuantifier, quantifies]
  rfl

theorem Connective.not_isQuantifier_iff {connective : Connective} :
    ¬ connective.isQuantifier = true ↔ connective.quantifier? = none := by
  rw [isQuantifier, Bool.not_eq_true, Option.isSome_eq_false_iff, Option.isNone_iff_eq_none]

@[simp] theorem Quantifier.quantifier?_gate (q : Quantifier) : q.gate.quantifier? = some q := by
  cases q <;> rfl

end QuantCircuit
