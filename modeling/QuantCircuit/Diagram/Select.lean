import QuantCircuit.Diagram.Basic

namespace QuantCircuit

namespace Selection

/-- The selections that need no decision. -/
def direct? (s : Selection) : Option Handle :=
  if s.test = .const true then some s.yes
  else if s.test = .const false then some s.no
  else if s.yes = s.no then some s.yes
  else if s.yes = .const true ∧ s.no = .const false then some s.test
  else none

def height (s : Selection) : Nat :=
  s.test.height + s.yes.height + s.no.height

end Selection

namespace Diagram

/-- The function `f` with the variable `label` fixed, for a label that no node of
`f` precedes. -/
def cofactor (d : Diagram) (label : Nat) (value : Bool) (f : Handle) : Handle :=
  match d.node? f with
  | some n => if n.label = label then (if value then n.high else n.low) else f
  | none => f

def cofactors (d : Diagram) (label : Nat) (value : Bool) (s : Selection) : Selection where
  test := d.cofactor label value s.test
  yes := d.cofactor label value s.yes
  no := d.cofactor label value s.no

/-- The first label that one of the functions tests. -/
def topLabel? (d : Diagram) (functions : List Handle) : Option Nat :=
  ((functions.filterMap d.node?).map (·.label)).min?

/-- The selection split at its first label, into the two halves. -/
def split? (d : Diagram) (s : Selection) : Option (Nat × Selection × Selection) :=
  (d.topLabel? [s.test, s.yes, s.no]).map fun label =>
    (label, d.cofactors label false s, d.cofactors label true s)

def remember (s : Selection) (f : Handle) : Build Unit :=
  modify fun d => { d with selections := d.selections.insert s f }

/-- Selection with a bound on its depth. Each split lowers the height, so the height
is bound enough. -/
def selectWithin : Nat → Selection → Build Handle
  | 0, s => pure (s.direct?.getD s.no)
  | bound + 1, s =>
    match s.direct? with
    | some f => pure f
    | none => do
      let d ← get
      match d.selections[s]? with
      | some f => pure f
      | none =>
        match d.split? s with
        | none => pure s.no
        | some (label, whenFalse, whenTrue) =>
          let low ← selectWithin bound whenFalse
          let high ← selectWithin bound whenTrue
          let f ← share ⟨label, low, high⟩
          remember s f
          pure f

/-- The function that is `yes` where `test` holds and `no` elsewhere. -/
def select (test yes no : Handle) : Build Handle :=
  selectWithin (Selection.height ⟨test, yes, no⟩) ⟨test, yes, no⟩

def not (f : Handle) : Build Handle := select f (.const false) (.const true)

def and (f g : Handle) : Build Handle := select f g (.const false)

def or (f g : Handle) : Build Handle := select f (.const true) g

end Diagram

end QuantCircuit
