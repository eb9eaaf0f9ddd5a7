import QuantCircuit.Diagram.Select
import QuantCircuit.Logic

namespace QuantCircuit.Diagram

/-- Results found so far in one pass over a function, by node index. -/
abbrev Found := Std.TreeMap Nat Handle

/-- Below a node that tests a later label nothing is left to fix. -/
def restrictWithin (label : Nat) (value : Bool) : Nat → Handle → StateT Found Build Handle
  | bound + 1, .node index => do
    match (← get)[index]?, (← getThe Diagram).nodes[index]? with
    | some f, _ => pure f
    | none, none => pure (.node index)
    | none, some n =>
      let f ←
        if label < n.label then pure (.node index)
        else if label = n.label then pure (if value then n.high else n.low)
        else
          let low ← restrictWithin label value bound n.low
          let high ← restrictWithin label value bound n.high
          share ⟨n.label, low, high⟩
      modify fun found => found.insert index f
      pure f
  | _, f => pure f

/-- The function `f` with the variable of the literal fixed so that the literal
is true. -/
def restrict (f : Handle) (literal : Literal) : Build Handle :=
  (restrictWithin literal.natAbs (0 < literal) f.height f).run' ∅

/-- What a quantifier makes of the two halves of a function. -/
def combine (q : Quantifier) (low high : Handle) : Build Handle :=
  match q with
  | .all => and low high
  | .ex => or low high

/-- Below a node that tests a label after the last one nothing is left to quantify. -/
def abstractWithin (q : Quantifier) (labels : List Nat) (last : Nat) :
    Nat → Handle → StateT Found Build Handle
  | bound + 1, .node index => do
    match (← getThe Diagram).nodes[index]? with
    | none => pure (.node index)
    | some n =>
      if last < n.label then return .node index
      if let some f := (← get)[index]? then return f
      let low ← abstractWithin q labels last bound n.low
      let high ← abstractWithin q labels last bound n.high
      let f ← if n.label ∈ labels then combine q low high else share ⟨n.label, low, high⟩
      modify fun found => found.insert index f
      pure f
  | _, f => pure f

/-- The function `f` with the variables of the literals quantified, all at once. -/
def abstract (q : Quantifier) (literals : List Literal) (f : Handle) : Build Handle :=
  let labels := literals.map Int.natAbs
  match labels.max? with
  | none => pure f
  | some last => (abstractWithin q labels last f.height f).run' ∅

end QuantCircuit.Diagram
