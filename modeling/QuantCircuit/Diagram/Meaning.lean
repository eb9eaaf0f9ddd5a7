import QuantCircuit.Diagram.Basic

namespace QuantCircuit.Diagram

/-- Follows the decisions of a function for a bounded number of steps. -/
def valueWithin (d : Diagram) (σ : Nat → Bool) : Nat → Handle → Bool
  | _, .const value => value
  | 0, .node _ => false
  | bound + 1, .node index =>
    match d.nodes[index]? with
    | none => false
    | some n => d.valueWithin σ bound (if σ n.label then n.high else n.low)

def value (d : Diagram) (σ : Nat → Bool) (f : Handle) : Bool :=
  d.valueWithin σ f.height f

/-- The handle is a constant, or the index of a node of the table. -/
def Holds (d : Diagram) (f : Handle) : Prop :=
  f.height ≤ d.nodes.size

/-- Every label below a handle comes after the given one. -/
def Above (d : Diagram) (label : Nat) (f : Handle) : Prop :=
  ∀ n : Node, d.node? f = some n → label < n.label

/-- The table is reduced and ordered, and the maps beside it tell the truth about it. -/
structure Valid (d : Diagram) : Prop where
  children_le : ∀ (index : Nat) (n : Node), d.nodes[index]? = some n →
    n.low.height ≤ index ∧ n.high.height ≤ index
  ordered : ∀ (index : Nat) (n : Node), d.nodes[index]? = some n →
    d.Above n.label n.low ∧ d.Above n.label n.high
  reduced : ∀ (index : Nat) (n : Node), d.nodes[index]? = some n → n.low ≠ n.high
  /-- Equal nodes have equal indices, and every node is found. -/
  unique_eq : ∀ (index : Nat) (n : Node), d.unique[n]? = some index ↔ d.nodes[index]? = some n
  /-- Remembered selections are right. -/
  selections_eq : ∀ (s : Selection) (f : Handle), d.selections[s]? = some f →
    d.Holds s.test ∧ d.Holds s.yes ∧ d.Holds s.no ∧ d.Holds f ∧
      ∀ σ : Nat → Bool, d.value σ f = if d.value σ s.test then d.value σ s.yes else d.value σ s.no
  size_le : d.nodes.size ≤ d.limit

theorem valid_empty (limit : Nat) : (empty limit).Valid where
  children_le := by
    intro index n found
    simp [empty] at found
  ordered := by
    intro index n found
    simp [empty] at found
  reduced := by
    intro index n found
    simp [empty] at found
  unique_eq := by
    intro index n
    simp [empty]
  selections_eq := by
    intro s f found
    simp [empty] at found
  size_le := Nat.zero_le limit

end QuantCircuit.Diagram
