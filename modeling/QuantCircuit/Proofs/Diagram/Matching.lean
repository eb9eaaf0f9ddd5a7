import QuantCircuit.Proofs.Diagram.Operating
import QuantCircuit.Proofs.Diagram.Reaching

/-! Handles with one function in two tables. The tables may have been filled in any order, yet
whatever is asked about the function, and not about its handles, is answered alike. -/

namespace QuantCircuit.Diagram

variable {d e : Diagram} {f g h k : Handle} {n m : Node} {index : Nat} {value : Bool}

/-- Handles, each of its own diagram, with the same function. -/
structure Matches (d e : Diagram) (f g : Handle) : Prop where
  left : d.Holds f
  right : e.Holds g
  value_eq : ∀ σ, d.value σ f = e.value σ g

theorem matches_const (d e : Diagram) (value : Bool) :
    Matches d e (.const value) (.const value) :=
  ⟨holds_const d value, holds_const e value, fun σ => by rw [value_const, value_const]⟩

theorem Matches.symm (same : Matches d e f g) : Matches e d g f :=
  ⟨same.right, same.left, fun σ => (same.value_eq σ).symm⟩

theorem Matches.refl (holds : d.Holds f) : Matches d d f f :=
  ⟨holds, holds, fun _ => rfl⟩

theorem Matches.trans {r : Diagram} (first : Matches d e f g) (second : Matches e r g h) :
    Matches d r f h :=
  ⟨first.left, second.right, fun σ => (first.value_eq σ).trans (second.value_eq σ)⟩

theorem Matches.grows {d' e' : Diagram} (same : Matches d e f g) (valid : d.Valid)
    (validRight : e.Valid) (grows : d.Grows d') (growsRight : e.Grows e') :
    Matches d' e' f g where
  left := grows.holds same.left
  right := growsRight.holds same.right
  value_eq σ := by
    rw [grows.value_eq valid same.left, growsRight.value_eq validRight same.right, same.value_eq]

section Valid

variable (valid : d.Valid) (validRight : e.Valid)

include valid validRight

theorem Matches.eq_const_iff (same : Matches d e f g) : f = .const value ↔ g = .const value := by
  have equal := same.value_eq
  constructor
  · intro constant
    apply validRight.eq_of_value_eq same.right (holds_const e value)
    intro σ
    rw [← equal, constant, value_const, value_const]
  · intro constant
    apply valid.eq_of_value_eq same.left (holds_const d value)
    intro σ
    rw [equal, constant, value_const, value_const]

theorem Matches.eq_iff (first : Matches d e f g) (second : Matches d e h k) : f = h ↔ g = k := by
  constructor
  · intro equal
    apply validRight.eq_of_value_eq first.right second.right
    intro σ
    rw [← first.value_eq, ← second.value_eq, equal]
  · intro equal
    apply valid.eq_of_value_eq first.left second.left
    intro σ
    rw [first.value_eq, second.value_eq, equal]

theorem Matches.asConstant_eq (same : Matches d e f g) : f.asConstant = g.asConstant := by
  apply Option.ext
  intro value
  rw [valid.asConstant_eq_some_iff same.left, validRight.asConstant_eq_some_iff same.right]
  simp only [same.value_eq]

/-- A decision is the same decision in both tables: the first variable that matters, and what is
left for its two values. -/
theorem Matches.children (same : Matches d e (.node index) g)
    (found : d.nodes[index]? = some n) :
    ∃ (other : Nat) (m : Node), g = .node other ∧ e.nodes[other]? = some m ∧
      m.label = n.label ∧ Matches d e n.low m.low ∧ Matches d e n.high m.high := by
  have equal : (d.value · (.node index)) = (e.value · g) := funext same.value_eq
  have decides := valid.not_ignores_root found
  cases g with
  | const value =>
    refine absurd ?_ decides
    rw [equal]
    intro σ _
    simp
  | node other =>
    obtain ⟨m, located⟩ := exists_getElem? same.right
    have decidesRight := validRight.not_ignores_root located
    have label : m.label = n.label := by
      rcases Nat.lt_trichotomy m.label n.label with before | here | after
      · exact absurd (equal ▸ valid.ignores_before_root found before) decidesRight
      · exact here
      · exact absurd (equal ▸ validRight.ignores_before_root located after) decides
    have holds := valid.holds_children found
    have holdsRight := validRight.holds_children located
    refine ⟨other, m, rfl, located, label, ⟨holds.1, holdsRight.1, fun σ => ?_⟩,
      holds.2, holdsRight.2, fun σ => ?_⟩
    · rw [(valid.value_children found σ).1, (validRight.value_children located σ).1, label]
      exact same.value_eq _
    · rw [(valid.value_children found σ).2, (validRight.value_children located σ).2, label]
      exact same.value_eq _

/-- What lies below a function has a match below its match. -/
theorem Matches.reaches (same : Matches d e f g) (reaches : d.Reaches f h) :
    ∃ k, e.Reaches g k ∧ Matches d e h k := by
  induction reaches with
  | here => exact ⟨g, .here, same⟩
  | low _ found ih =>
    obtain ⟨k, reached, matched⟩ := ih
    obtain ⟨other, m, rfl, located, _, low, _⟩ := matched.children valid validRight found
    exact ⟨m.low, .low reached located, low⟩
  | high _ found ih =>
    obtain ⟨k, reached, matched⟩ := ih
    obtain ⟨other, m, rfl, located, _, _, high⟩ := matched.children valid validRight found
    exact ⟨m.high, .high reached located, high⟩

theorem Matches.decision (same : Matches d e f g) (member : n ∈ d.decisions f) :
    ∃ m ∈ e.decisions g, m.label = n.label ∧ Matches d e n.low m.low ∧
      Matches d e n.high m.high := by
  obtain ⟨index, found, marked⟩ := mem_decisions_iff.mp member
  obtain ⟨root, listed, reached⟩ :=
    (reachable_iff valid fun root listed => List.mem_singleton.mp listed ▸ same.left).mp marked
  obtain rfl := List.mem_singleton.mp listed
  obtain ⟨k, reachedRight, matched⟩ := same.reaches valid validRight reached
  obtain ⟨other, m, rfl, located, label, low, high⟩ := matched.children valid validRight found
  refine ⟨m, mem_decisions_iff.mpr ⟨other, located, ?_⟩, label, low, high⟩
  rw [reachable_iff validRight fun root listed => List.mem_singleton.mp listed ▸ same.right]
  exact ⟨g, List.mem_singleton_self g, reachedRight⟩

theorem Matches.support_eq (same : Matches d e f g) : d.support f = e.support g := by
  have equal : (d.value · f) = (e.value · g) := funext same.value_eq
  have members : (d.support f).Perm (e.support g) := by
    apply (List.perm_ext_iff_of_nodup (support_nodup d f) (support_nodup e g)).mpr
    intro v
    rw [mem_support_iff valid same.left, mem_support_iff validRight same.right, equal]
  refine members.eq_of_pairwise (fun v w _ _ before after => ?_) (support_sorted d f)
    (support_sorted e g)
  exact absurd before (Nat.lt_asymm after)

theorem Matches.pathToTrue_eq {bound other : Nat} (same : Matches d e f g)
    (enough : f.height ≤ bound) (enoughRight : g.height ≤ other) :
    d.pathToTrue bound f = e.pathToTrue other g := by
  induction bound generalizing f g other with
  | zero =>
    cases f with
    | node index => simp [Handle.height] at enough
    | const value =>
      obtain rfl := (same.eq_const_iff valid validRight).mp rfl
      cases other <;> rfl
  | succ bound ih =>
    cases f with
    | const value =>
      obtain rfl := (same.eq_const_iff valid validRight).mp rfl
      cases other <;> rfl
    | node index =>
      obtain ⟨n, found⟩ := exists_getElem? same.left
      obtain ⟨place, m, rfl, located, label, low, high⟩ := same.children valid validRight found
      have bounds := valid.children_le index n found
      have boundsRight := validRight.children_le place m located
      simp only [Handle.height] at enough enoughRight
      cases other with
      | zero => omega
      | succ other =>
        have open_ : n.low ≠ .const false ↔ m.low ≠ .const false :=
          not_congr (low.eq_const_iff valid validRight)
        have lows : d.pathToTrue bound n.low = e.pathToTrue other m.low :=
          ih low (by omega) (by omega)
        have highs : d.pathToTrue bound n.high = e.pathToTrue other m.high :=
          ih high (by omega) (by omega)
        rw [pathToTrue, pathToTrue]
        simp only [node?_node, found, located, open_, label, lows, highs]

theorem Matches.pickCube_eq (same : Matches d e f g) (literals : List Literal) :
    d.pickCube f literals = e.pickCube g literals := by
  have empty : f = .const false ↔ g = .const false := same.eq_const_iff valid validRight
  simp only [pickCube, empty,
    same.pathToTrue_eq valid validRight (Nat.le_refl f.height) (Nat.le_refl g.height)]

end Valid

end QuantCircuit.Diagram
