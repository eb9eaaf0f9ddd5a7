import QuantCircuit.Diagram.Meaning
import QuantCircuit.Proofs.Quantification

namespace QuantCircuit.Diagram

variable {d : Diagram} {index : Nat} {n : Node} {f g : Handle}

@[simp] theorem node?_node (d : Diagram) (index : Nat) :
    d.node? (.node index) = d.nodes[index]? := rfl

@[simp] theorem node?_const (d : Diagram) (value : Bool) : d.node? (.const value) = none := rfl

@[simp] theorem value_const (d : Diagram) (σ : Assignment) (value : Bool) :
    d.value σ (.const value) = value := by
  simp [Diagram.value, valueWithin]

@[simp] theorem holds_const (d : Diagram) (value : Bool) : d.Holds (.const value) :=
  Nat.zero_le _

@[simp] theorem above_const (d : Diagram) (label : Nat) (value : Bool) :
    d.Above label (.const value) := by
  intro n found
  simp at found

theorem holds_of_getElem? (found : d.nodes[index]? = some n) : d.Holds (.node index) :=
  (Array.getElem?_eq_some_iff.mp found).1

theorem exists_getElem? (holds : d.Holds (.node index)) : ∃ n, d.nodes[index]? = some n := by
  have small : index < d.nodes.size := holds
  exact ⟨d.nodes[index], Array.getElem?_eq_getElem small⟩

theorem Valid.holds_children (valid : d.Valid) (found : d.nodes[index]? = some n) :
    d.Holds n.low ∧ d.Holds n.high := by
  have bounds := valid.children_le index n found
  have small : index < d.nodes.size := holds_of_getElem? found
  exact ⟨Nat.le_trans bounds.1 (Nat.le_of_lt small), Nat.le_trans bounds.2 (Nat.le_of_lt small)⟩

theorem valueWithin_of_le (valid : d.Valid) (enough : f.height ≤ bound) (σ : Assignment) :
    d.valueWithin σ bound f = d.value σ f := by
  induction bound using Nat.strongRecOn generalizing f with
  | _ bound ih =>
    cases f with
    | const value => cases bound <;> rfl
    | node index =>
      cases bound with
      | zero => simp [Handle.height] at enough
      | succ bound =>
        simp only [Diagram.value, Handle.height, valueWithin]
        cases found : d.nodes[index]? with
        | none => rfl
        | some n =>
          have within : index ≤ bound := by simpa [Handle.height] using enough
          have child : (if σ n.label then n.high else n.low).height ≤ index := by
            split
            · exact (valid.children_le index n found).2
            · exact (valid.children_le index n found).1
          simp only
          rw [ih bound (Nat.lt_succ_self bound) (Nat.le_trans child within)]
          by_cases same : index = bound
          · subst index
            exact (ih bound (Nat.lt_succ_self bound) child).symm
          · exact (ih index (by omega) child).symm

/-- A node stands for the decision it makes. -/
theorem Valid.value_node (valid : d.Valid) (found : d.nodes[index]? = some n) (σ : Assignment) :
    d.value σ (.node index) = if σ n.label then d.value σ n.high else d.value σ n.low := by
  have bounds := valid.children_le index n found
  simp only [Diagram.value, Handle.height, valueWithin, found]
  split
  · exact valueWithin_of_le valid bounds.2 σ
  · exact valueWithin_of_le valid bounds.1 σ

/-- Proofs about all handles of a table follow its nodes. -/
theorem Valid.handle_induction (valid : d.Valid) {motive : (f : Handle) → d.Holds f → Prop}
    (const : ∀ value, motive (.const value) (holds_const d value))
    (node : ∀ index n (found : d.nodes[index]? = some n),
      motive n.low (valid.holds_children found).1 → motive n.high (valid.holds_children found).2 →
      motive (.node index) (holds_of_getElem? found))
    (f : Handle) (holds : d.Holds f) : motive f holds := by
  generalize size : f.height = height
  induction height using Nat.strongRecOn generalizing f with
  | _ height ih =>
    cases f with
    | const value => exact const value
    | node index =>
      obtain ⟨n, found⟩ := exists_getElem? holds
      have bounds := valid.children_le index n found
      have tall : height = index + 1 := size.symm
      exact node index n found (ih n.low.height (by omega) n.low _ rfl)
        (ih n.high.height (by omega) n.high _ rfl)

theorem Above.mono (above : d.Above label f) (earlier : other ≤ label) : d.Above other f :=
  fun n found => Nat.lt_of_le_of_lt earlier (above n found)

/-- A function does not look at variables before its first label. -/
theorem Valid.ignores_of_above (valid : d.Valid) (holds : d.Holds f) (above : d.Above label f)
    (earlier : v ≤ label) : Ignores (d.value · f) v := by
  intro σ value
  revert above earlier
  induction f, holds using valid.handle_induction generalizing label with
  | const => simp
  | node index n found low high =>
    intro above earlier
    have later : label < n.label := above n found
    have different : n.label ≠ v := by omega
    have children := valid.ordered index n found
    simp only [valid.value_node found, Assignment.set_other _ _ different,
      low children.1 (by omega), high children.2 (by omega)]

theorem above_node (found : d.nodes[index]? = some n) (before : label < n.label) :
    d.Above label (.node index) := by
  intro m located
  obtain rfl : n = m := Option.some.inj (found.symm.trans located)
  exact before

/-- Variables before the label of a node do not matter to it. -/
theorem Valid.ignores_before_root (valid : d.Valid) (found : d.nodes[index]? = some n)
    (early : v < n.label) : Ignores (d.value · (.node index)) v :=
  valid.ignores_of_above (holds_of_getElem? found) (above_node found early) (Nat.le_refl v)

/-- Variables up to the label of a node do not matter to its children. -/
theorem Valid.ignores_below_root (valid : d.Valid) (found : d.nodes[index]? = some n)
    (early : v ≤ n.label) : Ignores (d.value · n.low) v ∧ Ignores (d.value · n.high) v :=
  have children := valid.holds_children found
  have above := valid.ordered index n found
  ⟨valid.ignores_of_above children.1 above.1 early,
    valid.ignores_of_above children.2 above.2 early⟩

theorem Valid.ignores_root_label (valid : d.Valid) (found : d.nodes[index]? = some n) :
    Ignores (d.value · n.low) n.label ∧ Ignores (d.value · n.high) n.label :=
  valid.ignores_below_root found (Nat.le_refl _)

/-- The halves of a function are found by setting its first label. -/
theorem Valid.value_children (valid : d.Valid) (found : d.nodes[index]? = some n)
    (σ : Assignment) :
    d.value σ n.low = d.value (σ.set n.label false) (.node index) ∧
      d.value σ n.high = d.value (σ.set n.label true) (.node index) := by
  have ignored := valid.ignores_root_label found
  simp only [valid.value_node found, Assignment.set_same, Bool.false_eq_true, ↓reduceIte]
  exact ⟨(ignored.1 σ false).symm, (ignored.2 σ true).symm⟩

theorem Valid.index_unique (valid : d.Valid) (first : d.nodes[index]? = some n)
    (second : d.nodes[other]? = some n) : index = other := by
  have located := (valid.unique_eq index n).mpr first
  rw [(valid.unique_eq other n).mpr second] at located
  exact (Option.some.inj located).symm

/-- A decision node whose function does not look at its label has equal children. -/
private theorem Valid.not_ignores_label (valid : d.Valid) (found : d.nodes[index]? = some n)
    (determined : (∀ σ, d.value σ n.low = d.value σ n.high) → n.low = n.high) :
    ¬ Ignores (d.value · (.node index)) n.label := by
  intro ignored
  apply valid.reduced index n found
  apply determined
  intro σ
  have halves := valid.value_children found σ
  rw [halves.1, halves.2]
  exact (ignored σ false).trans (ignored σ true).symm

/-- Nodes with one label and one function are one, if their children are determined. -/
private theorem Valid.index_eq_of_label (valid : d.Valid) {m : Node}
    (foundF : d.nodes[index]? = some n) (foundG : d.nodes[other]? = some m)
    (label : n.label = m.label) (same : ∀ σ, d.value σ (.node index) = d.value σ (.node other))
    (lows : (∀ σ, d.value σ n.low = d.value σ m.low) → n.low = m.low)
    (highs : (∀ σ, d.value σ n.high = d.value σ m.high) → n.high = m.high) : index = other := by
  have halves (σ : Assignment) : d.value σ n.low = d.value σ m.low ∧
      d.value σ n.high = d.value σ m.high := by
    have left := valid.value_children foundF σ
    have right := valid.value_children foundG σ
    rw [label] at left
    exact ⟨left.1.trans ((same _).trans right.1.symm), left.2.trans ((same _).trans right.2.symm)⟩
  have low := lows fun σ => (halves σ).1
  have high := highs fun σ => (halves σ).2
  obtain rfl : n = m := by
    cases n
    cases m
    simp_all
  exact valid.index_unique foundF foundG

/-- Handles with one function are equal, by induction on their heights: the earlier of two labels
at their roots is one that the other function does not look at. -/
private theorem Valid.unique_below (valid : d.Valid) (bound : Nat) :
    ∀ f g, f.height ≤ bound → g.height ≤ bound → d.Holds f → d.Holds g →
      (∀ σ, d.value σ f = d.value σ g) → f = g := by
  induction bound with
  | zero =>
    intro f g low lowG _ _ same
    cases f <;> cases g <;> simp_all [Handle.height]
  | succ bound ih =>
    have decides {index : Nat} {n : Node} (found : d.nodes[index]? = some n)
        (small : index + 1 ≤ bound + 1) {h : Handle}
        (same : ∀ σ, d.value σ (.node index) = d.value σ h) : ¬ Ignores (d.value · h) n.label := by
      have bounds := valid.children_le index n found
      have children := valid.holds_children found
      have looks := valid.not_ignores_label found
        (ih n.low n.high (by omega) (by omega) children.1 children.2)
      rwa [funext same] at looks
    have constant (value : Bool) (v : Nat) : Ignores (d.value · (.const value)) v := by
      intro σ _
      simp only [value_const]
    intro f g smallF smallG holdsF holdsG same
    cases f with
    | const value =>
      cases g with
      | const other => simpa using same fun _ => false
      | node j =>
        obtain ⟨m, foundG⟩ := exists_getElem? holdsG
        exact absurd (constant value _) (decides foundG smallG fun σ => (same σ).symm)
    | node i =>
      obtain ⟨n, foundF⟩ := exists_getElem? holdsF
      have decidesF := decides foundF smallF same
      cases g with
      | const other => exact absurd (constant other _) decidesF
      | node j =>
        obtain ⟨m, foundG⟩ := exists_getElem? holdsG
        have decidesG := decides foundG smallG fun σ => (same σ).symm
        rcases Nat.lt_trichotomy n.label m.label with before | label | after
        · exact absurd (valid.ignores_before_root foundG before) decidesF
        · have boundsF := valid.children_le i n foundF
          have boundsG := valid.children_le j m foundG
          have childrenF := valid.holds_children foundF
          have childrenG := valid.holds_children foundG
          simp only [Handle.height] at smallF smallG
          rw [valid.index_eq_of_label foundF foundG label same
            (ih _ _ (by omega) (by omega) childrenF.1 childrenG.1)
            (ih _ _ (by omega) (by omega) childrenF.2 childrenG.2)]
        · exact absurd (valid.ignores_before_root foundF after) decidesG

/-- Handles with the same function are equal. -/
theorem Valid.eq_of_value_eq (valid : d.Valid) (holdsF : d.Holds f) (holdsG : d.Holds g)
    (same : ∀ σ, d.value σ f = d.value σ g) : f = g :=
  valid.unique_below (max f.height g.height) f g (Nat.le_max_left ..) (Nat.le_max_right ..)
    holdsF holdsG same

theorem Valid.not_ignores_root (valid : d.Valid) (found : d.nodes[index]? = some n) :
    ¬ Ignores (d.value · (.node index)) n.label :=
  have children := valid.holds_children found
  valid.not_ignores_label found (valid.eq_of_value_eq children.1 children.2)

theorem Valid.above_of_ignores (valid : d.Valid)
    (ignored : ∀ v, v ≤ label → Ignores (d.value · f) v) : d.Above label f := by
  intro n found
  cases f with
  | const value => simp at found
  | node index =>
    refine Nat.lt_of_not_le fun early => ?_
    exact valid.not_ignores_root found (ignored n.label early)

theorem Valid.exists_value (valid : d.Valid) (holds : d.Holds f) (value : Bool)
    (different : f ≠ .const !value) : ∃ σ, d.value σ f = value := by
  refine Classical.byContradiction fun none => different ?_
  apply valid.eq_of_value_eq holds (holds_const d _)
  intro σ
  rw [value_const]
  exact Bool.eq_not_of_ne fun reached => none ⟨σ, reached⟩

/-- The later diagram has all nodes of the earlier one, under the same indices. -/
structure Grows (d e : Diagram) : Prop where
  limit_eq : e.limit = d.limit
  kept : ∀ (index : Nat) (n : Node), d.nodes[index]? = some n → e.nodes[index]? = some n

theorem Grows.refl (d : Diagram) : d.Grows d :=
  ⟨rfl, fun _ _ found => found⟩

theorem Grows.trans {d e h : Diagram} (first : d.Grows e) (second : e.Grows h) : d.Grows h :=
  ⟨second.limit_eq.trans first.limit_eq,
    fun index n found => second.kept index n (first.kept index n found)⟩

variable {e : Diagram}

theorem Grows.holds (grows : d.Grows e) (holds : d.Holds f) : e.Holds f := by
  cases f with
  | const value => exact holds_const e value
  | node index =>
    obtain ⟨n, found⟩ := exists_getElem? holds
    exact holds_of_getElem? (grows.kept index n found)

theorem Grows.node?_eq (grows : d.Grows e) (holds : d.Holds f) : e.node? f = d.node? f := by
  cases f with
  | const value => rfl
  | node index =>
    obtain ⟨n, found⟩ := exists_getElem? holds
    simp only [node?_node, found, grows.kept index n found]

theorem Grows.above (grows : d.Grows e) (holds : d.Holds f) (above : d.Above label f) :
    e.Above label f := by
  intro n found
  exact above n (grows.node?_eq holds ▸ found)

/-- Growth does not change the functions of handles. -/
theorem Grows.value_eq (grows : d.Grows e) (valid : d.Valid) (holds : d.Holds f)
    (σ : Assignment) : e.value σ f = d.value σ f := by
  have within (bound : Nat) : ∀ f, d.Holds f →
      e.valueWithin σ bound f = d.valueWithin σ bound f := by
    induction bound with
    | zero =>
      intro f _
      cases f <;> rfl
    | succ bound ih =>
      intro f holds
      cases f with
      | const value => rfl
      | node index =>
        obtain ⟨n, found⟩ := exists_getElem? holds
        have children := valid.holds_children found
        simp only [valueWithin, found, grows.kept index n found]
        split
        · exact ih _ children.2
        · exact ih _ children.1
  exact within f.height f holds

end QuantCircuit.Diagram
