import QuantCircuit.Proofs.Diagram.Building

namespace QuantCircuit

namespace Selection

/-- The selection is over handles of the diagram. -/
def Within (s : Selection) (d : Diagram) : Prop :=
  d.Holds s.test ∧ d.Holds s.yes ∧ d.Holds s.no

def value (s : Selection) (d : Diagram) (σ : Assignment) : Bool :=
  if d.value σ s.test then d.value σ s.yes else d.value σ s.no

variable {s : Selection} {d : Diagram} {f : Handle}

theorem direct?_value (direct : s.direct? = some f) (σ : Assignment) :
    d.value σ f = s.value d σ := by
  unfold direct? at direct
  split at direct
  · obtain rfl := Option.some.inj direct
    simp [value, ‹s.test = _›]
  split at direct
  · obtain rfl := Option.some.inj direct
    simp [value, ‹s.test = _›]
  split at direct
  · obtain rfl := Option.some.inj direct
    simp [value, ← ‹s.yes = s.no›]
  split at direct
  · obtain rfl := Option.some.inj direct
    obtain ⟨yes, no⟩ := ‹s.yes = _ ∧ s.no = _›
    simp [value, yes, no]
  · simp at direct

theorem direct?_holds (direct : s.direct? = some f) (within : s.Within d) : d.Holds f := by
  obtain ⟨test, yes, no⟩ := within
  unfold direct? at direct
  split at direct
  · exact Option.some.inj direct ▸ yes
  split at direct
  · exact Option.some.inj direct ▸ no
  split at direct
  · exact Option.some.inj direct ▸ yes
  split at direct
  · exact Option.some.inj direct ▸ test
  · simp at direct

theorem test_of_not_direct (undecided : s.direct? = none) : ∃ index, s.test = .node index := by
  unfold direct? at undecided
  cases test : s.test with
  | node index => exact ⟨index, rfl⟩
  | const value => cases value <;> simp [test] at undecided

end Selection

namespace Diagram

variable {d e : Diagram} {f g : Handle} {s : Selection} {label : Nat}

/-- No decision at the root of the handle comes before the label. -/
def From (d : Diagram) (label : Nat) (f : Handle) : Prop :=
  ∀ n : Node, d.node? f = some n → label ≤ n.label

theorem cofactor_value (valid : d.Valid) (holds : d.Holds f) (first : d.From label f)
    (value : Bool) (σ : Assignment) :
    d.value σ (d.cofactor label value f) = d.value (σ.set label value) f := by
  cases f with
  | const other => simp [cofactor]
  | node index =>
    obtain ⟨n, found⟩ := exists_getElem? holds
    by_cases same : n.label = label
    · subst label
      have children := valid.value_children found σ
      cases value
      · simpa [cofactor, found] using children.1
      · simpa [cofactor, found] using children.2
    · have later : label < n.label := Nat.lt_of_le_of_ne (first n found) (Ne.symm same)
      simpa [cofactor, found, same] using (valid.ignores_before_root found later σ value).symm

theorem cofactor_cases (d : Diagram) (label : Nat) (value : Bool) (f : Handle) :
    d.cofactor label value f = f ∨ ∃ n, d.node? f = some n ∧ n.label = label ∧
      d.cofactor label value f = if value then n.high else n.low := by
  cases found : d.node? f with
  | none => exact .inl (by simp [cofactor, found])
  | some n =>
    by_cases same : n.label = label
    · exact .inr ⟨n, rfl, same, by simp [cofactor, found, same]⟩
    · exact .inl (by simp [cofactor, found, same])

theorem Valid.height_lt (valid : d.Valid) {n : Node} (found : d.node? f = some n) :
    n.low.height < f.height ∧ n.high.height < f.height := by
  cases f with
  | const value => simp at found
  | node index =>
    have bounds := valid.children_le index n found
    exact ⟨Nat.lt_succ_of_le bounds.1, Nat.lt_succ_of_le bounds.2⟩

theorem cofactor_holds (valid : d.Valid) (holds : d.Holds f) (value : Bool) :
    d.Holds (d.cofactor label value f) := by
  rcases d.cofactor_cases label value f with same | ⟨n, found, _, child⟩
  · rw [same]
    exact holds
  · have lower := valid.height_lt found
    unfold Holds at *
    rw [child]
    cases value <;> simp only [Bool.false_eq_true, ↓reduceIte] <;> omega

theorem cofactor_height (valid : d.Valid) (label : Nat) (f : Handle) (value : Bool) :
    (d.cofactor label value f).height ≤ f.height := by
  rcases d.cofactor_cases label value f with same | ⟨n, found, _, child⟩
  · exact Nat.le_of_eq (congrArg Handle.height same)
  · have lower := valid.height_lt found
    rw [child]
    cases value <;> simp only [Bool.false_eq_true, ↓reduceIte] <;> omega

theorem cofactor_height_lt (valid : d.Valid) {n : Node} (found : d.node? f = some n)
    (value : Bool) : (d.cofactor n.label value f).height < f.height := by
  have lower := valid.height_lt found
  have child : d.cofactor n.label value f = if value then n.high else n.low := by
    simp [cofactor, found]
  rw [child]
  cases value
  · exact lower.1
  · exact lower.2

/-- The first label is tested at the root of one of the functions, and no root comes
before it. -/
theorem topLabel?_eq_some {functions : List Handle} (top : d.topLabel? functions = some label) :
    (∃ f ∈ functions, ∃ n, d.node? f = some n ∧ n.label = label) ∧
      ∀ f ∈ functions, d.From label f := by
  obtain ⟨member, least⟩ := List.min?_eq_some_iff.mp top
  constructor
  · obtain ⟨n, present, same⟩ := List.mem_map.mp member
    obtain ⟨f, listed, found⟩ := List.mem_filterMap.mp present
    exact ⟨f, listed, n, found, same⟩
  · intro f listed n found
    exact least n.label (List.mem_map.mpr ⟨n, List.mem_filterMap.mpr ⟨f, listed, found⟩, rfl⟩)

theorem topLabel?_isSome {functions : List Handle} {index : Nat}
    (member : .node index ∈ functions) (holds : d.Holds (.node index)) :
    ∃ label, d.topLabel? functions = some label := by
  obtain ⟨n, found⟩ := exists_getElem? holds
  cases top : d.topLabel? functions with
  | some label => exact ⟨label, rfl⟩
  | none =>
    have nothing := List.min?_eq_none_iff.mp top
    rw [List.map_eq_nil_iff, List.filterMap_eq_nil_iff] at nothing
    have absent := nothing _ member
    simp [found] at absent

/-- The two halves of a selection that is split at its first label. -/
theorem cofactors_spec (valid : d.Valid) (within : s.Within d)
    (top : d.topLabel? [s.test, s.yes, s.no] = some label) (value : Bool) :
    (d.cofactors label value s).Within d ∧ (d.cofactors label value s).height < s.height ∧
      ∀ σ, (d.cofactors label value s).value d σ = s.value d (σ.set label value) := by
  obtain ⟨test, yes, no⟩ := within
  obtain ⟨⟨f, listed, n, found, root⟩, first⟩ := topLabel?_eq_some top
  refine ⟨⟨cofactor_holds valid test value, cofactor_holds valid yes value,
    cofactor_holds valid no value⟩, ?_, ?_⟩
  · have lower := cofactor_height_lt valid found value
    have lowTest := cofactor_height valid n.label s.test value
    have lowYes := cofactor_height valid n.label s.yes value
    have lowNo := cofactor_height valid n.label s.no value
    simp only [List.mem_cons, List.not_mem_nil, or_false] at listed
    simp only [Selection.height, cofactors, ← root]
    rcases listed with rfl | rfl | rfl <;> omega
  · intro σ
    simp only [Selection.value, cofactors, cofactor_value valid test (first _ (by simp)),
      cofactor_value valid yes (first _ (by simp)), cofactor_value valid no (first _ (by simp))]

theorem ignores_value (valid : d.Valid) (within : s.Within d)
    (first : ∀ f ∈ [s.test, s.yes, s.no], d.From label f) (early : v < label) :
    Ignores (s.value d) v := by
  have ignored (f : Handle) (holds : d.Holds f) (start : d.From label f) :
      Ignores (d.value · f) v := by
    have above : d.Above v f := fun n found => Nat.lt_of_lt_of_le early (start n found)
    exact valid.ignores_of_above holds above (Nat.le_refl _)
  intro σ value
  simp only [Selection.value, ignored _ within.1 (first _ (by simp)) σ value,
    ignored _ within.2.1 (first _ (by simp)) σ value,
    ignored _ within.2.2 (first _ (by simp)) σ value]

/-- The halves of a selection have its first label fixed, so they look at later ones only. -/
theorem above_of_half (valid : d.Valid) (within : s.Within d)
    (first : ∀ f ∈ [s.test, s.yes, s.no], d.From label f) (validLater : e.Valid) (value : Bool)
    (half : ∀ σ : Assignment, e.value σ f = s.value d (σ.set label value)) : e.Above label f := by
  apply validLater.above_of_ignores
  intro v early σ other
  simp only [half]
  by_cases same : v = label
  · rw [same, Assignment.set_set]
  · rw [Assignment.set_comm _ _ _ same]
    exact ignores_value valid within first (by omega) _ _

theorem Grows.within (grows : d.Grows e) (within : s.Within d) : s.Within e :=
  ⟨grows.holds within.1, grows.holds within.2.1, grows.holds within.2.2⟩

theorem Grows.selection_value (grows : d.Grows e) (valid : d.Valid) (within : s.Within d)
    (σ : Assignment) : s.value e σ = s.value d σ := by
  simp only [Selection.value, grows.value_eq valid within.1, grows.value_eq valid within.2.1,
    grows.value_eq valid within.2.2]

/-- Handles for the halves of a selection at its first label, ready to be shared. -/
structure Divides (d e : Diagram) (s : Selection) (label : Nat) (low high : Handle) : Prop where
  holdsLow : e.Holds low
  holdsHigh : e.Holds high
  aboveLow : e.Above label low
  aboveHigh : e.Above label high
  joins : ∀ σ, (if σ label then e.value σ high else e.value σ low) = s.value d σ

/-- Selecting in one half after the other gives the halves. -/
theorem divides_of_selected {d₁ d₂ : Diagram} {low high : Handle} (valid : d.Valid)
    (within : s.Within d) (top : d.topLabel? [s.test, s.yes, s.no] = some label)
    (valid₁ : d₁.Valid) (grows₁ : d.Grows d₁) (valid₂ : d₂.Valid) (grows₂ : d₁.Grows d₂)
    (lows : d₁.Holds low ∧ ∀ σ, d₁.value σ low = (d.cofactors label false s).value d σ)
    (highs : d₂.Holds high ∧ ∀ σ, d₂.value σ high = (d.cofactors label true s).value d₁ σ) :
    Divides d d₂ s label low high := by
  have first := (topLabel?_eq_some top).2
  have split := cofactors_spec valid within top
  have valueLow (σ : Assignment) : d₂.value σ low = s.value d (σ.set label false) := by
    rw [grows₂.value_eq valid₁ lows.1, lows.2, (split false).2.2]
  have valueHigh (σ : Assignment) : d₂.value σ high = s.value d (σ.set label true) := by
    rw [highs.2, grows₁.selection_value valid (split true).1, (split true).2.2]
  refine ⟨grows₂.holds lows.1, highs.1, above_of_half valid within first valid₂ false valueLow,
    above_of_half valid within first valid₂ true valueHigh, fun σ => ?_⟩
  rw [valueLow, valueHigh]
  exact Assignment.ite_set (s.value d) σ label

theorem builds_remember (valid : d.Valid) (within : s.Within d) (holds : d.Holds f)
    (same : ∀ σ, d.value σ f = s.value d σ) : Builds (remember s f) d fun _ _ => True := by
  have grows : d.Grows { d with selections := d.selections.insert s f } :=
    ⟨rfl, fun _ _ found => found⟩
  refine ⟨?_, grows, trivial⟩
  refine ⟨valid.children_le, valid.ordered, valid.reduced, valid.unique_eq, ?_, valid.size_le⟩
  intro r g found
  have kept : r.Within d ∧ d.Holds g ∧ ∀ σ, d.value σ g = r.value d σ := by
    simp only [Std.TreeMap.getElem?_insert, Std.LawfulEqCmp.compare_eq_iff_eq] at found
    split at found
    · subst r
      obtain rfl := Option.some.inj found
      exact ⟨within, holds, same⟩
    · obtain ⟨test, yes, no, result, right⟩ := valid.selections_eq r g found
      exact ⟨⟨test, yes, no⟩, result, right⟩
  obtain ⟨inside, result, right⟩ := kept
  refine ⟨inside.1, inside.2.1, inside.2.2, result, fun σ => ?_⟩
  rw [grows.value_eq valid result, right]
  exact (grows.selection_value valid inside σ).symm

theorem builds_selectWithin (bound : Nat) (valid : d.Valid) (within : s.Within d)
    (enough : s.height ≤ bound) :
    Builds (selectWithin bound s) d fun f e => e.Holds f ∧ ∀ σ, e.value σ f = s.value d σ := by
  induction bound generalizing d s with
  | zero =>
    cases direct : s.direct? with
    | some f =>
      rw [selectWithin, direct]
      exact builds_pure valid
        ⟨Selection.direct?_holds direct within, Selection.direct?_value direct⟩
    | none =>
      obtain ⟨index, test⟩ := Selection.test_of_not_direct direct
      simp [Selection.height, test, Handle.height] at enough
  | succ bound ih =>
    rw [selectWithin]
    cases direct : s.direct? with
    | some f =>
      exact builds_pure valid
        ⟨Selection.direct?_holds direct within, Selection.direct?_value direct⟩
    | none =>
      refine Ensures.get ?_
      cases known : d.selections[s]? with
      | some f =>
        obtain ⟨_, _, _, holds, same⟩ := valid.selections_eq s f known
        exact builds_pure valid ⟨holds, same⟩
      | none =>
        obtain ⟨index, test⟩ := Selection.test_of_not_direct direct
        have tested : .node index ∈ [s.test, s.yes, s.no] := by simp [test]
        obtain ⟨label, top⟩ := topLabel?_isSome tested (test ▸ within.1)
        have halves := cofactors_spec valid within top
        have lower (value : Bool) : (d.cofactors label value s).height ≤ bound :=
          Nat.le_of_lt_succ (Nat.lt_of_lt_of_le (halves value).2.1 enough)
        simp only [split?, top, Option.map_some]
        refine Builds.bind (ih valid (halves false).1 (lower false)) ?_
        intro low d₁ valid₁ grows₁ lows
        refine Builds.bind (ih valid₁ (grows₁.within (halves true).1) (lower true)) ?_
        intro high d₂ valid₂ grows₂ highs
        have halved := divides_of_selected valid within top valid₁ grows₁ valid₂ grows₂ lows highs
        refine Builds.bind (builds_share valid₂ halved.holdsLow halved.holdsHigh halved.aboveLow
          halved.aboveHigh) ?_
        rintro f d₃ valid₃ grows₃ ⟨holds, value⟩
        have grows : d.Grows d₃ := grows₁.trans (grows₂.trans grows₃)
        have spec (σ : Assignment) : d₃.value σ f = s.value d σ := (value σ).trans (halved.joins σ)
        refine Builds.bind (builds_remember valid₃ (grows.within within) holds ?_) ?_
        · intro σ
          rw [spec, grows.selection_value valid within]
        · rintro _ d₄ valid₄ grows₄ _
          refine builds_pure valid₄ ⟨grows₄.holds holds, fun σ => ?_⟩
          rw [grows₄.value_eq valid₃ holds, spec]

/-- Selection is right. -/
theorem builds_select (valid : d.Valid) {test yes no : Handle} (holdsTest : d.Holds test)
    (holdsYes : d.Holds yes) (holdsNo : d.Holds no) :
    Builds (select test yes no) d fun f e => e.Holds f ∧
      ∀ σ, e.value σ f = if d.value σ test then d.value σ yes else d.value σ no :=
  builds_selectWithin _ valid ⟨holdsTest, holdsYes, holdsNo⟩ (Nat.le_refl _)

theorem builds_not (valid : d.Valid) (holds : d.Holds f) :
    Builds (not f) d fun r e => e.Holds r ∧ ∀ σ, e.value σ r = !d.value σ f := by
  refine (builds_select valid holds (holds_const d _) (holds_const d _)).mono ?_
  rintro r e _ _ ⟨holds, value⟩
  refine ⟨holds, fun σ => ?_⟩
  cases same : d.value σ f <;> simp [value, same]

theorem builds_and (valid : d.Valid) (holdsF : d.Holds f) (holdsG : d.Holds g) :
    Builds (and f g) d fun r e => e.Holds r ∧ ∀ σ, e.value σ r = (d.value σ f && d.value σ g) := by
  refine (builds_select valid holdsF holdsG (holds_const d _)).mono ?_
  rintro r e _ _ ⟨holds, value⟩
  refine ⟨holds, fun σ => ?_⟩
  cases same : d.value σ f <;> simp [value, same]

theorem builds_or (valid : d.Valid) (holdsF : d.Holds f) (holdsG : d.Holds g) :
    Builds (or f g) d fun r e => e.Holds r ∧ ∀ σ, e.value σ r = (d.value σ f || d.value σ g) := by
  refine (builds_select valid holdsF (holds_const d _) holdsG).mono ?_
  rintro r e _ _ ⟨holds, value⟩
  refine ⟨holds, fun σ => ?_⟩
  cases same : d.value σ f <;> simp [value, same]

end Diagram

end QuantCircuit
