import Mathlib.Data.Fintype.Sum
import QuantCircuit.Proofs.Diagram.Matching

/-! Which functions a table holds. With two tables for comparison this bounds the size of a third
one. The nodes that a selection or a restriction makes lie below its result. -/

namespace QuantCircuit.Diagram

variable {α β : Type} {d e r root : Diagram} {f g h : Handle} {n : Node} {s : Selection}
variable {index : Nat}

/-- Functions that a table may hold. -/
abbrev Stock := (Assignment → Bool) → Prop

/-- With a function its halves are in stock. -/
def Closed (stock : Stock) : Prop :=
  ∀ p, stock p → ∀ v, (∀ w, w < v → Ignores p w) → ∀ value, stock fun σ => p (σ.set v value)

/-- All functions of the table are in stock. -/
def Within (d : Diagram) (stock : Stock) : Prop :=
  ∀ f, d.Holds f → stock (d.value · f)

/-- The table has the function. -/
def Provides (d : Diagram) : Stock := fun p =>
  ∃ f, d.Holds f ∧ ∀ σ, d.value σ f = p σ

variable {stock : Stock} {p : Assignment → Bool}

/-- Whether a function is in stock depends on its values only. -/
theorem stock_congr {q : Assignment → Bool} (member : stock p) (same : ∀ σ, q σ = p σ) : stock q :=
  funext same ▸ member

theorem provides_value (holds : d.Holds f) : d.Provides (d.value · f) :=
  ⟨f, holds, fun _ => rfl⟩

theorem Provides.grows (provides : d.Provides p) (valid : d.Valid) (grows : d.Grows e) :
    e.Provides p := by
  obtain ⟨f, holds, value⟩ := provides
  exact ⟨f, grows.holds holds, fun σ => (grows.value_eq valid holds σ).trans (value σ)⟩

theorem Within.provides (within : d.Within stock) (provides : d.Provides p) : stock p := by
  obtain ⟨f, holds, value⟩ := provides
  exact stock_congr (within f holds) fun σ => (value σ).symm

theorem Within.mono {more : Stock} (within : d.Within stock) (fewer : ∀ p, stock p → more p) :
    d.Within more :=
  fun f holds => fewer _ (within f holds)

theorem Within.of_grows (within : e.Within stock) (valid : d.Valid) (grows : d.Grows e) :
    d.Within stock :=
  fun _ holds => within.provides ((provides_value holds).grows valid grows)

theorem within_provides (d : Diagram) : d.Within d.Provides :=
  fun _ holds => provides_value holds

theorem closed_provides (valid : d.Valid) : Closed d.Provides := by
  intro p provides v first value
  obtain ⟨f, holds, same⟩ := provides
  have equal : (d.value · f) = p := funext same
  have start : d.From v f := by
    intro n found
    cases f with
    | const other => simp at found
    | node index =>
      refine Nat.le_of_not_lt fun early => ?_
      exact valid.not_ignores_root found (equal ▸ first n.label early)
  refine ⟨d.cofactor v value f, cofactor_holds valid holds value, fun σ => ?_⟩
  rw [cofactor_value valid holds start, same]

theorem Closed.or {more : Stock} (closed : Closed stock) (other : Closed more) :
    Closed fun p => stock p ∨ more p := by
  intro p member v first value
  rcases member with left | right
  · exact .inl (closed p left v first value)
  · exact .inr (other p right v first value)

/-- With what is wanted of a node, what is wanted of its children is in stock. -/
theorem Closed.splits {want : Handle → Assignment → Bool} (closed : Closed stock)
    (splits : Splits want index n) (member : stock (want (.node index))) :
    stock (want n.low) ∧ stock (want n.high) := by
  have blind (v : Nat) (early : v < n.label) : Ignores (want (.node index)) v := by
    have ignored := splits.ignored v (Nat.le_of_lt early)
    intro σ value
    simp only [splits.decided, Assignment.set_other _ _ (Nat.ne_of_gt early), ignored.1 σ value,
      ignored.2 σ value]
  have half := closed _ member n.label blind
  have ignored := splits.ignored n.label (Nat.le_refl _)
  constructor
  · apply stock_congr (half false)
    intro σ
    simp only [splits.decided, Assignment.set_same, Bool.false_eq_true, ↓reduceIte,
      ignored.1 σ false]
  · apply stock_congr (half true)
    intro σ
    simp only [splits.decided, Assignment.set_same, ↓reduceIte, ignored.2 σ true]

theorem Closed.children (closed : Closed stock) (valid : d.Valid)
    (found : d.nodes[index]? = some n) (member : stock (d.value · (.node index))) :
    stock (d.value · n.low) ∧ stock (d.value · n.high) :=
  closed.splits (valid.splits found) member

/-- A table with functions of two tables only has no more nodes than these together. -/
theorem Within.size_le (within : d.Within fun p => r.Provides p ∨ e.Provides p)
    (valid : d.Valid) : d.size ≤ r.size + e.size := by
  have placed (i : Fin d.size) : ∃ place : Fin r.size ⊕ Fin e.size,
      place.elim (fun j : Fin r.size => ∀ σ, r.value σ (.node j) = d.value σ (.node i))
        fun j : Fin e.size => ∀ σ, e.value σ (.node j) = d.value σ (.node i) := by
    have holds : d.Holds (.node i) := i.isLt
    obtain ⟨n, found⟩ := exists_getElem? holds
    have isNode {t : Diagram} (provides : t.Provides (d.value · (.node i))) :
        ∃ j : Fin t.size, ∀ σ, t.value σ (.node j) = d.value σ (.node i) := by
      obtain ⟨g, held, same⟩ := provides
      cases g with
      | node j => exact ⟨⟨j, held⟩, same⟩
      | const value =>
        refine absurd ?_ (valid.not_ignores_root found)
        intro σ other
        rw [← same, ← same, value_const, value_const]
    rcases within _ holds with left | right
    · obtain ⟨j, same⟩ := isNode left
      exact ⟨.inl j, same⟩
    · obtain ⟨j, same⟩ := isNode right
      exact ⟨.inr j, same⟩
  choose place spec using placed
  have injective : Function.Injective place := by
    intro i j same
    have specI := spec i
    have specJ := spec j
    rw [same] at specI
    have holds (i : Fin d.size) : d.Holds (.node i) := i.isLt
    have equal : Handle.node (i : Nat) = .node j := by
      apply valid.eq_of_value_eq (holds i) (holds j)
      intro σ
      cases there : place j with
      | inl k =>
        rw [there] at specI specJ
        exact (specI σ).symm.trans (specJ σ)
      | inr k =>
        rw [there] at specI specJ
        exact (specI σ).symm.trans (specJ σ)
    exact Fin.ext (Handle.node.inj equal)
  simpa using Fintype.card_le_of_injective place injective

/-- If the table held functions in stock only, it still does when the work has succeeded. -/
def Leaves (stock : Stock) (work : Build α) (d : Diagram) : Prop :=
  Ensures work d (fun _ e => e.Within stock) fun _ _ => True

theorem Leaves.bind {work : Build α} {next : α → Build β} {mid : α → Diagram → Prop}
    (leaves : Leaves stock work d) (builds : Builds work d mid)
    (rest : ∀ a e, e.Valid → d.Grows e → mid a e → e.Within stock → Leaves stock (next a) e) :
    Leaves stock (work >>= next) d := by
  refine Ensures.bind (Ensures.mono_fail (Ensures.and builds leaves) fun _ _ _ => True.intro) ?_
  intro a e facts
  obtain ⟨⟨valid, grows, reached⟩, within⟩ := facts
  exact rest a e valid grows reached within

/-- Sharing finds the handle, or makes one node. -/
theorem share_cases (n : Node) (d : Diagram) :
    Ensures (share n) d
      (fun f e => e = d ∨ e = d.withNode n ∧ f = .node d.nodes.size)
      fun _ _ => True := by
  unfold Ensures share
  by_cases equal : n.low = n.high
  · rw [if_pos equal]
    exact .inl rfl
  · rw [if_neg equal]
    cases d.unique[n]? with
    | some index => exact .inl rfl
    | none =>
      dsimp only
      by_cases full : d.limit ≤ d.nodes.size
      · rw [if_pos full]
        exact True.intro
      · rw [if_neg full]
        exact .inr ⟨rfl, rfl⟩

/-- A shared node adds its own function at most. -/
theorem leaves_share (valid : d.Valid) (low : d.Holds n.low) (high : d.Holds n.high)
    (aboveLow : d.Above n.label n.low) (aboveHigh : d.Above n.label n.high)
    (within : d.Within stock)
    (member : stock fun σ => if σ n.label then d.value σ n.high else d.value σ n.low) :
    Leaves stock (share n) d := by
  refine Ensures.mono ((builds_share valid low high aboveLow aboveHigh).and (share_cases n d)) ?_
    fun _ _ _ => True.intro
  rintro f e ⟨⟨validLater, grows, holds, value⟩, rfl | ⟨rfl, rfl⟩⟩
  · exact within
  · intro g held
    rcases Nat.lt_or_ge d.nodes.size g.height with last | old
    · have size : (d.withNode n).nodes.size = d.nodes.size + 1 := by simp [Diagram.withNode]
      have tall : g.height = d.nodes.size + 1 := by
        unfold Holds at held
        omega
      cases g with
      | const other => simp [Handle.height] at tall
      | node place =>
        obtain rfl : place = d.nodes.size := Nat.succ.inj tall
        exact stock_congr member value
    · exact stock_congr (within g old) (grows.value_eq valid old)

/-- A node shared for what is wanted adds just that. -/
theorem leaves_share_wanted {want : Handle → Assignment → Bool} {low high : Handle}
    (valid : d.Valid) (supplies : Supplies want d n low high) (splits : Splits want index n)
    (within : d.Within stock) (member : stock (want (.node index))) :
    Leaves stock (share ⟨n.label, low, high⟩) d := by
  have above := supplies.above valid splits
  exact leaves_share valid supplies.holdsLow supplies.holdsHigh above.1 above.2 within
    (stock_congr member (supplies.joins splits))

theorem Within.remember (within : d.Within stock) (valid : d.Valid) (s : Selection) (f : Handle) :
    Leaves stock (do Diagram.remember s f; pure f) d := by
  have grows : d.Grows { d with selections := d.selections.insert s f } :=
    ⟨rfl, fun _ _ found => found⟩
  intro g held
  exact stock_congr (within g held) (grows.value_eq valid held)

theorem leaves_selectWithin (closed : Closed stock) (bound : Nat) (valid : d.Valid)
    (inside : s.Within d) (enough : s.height ≤ bound) (within : d.Within stock)
    (member : stock (s.value d)) : Leaves stock (selectWithin bound s) d := by
  induction bound generalizing d s with
  | zero => exact within
  | succ bound ih =>
    rw [selectWithin]
    cases direct : s.direct? with
    | some f => exact within
    | none =>
      refine Ensures.get ?_
      cases d.selections[s]? with
      | some f => exact within
      | none =>
        obtain ⟨index, test⟩ := Selection.test_of_not_direct direct
        have tested : .node index ∈ [s.test, s.yes, s.no] := by simp [test]
        obtain ⟨label, top⟩ := topLabel?_isSome tested (test ▸ inside.1)
        have first := (topLabel?_eq_some top).2
        have halves := cofactors_spec valid inside top
        have half (value : Bool) : stock ((d.cofactors label value s).value d) := by
          have fixed := closed _ member label fun v early => ignores_value valid inside first early
          exact stock_congr (fixed value) (halves value).2.2
        have lower (value : Bool) : (d.cofactors label value s).height ≤ bound :=
          Nat.le_of_lt_succ (Nat.lt_of_lt_of_le (halves value).2.1 enough)
        simp only [split?, top, Option.map_some]
        apply (ih valid (halves false).1 (lower false) within (half false)).bind
          (builds_selectWithin bound valid (halves false).1 (lower false))
        intro low d₁ valid₁ grows₁ lows within₁
        have inside₁ := grows₁.within (halves true).1
        have half₁ : stock ((d.cofactors label true s).value d₁) :=
          stock_congr (half true) (grows₁.selection_value valid (halves true).1)
        apply (ih valid₁ inside₁ (lower true) within₁ half₁).bind
          (builds_selectWithin bound valid₁ inside₁ (lower true))
        intro high d₂ valid₂ grows₂ highs within₂
        have halved := divides_of_selected valid inside top valid₁ grows₁ valid₂ grows₂ lows highs
        apply (leaves_share valid₂ halved.holdsLow halved.holdsHigh halved.aboveLow
          halved.aboveHigh within₂ (stock_congr member halved.joins)).bind
          (builds_share valid₂ halved.holdsLow halved.holdsHigh halved.aboveLow halved.aboveHigh)
        intro f d₃ valid₃ _ _ within₃
        exact within₃.remember valid₃ s f

/-- A selection adds functions below its result only. -/
theorem leaves_select (closed : Closed stock) (valid : d.Valid) {test yes no : Handle}
    (holdsTest : d.Holds test) (holdsYes : d.Holds yes) (holdsNo : d.Holds no)
    (within : d.Within stock)
    (member : stock fun σ => if d.value σ test then d.value σ yes else d.value σ no) :
    Leaves stock (select test yes no) d :=
  leaves_selectWithin closed _ valid ⟨holdsTest, holdsYes, holdsNo⟩ (Nat.le_refl _) within member

section Connectives

variable (closed : Closed stock) (valid : d.Valid) (holdsF : d.Holds f) (within : d.Within stock)

include closed valid holdsF within

theorem leaves_not (member : stock fun σ => !d.value σ f) : Leaves stock (not f) d := by
  apply leaves_select closed valid holdsF (holds_const d _) (holds_const d _) within
  apply stock_congr member
  intro σ
  cases d.value σ f <;> simp

theorem leaves_and (holdsG : d.Holds g) (member : stock fun σ => d.value σ f && d.value σ g) :
    Leaves stock (and f g) d := by
  apply leaves_select closed valid holdsF holdsG (holds_const d _) within
  apply stock_congr member
  intro σ
  cases d.value σ f <;> simp

theorem leaves_or (holdsG : d.Holds g) (member : stock fun σ => d.value σ f || d.value σ g) :
    Leaves stock (or f g) d := by
  apply leaves_select closed valid holdsF (holds_const d _) holdsG within
  apply stock_congr member
  intro σ
  cases d.value σ f <;> simp

end Connectives

section Walking

variable {found : Found}

theorem Leaves.walk_bind {work : StateT Found Build α} {next : α → StateT Found Build β}
    {mid : α × Found → Diagram → Prop} (leaves : Leaves stock (work found) d)
    (builds : Builds (work found) d mid)
    (rest : ∀ a later e, e.Valid → d.Grows e → mid (a, later) e → e.Within stock →
      Leaves stock (next a later) e) : Leaves stock ((work >>= next) found) d :=
  leaves.bind builds fun result e valid grows reached within =>
    rest result.1 result.2 e valid grows reached within

theorem run_walk_lift (work : Build α) (next : α → StateT Found Build β) (found : Found) :
    ((liftM work : StateT Found Build α) >>= next) found = work >>= fun a => next a found := by
  show (work >>= fun a => pure (a, found)) >>= (fun result => next result.1 result.2) = _
  rw [bind_assoc]
  rfl

theorem ensures_walk_bind {work : StateT Found Build α} {next : α → StateT Found Build β}
    {mid : α × Found → Diagram → Prop} {post : β × Found → Diagram → Prop}
    {fail : Error → Diagram → Prop} (first : Ensures (work found) d mid fail)
    (rest : ∀ a later e, mid (a, later) e → Ensures (next a later) e post fail) :
    Ensures ((work >>= next) found) d post fail :=
  Ensures.bind first fun result e reached => rest result.1 result.2 e reached

end Walking

theorem leaves_restrictWithin (closed : Closed stock) (label : Nat) (value : Bool) (bound : Nat)
    {found : Found} (rootValid : root.Valid) (valid : d.Valid) (grows : root.Grows d)
    (holds : root.Holds f) (enough : f.height ≤ bound)
    (recalls : Recalls (fun g σ => root.value (σ.set label value) g) d found)
    (within : d.Within stock) (member : stock fun σ => root.value (σ.set label value) f) :
    Leaves stock (restrictWithin label value bound f found) d := by
  induction bound generalizing d f found with
  | zero => cases f <;> exact within
  | succ bound ih =>
    cases f with
    | const other => exact within
    | node index =>
      obtain ⟨n, located⟩ := exists_getElem? holds
      have children := rootValid.holds_children located
      have bounds := rootValid.children_le index n located
      simp only [Handle.height] at enough
      rw [restrictWithin]
      refine Ensures.get (Ensures.get ?_)
      simp only [grows.kept index n located]
      cases found[index]? with
      | some f => exact within
      | none =>
        dsimp only
        by_cases before : label < n.label
        · rw [if_pos before]
          exact within
        · rw [if_neg before]
          by_cases here : label = n.label
          · rw [if_pos here]
            exact within
          · rw [if_neg here]
            have splits := rootValid.splits_set located here value
            obtain ⟨lowMember, highMember⟩ := closed.splits splits member
            have buildsLow := builds_restrictWithin label value bound rootValid valid grows
              children.1 (by omega) recalls
            have leavesLow := ih valid grows children.1 (by omega) recalls within lowMember
            apply leavesLow.walk_bind buildsLow
            intro low later d₁ valid₁ grows₁ lows within₁
            have below := grows.trans grows₁
            have buildsHigh := builds_restrictWithin label value bound rootValid valid₁ below
              children.2 (by omega) lows.2.2
            have leavesHigh := ih valid₁ below children.2 (by omega) lows.2.2 within₁ highMember
            apply leavesHigh.walk_bind buildsHigh
            intro high last d₂ valid₂ grows₂ highs within₂
            have supplies := supplies_of_finds valid₁ lows grows₂ highs
            have shares := leaves_share_wanted valid₂ supplies splits within₂ member
            rw [run_walk_lift]
            exact Ensures.bind shares fun f d₃ within₃ => within₃

/-- A restriction adds functions below its result only. -/
theorem leaves_restrict (closed : Closed stock) (valid : d.Valid) (holds : d.Holds f)
    (literal : Literal) (within : d.Within stock)
    (member : stock fun σ => d.value (σ.set literal.natAbs (0 < literal)) f) :
    Leaves stock (restrict f literal) d := by
  refine Ensures.bind (leaves_restrictWithin closed literal.natAbs (0 < literal) f.height valid
    valid (.refl d) holds (Nat.le_refl _) (recalls_empty _ d) within member) ?_
  intro result e withinLater
  exact withinLater

/-- A collection leaves what lies below the roots, and the constants. -/
theorem collect_within (closed : Closed stock) (constants : ∀ value, stock fun _ => value)
    (valid : d.Valid) {roots : List Handle}
    (members : ∀ f ∈ roots, stock (d.value · f)) : (d.collect roots).2.Within stock := by
  obtain ⟨sized, marks, _⟩ := reachable_spec valid roots
  have compacted := compacted_compact valid sized
  intro g held
  cases g with
  | const value => simpa only [value_const] using constants value
  | node place =>
    obtain ⟨m, located⟩ := exists_getElem? held
    obtain ⟨index, n, found, marked, went, _⟩ := compacted.source place m located
    have relocated : (d.compact (d.reachable roots)).relocate (.node index) = .node place := by
      simp [Compaction.relocate, went]
    have same := (compacted.relocate_spec valid marks (holds_of_getElem? found) marked).2
    rw [relocated] at same
    have below : stock (d.value · (.node index)) := by
      refine reachable_induction roots (motive := fun h => stock (d.value · h)) members ?_ marked
      intro parent n found member
      exact closed.children valid found member
    exact stock_congr below same

end QuantCircuit.Diagram
