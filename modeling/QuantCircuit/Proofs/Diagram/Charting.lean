import QuantCircuit.Proofs.Diagram.Stocking

/-! Which functions a quantification leaves in the table: those that were there, and the quantified
ones below its operand. Unlike a selection it does not only make what lies below its result. -/

namespace QuantCircuit.Diagram

variable {d e root : Diagram} {f g h : Handle} {n : Node} {index : Nat} {stock : Stock}

variable {want : Handle → Assignment → Bool} {value : Bool}

/-- The second table has the functions of the first one, those that are wanted below the handle,
and with these what lies below them. -/
def Adds (want : Handle → Assignment → Bool) (root : Diagram) (f : Handle) (d e : Diagram) :
    Prop :=
  ∀ stock, Closed stock →
    (e.Within stock ↔ d.Within stock ∧ ∀ h, root.Reaches f h → stock (want h))

/-- Whatever was found for a node, the wanted functions below the node are there. -/
def Charts (want : Handle → Assignment → Bool) (root d : Diagram) (found : Found) : Prop :=
  ∀ (index : Nat) (k : Handle), found[index]? = some k →
    ∀ h, root.Reaches (.node index) h → d.Provides (want h)

theorem adds_same (provides : ∀ h, root.Reaches f h → d.Provides (want h)) :
    Adds want root f d d :=
  fun _ _ => ⟨fun within => ⟨within, fun h below => within.provides (provides h below)⟩, And.left⟩

theorem Adds.provides (adds : Adds want root f d e) (valid : e.Valid) (below : root.Reaches f h) :
    e.Provides (want h) :=
  ((adds e.Provides (closed_provides valid)).mp (within_provides e)).2 h below

theorem charts_empty (want : Handle → Assignment → Bool) (root d : Diagram) :
    Charts want root d ∅ := by
  intro index k known
  simp at known

theorem Charts.grows {found : Found} (charts : Charts want root d found) (valid : d.Valid)
    (grows : d.Grows e) : Charts want root e found :=
  fun index k known h below => (charts index k known h below).grows valid grows

theorem Charts.insert {found : Found} (charts : Charts want root d found)
    (provides : ∀ h, root.Reaches (.node index) h → d.Provides (want h)) :
    Charts want root d (found.insert index f) := by
  intro other k known
  simp only [Std.TreeMap.getElem?_insert, Std.LawfulEqCmp.compare_eq_iff_eq] at known
  split at known
  · subst other
    exact provides
  · exact charts other k known

theorem adds_node {c : Diagram} (located : root.nodes[index]? = some n)
    (lows : Adds want root n.low c d) (highs : Adds want root n.high d e) (valid : e.Valid)
    {work : Build Handle}
    (builds : Builds work e fun r t => t.Holds r ∧ ∀ σ, t.value σ r = want (.node index) σ)
    (leaves : ∀ stock, Closed stock → e.Within stock → stock (want (.node index)) →
      Leaves stock work e) :
    Ensures work e (fun _ t => t.Valid ∧ e.Grows t ∧ Adds want root (.node index) c t)
      fun _ _ => True := by
  unfold Ensures
  rcases ended : work e with ⟨result, t⟩
  cases result with
  | error _ => exact True.intro
  | ok r =>
    obtain ⟨validLater, grows, holds, value⟩ := Ensures.of_ok builds ended
    refine ⟨validLater, grows, fun stock closed => ⟨fun within => ?_, fun both => ?_⟩⟩
    · obtain ⟨middle, high⟩ := (highs stock closed).mp (within.of_grows valid grows)
      obtain ⟨first, low⟩ := (lows stock closed).mp middle
      refine ⟨first, fun h below => ?_⟩
      rcases (reaches_node_iff located).mp below with rfl | left | right
      · exact within.provides ⟨r, holds, value⟩
      · exact low h left
      · exact high h right
    · obtain ⟨first, all⟩ := both
      have middle := (lows stock closed).mpr ⟨first, fun h below =>
        all h ((reaches_node_iff located).mpr (.inr (.inl below)))⟩
      have last := (highs stock closed).mpr ⟨middle, fun h below =>
        all h ((reaches_node_iff located).mpr (.inr (.inr below)))⟩
      exact (leaves stock closed last (all _ .here)).of_ok ended

/-- The result for a node is kept, now that everything below the node is there. -/
theorem ensures_walk_charted {c : Diagram} {found : Found} (charts : Charts want root e found)
    (valid : e.Valid) {work : Build Handle}
    (adds : Ensures work e (fun _ t => t.Valid ∧ e.Grows t ∧ Adds want root (.node index) c t)
      fun _ _ => True) :
    Ensures ((do
        let f ← (liftM work : StateT Found Build Handle)
        modify fun found => found.insert index f
        pure f : StateT Found Build Handle) found) e
      (fun result t => Charts want root t result.2 ∧ Adds want root (.node index) c t)
      fun _ _ => True := by
  rw [run_walk_lift]
  refine Ensures.bind adds fun f t facts => ?_
  obtain ⟨validLater, grows, added⟩ := facts
  exact ⟨(charts.grows valid grows).insert fun h below => added.provides validLater below, added⟩

theorem leaves_combine (closed : Closed stock) (q : Quantifier) (valid : d.Valid)
    (holdsF : d.Holds f) (holdsG : d.Holds g) (within : d.Within stock)
    (member : stock fun σ =>
      q.overBool fun value => if value then d.value σ g else d.value σ f) :
    Leaves stock (combine q f g) d := by
  cases q with
  | all => exact leaves_and closed valid holdsF within holdsG member
  | ex => exact leaves_or closed valid holdsF within holdsG member

theorem adds_const (constant : want (.const value) = fun _ => value) :
    Adds want root (.const value) d d := by
  refine adds_same fun h below => ?_
  rw [reaches_const_iff.mp below]
  exact ⟨.const value, holds_const d value, fun σ => by rw [constant, value_const]⟩

theorem adds_behind (q : Quantifier) {labels : List Nat} {last : Nat}
    (greatest : ∀ v ∈ labels, v ≤ last) (rootValid : root.Valid) (grows : root.Grows d)
    (located : root.nodes[index]? = some n) (behind : last < n.label) :
    Adds (fun g => q.overVars (root.value · g) labels) root (.node index) d d := by
  refine adds_same fun h below => ?_
  have held := below.holds rootValid (holds_of_getElem? located)
  have above := (above_node located behind).reaches rootValid below
  rw [rootValid.overVars_above held above greatest]
  exact (provides_value held).grows rootValid grows

/-- Quantification adds what is quantified below the function, and nothing else. -/
theorem adds_abstractWithin (q : Quantifier) (labels : List Nat) (last bound : Nat)
    {found : Found} (greatest : ∀ v ∈ labels, v ≤ last) (rootValid : root.Valid)
    (valid : d.Valid) (grows : root.Grows d) (holds : root.Holds f) (enough : f.height ≤ bound)
    (recalls : Recalls (fun g => q.overVars (root.value · g) labels) d found)
    (charts : Charts (fun g => q.overVars (root.value · g) labels) root d found) :
    Ensures (abstractWithin q labels last bound f found) d
      (fun result e => Charts (fun g => q.overVars (root.value · g) labels) root e result.2 ∧
        Adds (fun g => q.overVars (root.value · g) labels) root f d e)
      fun _ _ => True := by
  induction bound generalizing d f found with
  | zero =>
    cases f with
    | node index => simp [Handle.height] at enough
    | const other => exact ⟨charts, adds_const (by simp)⟩
  | succ bound ih =>
    cases f with
    | const other => exact ⟨charts, adds_const (by simp)⟩
    | node index =>
      obtain ⟨n, located⟩ := exists_getElem? holds
      have children := rootValid.holds_children located
      have bounds := rootValid.children_le index n located
      simp only [Handle.height] at enough
      rw [abstractWithin]
      refine Ensures.get ?_
      simp only [grows.kept index n located]
      by_cases behind : last < n.label
      · rw [if_pos behind]
        exact ⟨charts, adds_behind q greatest rootValid grows located behind⟩
      · rw [if_neg behind]
        refine Ensures.get ?_
        cases known : found[index]? with
        | some f => exact ⟨charts, adds_same (charts index f known)⟩
        | none =>
          dsimp only
          have both {d : Diagram} {found : Found} {child : Handle} (valid : d.Valid)
              (grows : root.Grows d) (holds : root.Holds child) (lower : child.height ≤ bound)
              (recalls : Recalls (fun g => q.overVars (root.value · g) labels) d found)
              (charts : Charts (fun g => q.overVars (root.value · g) labels) root d found) :=
            Ensures.mono_fail (Ensures.and (builds_abstractWithin q labels last bound greatest
              rootValid valid grows holds lower recalls)
              (ih valid grows holds lower recalls charts)) fun _ _ _ => True.intro
          apply ensures_walk_bind (both valid grows children.1 (by omega) recalls charts)
          intro low later d₁ facts
          obtain ⟨⟨valid₁, grows₁, lows⟩, charts₁, adds₁⟩ := facts
          apply ensures_walk_bind
            (both valid₁ (grows.trans grows₁) children.2 (by omega) lows.2.2 charts₁)
          intro high later d₂ facts
          obtain ⟨⟨valid₂, grows₂, highs⟩, charts₂, adds₂⟩ := facts
          have supplies := supplies_of_finds valid₁ lows grows₂ highs
          by_cases member : n.label ∈ labels
          · rw [if_pos member]
            have joins (σ : Assignment) :
                (q.overBool fun value => if value then d₂.value σ high else d₂.value σ low) =
                  q.overVars (root.value · (.node index)) labels σ := by
              rw [rootValid.overVars_root located member, supplies.valueLow, supplies.valueHigh]
            refine ensures_walk_charted charts₂ valid₂ (adds_node located adds₁ adds₂ valid₂ ?_ ?_)
            · refine (builds_combine q valid₂ supplies.holdsLow supplies.holdsHigh).mono ?_
              exact fun r e _ _ made => ⟨made.1, fun σ => (made.2 σ).trans (joins σ)⟩
            · intro stock closed within wanted
              exact leaves_combine closed q valid₂ supplies.holdsLow supplies.holdsHigh within
                (stock_congr wanted joins)
          · rw [if_neg member]
            have splits := rootValid.splits_overVars located member q
            refine ensures_walk_charted charts₂ valid₂ (adds_node located adds₁ adds₂ valid₂ ?_ ?_)
            · exact builds_share_wanted valid₂ supplies splits
            · intro stock _ within wanted
              exact leaves_share_wanted valid₂ supplies splits within wanted

theorem adds_abstract (valid : d.Valid) (holds : d.Holds f) (q : Quantifier)
    (literals : List Literal) :
    Ensures (abstract q literals f) d
      (fun _ e => Adds (fun h => q.overVars (d.value · h) (literals.map Int.natAbs)) d f d e)
      fun _ _ => True := by
  unfold abstract
  dsimp only
  cases greatest : (literals.map Int.natAbs).max? with
  | none =>
    refine adds_same fun h below => ?_
    rw [List.max?_eq_none_iff.mp greatest]
    exact provides_value (below.holds valid holds)
  | some last =>
    have bound := (List.max?_eq_some_iff.mp greatest).2
    refine Ensures.bind (adds_abstractWithin q _ last f.height bound valid valid (.refl d) holds
      (Nat.le_refl _) (recalls_empty _ d) (charts_empty _ d d)) ?_
    intro result e facts
    exact facts.2

end QuantCircuit.Diagram
