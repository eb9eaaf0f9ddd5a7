import QuantCircuit.Proofs.Diagram.Selecting

/-! Restriction and quantification walk over a function from its root and keep what
they have found for the nodes they met. Every entry found stays right as the diagram
grows, so sharing and the order of the walk do not matter. -/

namespace QuantCircuit.Diagram

variable {d e root : Diagram} {f g : Handle} {α β : Type} {found : Found}

/-- Whatever the walk has found for a node has the wanted function. -/
def Recalls (want : Handle → Assignment → Bool) (d : Diagram) (found : Found) : Prop :=
  ∀ (index : Nat) (f : Handle), found[index]? = some f →
    d.Holds f ∧ ∀ σ, d.value σ f = want (.node index) σ

theorem recalls_empty (want : Handle → Assignment → Bool) (d : Diagram) : Recalls want d ∅ := by
  intro index f located
  simp at located

theorem Recalls.grows {want : Handle → Assignment → Bool} (recalls : Recalls want d found)
    (valid : d.Valid) (grows : d.Grows e) : Recalls want e found := by
  intro index f located
  obtain ⟨holds, right⟩ := recalls index f located
  exact ⟨grows.holds holds, fun σ => (grows.value_eq valid holds σ).trans (right σ)⟩

theorem Recalls.insert {want : Handle → Assignment → Bool} {index : Nat}
    (recalls : Recalls want d found) (holds : d.Holds f)
    (right : ∀ σ, d.value σ f = want (.node index) σ) :
    Recalls want d (found.insert index f) := by
  intro other g located
  simp only [Std.TreeMap.getElem?_insert, Std.LawfulEqCmp.compare_eq_iff_eq] at located
  split at located
  · subst other
    exact Option.some.inj located ▸ ⟨holds, right⟩
  · exact recalls other g located

/-- What a walk returns, and what it has found by then. -/
def Finds (want : Handle → Assignment → Bool) (f : Handle) (result : Handle × Found)
    (e : Diagram) : Prop :=
  e.Holds result.1 ∧ (∀ σ, e.value σ result.1 = want f σ) ∧ Recalls want e result.2

section Walking

variable {post : β × Found → Diagram → Prop} {mid : α × Found → Diagram → Prop}

theorem builds_walk_get {next : Found → StateT Found Build β}
    (rest : Builds (next found found) d post) : Builds ((get >>= next) found) d post :=
  rest

theorem builds_walk_diagram {next : Diagram → StateT Found Build β}
    (rest : Builds (next d found) d post) : Builds ((getThe Diagram >>= next) found) d post :=
  rest

theorem builds_walk_lift {work : Build α} {mid : α → Diagram → Prop}
    {next : α → StateT Found Build β} (first : Builds work d mid)
    (rest : ∀ a e, e.Valid → d.Grows e → mid a e → Builds (next a found) e post) :
    Builds (((liftM work : StateT Found Build α) >>= next) found) d post :=
  have lifted : Builds (do let a ← work; pure (a, found)) d
      fun (result : α × Found) e => result.2 = found ∧ mid result.1 e :=
    Builds.bind first fun _ _ valid _ reached => builds_pure valid ⟨rfl, reached⟩
  Builds.bind lifted fun ⟨a, later⟩ e valid grows ⟨same, reached⟩ => by
    obtain rfl : later = found := same
    exact rest a e valid grows reached

theorem builds_walk_bind {work : StateT Found Build α} {next : α → StateT Found Build β}
    (first : Builds (work found) d mid)
    (rest : ∀ a later e, e.Valid → d.Grows e → mid (a, later) e →
      Builds (next a later) e post) : Builds ((work >>= next) found) d post :=
  Builds.bind first fun ⟨a, later⟩ e valid grows reached => rest a later e valid grows reached

/-- A result that is found is kept for the next time. -/
theorem builds_walk_keep {want : Handle → Assignment → Bool} {index : Nat} (valid : d.Valid)
    (holds : d.Holds f) (right : ∀ σ, d.value σ f = want (.node index) σ)
    (recalls : Recalls want d found) :
    Builds ((do modify fun found => found.insert index f; pure f : StateT Found Build Handle)
      found) d (Finds want (.node index)) :=
  builds_pure valid ⟨holds, right, recalls.insert holds right⟩

theorem builds_walk_recalled {want : Handle → Assignment → Bool} {index : Nat} (valid : d.Valid)
    (recalls : Recalls want d found) (known : found[index]? = some f) :
    Builds ((pure f : StateT Found Build Handle) found) d (Finds want (.node index)) := by
  obtain ⟨holds, right⟩ := recalls index f known
  exact builds_pure valid ⟨holds, right, recalls⟩

end Walking

/-- Handles with what is wanted of the children of a node. -/
structure Supplies (want : Handle → Assignment → Bool) (d : Diagram) (n : Node)
    (low high : Handle) : Prop where
  holdsLow : d.Holds low
  holdsHigh : d.Holds high
  valueLow : ∀ σ, d.value σ low = want n.low σ
  valueHigh : ∀ σ, d.value σ high = want n.high σ

/-- What is found for one child is still there when the other one is found. -/
theorem supplies_of_finds {want : Handle → Assignment → Bool} {n : Node} {low high : Handle}
    {later : Found} (valid : d.Valid) (lows : Finds want n.low (low, found) d)
    (grows : d.Grows e) (highs : Finds want n.high (high, later) e) :
    Supplies want e n low high where
  holdsLow := grows.holds lows.1
  holdsHigh := highs.1
  valueLow σ := (grows.value_eq valid lows.1 σ).trans (lows.2.1 σ)
  valueHigh := highs.2.1

/-- Both children of a node are walked over, and what follows may use the results. -/
theorem builds_walk_children {want : Handle → Assignment → Bool} {n : Node}
    {walk : Handle → StateT Found Build Handle} (valid : d.Valid)
    (recalls : Recalls want d found) (grows : root.Grows d)
    (step : ∀ (child : Handle) (d : Diagram) (found : Found), child = n.low ∨ child = n.high →
      d.Valid → root.Grows d → Recalls want d found →
      Builds (walk child found) d (Finds want child))
    {post : β × Found → Diagram → Prop} {next : Handle → Handle → StateT Found Build β}
    (rest : ∀ low high later e, e.Valid → Supplies want e n low high → Recalls want e later →
      Builds (next low high later) e post) :
    Builds ((do let low ← walk n.low; let high ← walk n.high; next low high) found) d post := by
  refine builds_walk_bind (step n.low d found (.inl rfl) valid grows recalls) ?_
  intro low later d₁ valid₁ grows₁ lows
  refine builds_walk_bind
    (step n.high d₁ later (.inr rfl) valid₁ (grows.trans grows₁) lows.2.2) ?_
  intro high last d₂ valid₂ grows₂ highs
  exact rest low high last d₂ valid₂ (supplies_of_finds valid₁ lows grows₂ highs) highs.2.2

/-- What is wanted of a node is decided at its label, and what is wanted of its children only
looks at later ones. -/
structure Splits (want : Handle → Assignment → Bool) (index : Nat) (n : Node) : Prop where
  ignored : ∀ v, v ≤ n.label → Ignores (want n.low) v ∧ Ignores (want n.high) v
  decided : ∀ σ, want (.node index) σ = if σ n.label then want n.high σ else want n.low σ

/-- The functions of the children of a node make up its own. -/
theorem Valid.splits (valid : d.Valid) {index : Nat} {n : Node}
    (located : d.nodes[index]? = some n) : Splits (fun g σ => d.value σ g) index n where
  ignored _ early := valid.ignores_below_root located early
  decided := valid.value_node located

section Splits

variable {want : Handle → Assignment → Bool} {index : Nat} {n : Node} {low high : Handle}

/-- The handles for the children start behind the label of the node. -/
theorem Supplies.above (supplies : Supplies want d n low high) (valid : d.Valid)
    (splits : Splits want index n) : d.Above n.label low ∧ d.Above n.label high := by
  have lows : (d.value · low) = want n.low := funext supplies.valueLow
  have highs : (d.value · high) = want n.high := funext supplies.valueHigh
  exact ⟨valid.above_of_ignores fun v early => lows ▸ (splits.ignored v early).1,
    valid.above_of_ignores fun v early => highs ▸ (splits.ignored v early).2⟩

/-- Deciding between the handles for its children is what is wanted of the node. -/
theorem Supplies.joins (supplies : Supplies want d n low high) (splits : Splits want index n)
    (σ : Assignment) :
    (if σ n.label then d.value σ high else d.value σ low) = want (.node index) σ := by
  rw [splits.decided, supplies.valueLow, supplies.valueHigh]

theorem builds_share_wanted (valid : d.Valid) (supplies : Supplies want d n low high)
    (splits : Splits want index n) :
    Builds (share ⟨n.label, low, high⟩) d fun f e =>
      e.Holds f ∧ ∀ σ, e.value σ f = want (.node index) σ := by
  have above := supplies.above valid splits
  refine (builds_share valid supplies.holdsLow supplies.holdsHigh above.1 above.2).mono ?_
  rintro f e _ _ ⟨holds, value⟩
  exact ⟨holds, fun σ => (value σ).trans (supplies.joins splits σ)⟩

end Splits

theorem Builds.finds {want : Handle → Assignment → Bool} {work : Build Handle} (valid : d.Valid)
    (builds : Builds work d fun r e => e.Holds r ∧ ∀ σ, e.value σ r = want f σ)
    (recalls : Recalls want d found) :
    Builds ((liftM work : StateT Found Build Handle) found) d (Finds want f) := by
  refine Builds.bind builds ?_
  rintro r e validLater grows ⟨holds, value⟩
  exact builds_pure validLater ⟨holds, value, recalls.grows valid grows⟩

theorem builds_walk_share {want : Handle → Assignment → Bool} {index : Nat} {n : Node}
    {low high : Handle} (valid : d.Valid) (supplies : Supplies want d n low high)
    (splits : Splits want index n) (recalls : Recalls want d found) :
    Builds ((do
        let f ← (liftM (share ⟨n.label, low, high⟩) : StateT Found Build Handle)
        modify fun found => found.insert index f
        pure f : StateT Found Build Handle) found) d (Finds want (.node index)) :=
  builds_walk_bind ((builds_share_wanted valid supplies splits).finds valid recalls)
    fun _ _ _ valid _ finds => builds_walk_keep valid finds.1 finds.2.1 finds.2.2

theorem Valid.splits_set (valid : d.Valid) {index : Nat} {n : Node} {label : Nat}
    (located : d.nodes[index]? = some n) (different : label ≠ n.label) (value : Bool) :
    Splits (fun g σ => d.value (σ.set label value) g) index n where
  ignored _ early :=
    have ignored := valid.ignores_below_root located early
    ⟨ignored.1.comp_set label value, ignored.2.comp_set label value⟩
  decided σ := by rw [valid.value_node located, Assignment.set_other _ _ (Ne.symm different)]

theorem builds_restrictWithin (label : Nat) (value : Bool) (bound : Nat) (rootValid : root.Valid)
    (valid : d.Valid) (grows : root.Grows d) (holds : root.Holds f) (enough : f.height ≤ bound)
    (recalls : Recalls (fun g σ => root.value (σ.set label value) g) d found) :
    Builds (restrictWithin label value bound f found) d
      (Finds (fun g σ => root.value (σ.set label value) g) f) := by
  induction bound generalizing d f found with
  | zero =>
    cases f with
    | const other => exact builds_pure valid ⟨holds_const d _, by simp, recalls⟩
    | node index => simp [Handle.height] at enough
  | succ bound ih =>
    cases f with
    | const other => exact builds_pure valid ⟨holds_const d _, by simp, recalls⟩
    | node index =>
      obtain ⟨n, located⟩ := exists_getElem? holds
      have children := rootValid.holds_children located
      have bounds := rootValid.children_le index n located
      simp only [Handle.height] at enough
      rw [restrictWithin]
      refine builds_walk_get (builds_walk_diagram ?_)
      simp only [grows.kept index n located]
      cases known : found[index]? with
      | some f => exact builds_walk_recalled valid recalls known
      | none =>
        dsimp only
        by_cases before : label < n.label
        · rw [if_pos before]
          refine builds_walk_keep valid (grows.holds holds) (fun σ => ?_) recalls
          rw [grows.value_eq rootValid holds]
          exact (rootValid.ignores_before_root located before σ value).symm
        · rw [if_neg before]
          by_cases here : label = n.label
          · rw [if_pos here]
            have halves := rootValid.value_children located
            subst label
            cases value
            · refine builds_walk_keep valid (grows.holds children.1) (fun σ => ?_) recalls
              exact (grows.value_eq rootValid children.1 σ).trans (halves σ).1
            · refine builds_walk_keep valid (grows.holds children.2) (fun σ => ?_) recalls
              exact (grows.value_eq rootValid children.2 σ).trans (halves σ).2
          · rw [if_neg here]
            refine builds_walk_children valid recalls grows ?_ ?_
            · rintro child e found (rfl | rfl) valid grows recalls
              · exact ih valid grows children.1 (by omega) recalls
              · exact ih valid grows children.2 (by omega) recalls
            · intro low high later e valid supplies recalls
              have splits := rootValid.splits_set located here value
              exact builds_walk_share valid supplies splits recalls

theorem builds_restrict_literal (valid : d.Valid) (holds : d.Holds f) (literal : Literal) :
    Builds (restrict f literal) d fun r e => e.Holds r ∧
      ∀ σ : Assignment, e.value σ r = d.value (σ.set literal.natAbs (0 < literal)) f := by
  refine Builds.bind (builds_restrictWithin literal.natAbs (0 < literal) f.height valid valid
    (.refl d) holds (Nat.le_refl _) (recalls_empty _ d)) ?_
  rintro result e validLater _ ⟨held, right, _⟩
  exact builds_pure validLater ⟨held, right⟩

/-- Restriction fixes the variable of the literal. -/
theorem builds_restrict (valid : d.Valid) (holds : d.Holds f) (positive : 0 < v) (value : Bool) :
    Builds (restrict f (Literal.ofVariable v value)) d fun r e => e.Holds r ∧
      ∀ σ : Assignment, e.value σ r = d.value (σ.set v value) f := by
  have sign : decide (0 < Literal.ofVariable v value) = value := by
    cases value with
    | false => simp [Literal.ofVariable]
    | true => simpa [Literal.ofVariable] using positive
  have builds := builds_restrict_literal valid holds (Literal.ofVariable v value)
  rwa [Literal.natAbs_ofVariable, sign] at builds

/-- Quantifying a variable out takes both of its values together. -/
theorem builds_combine (q : Quantifier) (valid : d.Valid) (holdsF : d.Holds f)
    (holdsG : d.Holds g) :
    Builds (combine q f g) d fun r e => e.Holds r ∧
      ∀ σ, e.value σ r = q.overBool fun value => if value then d.value σ g else d.value σ f := by
  cases q with
  | all => exact builds_and valid holdsF holdsG
  | ex => exact builds_or valid holdsF holdsG

/-- Quantification over a set that holds the label of a decision splits at the label. -/
theorem Valid.overVars_root (valid : d.Valid) {index : Nat} {n : Node} {labels : List Nat}
    (located : d.nodes[index]? = some n) (member : n.label ∈ labels) (q : Quantifier)
    (σ : Assignment) :
    q.overVars (d.value · (.node index)) labels σ =
      q.overBool fun value =>
        if value then q.overVars (d.value · n.high) labels σ
        else q.overVars (d.value · n.low) labels σ := by
  have ignored := valid.ignores_root_label located
  apply eq_of_eq_decisive
  rw [Quantifier.overVars_eq_decisive, Quantifier.overBool_eq_decisive]
  constructor
  · rintro ⟨τ, agree, settled⟩
    refine ⟨τ n.label, ?_⟩
    rw [valid.value_node located] at settled
    cases branch : τ n.label <;> rw [branch] at settled <;>
      exact (Quantifier.overVars_eq_decisive ..).mpr ⟨τ, agree, settled⟩
  · rintro ⟨value, settled⟩
    have reached : ∃ τ, σ.AgreeOff labels τ ∧
        (if value then d.value τ n.high else d.value τ n.low) = q.decisive := by
      cases value <;> exact (Quantifier.overVars_eq_decisive ..).mp settled
    obtain ⟨τ, agree, child⟩ := reached
    refine ⟨τ.set n.label value, agree.trans (Assignment.agreeOff_set member τ value), ?_⟩
    rw [valid.value_node located, Assignment.set_same, ← child]
    cases value
    · exact ignored.1 τ false
    · exact ignored.2 τ true

theorem Valid.overVars_other (valid : d.Valid) {index : Nat} {n : Node} {labels : List Nat}
    (located : d.nodes[index]? = some n) (outside : n.label ∉ labels) (q : Quantifier)
    (σ : Assignment) :
    q.overVars (d.value · (.node index)) labels σ =
      if σ n.label then q.overVars (d.value · n.high) labels σ
      else q.overVars (d.value · n.low) labels σ := by
  have decided (τ : Assignment) (agree : σ.AgreeOff labels τ) : d.value τ (.node index) =
      if σ n.label then d.value τ n.high else d.value τ n.low := by
    rw [valid.value_node located, agree n.label outside]
  rw [Quantifier.overVars_congr q decided]
  cases σ n.label <;> rfl

/-- Quantification over a set without the label of a decision is made below the decision. -/
theorem Valid.splits_overVars (valid : d.Valid) {index : Nat} {n : Node} {labels : List Nat}
    (located : d.nodes[index]? = some n) (outside : n.label ∉ labels) (q : Quantifier) :
    Splits (fun g => q.overVars (d.value · g) labels) index n where
  ignored _ early :=
    have ignored := valid.ignores_below_root located early
    ⟨q.ignores_overVars ignored.1 labels, q.ignores_overVars ignored.2 labels⟩
  decided := valid.overVars_other located outside q

theorem Valid.overVars_above (valid : d.Valid) (holds : d.Holds f) {labels : List Nat}
    {last : Nat} (above : d.Above last f) (greatest : ∀ v ∈ labels, v ≤ last) (q : Quantifier) :
    q.overVars (d.value · f) labels = (d.value · f) :=
  q.overVars_of_ignores fun v member => valid.ignores_of_above holds above (greatest v member)

theorem builds_abstractWithin (q : Quantifier) (labels : List Nat) (last bound : Nat)
    (greatest : ∀ v ∈ labels, v ≤ last) (rootValid : root.Valid)
    (valid : d.Valid) (grows : root.Grows d) (holds : root.Holds f) (enough : f.height ≤ bound)
    (recalls : Recalls (fun g => q.overVars (root.value · g) labels) d found) :
    Builds (abstractWithin q labels last bound f found) d
      (Finds (fun g => q.overVars (root.value · g) labels) f) := by
  induction bound generalizing d f found with
  | zero =>
    cases f with
    | const other => exact builds_pure valid ⟨holds_const d _, by simp, recalls⟩
    | node index => simp [Handle.height] at enough
  | succ bound ih =>
    cases f with
    | const other => exact builds_pure valid ⟨holds_const d _, by simp, recalls⟩
    | node index =>
      obtain ⟨n, located⟩ := exists_getElem? holds
      have children := rootValid.holds_children located
      have bounds := rootValid.children_le index n located
      simp only [Handle.height] at enough
      rw [abstractWithin]
      refine builds_walk_diagram ?_
      simp only [grows.kept index n located]
      by_cases behind : last < n.label
      · rw [if_pos behind]
        refine builds_pure valid ⟨grows.holds holds, fun σ => ?_, recalls⟩
        have unquantified := rootValid.overVars_above holds (above_node located behind) greatest q
        rw [grows.value_eq rootValid holds]
        exact congrFun unquantified.symm σ
      · rw [if_neg behind]
        refine builds_walk_get ?_
        cases known : found[index]? with
        | some f => exact builds_walk_recalled valid recalls known
        | none =>
          dsimp only
          refine builds_walk_children valid recalls grows ?_ ?_
          · rintro child e found (rfl | rfl) valid grows recalls
            · exact ih valid grows children.1 (by omega) recalls
            · exact ih valid grows children.2 (by omega) recalls
          · intro low high later e valid supplies recalls
            by_cases member : n.label ∈ labels
            · rw [if_pos member]
              refine builds_walk_lift
                (builds_combine q valid supplies.holdsLow supplies.holdsHigh) ?_
              rintro f e' valid' grows' ⟨held, right⟩
              refine builds_walk_keep valid' held (fun σ => ?_) (recalls.grows valid grows')
              rw [right, rootValid.overVars_root located member, supplies.valueLow,
                supplies.valueHigh]
            · rw [if_neg member]
              have splits := rootValid.splits_overVars located member q
              exact builds_walk_share valid supplies splits recalls

/-- Quantification takes all listed variables at once. -/
theorem builds_abstract (valid : d.Valid) (holds : d.Holds f) (q : Quantifier)
    (literals : List Literal) :
    Builds (abstract q literals f) d fun r e => e.Holds r ∧
      ∀ σ, e.value σ r = q.overVars (d.value · f) (literals.map Int.natAbs) σ := by
  unfold abstract
  dsimp only
  cases greatest : (literals.map Int.natAbs).max? with
  | none =>
    have empty := List.max?_eq_none_iff.mp greatest
    exact builds_pure valid ⟨holds, fun σ => by rw [empty]; rfl⟩
  | some last =>
    have bound := (List.max?_eq_some_iff.mp greatest).2
    refine Builds.bind (builds_abstractWithin q _ last f.height bound valid valid (.refl d) holds
      (Nat.le_refl _) (recalls_empty _ d)) ?_
    rintro result e validLater _ ⟨held, right, _⟩
    exact builds_pure validLater ⟨held, right⟩

end QuantCircuit.Diagram
