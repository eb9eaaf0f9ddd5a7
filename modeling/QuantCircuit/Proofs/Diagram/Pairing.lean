import QuantCircuit.Proofs.Diagram.Charting
import QuantCircuit.Proofs.Diagram.Limiting
import QuantCircuit.Proofs.Coupling

/-! The same operations on two tables. As long as the second table has functions of the first one
only, or of a third table that there is room for, it does not fill up where the first one does
not. -/

namespace QuantCircuit.Diagram

variable {α β γ δ : Type} {d e d' e' : Diagram} {stock : Stock} {limit spare : Nat}

namespace Operation

/-- The functions that the operation leaves in the table at least. -/
def wants (d : Diagram) : Operation → Stock
  | abstract q literals f => fun p =>
    ∃ h, d.Reaches f h ∧ p = q.overVars (d.value · h) (literals.map Int.natAbs)
  | operation => fun p => p = operation.meaning d

/-- The operation asks for no literal that is not a variable. -/
def Proper (operation : Operation) : Prop :=
  ∀ literal, operation = ofVariable literal → 0 < literal

inductive Twins (d e : Diagram) : Operation → Operation → Prop where
  | ofVariable {literal : Literal} (positive : 0 < literal) :
      Twins d e (ofVariable literal) (ofVariable literal)
  | terminal (label : Nat) : Twins d e (terminal label) (terminal label)
  | not {f g : Handle} (first : Matches d e f g) : Twins d e (not f) (not g)
  | and {f g h k : Handle} (first : Matches d e f g) (second : Matches d e h k) :
      Twins d e (and f h) (and g k)
  | or {f g h k : Handle} (first : Matches d e f g) (second : Matches d e h k) :
      Twins d e (or f h) (or g k)
  | select {test yes no test' yes' no' : Handle} (first : Matches d e test test')
      (second : Matches d e yes yes') (third : Matches d e no no') :
      Twins d e (select test yes no) (select test' yes' no')
  | restrict {f g : Handle} (first : Matches d e f g) (literal : Literal) :
      Twins d e (restrict f literal) (restrict g literal)
  | abstract {f g : Handle} (q : Quantifier) (literals : List Literal) (first : Matches d e f g) :
      Twins d e (abstract q literals f) (abstract q literals g)

variable {operation other : Operation} {f g : Handle}

theorem Twins.holds (twins : Twins d e operation other) :
    d.HoldsAll operation.operands ∧ e.HoldsAll other.operands := by
  cases twins with
  | ofVariable | terminal => simp [operands, HoldsAll]
  | not first | restrict first | abstract _ _ first =>
    simp [operands, HoldsAll, first.left, first.right]
  | and first second | or first second =>
    simp [operands, HoldsAll, first.left, first.right, second.left, second.right]
  | select first second third =>
    simp [operands, HoldsAll, first.left, first.right, second.left, second.right, third.left,
      third.right]

theorem Twins.meaning_eq (twins : Twins d e operation other) :
    operation.meaning d = other.meaning e := by
  funext σ
  cases twins with
  | ofVariable | terminal => rfl
  | not first | restrict first | abstract _ _ first => simp only [meaning, first.value_eq]
  | and first second | or first second => simp only [meaning, first.value_eq, second.value_eq]
  | select first second third =>
    simp only [meaning, first.value_eq, second.value_eq, third.value_eq]

theorem Twins.proper (twins : Twins d e operation other) : other.Proper := by
  intro literal same
  cases twins with
  | ofVariable positive => exact Operation.ofVariable.inj same ▸ positive
  | _ => exact nomatch same

theorem Twins.wants (twins : Twins d e operation other) (valid : d.Valid) (validRight : e.Valid)
    {p : Assignment → Bool} (wanted : other.wants e p) : operation.wants d p := by
  have meaning := twins.meaning_eq
  cases twins with
  | abstract q literals first =>
    obtain ⟨k, below, rfl⟩ := wanted
    obtain ⟨h, reached, same⟩ := first.symm.reaches validRight valid below
    refine ⟨h, reached, ?_⟩
    simp only [same.value_eq]
  | _ => exact Eq.trans wanted meaning.symm

/-- If it succeeds, the operation leaves what it should in the table. -/
theorem ensures_wants (valid : d.Valid) (holds : d.HoldsAll operation.operands) :
    Ensures operation.perform d (fun _ e => ∀ p, operation.wants d p → e.Provides p)
      fun _ _ => True := by
  have performs := ensures_perform valid holds
  by_cases quantifies : ∃ q literals f, operation = .abstract q literals f
  · obtain ⟨q, literals, f, rfl⟩ := quantifies
    have held : d.Holds f := holds f (by simp [operands])
    refine Ensures.mono (performs.and (adds_abstract valid held q literals)) ?_
      fun _ _ _ => True.intro
    intro r e facts p wanted
    obtain ⟨h, below, rfl⟩ := wanted
    exact facts.2.provides facts.1.1 below
  · refine Ensures.mono performs ?_ fun _ _ _ => True.intro
    intro r e facts p wanted
    have meant : p = operation.meaning d := by
      cases operation with
      | abstract q literals f => exact absurd ⟨q, literals, f, rfl⟩ quantifies
      | _ => exact wanted
    exact ⟨r, facts.2.2.1, fun σ => (facts.2.2.2 σ).trans (congrFun meant σ).symm⟩

/-- It leaves nothing else there. -/
theorem leaves_perform (closed : Closed stock) (valid : d.Valid)
    (holds : d.HoldsAll operation.operands) (within : d.Within stock)
    (wanted : ∀ p, operation.wants d p → stock p) : Leaves stock operation.perform d := by
  have shares (label : Nat) (member : stock fun σ => σ label) :
      Leaves stock (Diagram.terminal label) d := by
    apply leaves_share valid (holds_const d _) (holds_const d _) (above_const d _ _)
      (above_const d _ _) within
    apply stock_congr member
    intro σ
    cases σ label <;> simp
  simp only [HoldsAll] at holds
  cases operation with
  | ofVariable literal =>
    show Leaves stock (Diagram.ofVariable literal) d
    unfold Diagram.ofVariable
    split
    · exact True.intro
    · exact shares _ (wanted _ rfl)
  | terminal label => exact shares label (wanted _ rfl)
  | not f =>
    exact leaves_not closed valid (holds f (by simp [operands])) within (wanted _ rfl)
  | and f g =>
    exact leaves_and closed valid (holds f (by simp [operands])) within
      (holds g (by simp [operands])) (wanted _ rfl)
  | or f g =>
    exact leaves_or closed valid (holds f (by simp [operands])) within
      (holds g (by simp [operands])) (wanted _ rfl)
  | select test yes no =>
    exact leaves_select closed valid (holds test (by simp [operands]))
      (holds yes (by simp [operands])) (holds no (by simp [operands])) within (wanted _ rfl)
  | restrict f literal =>
    exact leaves_restrict closed valid (holds f (by simp [operands])) literal within (wanted _ rfl)
  | abstract q literals f =>
    have held : d.Holds f := holds f (by simp [operands])
    refine Ensures.mono (adds_abstract valid held q literals) ?_ fun _ _ _ => True.intro
    intro r e adds
    exact (adds stock closed).mpr ⟨within, fun h below => wanted _ ⟨h, below, rfl⟩⟩

theorem indifferent_perform (operation : Operation) (d : Diagram) :
    Indifferent operation.perform d := by
  cases operation with
  | ofVariable literal => exact indifferent_ofVariable literal d
  | terminal label => exact indifferent_share ⟨label, .const false, .const true⟩ d
  | not f => exact indifferent_not f d
  | and f g => exact indifferent_and f g d
  | or f g => exact indifferent_or f g d
  | select test yes no => exact indifferent_select test yes no d
  | restrict f literal => exact indifferent_restrict f literal d
  | abstract q literals f => exact indifferent_abstract q literals f d

end Operation

variable {f g : Handle}

section WithLimit

@[simp] theorem value_withLimit (d : Diagram) (limit : Nat) (σ : Assignment) (f : Handle) :
    (d.withLimit limit).value σ f = d.value σ f := by
  have within (bound : Nat) (f : Handle) :
      (d.withLimit limit).valueWithin σ bound f = d.valueWithin σ bound f := by
    induction bound generalizing f with
    | zero => cases f <;> rfl
    | succ bound ih => cases f <;> simp only [valueWithin, withLimit_nodes, ih]
  exact within f.height f

theorem Valid.withLimit (valid : d.Valid) (enough : d.size ≤ limit) :
    (d.withLimit limit).Valid where
  children_le := valid.children_le
  ordered := valid.ordered
  reduced := valid.reduced
  unique_eq := valid.unique_eq
  selections_eq := by
    intro s f found
    simp only [value_withLimit]
    exact valid.selections_eq s f found
  size_le := enough

theorem Within.withLimit (within : d.Within stock) (limit : Nat) :
    (d.withLimit limit).Within stock := by
  intro f holds
  simp only [value_withLimit]
  exact within f holds

theorem Matches.withLimit (same : Matches d e f g) (limit : Nat) :
    Matches d (e.withLimit limit) f g :=
  ⟨same.left, same.right, fun σ => by rw [value_withLimit, same.value_eq]⟩

theorem Operation.Twins.withLimit {operation other : Operation} (twins : Twins d e operation other)
    (limit : Nat) : Twins d (e.withLimit limit) operation other := by
  cases twins with
  | ofVariable positive => exact .ofVariable positive
  | terminal label => exact .terminal label
  | not first => exact .not (first.withLimit limit)
  | and first second => exact .and (first.withLimit limit) (second.withLimit limit)
  | or first second => exact .or (first.withLimit limit) (second.withLimit limit)
  | select first second third =>
    exact .select (first.withLimit limit) (second.withLimit limit) (third.withLimit limit)
  | restrict first literal => exact .restrict (first.withLimit limit) literal
  | abstract q literals first => exact .abstract q literals (first.withLimit limit)

end WithLimit

/-- A table that there is room for beside another one. -/
structure Reserve (spare : Nat) where
  table : Diagram
  valid : table.Valid
  size_le : table.size ≤ spare

def Reserve.empty (spare : Nat) : Reserve spare where
  table := .empty spare
  valid := valid_empty spare
  size_le := Nat.zero_le spare

def Reserve.beside (reserve : Reserve spare) (d : Diagram) : Stock :=
  fun p => reserve.table.Provides p ∨ d.Provides p

theorem Reserve.closed (reserve : Reserve spare) (valid : d.Valid) : Closed (reserve.beside d) :=
  (closed_provides reserve.valid).or (closed_provides valid)

/-- Two tables. If a reserve is given, the second table has functions of the first one or of the
reserve only, and its limit leaves room for both. -/
structure Paired (room : Option (Reserve spare)) (d e : Diagram) : Prop where
  left : d.Valid
  right : e.Valid
  within : ∀ reserve ∈ room, e.Within (reserve.beside d)
  fits : room.isSome → spare + d.limit ≤ e.limit

/-- Both tables grow and stay a pair. -/
structure Advance (room : Option (Reserve spare)) (d e d' e' : Diagram) : Prop
    extends Paired room d' e' where
  growsLeft : d.Grows d'
  growsRight : e.Grows e'

variable {room : Option (Reserve spare)}

theorem paired_empty {limit' : Nat} (fits : room.isSome → spare + limit ≤ limit') :
    Paired room (.empty limit) (.empty limit') where
  left := valid_empty limit
  right := valid_empty limit'
  within := by
    intro reserve _ f holds
    cases f with
    | const value => exact .inr ⟨.const value, holds_const _ value, fun _ => rfl⟩
    | node index => exact absurd holds (Nat.not_lt_zero index)
  fits := fits

theorem Advance.trans {d'' e'' : Diagram} (first : Advance room d e d' e')
    (second : Advance room d' e' d'' e'') : Advance room d e d'' e'' :=
  ⟨second.toPaired, first.growsLeft.trans second.growsLeft,
    first.growsRight.trans second.growsRight⟩

theorem Paired.still (paired : Paired room d e) : Advance room d e d e :=
  ⟨paired, .refl d, .refl e⟩

/-- The handles have the same function, each in its own table. -/
def Alike (f : Handle) (d : Diagram) (g : Handle) (e : Diagram) : Prop :=
  Matches d e f g

theorem Alike.advance (alike : Alike f d g e) (paired : Paired room d e)
    (advance : Advance room d e d' e') : Alike f d' g e' :=
  Matches.grows alike paired.left paired.right advance.growsLeft advance.growsRight

/-- The following work keeps up, and the tables stay a pair. -/
def Shadows (room : Option (Reserve spare)) (lead : Build α) (follow : Build β) (d e : Diagram)
    (post : α → Diagram → β → Diagram → Prop) : Prop :=
  Mirrors (Advance room) room.isSome lead follow d e post

namespace Shadows

variable {lead : Build α} {follow : Build β} {mid : α → Diagram → β → Diagram → Prop}
variable {post : γ → Diagram → δ → Diagram → Prop}

theorem pure {a : α} {b : β} (paired : Paired room d e) (related : mid a d b e) :
    Shadows room (Pure.pure a) (Pure.pure b) d e mid :=
  Mirrors.pure paired.still related

theorem bind {next : α → Build γ} {other : β → Build δ} (first : Shadows room lead follow d e mid)
    (rest : ∀ a d' b e', Advance room d e d' e' → mid a d' b e' →
      Shadows room (next a) (other b) d' e' post) :
    Shadows room (lead >>= next) (follow >>= other) d e post :=
  Mirrors.bind (fun _ _ _ _ _ _ => Advance.trans) first rest

theorem throw (error : Error) : Shadows room (MonadExcept.throw error : Build α) follow d e mid :=
  Coupled.throw error

theorem throw_bind (error : Error) {next : α → Build γ} {follow : Build δ} :
    Shadows room ((MonadExcept.throw error : Build α) >>= next) follow d e post :=
  fun _ _ impossible => nomatch impossible

end Shadows

/-- The second table needs room for what is in the first one and in the reserve at most. -/
theorem Paired.size_le (paired : Paired room d e) (roomy : room.isSome) :
    e.size ≤ spare + d.size := by
  obtain ⟨reserve, given⟩ := Option.isSome_iff_exists.mp roomy
  have size := Within.size_le (paired.within reserve given) paired.right
  have bound := reserve.size_le
  omega

namespace Operation

variable {operation other : Operation}

/-- A proper operation fails for want of nodes only, and so succeeds with enough of them. -/
theorem exists_unbounded (valid : d.Valid) (holds : d.HoldsAll operation.operands)
    (proper : operation.Proper) : ∃ f t, Unbounded operation.perform d (.ok f) t := by
  apply (indifferent_perform operation d).exists_success
  intro limit error enough failed
  have ended : operation.perform (d.withLimit limit) =
      (.error error, (operation.perform (d.withLimit limit)).2) := Prod.ext failed rfl
  rcases ((ensures_perform (valid.withLimit enough) holds).of_error ended).2.2 with full | wrong
  · exact full
  · obtain ⟨literal, negative, same, _⟩ := wrong
    exact absurd (proper literal same) (Int.not_lt.mpr negative)

/-- The functions that the leading operation leaves are enough for the following one. It succeeds
if there is room for them and for what is in its table. -/
theorem Twins.exists_success (twins : Twins d e operation other) (valid : d.Valid)
    (validRight : e.Valid) (ran : operation.perform d = (.ok f, d')) (closed : Closed stock)
    (left : ∀ p, d'.Provides p → stock p) (within : e.Within stock)
    (fits : ∀ t : Diagram, t.Valid → t.Within stock → t.size ≤ e.limit) :
    ∃ g e', other.perform e = (.ok g, e') ∧ e'.Within stock := by
  have wants := (ensures_wants valid twins.holds.1).of_ok ran
  have leaves (limit : Nat) (enough : e.size ≤ limit) :
      Leaves stock other.perform (e.withLimit limit) := by
    have valid' := validRight.withLimit enough
    apply leaves_perform closed valid' (twins.withLimit limit).holds.2 (within.withLimit limit)
    intro p wanted
    exact left p (wants p ((twins.withLimit limit).wants valid valid' wanted))
  obtain ⟨g, t, unbounded⟩ := exists_unbounded validRight twins.holds.2 twins.proper
  have ended : other.perform (e.withLimit t.size) = (.ok g, t.withLimit t.size) :=
    unbounded.within t.size (Nat.le_refl _)
  have size : t.size ≤ e.limit := by
    have made := (ensures_perform (validRight.withLimit unbounded.grows)
      (twins.withLimit t.size).holds.2).of_ok ended
    exact fits (t.withLimit t.size) made.1 ((leaves t.size unbounded.grows).of_ok ended)
  have here : other.perform e = (.ok g, t.withLimit e.limit) := unbounded.within e.limit size
  exact ⟨g, _, here, (leaves e.limit validRight.size_le).of_ok here⟩

theorem Twins.exists_success_beside (twins : Twins d e operation other)
    (paired : Paired room d e) {reserve : Reserve spare} (given : reserve ∈ room)
    (ran : operation.perform d = (.ok f, d')) :
    ∃ g e', other.perform e = (.ok g, e') ∧ e'.Within (reserve.beside d') := by
  have facts := (ensures_perform paired.left twins.holds.1).of_ok ran
  have valid : d'.Valid := facts.1
  apply twins.exists_success paired.left paired.right ran (reserve.closed valid)
  · exact fun p provides => .inr provides
  · refine (paired.within reserve given).mono fun p member => ?_
    exact member.imp_right fun provides => provides.grows paired.left facts.2.1
  · intro t validT within
    have bound := Within.size_le within validT
    have small := reserve.size_le
    have full : d'.size ≤ d'.limit := valid.size_le
    have fits := paired.fits (Option.isSome_iff_exists.mpr ⟨reserve, given⟩)
    have same := facts.2.1.limit_eq
    omega

/-- Operations on matching operands have matching results, and succeed together if there is room
for a reserve. -/
theorem shadows_perform (twins : Twins d e operation other) (paired : Paired room d e) :
    Shadows room operation.perform other.perform d e Alike := by
  intro f d' ran
  obtain ⟨valid, grows, holds, value⟩ := (ensures_perform paired.left twins.holds.1).of_ok ran
  have performs := ensures_perform paired.right twins.holds.2
  have follows : Ensures other.perform e
      (fun _ e' => ∀ reserve ∈ room, e'.Within (reserve.beside d'))
      fun _ _ => room.isSome → False := by
    cases room with
    | none =>
      refine Ensures.mono (.trivial _ _) ?_ ?_
      · intro g e' _ reserve given
        exact nomatch given
      · intro _ _ _ impossible
        exact nomatch impossible
    | some reserve =>
      obtain ⟨g, e', succeeded, within⟩ := twins.exists_success_beside paired rfl ran
      unfold Ensures
      rw [succeeded]
      intro other given
      exact Option.some.inj given ▸ within
  refine Ensures.mono (performs.and follows) ?_ ?_
  · intro g e' facts
    obtain ⟨⟨valid', grows', holds', value'⟩, within⟩ := facts
    refine ⟨⟨⟨valid, valid', within, ?_⟩, grows, grows'⟩, holds, holds', fun σ => ?_⟩
    · rw [grows.limit_eq, grows'.limit_eq]
      exact paired.fits
    · rw [value, value', twins.meaning_eq]
  · intro error _ facts roomy
    exact (facts.2 roomy).elim

end Operation

end QuantCircuit.Diagram
