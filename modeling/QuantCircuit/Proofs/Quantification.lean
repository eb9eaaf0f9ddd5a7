import QuantCircuit.Circuit.Evaluate
import QuantCircuit.Circuit.Meaning

/-! Quantifying a function of assignments. A quantifier takes its decisive value iff
some assignment to the quantified variables does, so only the set of variables counts,
not their order or how often they are listed. -/

namespace QuantCircuit

/-- Changing the variable alone never changes the value. -/
def Ignores (f : Assignment → Bool) (v : Nat) : Prop :=
  ∀ σ value, f (σ.set v value) = f σ

/-- Assignments that agree on the given variables have the same value. -/
def ReadsOnly (f : Assignment → Bool) (relevant : Nat → Prop) : Prop :=
  ∀ σ τ, (∀ v, relevant v → σ v = τ v) → f σ = f τ

/-- Setting the variable to the value keeps the decisive value of the quantifier. -/
def Prefers (q : Quantifier) (f : Assignment → Bool) (v : Nat) (value : Bool) : Prop :=
  ∀ σ, f σ = q.decisive → f (σ.set v value) = q.decisive

namespace Assignment

/-- The assignments differ on the listed variables at most. -/
def AgreeOff (vars : List Nat) (σ τ : Assignment) : Prop :=
  ∀ v, v ∉ vars → σ v = τ v

@[simp] theorem set_same (σ : Assignment) (v : Nat) (value : Bool) : σ.set v value v = value := by
  simp [set]

@[simp] theorem set_other (σ : Assignment) (value : Bool) (different : w ≠ v) :
    σ.set v value w = σ w := by
  simp [set, different]

@[simp] theorem set_self (σ : Assignment) (v : Nat) : σ.set v (σ v) = σ := by
  funext w
  by_cases same : w = v
  · subst w; simp
  · simp [same]

theorem ite_set (f : Assignment → α) (σ : Assignment) (v : Nat) :
    (if σ v then f (σ.set v true) else f (σ.set v false)) = f σ := by
  cases value : σ v with
  | true => rw [if_pos rfl, ← value, set_self]
  | false => rw [if_neg Bool.false_ne_true, ← value, set_self]

@[simp] theorem set_set (σ : Assignment) (v : Nat) (first second : Bool) :
    (σ.set v first).set v second = σ.set v second := by
  funext w
  by_cases same : w = v
  · subst w; simp
  · simp [same]

theorem set_comm (σ : Assignment) (first second : Bool) (different : v ≠ w) :
    (σ.set v first).set w second = (σ.set w second).set v first := by
  funext u
  by_cases atV : u = v
  · subst u; simp [different]
  · by_cases atW : u = w
    · subst u; simp [Ne.symm different]
    · simp [atV, atW]

theorem AgreeOff.refl (vars : List Nat) (σ : Assignment) : AgreeOff vars σ σ :=
  fun _ _ => rfl

theorem agreeOff_set (member : v ∈ vars) (σ : Assignment) (value : Bool) :
    AgreeOff vars σ (σ.set v value) := by
  intro w outside
  have different : w ≠ v := fun same => outside (same ▸ member)
  simp [different]

theorem AgreeOff.trans (first : AgreeOff vars σ τ) (second : AgreeOff vars τ υ) :
    AgreeOff vars σ υ :=
  fun v outside => (first v outside).trans (second v outside)

theorem AgreeOff.mono (agree : AgreeOff vars σ τ) (included : ∀ v ∈ vars, v ∈ more) :
    AgreeOff more σ τ :=
  fun v outside => agree v fun member => outside (included v member)

theorem AgreeOff.set (agree : AgreeOff vars σ τ) (v : Nat) (value : Bool) :
    AgreeOff vars (σ.set v value) (τ.set v value) := by
  intro w outside
  by_cases same : w = v
  · subst w; simp
  · simpa [same] using agree w outside

end Assignment

theorem Ignores.comp_set (ignored : Ignores f v) (w : Nat) (value : Bool) :
    Ignores (fun σ => f (σ.set w value)) v := by
  intro σ other
  by_cases same : v = w
  · subst w
    simp
  · simp only [Assignment.set_comm σ other value same, ignored (σ.set w value) other]

theorem Ignores.readsOnly_ne (ignored : Ignores f v) (reads : ReadsOnly f relevant) :
    ReadsOnly f fun w => relevant w ∧ w ≠ v := by
  intro σ τ agree
  rw [← ignored σ (τ v)]
  apply reads
  intro w isRelevant
  by_cases same : w = v
  · subst w; simp
  · simpa [same] using agree w ⟨isRelevant, same⟩

theorem ReadsOnly.ignores (reads : ReadsOnly f relevant) (irrelevant : ¬ relevant v) :
    Ignores f v := by
  intro σ value
  apply reads
  intro w isRelevant
  have different : w ≠ v := fun same => irrelevant (same ▸ isRelevant)
  simp [different]

theorem ReadsOnly.mono (reads : ReadsOnly f relevant)
    (included : ∀ v, relevant v → more v) : ReadsOnly f more :=
  fun σ τ agree => reads σ τ fun v isRelevant => agree v (included v isRelevant)

theorem ReadsOnly.of_ignores_list {vars : List Nat} (reads : ReadsOnly f relevant)
    (ignored : ∀ v ∈ vars, Ignores f v) : ReadsOnly f fun v => relevant v ∧ v ∉ vars := by
  induction vars generalizing relevant with
  | nil => exact reads.mono fun v isRelevant => ⟨isRelevant, by simp⟩
  | cons v rest ih =>
    have fewer := (ignored v (by simp)).readsOnly_ne reads
    have fewest := ih fewer fun w member => ignored w (by simp [member])
    exact fewest.mono fun w facts => ⟨facts.1.1, by simp [facts.1.2, facts.2]⟩

/-- Finitely many ignored variables may change all at once. -/
theorem eq_of_agreeOff (ignored : ∀ v ∈ vars, Ignores f v)
    (agree : Assignment.AgreeOff vars σ τ) : f σ = f τ := by
  induction vars generalizing σ with
  | nil =>
    have same : σ = τ := funext fun v => agree v (by simp)
    rw [same]
  | cons v rest ih =>
    rw [← ignored v (by simp) σ (τ v)]
    apply ih (fun w member => ignored w (by simp [member]))
    intro w outside
    by_cases same : w = v
    · subst w; simp
    · simpa [same] using agree w (by simp [same, outside])

theorem eq_of_eq_decisive {a b decisive : Bool} (same : a = decisive ↔ b = decisive) : a = b := by
  cases a <;> cases b <;> cases decisive <;> simp_all

namespace Quantifier

@[simp] theorem decisive_dual (q : Quantifier) : q.dual.decisive = !q.decisive := by
  cases q <;> rfl

theorem overBool_eq_decisive (q : Quantifier) (p : Bool → Bool) :
    q.overBool p = q.decisive ↔ ∃ value, p value = q.decisive := by
  cases q <;> cases atFalse : p false <;> cases atTrue : p true <;>
    simp [overBool, decisive, atFalse, atTrue]

theorem overBool_of_unsettled (q : Quantifier) {p : Bool → Bool}
    (unsettled : ¬ p false = q.decisive) : q.overBool p = p true := by
  cases q <;> simp_all [overBool, decisive]

@[simp] theorem overBool_const (q : Quantifier) (value : Bool) :
    q.overBool (fun _ => value) = value := by
  cases q <;> cases value <;> rfl

theorem overBool_mono (q : Quantifier) {p r : Bool → Bool} {goal : Bool}
    (better : ∀ value, p value = goal → r value = goal) (reached : q.overBool p = goal) :
    q.overBool r = goal := by
  cases q <;> cases goal <;>
    simp only [overBool, Bool.and_eq_true, Bool.or_eq_true, Bool.and_eq_false_iff,
      Bool.or_eq_false_iff] at reached ⊢ <;>
    exact reached.imp (better _) (better _)

theorem overBool_dual (q : Quantifier) (p : Bool → Bool) :
    q.dual.overBool (fun value => !p value) = !q.overBool p := by
  cases q <;> simp [overBool, dual]

/-- The quantifier is settled iff some assignment to its variables settles it. -/
theorem overVars_eq_decisive (q : Quantifier) (p : Assignment → Bool) (vars : List Nat)
    (σ : Assignment) :
    q.overVars p vars σ = q.decisive ↔ ∃ τ, σ.AgreeOff vars τ ∧ p τ = q.decisive := by
  induction vars generalizing σ with
  | nil =>
    constructor
    · intro settled
      exact ⟨σ, .refl _ σ, settled⟩
    · rintro ⟨τ, agree, settled⟩
      have same : σ = τ := funext fun v => agree v (by simp)
      rw [same]
      exact settled
  | cons v rest ih =>
    rw [overVars, overBool_eq_decisive]
    constructor
    · rintro ⟨value, settled⟩
      obtain ⟨τ, agree, reached⟩ := (ih _).mp settled
      refine ⟨τ, ?_, reached⟩
      exact (Assignment.agreeOff_set (by simp) σ value).trans
        (agree.mono fun w member => by simp [member])
    · rintro ⟨τ, agree, reached⟩
      refine ⟨τ v, (ih _).mpr ⟨τ, ?_, reached⟩⟩
      intro w outside
      by_cases same : w = v
      · subst w; simp
      · simpa [same] using agree w (by simp [same, outside])

theorem overVars_all_iff (p : Assignment → Bool) (vars : List Nat) (σ : Assignment) :
    all.overVars p vars σ = true ↔ ∀ τ, σ.AgreeOff vars τ → p τ = true := by
  have refuted := overVars_eq_decisive all p vars σ
  simp only [decisive] at refuted
  constructor
  · intro holds τ agree
    cases value : p τ with
    | true => rfl
    | false => exact absurd (refuted.mpr ⟨τ, agree, value⟩) (by simp [holds])
  · intro everywhere
    cases value : all.overVars p vars σ with
    | true => rfl
    | false =>
      obtain ⟨τ, agree, fails⟩ := refuted.mp value
      simp [everywhere τ agree] at fails

theorem overVars_ex_iff (p : Assignment → Bool) (vars : List Nat) (σ : Assignment) :
    ex.overVars p vars σ = true ↔ ∃ τ, σ.AgreeOff vars τ ∧ p τ = true :=
  overVars_eq_decisive ex p vars σ

theorem overVars_congr_mem (q : Quantifier) (p : Assignment → Bool)
    (same : ∀ v, v ∈ vars ↔ v ∈ others) : q.overVars p vars = q.overVars p others := by
  funext σ
  apply eq_of_eq_decisive
  rw [overVars_eq_decisive, overVars_eq_decisive]
  have agree (τ : Assignment) : σ.AgreeOff vars τ ↔ σ.AgreeOff others τ :=
    ⟨fun h => h.mono fun v => (same v).mp, fun h => h.mono fun v => (same v).mpr⟩
  simp only [agree]

theorem overVars_append (q : Quantifier) (p : Assignment → Bool) (vars others : List Nat) :
    q.overVars p (vars ++ others) = q.overVars (q.overVars p others) vars := by
  induction vars with
  | nil => rfl
  | cons v rest ih =>
    funext σ
    simp only [List.cons_append, overVars, ih]

theorem overVars_dual (q : Quantifier) (p : Assignment → Bool) (vars : List Nat)
    (σ : Assignment) : q.dual.overVars (fun τ => !p τ) vars σ = !q.overVars p vars σ := by
  induction vars generalizing σ with
  | nil => rfl
  | cons v rest ih => simp only [overVars, ih, overBool_dual]

theorem overVars_mono (q : Quantifier) {p r : Assignment → Bool} {goal : Bool}
    (better : ∀ τ, p τ = goal → r τ = goal) (reached : q.overVars p vars σ = goal) :
    q.overVars r vars σ = goal := by
  induction vars generalizing σ with
  | nil => exact better σ reached
  | cons v rest ih => exact overBool_mono q (fun _ => ih) reached

theorem overVars_congr (q : Quantifier) {p r : Assignment → Bool}
    (same : ∀ τ, σ.AgreeOff vars τ → p τ = r τ) :
    q.overVars p vars σ = q.overVars r vars σ := by
  apply eq_of_eq_decisive
  rw [overVars_eq_decisive, overVars_eq_decisive]
  constructor
  · rintro ⟨τ, agree, reached⟩
    exact ⟨τ, agree, same τ agree ▸ reached⟩
  · rintro ⟨τ, agree, reached⟩
    exact ⟨τ, agree, (same τ agree).symm ▸ reached⟩

@[simp] theorem overVars_const (q : Quantifier) (value : Bool) (vars : List Nat) :
    q.overVars (fun _ => value) vars = fun _ => value := by
  funext σ
  induction vars generalizing σ with
  | nil => rfl
  | cons v rest ih => simp only [overVars, ih, overBool_const]

theorem overVars_of_ignores (q : Quantifier) (ignored : ∀ v ∈ vars, Ignores p v) :
    q.overVars p vars = p := by
  funext σ
  rw [overVars_congr q (r := fun _ => p σ) fun τ agree => (eq_of_agreeOff ignored agree).symm,
    overVars_const]

/-- Setting a variable that is not quantified commutes with quantification. -/
theorem overVars_set (q : Quantifier) (p : Assignment → Bool) (outside : v ∉ vars)
    (σ : Assignment) (value : Bool) :
    q.overVars p vars (σ.set v value) = q.overVars (fun τ => p (τ.set v value)) vars σ := by
  induction vars generalizing σ with
  | nil => rfl
  | cons w rest ih =>
    have different : v ≠ w := fun same => outside (by simp [same])
    have outsideRest : v ∉ rest := fun member => outside (by simp [member])
    simp only [overVars, Assignment.set_comm σ _ _ different, ih outsideRest]

theorem ignores_overVars_of_mem (q : Quantifier) (p : Assignment → Bool) (member : v ∈ vars) :
    Ignores (q.overVars p vars) v := by
  intro σ value
  apply eq_of_eq_decisive
  rw [overVars_eq_decisive, overVars_eq_decisive]
  have moved := Assignment.agreeOff_set member σ value
  have back : Assignment.AgreeOff vars (σ.set v value) σ := fun w out => (moved w out).symm
  constructor
  · rintro ⟨τ, agree, reached⟩
    exact ⟨τ, moved.trans agree, reached⟩
  · rintro ⟨τ, agree, reached⟩
    exact ⟨τ, back.trans agree, reached⟩

theorem ignores_overVars (q : Quantifier) (ignored : Ignores p v) (vars : List Nat) :
    Ignores (q.overVars p vars) v := by
  by_cases member : v ∈ vars
  · exact ignores_overVars_of_mem q p member
  · intro σ value
    rw [overVars_set q p member]
    exact overVars_congr q fun τ _ => ignored τ value

theorem readsOnly_overVars (q : Quantifier) (reads : ReadsOnly p relevant) (vars : List Nat) :
    ReadsOnly (q.overVars p vars) fun v => relevant v ∧ v ∉ vars := by
  have sameReads : ReadsOnly (q.overVars p vars) relevant := by
    intro σ τ agree
    induction vars generalizing σ τ with
    | nil => exact reads σ τ agree
    | cons v rest ih =>
      have step (value : Bool) : q.overVars p rest (σ.set v value) =
          q.overVars p rest (τ.set v value) := by
        apply ih
        intro w isRelevant
        by_cases same : w = v
        · subst w; simp
        · simp [same, agree w isRelevant]
      simp only [overVars, step]
  exact sameReads.of_ignores_list fun v member => ignores_overVars_of_mem q p member

end Quantifier

theorem Prefers.overVars (prefers : Prefers q f v value) (r : Quantifier) (outside : v ∉ vars) :
    Prefers q (r.overVars f vars) v value := by
  intro σ reached
  rw [Quantifier.overVars_set r f outside]
  exact Quantifier.overVars_mono r prefers reached

/-- The quantifier of a variable may fix it to a value it prefers. -/
theorem Prefers.overVars_eq (prefers : Prefers q f v value) (member : v ∈ vars) :
    q.overVars (fun τ => f (τ.set v value)) vars = q.overVars f vars := by
  funext σ
  apply eq_of_eq_decisive
  rw [Quantifier.overVars_eq_decisive, Quantifier.overVars_eq_decisive]
  constructor
  · rintro ⟨τ, agree, reached⟩
    exact ⟨τ.set v value, agree.trans (Assignment.agreeOff_set member τ value), reached⟩
  · rintro ⟨τ, agree, reached⟩
    exact ⟨τ, agree, prefers τ reached⟩

namespace Block

theorem close_append (p : Assignment → Bool) (blocks more : List Block) :
    close p (blocks ++ more) = close (close p more) blocks := by
  induction blocks with
  | nil => rfl
  | cons block rest ih => simp only [List.cons_append, close, ih]

@[simp] theorem close_const (value : Bool) (blocks : List Block) :
    close (fun _ => value) blocks = fun _ => value := by
  induction blocks with
  | nil => rfl
  | cons block rest ih => simp only [close, ih, Quantifier.overVars_const]

theorem close_set (p : Assignment → Bool) (blocks : List Block)
    (outside : ∀ block ∈ blocks, v ∉ block.vars) (σ : Assignment) (value : Bool) :
    close p blocks (σ.set v value) = close (fun τ => p (τ.set v value)) blocks σ := by
  induction blocks generalizing σ with
  | nil => rfl
  | cons block rest ih =>
    have step : (fun τ : Assignment => close p rest (τ.set v value)) =
        close (fun τ => p (τ.set v value)) rest :=
      funext fun τ => ih (fun other member => outside other (by simp [member])) τ
    rw [close, Quantifier.overVars_set _ _ (outside block (by simp)), step, close]

theorem ignores_close (ignored : Ignores p v) (blocks : List Block) :
    Ignores (close p blocks) v := by
  induction blocks with
  | nil => exact ignored
  | cons block rest ih => exact Quantifier.ignores_overVars _ ih _

theorem ignores_close_of_mem (p : Assignment → Bool) (present : block ∈ blocks)
    (member : v ∈ block.vars) : Ignores (close p blocks) v := by
  induction blocks with
  | nil => simp at present
  | cons first rest ih =>
    rcases List.mem_cons.mp present with same | later
    · subst first
      exact Quantifier.ignores_overVars_of_mem _ _ member
    · exact Quantifier.ignores_overVars _ (ih later) _

theorem readsOnly_close (reads : ReadsOnly p relevant) (blocks : List Block) :
    ReadsOnly (close p blocks) fun v => relevant v ∧ ∀ block ∈ blocks, v ∉ block.vars := by
  induction blocks with
  | nil => exact reads.mono fun v isRelevant => ⟨isRelevant, by simp⟩
  | cons block rest ih =>
    refine (Quantifier.readsOnly_overVars block.quantifier ih block.vars).mono ?_
    rintro v ⟨⟨isRelevant, outside⟩, outsideFirst⟩
    exact ⟨isRelevant, by simpa [outsideFirst] using outside⟩

end Block

theorem Prefers.close (prefers : Prefers q f v value) (blocks : List Block)
    (outside : ∀ block ∈ blocks, v ∉ block.vars) : Prefers q (Block.close f blocks) v value := by
  intro σ reached
  induction blocks generalizing σ with
  | nil => exact prefers σ reached
  | cons block rest ih =>
    have inner : Prefers q (Block.close f rest) v value :=
      ih fun other member => outside other (by simp [member])
    exact inner.overVars block.quantifier (outside block (by simp)) σ reached

theorem Prefers.close_eq (prefers : Prefers block.quantifier f v value) (member : v ∈ block.vars)
    (before after : List Block) (outside : ∀ other ∈ after, v ∉ other.vars) :
    Block.close (fun τ => f (τ.set v value)) (before ++ block :: after) =
      Block.close f (before ++ block :: after) := by
  have inner : Block.close (fun τ => f (τ.set v value)) after =
      fun τ => Block.close f after (τ.set v value) :=
    funext fun τ => (Block.close_set f after outside τ value).symm
  rw [Block.close_append, Block.close_append, Block.close, Block.close, inner,
    (prefers.close after outside).overVars_eq member]

/-- Turning the variable on never turns the function off. -/
def Increasing (f : Assignment → Bool) (v : Nat) : Prop :=
  ∀ σ : Assignment, f (σ.set v false) = true → f (σ.set v true) = true

def Decreasing (f : Assignment → Bool) (v : Nat) : Prop :=
  ∀ σ : Assignment, f (σ.set v true) = true → f (σ.set v false) = true

/-- An increasing function prefers true under an existential quantifier, and false under
a universal one. -/
theorem Increasing.prefers (increasing : Increasing f v) (q : Quantifier) :
    Prefers q f v (q = .ex) := by
  intro σ reached
  have monotone := increasing σ
  rw [← Assignment.ite_set f σ v] at reached
  cases q <;> cases decision : σ v <;> rw [decision] at reached
  · exact reached
  · exact Bool.eq_false_iff.mpr fun below => by simp [monotone below, Quantifier.decisive] at reached
  · exact monotone reached
  · exact reached

theorem Decreasing.prefers (decreasing : Decreasing f v) (q : Quantifier) :
    Prefers q f v (q = .all) := by
  intro σ reached
  have monotone := decreasing σ
  rw [← Assignment.ite_set f σ v] at reached
  cases q <;> cases decision : σ v <;> rw [decision] at reached
  · exact Bool.eq_false_iff.mpr fun above => by simp [monotone above, Quantifier.decisive] at reached
  · exact reached
  · exact reached
  · exact monotone reached

end QuantCircuit
