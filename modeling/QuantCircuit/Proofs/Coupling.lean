import QuantCircuit.Proofs.Ensures

/-! Two runs of related work from related states, side by side. Of the leading run it is known
that it succeeds; the following one is shown to keep up with it. -/

namespace QuantCircuit

variable {σ τ α β γ δ ι : Type}

/-- If the leading work succeeds, so does the following one, with a result and a state that are
related to those of the first, or it fails. If it has room, a full table is not the reason. -/
def Coupled (roomy : Prop) (lead : ExceptT Error (StateM σ) α) (follow : ExceptT Error (StateM τ) β)
    (s : σ) (t : τ) (post : α → σ → β → τ → Prop) : Prop :=
  ∀ a s', lead s = (.ok a, s') →
    Ensures follow t (fun b t' => post a s' b t')
      fun error _ => roomy → ∀ limit, error ≠ .tableExhausted limit

namespace Coupled

variable {roomy : Prop} {lead : ExceptT Error (StateM σ) α} {follow : ExceptT Error (StateM τ) β}
variable {s : σ} {t : τ} {mid : α → σ → β → τ → Prop} {post : γ → σ → δ → τ → Prop}

theorem pure {a : α} {b : β} (related : mid a s b t) :
    Coupled roomy (Pure.pure a) (Pure.pure b) s t mid := by
  intro c s' ran
  obtain ⟨same, rfl⟩ := Prod.mk.inj ran
  exact Except.ok.inj same ▸ related

/-- The following work may have more to do. -/
theorem pure_left {a : α} (ensures : Ensures follow t (fun b t' => mid a s b t')
    fun error _ => roomy → ∀ limit, error ≠ .tableExhausted limit) :
    Coupled roomy (Pure.pure a) follow s t mid := by
  intro c s' ran
  obtain ⟨same, rfl⟩ := Prod.mk.inj ran
  obtain rfl := Except.ok.inj same
  exact ensures

theorem of_run {b : β} {s' : σ} {t' : τ} {a : α} (ran : lead s = (.ok a, s'))
    (ranRight : follow t = (.ok b, t')) (related : mid a s' b t') :
    Coupled roomy lead follow s t mid := by
  intro a' s'' again
  obtain ⟨same, rfl⟩ := Prod.mk.inj (ran.symm.trans again)
  obtain rfl := Except.ok.inj same
  unfold Ensures
  rw [ranRight]
  exact related

theorem of_run_bind {b : β} {s' : σ} {t' : τ} {a : α} {next : α → ExceptT Error (StateM σ) γ}
    {other : β → ExceptT Error (StateM τ) δ} (ran : lead s = (.ok a, s'))
    (ranRight : follow t = (.ok b, t')) (rest : Coupled roomy (next a) (other b) s' t' post) :
    Coupled roomy (lead >>= next) (follow >>= other) s t post := by
  intro c s'' ended
  rw [run_bind_of_ok ran] at ended
  exact Ensures.of_run_bind ranRight (rest c s'' ended)

theorem throw (error : Error) :
    Coupled roomy (MonadExcept.throw error : ExceptT Error (StateM σ) α) follow s t mid := by
  intro a s' ran
  have failed : (.error error : Except Error α) = .ok a := congrArg Prod.fst ran
  exact nomatch failed

/-- The following work may fail where no node is made. -/
theorem throw_follow {error : Error} (other : ∀ limit, error ≠ .tableExhausted limit) :
    Coupled roomy lead (MonadExcept.throw error : ExceptT Error (StateM τ) β) s t mid :=
  fun _ _ _ _ => other

theorem bind {next : α → ExceptT Error (StateM σ) γ} {other : β → ExceptT Error (StateM τ) δ}
    (first : Coupled roomy lead follow s t mid)
    (rest : ∀ a s' b t', mid a s' b t' → Coupled roomy (next a) (other b) s' t' post) :
    Coupled roomy (lead >>= next) (follow >>= other) s t post := by
  intro c s'' ran
  obtain ⟨a, s', ended, continued⟩ := exists_of_run_bind_eq_ok ran
  exact Ensures.bind (first a s' ended) fun b t' related => rest a s' b t' related c s'' continued

theorem mono {better : α → σ → β → τ → Prop} (coupled : Coupled roomy lead follow s t mid)
    (implies : ∀ a s' b t', mid a s' b t' → better a s' b t') :
    Coupled roomy lead follow s t better :=
  fun a s' ran => (coupled a s' ran).mono (fun b t' => implies a s' b t') fun _ _ failed => failed

/-- It is enough to keep up with work that does the same from where it begins. -/
theorem congr {lead' : ExceptT Error (StateM σ) α} {follow' : ExceptT Error (StateM τ) β}
    (coupled : Coupled roomy lead' follow' s t mid) (same : lead s = lead' s)
    (sameRight : follow t = follow' t) : Coupled roomy lead follow s t mid := by
  intro a s' ran
  have related := coupled a s' (same ▸ ran)
  unfold Ensures at related ⊢
  rwa [sameRight]

theorem get {next : σ → ExceptT Error (StateM σ) γ} {other : τ → ExceptT Error (StateM τ) δ}
    (rest : Coupled roomy (next s) (other t) s t post) :
    Coupled roomy (MonadState.get >>= next) (MonadState.get >>= other) s t post :=
  rest

theorem get_right {other : τ → ExceptT Error (StateM τ) β}
    (rest : Coupled roomy lead (other t) s t mid) :
    Coupled roomy lead (MonadState.get >>= other) s t mid :=
  rest

theorem modify {change : σ → σ} {other : τ → τ} {mid : Unit → σ → Unit → τ → Prop}
    (related : mid () (change s) () (other t)) :
    Coupled roomy (modifyGet fun s => ((), change s)) (modifyGet fun t => ((), other t)) s t
      mid := by
  intro a s' ran
  obtain rfl := congrArg Prod.snd ran
  exact related

theorem modify_bind {change : σ → σ} {other : τ → τ}
    {next : Unit → ExceptT Error (StateM σ) γ} {later : Unit → ExceptT Error (StateM τ) δ}
    (rest : Coupled roomy (next ()) (later ()) (change s) (other t) post) :
    Coupled roomy ((modifyGet fun s => ((), change s)) >>= next)
      ((modifyGet fun t => ((), other t)) >>= later) s t post :=
  rest

theorem foldlM (rel : γ → σ → δ → τ → Prop) {step : γ → ι → ExceptT Error (StateM σ) γ}
    {other : δ → ι → ExceptT Error (StateM τ) δ} (entries : List ι)
    (each : ∀ entry ∈ entries, ∀ c s d t, rel c s d t →
      Coupled roomy (step c entry) (other d entry) s t rel)
    {c : γ} {d : δ} (start : rel c s d t) :
    Coupled roomy (entries.foldlM step c) (entries.foldlM other d) s t rel := by
  induction entries generalizing c d s t with
  | nil => exact pure start
  | cons entry rest ih =>
    rw [List.foldlM_cons, List.foldlM_cons]
    apply (each entry (by simp) c s d t start).bind
    intro c' s' d' t' related
    exact ih (fun later member => each later (by simp [member])) related

/-- With room, work that fails for a full table only does succeed. -/
theorem succeeds (coupled : Coupled roomy lead follow s t mid) (room : roomy) {a : α} {s' : σ}
    (ran : lead s = (.ok a, s')) {limit : Nat}
    (only : Ensures follow t (fun _ _ => True) fun error _ => error = .tableExhausted limit) :
    ∃ b t', follow t = (.ok b, t') ∧ mid a s' b t' := by
  have related := coupled a s' ran
  rcases ended : follow t with ⟨result, t'⟩
  cases result with
  | ok b => exact ⟨b, t', rfl, related.of_ok ended⟩
  | error e => exact absurd (only.of_error ended) (related.of_error ended room limit)

end Coupled

/-- A way for two runs to advance together: in several steps as in one. -/
def Composes (advance : σ → τ → σ → τ → Prop) : Prop :=
  ∀ s s' s'' t t' t'', advance s t s' t' → advance s' t' s'' t'' → advance s t s'' t''

/-- The following work keeps up with the leading one, and both runs advance in the given way. -/
def Mirrors (advance : σ → τ → σ → τ → Prop) (roomy : Prop)
    (lead : ExceptT Error (StateM σ) α) (follow : ExceptT Error (StateM τ) β) (s : σ) (t : τ)
    (post : α → σ → β → τ → Prop) : Prop :=
  Coupled roomy lead follow s t fun a s' b t' => advance s t s' t' ∧ post a s' b t'

namespace Mirrors

variable {advance : σ → τ → σ → τ → Prop} {roomy : Prop}
variable {lead : ExceptT Error (StateM σ) α} {follow : ExceptT Error (StateM τ) β}
variable {s : σ} {t : τ} {mid : α → σ → β → τ → Prop} {post : γ → σ → δ → τ → Prop}

theorem pure {a : α} {b : β} (still : advance s t s t) (related : mid a s b t) :
    Mirrors advance roomy (Pure.pure a) (Pure.pure b) s t mid :=
  Coupled.pure ⟨still, related⟩

theorem bind {next : α → ExceptT Error (StateM σ) γ} {other : β → ExceptT Error (StateM τ) δ}
    (composes : Composes advance) (first : Mirrors advance roomy lead follow s t mid)
    (rest : ∀ a s' b t', advance s t s' t' → mid a s' b t' →
      Mirrors advance roomy (next a) (other b) s' t' post) :
    Mirrors advance roomy (lead >>= next) (follow >>= other) s t post := by
  apply Coupled.bind first
  intro a s' b t' facts
  apply (rest a s' b t' facts.1 facts.2).mono
  intro c s'' d t'' later
  exact ⟨composes _ _ _ _ _ _ facts.1 later.1, later.2⟩

theorem mono {better : α → σ → β → τ → Prop} (mirrors : Mirrors advance roomy lead follow s t mid)
    (implies : ∀ a s' b t', advance s t s' t' → mid a s' b t' → better a s' b t') :
    Mirrors advance roomy lead follow s t better :=
  Coupled.mono mirrors fun a s' b t' facts => ⟨facts.1, implies a s' b t' facts.1 facts.2⟩

end Mirrors

end QuantCircuit
