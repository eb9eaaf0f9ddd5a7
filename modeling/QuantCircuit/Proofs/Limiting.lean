import QuantCircuit.Proofs.Ensures

/-! Work on a state with a size that may not pass a limit. Work is indifferent to the limit if
there is one end it comes to whenever the limit leaves room for it, and if without that room it
fails for this reason. -/

namespace QuantCircuit

class Limited (σ : Type) where
  size : σ → Nat
  withLimit : σ → Nat → σ

open Limited

variable {σ α β : Type} [Limited σ]

def FillsUp (work : ExceptT Error (StateM σ) α) (s : σ) (limit : Nat) : Prop :=
  ∃ t, work (withLimit s limit) = (.error (.tableExhausted limit), t) ∧ size t = limit

/-- With room enough the work run from the state ends with the result, in the other state;
with less room it fails once that is used up. -/
structure Unbounded (work : ExceptT Error (StateM σ) α) (s : σ) (result : Except Error α) (t : σ) :
    Prop where
  grows : size s ≤ size t
  within : ∀ limit, size t ≤ limit → work (withLimit s limit) = (result, withLimit t limit)
  beyond : ∀ limit, size s ≤ limit → limit < size t → FillsUp work s limit

/-- The limit decides whether the work succeeds, and nothing else. -/
def Indifferent (work : ExceptT Error (StateM σ) α) (s : σ) : Prop :=
  ∃ result t, Unbounded work s result t

namespace Indifferent

variable {work : ExceptT Error (StateM σ) α} {s : σ}

theorem of_same (result : Except Error α)
    (same : ∀ limit, work (withLimit s limit) = (result, withLimit s limit)) :
    Indifferent work s :=
  ⟨result, s, Nat.le_refl _, fun limit _ => same limit,
    fun _ enough less => absurd enough (Nat.not_le.mpr less)⟩

theorem congr {other : ExceptT Error (StateM σ) α} (indifferent : Indifferent other s)
    (same : ∀ limit, work (withLimit s limit) = other (withLimit s limit)) :
    Indifferent work s := by
  obtain ⟨result, t, grows, within, beyond⟩ := indifferent
  refine ⟨result, t, grows, fun limit enough => ?_, fun limit enough less => ?_⟩
  · rw [same, within limit enough]
  · rw [FillsUp, same]
    exact beyond limit enough less

theorem pure (a : α) (s : σ) : Indifferent (Pure.pure a : ExceptT Error (StateM σ) α) s :=
  of_same _ fun _ => rfl

theorem throw (e : Error) (s : σ) :
    Indifferent (MonadExcept.throw e : ExceptT Error (StateM σ) α) s :=
  of_same _ fun _ => rfl

theorem bind {next : α → ExceptT Error (StateM σ) β} (first : Indifferent work s)
    (rest : ∀ a t, Indifferent (next a) t) : Indifferent (work >>= next) s := by
  obtain ⟨result, t, grows, within, beyond⟩ := first
  have exhausted (limit : Nat) (enough : size s ≤ limit) (less : limit < size t) :
      FillsUp (work >>= next) s limit := by
    obtain ⟨full, failed, filled⟩ := beyond limit enough less
    exact ⟨full, run_bind_of_error failed, filled⟩
  cases result with
  | error e =>
    refine ⟨.error e, t, grows, fun limit enough => ?_, exhausted⟩
    exact run_bind_of_error (within limit enough)
  | ok a =>
    obtain ⟨last, u, growsLater, withinLater, beyondLater⟩ := rest a t
    refine ⟨last, u, Nat.le_trans grows growsLater, fun limit enough => ?_,
      fun limit enough less => ?_⟩
    · rw [run_bind_of_ok (within limit (Nat.le_trans growsLater enough))]
      exact withinLater limit enough
    · by_cases reaches : size t ≤ limit
      · rw [FillsUp, run_bind_of_ok (within limit reaches)]
        exact beyondLater limit reaches less
      · exact exhausted limit enough (Nat.lt_of_not_le reaches)

theorem get {next : σ → ExceptT Error (StateM σ) β} (rest : Indifferent (next s) s)
    (blind : ∀ limit, next (withLimit s limit) = next s) :
    Indifferent (MonadState.get >>= next) s := by
  obtain ⟨result, t, grows, within, beyond⟩ := rest
  have read (limit : Nat) :
      (MonadState.get >>= next) (withLimit s limit) = next s (withLimit s limit) :=
    (run_get next _).trans (congrFun (blind limit) _)
  refine ⟨result, t, grows, fun limit enough => ?_, fun limit enough less => ?_⟩
  · rw [read, within limit enough]
  · rw [FillsUp, read]
    exact beyond limit enough less

theorem modify {change : σ → σ} (sized : size (change s) = size s)
    (apart : ∀ limit, change (withLimit s limit) = withLimit (change s) limit) :
    Indifferent (modifyGet fun s => ((), change s) : ExceptT Error (StateM σ) Unit) s := by
  refine ⟨.ok (), change s, Nat.le_of_eq sized.symm, fun limit _ => ?_, fun limit enough less => ?_⟩
  · rw [← apart limit]
    rfl
  · exact absurd enough (Nat.not_le.mpr (sized ▸ less))

theorem foldlM {step : β → α → ExceptT Error (StateM σ) β}
    (each : ∀ b a s, Indifferent (step b a) s) (entries : List α) (b : β) (s : σ) :
    Indifferent (entries.foldlM step b) s := by
  induction entries generalizing b s with
  | nil => exact pure b s
  | cons a rest ih =>
    rw [List.foldlM_cons]
    exact (each b a s).bind fun next t => ih next t

theorem mapM {step : α → ExceptT Error (StateM σ) β} (each : ∀ a s, Indifferent (step a) s)
    (entries : List α) (s : σ) : Indifferent (entries.mapM step) s := by
  induction entries generalizing s with
  | nil => exact pure [] s
  | cons a rest ih =>
    rw [List.mapM_cons]
    exact (each a s).bind fun b t => (ih t).bind fun others u => pure (b :: others) u

/-- Work that succeeds does the same with any higher limit. -/
theorem succeeds_of_le (indifferent : Indifferent work s) {limit higher : Nat} {a : α}
    (fits : size s ≤ limit) (higher_le : limit ≤ higher)
    (succeeded : (work (withLimit s limit)).1 = .ok a) :
    (work (withLimit s higher)).1 = .ok a := by
  obtain ⟨result, t, grows, within, beyond⟩ := indifferent
  have enough : size t ≤ limit := by
    refine Nat.le_of_not_lt fun less => ?_
    obtain ⟨_, failed, _⟩ := beyond limit fits less
    simp [failed] at succeeded
  rw [within limit enough] at succeeded
  rw [within higher (Nat.le_trans enough higher_le)]
  exact succeeded

/-- If it is never for another reason that the work fails, it succeeds with room enough. The
state it ends in tells how much. -/
theorem exists_success (indifferent : Indifferent work s)
    (only : ∀ limit e, size s ≤ limit → (work (withLimit s limit)).1 = .error e →
      e = .tableExhausted limit) :
    ∃ a t, Unbounded work s (.ok a) t := by
  obtain ⟨result, t, grows, within, beyond⟩ := indifferent
  cases result with
  | ok a => exact ⟨a, t, grows, within, beyond⟩
  | error e =>
    have fails (limit : Nat) (enough : size t ≤ limit) : e = .tableExhausted limit := by
      apply only limit e (Nat.le_trans grows enough)
      rw [within limit enough]
    have first := fails (size t) (Nat.le_refl _)
    rw [fails (size t + 1) (Nat.le_succ _)] at first
    exact absurd (Error.tableExhausted.inj first) (Nat.succ_ne_self _)

end Indifferent

end QuantCircuit
