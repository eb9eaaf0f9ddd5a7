import QuantCircuit.Error

namespace QuantCircuit

theorem exists_of_bind_eq_ok {first : Except Error α} {next : α → Except Error β} {b : β}
    (ended : first >>= next = .ok b) : ∃ a, first = .ok a ∧ next a = .ok b := by
  cases first with
  | error e =>
    have failed : (Except.error e : Except Error β) = .ok b := ended
    simp at failed
  | ok a => exact ⟨a, rfl, ended⟩

theorem throw_bind_ne_ok {error : Error} {next : α → Except Error β} {b : β} :
    (throw error >>= next) ≠ .ok b := by
  intro ended
  have failed : (Except.error error : Except Error β) = .ok b := ended
  simp at failed

/-- What every step keeps, a run of steps keeps. -/
theorem foldlM_induction_mem (property : β → Prop) {step : β → α → Except Error β}
    {entries : List α}
    (keeps : ∀ a ∈ entries, ∀ b c, property b → step b a = .ok c → property c) {b c : β}
    (start : property b) (ended : entries.foldlM step b = .ok c) : property c := by
  induction entries generalizing b with
  | nil =>
    obtain rfl := Except.ok.inj ended
    exact start
  | cons a rest ih =>
    rw [List.foldlM_cons] at ended
    obtain ⟨next, first, others⟩ := exists_of_bind_eq_ok ended
    exact ih (fun other member => keeps other (by simp [member]))
      (keeps a (by simp) b next start first) others

theorem foldlM_induction (property : β → Prop) {step : β → α → Except Error β}
    (keeps : ∀ b a c, property b → step b a = .ok c → property c) (entries : List α) {b c : β}
    (start : property b) (ended : entries.foldlM step b = .ok c) : property c :=
  foldlM_induction_mem property (fun a _ b c => keeps b a c) start ended

/-- Run from the state, the work ends in a result and a state with the first property,
or in an error and a state with the second one. -/
def Ensures (work : ExceptT Error (StateM σ) α) (s : σ) (post : α → σ → Prop)
    (fail : Error → σ → Prop) : Prop :=
  match work s with
  | (.ok a, t) => post a t
  | (.error e, t) => fail e t

theorem run_eq_ok {work : ExceptT Error (StateM σ) α} {s : σ} {a : α}
    (returned : (work s).1 = .ok a) : work s = (.ok a, (work s).2) :=
  Prod.ext returned rfl

theorem run_get (next : σ → ExceptT Error (StateM σ) α) (s : σ) : (get >>= next) s = next s s := rfl

theorem run_bind_of_ok {work : ExceptT Error (StateM σ) α} {next : α → ExceptT Error (StateM σ) β}
    {s t : σ} {a : α} (ended : work s = (.ok a, t)) : (work >>= next) s = next a t := by
  simp only [Bind.bind, ExceptT.bind, ExceptT.bindCont, ExceptT.mk, StateT.bind, ended]

theorem run_bind_of_error {work : ExceptT Error (StateM σ) α}
    {next : α → ExceptT Error (StateM σ) β} {s t : σ} {e : Error}
    (ended : work s = (.error e, t)) : (work >>= next) s = (.error e, t) := by
  simp only [Bind.bind, ExceptT.bind, ExceptT.bindCont, ExceptT.mk, StateT.bind, ended]
  rfl

theorem run_discard_of_ok {work : ExceptT Error (StateM σ) α} {s t : σ} {a : α}
    (ended : work s = (.ok a, t)) : discard work s = (.ok (), t) := by
  have discarded : discard work = work >>= fun _ => pure () :=
    map_eq_pure_bind (fun _ => ()) work
  rw [discarded, run_bind_of_ok ended]
  rfl

theorem run_discard_of_error {work : ExceptT Error (StateM σ) α} {s t : σ} {e : Error}
    (ended : work s = (.error e, t)) : discard work s = (.error e, t) := by
  have discarded : discard work = work >>= fun _ => pure () :=
    map_eq_pure_bind (fun _ => ()) work
  rw [discarded, run_bind_of_error ended]

theorem run_lift_of_ok {result : Except Error α} {a : α} (ended : result = .ok a)
    (next : α → ExceptT Error (StateM σ) β) (s : σ) : (liftM result >>= next) s = next a s := by
  subst ended
  rfl

theorem run_lift_of_error {result : Except Error α} {e : Error} (failed : result = .error e)
    (next : α → ExceptT Error (StateM σ) β) (s : σ) :
    (liftM result >>= next) s = (.error e, s) := by
  subst failed
  rfl

theorem run_bind_congr {work other : ExceptT Error (StateM σ) α}
    {next : α → ExceptT Error (StateM σ) β} {s : σ} (same : work s = other s) :
    (work >>= next) s = (other >>= next) s := by
  simp only [Bind.bind, ExceptT.bind, ExceptT.bindCont, ExceptT.mk, StateT.bind, same]

theorem exists_of_run_bind_eq_ok {work : ExceptT Error (StateM σ) α}
    {next : α → ExceptT Error (StateM σ) β} {s u : σ} {b : β}
    (ended : (work >>= next) s = (.ok b, u)) :
    ∃ a t, work s = (.ok a, t) ∧ next a t = (.ok b, u) := by
  rcases first : work s with ⟨result, t⟩
  cases result with
  | ok a => exact ⟨a, t, rfl, (run_bind_of_ok first).symm.trans ended⟩
  | error e =>
    rw [run_bind_of_error first] at ended
    exact absurd (congrArg Prod.fst ended) (by simp)

namespace Ensures

variable {σ α β : Type} {work : ExceptT Error (StateM σ) α} {s : σ}
variable {post : α → σ → Prop} {goal : β → σ → Prop} {fail : Error → σ → Prop}

theorem pure {a : α} (reached : post a s) : Ensures (Pure.pure a) s post fail :=
  reached

theorem throw {e : Error} (failed : fail e s) :
    Ensures (MonadExcept.throw e : ExceptT Error (StateM σ) α) s post fail :=
  failed

theorem trivial (work : ExceptT Error (StateM σ) α) (s : σ) :
    Ensures work s (fun _ _ => True) fun _ _ => True := by
  unfold Ensures
  split <;> exact True.intro

theorem bind {next : α → ExceptT Error (StateM σ) β} (first : Ensures work s post fail)
    (rest : ∀ a t, post a t → Ensures (next a) t goal fail) :
    Ensures (work >>= next) s goal fail := by
  unfold Ensures at *
  simp only [Bind.bind, ExceptT.bind, ExceptT.bindCont, ExceptT.mk, StateT.bind]
  rcases ended : work s with ⟨result, t⟩
  rw [ended] at first
  cases result with
  | ok a => exact rest a t first
  | error e => exact first

theorem of_run {a : α} {t : σ} (ended : work s = (.ok a, t)) (reached : post a t) :
    Ensures work s post fail := by
  unfold Ensures
  rwa [ended]

theorem of_run_bind {next : α → ExceptT Error (StateM σ) β} {a : α} {t : σ}
    (ended : work s = (.ok a, t)) (rest : Ensures (next a) t goal fail) :
    Ensures (work >>= next) s goal fail := by
  unfold Ensures at *
  rwa [run_bind_of_ok ended]

/-- If the first part does not succeed, nothing more happens. -/
theorem bind_of_fails {next : α → ExceptT Error (StateM σ) β}
    (fails : Ensures work s (fun _ _ => False) fail) : Ensures (work >>= next) s goal fail :=
  bind fails fun _ _ => False.elim

theorem map {change : α → β} (ensures : Ensures work s (fun a t => goal (change a) t) fail) :
    Ensures (change <$> work) s goal fail := by
  rw [map_eq_pure_bind]
  exact bind ensures fun _ _ reached => reached

theorem get {next : σ → ExceptT Error (StateM σ) β} (rest : Ensures (next s) s goal fail) :
    Ensures (MonadState.get >>= next) s goal fail :=
  rest

theorem lift {a : α} {next : α → ExceptT Error (StateM σ) β}
    (rest : Ensures (next a) s goal fail) :
    Ensures (liftM (Except.ok a : Except Error α) >>= next) s goal fail :=
  rest

theorem lift_bind {result : Except Error α} {next : α → ExceptT Error (StateM σ) β}
    (failed : ∀ e, result = .error e → fail e s)
    (rest : ∀ a, result = .ok a → Ensures (next a) s goal fail) :
    Ensures (liftM result >>= next) s goal fail := by
  cases result with
  | ok a => exact rest a rfl
  | error e => exact failed e rfl

theorem mono {better : α → σ → Prop} {worse : Error → σ → Prop}
    (ensures : Ensures work s post fail) (reached : ∀ a t, post a t → better a t)
    (failed : ∀ e t, fail e t → worse e t) : Ensures work s better worse := by
  unfold Ensures at *
  rcases ended : work s with ⟨result, t⟩
  rw [ended] at ensures
  cases result with
  | ok a => exact reached a t ensures
  | error e => exact failed e t ensures

theorem mono_fail {worse : Error → σ → Prop} (ensures : Ensures work s post fail)
    (failed : ∀ e t, fail e t → worse e t) : Ensures work s post worse :=
  mono ensures (fun _ _ reached => reached) failed

theorem and {also : α → σ → Prop} {other : Error → σ → Prop} (ensures : Ensures work s post fail)
    (more : Ensures work s also other) :
    Ensures work s (fun a t => post a t ∧ also a t) fun e t => fail e t ∧ other e t := by
  unfold Ensures at *
  rcases ended : work s with ⟨result, t⟩
  rw [ended] at ensures more
  cases result with
  | ok a => exact ⟨ensures, more⟩
  | error e => exact ⟨ensures, more⟩

theorem with_run (ensures : Ensures work s post fail) :
    Ensures work s (fun a t => work s = (.ok a, t) ∧ post a t) fail := by
  unfold Ensures at *
  rcases ended : work s with ⟨result, t⟩
  rw [ended] at ensures
  cases result with
  | ok a => exact ⟨rfl, ensures⟩
  | error e => exact ensures

theorem of_ok {a : α} {t : σ} (ensures : Ensures work s post fail) (ended : work s = (.ok a, t)) :
    post a t := by
  unfold Ensures at ensures
  rwa [ended] at ensures

theorem of_error {e : Error} {t : σ} (ensures : Ensures work s post fail)
    (ended : work s = (.error e, t)) : fail e t := by
  unfold Ensures at ensures
  rwa [ended] at ensures

/-- What the work ensures of the state whether it fails or not. -/
theorem state {property : σ → Prop}
    (ensures : Ensures work s (fun _ t => property t) fun _ t => property t) :
    property (work s).2 := by
  unfold Ensures at ensures
  split at ensures <;> simp_all

end Ensures

end QuantCircuit
