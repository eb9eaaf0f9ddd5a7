import QuantCircuit.Proofs.Solver.Pacing
import QuantCircuit.Proofs.Solver.Releasing

/-! Releasing and collecting beside another run: what the following solver forgets it need not
match, and what it keeps it keeps under new handles. -/

namespace QuantCircuit.Solver

open Diagram

variable {spare : Nat} {room : Option (Reserve spare)} {s t : Solver} {d d' e e' : Diagram}
variable {functions slots : Array (Option Handle)} {state other after : Compilation}
variable {uses : Array (Option Nat)} {maxVar target id : Nat} {gate : Gate}

/-- Both solvers may change their tables, and what is kept in reserve. -/
theorem Follows.retabled {room' : Option (Reserve spare)} (follows : Follows room s t)
    (fewer : room'.isSome → room.isSome) (paired : Paired room' d e)
    (collections collections' : Nat) :
    Follows room' (s.retabled d collections) (t.retabled e collections') where
  circuit_eq := follows.circuit_eq
  options_eq := follows.options_eq
  fold_eq roomy := follows.fold_eq (fewer roomy)
  forced_eq := follows.forced_eq
  outer_eq := follows.outer_eq
  paired := paired
  tracks := ⟨follows.tracks.units_eq, follows.tracks.pures_eq,
    fun roomy => follows.tracks.peak_le (fewer roomy)⟩

/-- The following solver may forget functions. -/
theorem Covers.thin {kept : Nat → Prop} (covers : Covers d e functions other.functions)
    (thins : Thins other after kept) : Covers d e functions after.functions where
  size_eq := thins.1.trans covers.size_eq
  holds_left := covers.holds_left
  exists_match position g found := covers.exists_match position g (thins.2.1 position g found)

/-- After a collection the following solver has no functions but those of the leading one. -/
theorem Covers.small_or_within (covers : Covers d e functions other.functions) (valid : d.Valid)
    (tidies : Tidies other e after e') :
    (e' = e ∧ after = other ∧ e.size ≤ other.collectAbove) ∨
      (after.collectAbove = max (e.limit / 2) (e'.size + (e.limit - e'.size) / 2) ∧
        e'.Within d.Provides) := by
  apply tidies.small_or_swept.imp_right
  intro swept
  refine ⟨swept.1, swept.2 _ (closed_provides valid) ?_ ?_⟩
  · intro value
    exact ⟨.const value, holds_const _ _, fun σ => value_const _ σ value⟩
  · intro position g found
    obtain ⟨f, _, same⟩ := covers.exists_match position g found
    exact ⟨f, same.left, same.value_eq⟩

/-- What is found after a collection is what was there before, under its new handle. -/
theorem Tidies.exists_match (tidies : Tidies state d after d') {position : Nat} {k : Handle}
    (found : after.functions[position]? = some (some k)) :
    ∃ f, state.functions[position]? = some (some f) ∧ Matches d d' f k := by
  obtain ⟨move, moved, same⟩ := tidies.moved
  rw [moved position, Option.map_eq_some_iff] at found
  obtain ⟨slot, located, present⟩ := found
  obtain ⟨f, rfl, rfl⟩ := Option.map_eq_some_iff.mp present
  exact ⟨f, located, same position f located⟩

/-- It may move what it has. -/
theorem Covers.tidy (covers : Covers d e functions other.functions)
    (tidies : Tidies other e after e') : Covers d e' functions after.functions where
  size_eq := tidies.size_eq.trans covers.size_eq
  holds_left := covers.holds_left
  exists_match := by
    intro position k found
    obtain ⟨g, located, same⟩ := tidies.exists_match found
    obtain ⟨f, there, matched⟩ := covers.exists_match position g located
    exact ⟨f, there, matched.trans same⟩

theorem Covers.tidy_left (covers : Covers d e state.functions slots)
    (tidies : Tidies state d after d') : Covers d' e after.functions slots where
  size_eq := covers.size_eq.trans tidies.size_eq.symm
  holds_left := by
    intro position k found
    obtain ⟨_, _, same⟩ := tidies.exists_match found
    exact same.right
  exists_match := by
    intro position g found
    obtain ⟨move, moved, same⟩ := tidies.moved
    obtain ⟨f, there, matched⟩ := covers.exists_match position g found
    refine ⟨move f, ?_, (same position f there).symm.trans matched⟩
    rw [moved position, there]
    rfl

theorem Covers.holds_right (covers : Covers d e functions slots) (position : Nat) (g : Handle)
    (found : slots[position]? = some (some g)) : e.Holds g := by
  obtain ⟨f, _, same⟩ := covers.exists_match position g found
  exact same.right

/-- If both solvers release the same, nothing changes between them. -/
theorem Covers.release (covers : Covers d e state.functions other.functions) (position : Nat) :
    Covers d e (state.release position).functions (other.release position).functions where
  size_eq := by simpa [Compilation.release] using covers.size_eq
  holds_left := by
    intro place f found
    rw [release_getElem?] at found
    split at found
    · simp at found
    · exact covers.holds_left place f found
  exists_match := by
    intro place g found
    rw [release_getElem?] at found
    split at found
    · simp at found
    · rename_i different
      obtain ⟨f, there, same⟩ := covers.exists_match place g found
      exact ⟨f, by rw [release_getElem?, if_neg different, there], same⟩

theorem Covers.releaseUnused (covers : Covers d e state.functions other.functions) :
    Covers d e (releaseUnused maxVar uses target id gate state).functions
      (releaseUnused maxVar uses target id gate other).functions := by
  have inputs (literals : List Literal) {state other : Compilation}
      (covers : Covers d e state.functions other.functions) :
      Covers d e (literals.foldl (releaseInput maxVar uses id) state).functions
        (literals.foldl (releaseInput maxVar uses id) other).functions := by
    induction literals generalizing state other with
    | nil => exact covers
    | cons l rest ih =>
      rw [List.foldl_cons, List.foldl_cons]
      apply ih
      unfold releaseInput
      split
      · exact covers.release _
      · exact covers
  rw [releaseUnused_eq, releaseUnused_eq]
  split
  · exact (inputs _ covers).release _
  · exact inputs _ covers

@[simp] theorem collectAbove_releaseUnused (maxVar : Nat) (uses : Array (Option Nat))
    (target id : Nat) (gate : Gate) (state : Compilation) :
    (Solver.releaseUnused maxVar uses target id gate state).collectAbove = state.collectAbove := by
  have inputs (literals : List Literal) (state : Compilation) :
      (literals.foldl (releaseInput maxVar uses id) state).collectAbove = state.collectAbove := by
    induction literals generalizing state with
    | nil => rfl
    | cons l rest ih =>
      rw [List.foldl_cons, ih]
      unfold releaseInput
      split <;> rfl
  rw [releaseUnused_eq]
  split <;> exact inputs _ state

end QuantCircuit.Solver
