import QuantCircuit.Proofs.Diagram.Stocking
import QuantCircuit.Proofs.Solver.Combining
import QuantCircuit.Proofs.Solver.Working

namespace QuantCircuit.Solver

open Diagram

variable {c : Circuit} {d d' e : Diagram} {state after : Compilation} {uses : Array (Option Nat)}
variable {gate : Gate} {maxVar id next target position : Nat} {s t : Solver}

/-- A gate with an identifier that is not below the bound reads the gate at the position. -/
def UsedFrom (bound : Nat) (uses : Array (Option Nat)) (position : Nat) : Prop :=
  ∃ last, uses[position]? = some (some last) ∧ bound ≤ last

def noteUse (maxVar id : Nat) (uses : Array (Option Nat)) (l : Literal) : Array (Option Nat) :=
  if l.natAbs < maxVar then uses else uses.setIfInBounds (l.natAbs - maxVar) (some id)

theorem lastUses_eq (maxVar : Nat) (gates : List (Gate × Nat)) :
    lastUses maxVar gates =
      gates.foldl (fun uses entry => entry.1.inputs.foldl (noteUse maxVar entry.2) uses)
        (Array.replicate gates.length none) := rfl

@[simp] theorem size_noteUse (maxVar id : Nat) (uses : Array (Option Nat)) (l : Literal) :
    (noteUse maxVar id uses l).size = uses.size := by
  unfold noteUse
  split <;> simp

@[simp] theorem size_noteUses (maxVar id : Nat) (inputs : List Literal)
    (uses : Array (Option Nat)) :
    (inputs.foldl (noteUse maxVar id) uses).size = uses.size := by
  induction inputs generalizing uses with
  | nil => rfl
  | cons l rest ih => rw [List.foldl_cons, ih, size_noteUse]

theorem UsedFrom.noteUse (used : UsedFrom bound uses position) (later : bound ≤ id)
    (l : Literal) : UsedFrom bound (noteUse maxVar id uses l) position := by
  unfold Solver.noteUse
  split
  · exact used
  · obtain ⟨last, found, behind⟩ := used
    by_cases same : l.natAbs - maxVar = position
    · have inside := (Array.getElem?_eq_some_iff.mp found).1
      exact ⟨id, by simp [same, inside], later⟩
    · exact ⟨last, by simp [same, found], behind⟩

theorem UsedFrom.noteUses (used : UsedFrom bound uses position) (later : bound ≤ id)
    (inputs : List Literal) :
    UsedFrom bound (inputs.foldl (Solver.noteUse maxVar id) uses) position := by
  induction inputs generalizing uses with
  | nil => exact used
  | cons l rest ih => exact ih (used.noteUse later l)

/-- Later gates do not make a gate less used. -/
theorem UsedFrom.noteGates (used : UsedFrom bound uses position) {gates : List (Gate × Nat)}
    (later : ∀ entry ∈ gates, bound ≤ entry.2) :
    UsedFrom bound
      (gates.foldl (fun uses entry => entry.1.inputs.foldl (Solver.noteUse maxVar entry.2) uses)
        uses) position := by
  induction gates generalizing uses with
  | nil => exact used
  | cons entry rest ih =>
    exact ih (used.noteUses (later entry (by simp)) _)
      fun other member => later other (by simp [member])

theorem usedFrom_noteUses {inputs : List Literal} {l : Literal} (member : l ∈ inputs)
    (isGate : maxVar ≤ l.natAbs) (inside : l.natAbs - maxVar < uses.size) :
    UsedFrom id (inputs.foldl (noteUse maxVar id) uses) (l.natAbs - maxVar) := by
  induction inputs generalizing uses with
  | nil => simp at member
  | cons first rest ih =>
    rcases List.mem_cons.mp member with rfl | later
    · have noted : UsedFrom id (noteUse maxVar id uses l) (l.natAbs - maxVar) :=
        ⟨id, by simp [noteUse, Nat.not_lt.mpr isGate, inside], Nat.le_refl _⟩
      exact noted.noteUses (Nat.le_refl id) rest
    · exact ih later (by simpa using inside)

theorem usedFrom_noteGates {gates : List (Gate × Nat)}
    (increasing : gates.Pairwise fun first second => first.2 ≤ second.2)
    (member : (gate, id) ∈ gates) {l : Literal} (read : l ∈ gate.inputs)
    (isGate : maxVar ≤ l.natAbs) (inside : l.natAbs - maxVar < uses.size) :
    UsedFrom id
      (gates.foldl (fun uses entry => entry.1.inputs.foldl (noteUse maxVar entry.2) uses) uses)
      (l.natAbs - maxVar) := by
  induction gates generalizing uses with
  | nil => simp at member
  | cons first rest ih =>
    obtain ⟨least, increasingRest⟩ := List.pairwise_cons.mp increasing
    rcases List.mem_cons.mp member with rfl | later
    · exact (usedFrom_noteUses read isGate inside).noteGates least
    · exact ih increasingRest later (by simpa using inside)

/-- The last use of a gate does not come before any of its uses. -/
theorem usedFrom_lastUses {gates : List (Gate × Nat)}
    (increasing : gates.Pairwise fun first second => first.2 ≤ second.2)
    (member : (gate, id) ∈ gates) {l : Literal} (read : l ∈ gate.inputs)
    (isGate : maxVar ≤ l.natAbs) (inside : l.natAbs - maxVar < gates.length) :
    UsedFrom id (lastUses maxVar gates) (l.natAbs - maxVar) := by
  rw [lastUses_eq]
  exact usedFrom_noteGates increasing member read isGate (by simpa using inside)

/-- A function in this place is read by a gate behind the bound, or asked for in the end. -/
def Needed (c : Circuit) (uses : Array (Option Nat)) (target bound position : Nat) : Prop :=
  c.maxVar + position = target ∨ UsedFrom bound uses position

theorem release_getElem? (state : Compilation) (released position : Nat) :
    (state.release released).functions[position]? =
      if released = position then (state.functions[position]?).map fun _ => none
      else state.functions[position]? := by
  simp only [Compilation.release, Array.getElem?_setIfInBounds]
  by_cases same : released = position
  · subst released
    by_cases inside : position < state.functions.size <;> simp [inside]
  · simp [same]

/-- The table holds fewer functions than before, and still those at some positions. -/
def Thins (state after : Compilation) (kept : Nat → Prop) : Prop :=
  after.functions.size = state.functions.size ∧
    (∀ (position : Nat) (f : Handle), after.functions[position]? = some (some f) →
      state.functions[position]? = some (some f)) ∧
    ∀ position, kept position → after.functions[position]? = state.functions[position]?

theorem Thins.refl (state : Compilation) (kept : Nat → Prop) : Thins state state kept :=
  ⟨rfl, fun _ _ found => found, fun _ _ => rfl⟩

theorem Thins.trans {middle : Compilation} {kept : Nat → Prop}
    (first : Thins state middle kept) (second : Thins middle after kept) :
    Thins state after kept :=
  ⟨second.1.trans first.1, fun position f found => first.2.1 position f (second.2.1 position f found),
    fun position keep => (second.2.2 position keep).trans (first.2.2 position keep)⟩

theorem thins_release {kept : Nat → Prop} (dropped : ¬ kept position) :
    Thins state (state.release position) kept := by
  refine ⟨by simp [Compilation.release], ?_, ?_⟩
  · intro other f found
    rw [release_getElem?] at found
    split at found
    · simp at found
    · exact found
  · intro other keep
    have different : position ≠ other := fun same => dropped (same ▸ keep)
    rw [release_getElem?, if_neg different]

def releaseInput (maxVar : Nat) (uses : Array (Option Nat)) (id : Nat) (state : Compilation)
    (l : Literal) : Compilation :=
  if maxVar ≤ l.natAbs ∧ uses[l.natAbs - maxVar]? = some (some id) then
    state.release (l.natAbs - maxVar)
  else state

theorem releaseUnused_eq (maxVar : Nat) (uses : Array (Option Nat)) (target id : Nat) (gate : Gate)
    (state : Compilation) :
    releaseUnused maxVar uses target id gate state =
      if id ≠ target ∧ uses[id - maxVar]? = some none then
        (gate.inputs.foldl (releaseInput maxVar uses id) state).release (id - maxVar)
      else gate.inputs.foldl (releaseInput maxVar uses id) state := rfl

theorem thins_releaseInputs {kept : Nat → Prop} {inputs : List Literal}
    (reads : ∀ l ∈ inputs, maxVar ≤ l.natAbs → uses[l.natAbs - maxVar]? = some (some id) →
      ¬ kept (l.natAbs - maxVar)) :
    Thins state (inputs.foldl (releaseInput maxVar uses id) state) kept := by
  induction inputs generalizing state with
  | nil => exact .refl state _
  | cons l rest ih =>
    refine Thins.trans ?_ (ih fun other member => reads other (by simp [member]))
    unfold releaseInput
    split
    · rename_i lastUse
      exact thins_release (reads l (by simp) lastUse.1 lastUse.2)
    · exact .refl state _

/-- What may be dropped is what gate `id` reads for the last time, and the gate itself if it is not
read. -/
theorem thins_releaseUnused_of {kept : Nat → Prop}
    (reads : ∀ l ∈ gate.inputs, maxVar ≤ l.natAbs → uses[l.natAbs - maxVar]? = some (some id) →
      ¬ kept (l.natAbs - maxVar))
    (unread : id ≠ target → uses[id - maxVar]? = some none → ¬ kept (id - maxVar)) :
    Thins state (releaseUnused maxVar uses target id gate state) kept := by
  rw [releaseUnused_eq]
  split
  · rename_i unused
    exact (thins_releaseInputs reads).trans (thins_release (unread unused.1 unused.2))
  · exact thins_releaseInputs reads

theorem thins_releaseUnused_any (maxVar : Nat) (uses : Array (Option Nat)) (target id : Nat)
    (gate : Gate) (state : Compilation) :
    Thins state (releaseUnused maxVar uses target id gate state) fun _ => False :=
  thins_releaseUnused_of (fun _ _ _ _ => not_false) fun _ _ => not_false

/-- Gate `id` releases only what no later gate reads and nobody asks for in the end. -/
theorem thins_releaseUnused (isGate : c.maxVar ≤ id) (earlier : ∀ l ∈ gate.inputs, l.natAbs < id)
    (early : id ≤ target) :
    Thins state (releaseUnused c.maxVar uses target id gate state)
      (Needed c uses target (id + 1)) := by
  apply thins_releaseUnused_of
  · intro l member readsGate lastUse needed
    rcases needed with same | ⟨last, found, behind⟩
    · rw [Nat.add_sub_cancel' readsGate] at same
      have before := earlier l member
      omega
    · rw [lastUse] at found
      obtain rfl : id = last := by simpa using found
      omega
  · intro different unused needed
    rcases needed with same | ⟨last, found, _⟩
    · rw [Nat.add_sub_cancel' isGate] at same
      exact different same
    · simp [unused] at found

theorem refill_map (slots : List (Option Handle)) (move : Handle → Handle) :
    Compilation.refill slots ((slots.filterMap fun slot => slot).map move) =
      slots.map (Option.map move) := by
  induction slots with
  | nil => rfl
  | cons slot rest ih =>
    cases slot with
    | none => simpa [Compilation.refill] using ih
    | some f => simpa [Compilation.refill] using ih

/-- The table with all functions moved. -/
def Moved (state after : Compilation) (move : Handle → Handle) : Prop :=
  ∀ position : Nat, after.functions[position]? = (state.functions[position]?).map (Option.map move)

theorem mem_slots_iff {functions : Array (Option Handle)} {f : Handle} :
    f ∈ functions.toList.filterMap (fun slot => slot) ↔
      ∃ position : Nat, functions[position]? = some (some f) := by
  constructor
  · intro member
    obtain ⟨slot, listed, same⟩ := List.mem_filterMap.mp member
    obtain ⟨position, found⟩ := List.mem_iff_getElem?.mp (same ▸ listed)
    exact ⟨position, by simpa using found⟩
  · intro present
    obtain ⟨position, found⟩ := present
    refine List.mem_filterMap.mpr ⟨some f, ?_, rfl⟩
    exact List.mem_iff_getElem?.mpr ⟨position, by simpa using found⟩

/-- The functions held are where they were, under other handles. The collection may have been left
out because the table was small; otherwise nothing but the functions and what lies below them is
there, and the threshold is set anew. -/
structure Tidies (state : Compilation) (d : Diagram) (after : Compilation) (d' : Diagram) :
    Prop where
  valid : d'.Valid
  limit_eq : d'.limit = d.limit
  size_eq : after.functions.size = state.functions.size
  moved : ∃ move, Moved state after move ∧ ∀ (position : Nat) (f : Handle),
    state.functions[position]? = some (some f) → Matches d d' f (move f)
  small_or_swept : (d' = d ∧ after = state ∧ d.size ≤ state.collectAbove) ∨
    (after.collectAbove = max (d.limit / 2) (d'.size + (d.limit - d'.size) / 2) ∧
      ∀ stock, Closed stock → (∀ value, stock fun _ => value) →
        (∀ (position : Nat) (f : Handle), state.functions[position]? = some (some f) →
          stock (d.value · f)) → d'.Within stock)

/-- The solver with another table, and the number of collections that led to it. -/
def retabled (s : Solver) (d : Diagram) (collections : Nat) : Solver :=
  { s with diagram := d, statistics := { s.statistics with collections } }

theorem collectGarbage_eq (state : Compilation) (s : Solver) :
    collectGarbage state s =
      if s.diagram.size ≤ state.collectAbove then (.ok state, s)
      else
        let slots := state.functions.toList
        let swept := s.diagram.collect (slots.filterMap fun slot => slot)
        (.ok {
            functions := (Compilation.refill slots swept.1).toArray
            collectAbove := max (s.diagram.limit / 2)
              (swept.2.size + (s.diagram.limit - swept.2.size) / 2) },
          s.retabled swept.2 (s.statistics.collections + 1)) := by
  unfold collectGarbage
  rw [run_get]
  split <;> rfl

theorem collectGarbage_spec (valid : s.diagram.Valid)
    (holds : ∀ (position : Nat) (f : Handle), state.functions[position]? = some (some f) →
      s.diagram.Holds f) :
    ∃ after d' collections, collectGarbage state s = (.ok after, s.retabled d' collections) ∧
      Tidies state s.diagram after d' := by
  rw [collectGarbage_eq]
  split
  · rename_i small
    refine ⟨state, s.diagram, s.statistics.collections, rfl, valid, rfl, rfl, ?_,
      .inl ⟨rfl, rfl, small⟩⟩
    exact ⟨fun f => f, fun position => by simp,
      fun position f found => .refl (holds position f found)⟩
  · have roots : ∀ f ∈ state.functions.toList.filterMap (fun slot => slot), s.diagram.Holds f := by
      intro f member
      obtain ⟨position, found⟩ := mem_slots_iff.mp member
      exact holds position f found
    obtain ⟨valid', limit, move, moved, right⟩ := collect_spec valid roots
    refine ⟨_, _, _, rfl, valid', limit, ?_, ⟨move, ?_, ?_⟩, .inr ⟨rfl, ?_⟩⟩
    · rw [moved, refill_map]
      simp
    · intro position
      rw [moved, refill_map]
      simp
    · intro position f found
      have facts := right f (mem_slots_iff.mpr ⟨position, found⟩)
      exact ⟨holds position f found, facts.1, fun σ => (facts.2 σ).symm⟩
    · intro stock closed constants members
      apply collect_within closed constants valid
      intro f member
      obtain ⟨position, found⟩ := mem_slots_iff.mp member
      exact members position f found

/-- Garbage collection moves the functions of the table and keeps what they mean. -/
theorem works_collectGarbage (valid : s.diagram.Valid)
    (holds : ∀ (position : Nat) (f : Handle), state.functions[position]? = some (some f) →
      s.diagram.Holds f) :
    Works Keeps (collectGarbage state) s fun after t =>
      after.functions.size = state.functions.size ∧
      ∃ move, Moved state after move ∧
        ∀ (position : Nat) (f : Handle), state.functions[position]? = some (some f) →
          t.diagram.Holds (move f) ∧ ∀ σ, t.diagram.value σ (move f) = s.diagram.value σ f := by
  obtain ⟨after, d', collections, ran, tidies⟩ := collectGarbage_spec valid holds
  obtain ⟨move, moved, same⟩ := tidies.moved
  unfold Works Ensures
  rw [ran]
  refine ⟨⟨rfl, rfl, rfl, rfl, rfl, tidies.limit_eq, tidies.valid⟩, tidies.size_eq, move, moved, ?_⟩
  intro position f found
  have matched := same position f found
  exact ⟨matched.right, fun σ => (matched.value_eq σ).symm⟩

end QuantCircuit.Solver
