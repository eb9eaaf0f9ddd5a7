import QuantCircuit.Proofs.Diagram.Selecting
import QuantCircuit.Solver.Compile

namespace QuantCircuit.Fold

open Diagram

variable {q : Quantifier} {d e : Diagram} {operation : Handle → Handle → Build Handle}
variable {f : Handle} {functions : List Handle}

/-- The operation is settled iff one of its arguments settles it. -/
def Joins (q : Quantifier) (operation : Handle → Handle → Build Handle) : Prop :=
  ∀ (d : Diagram) (f g : Handle), d.Valid → d.Holds f → d.Holds g →
    Builds (operation f g) d fun r e => e.Holds r ∧ ∀ σ,
      e.value σ r = q.decisive ↔ d.value σ f = q.decisive ∨ d.value σ g = q.decisive

theorem joins_and : Joins .all Diagram.and := by
  intro d f g valid holdsF holdsG
  refine (builds_and valid holdsF holdsG).mono ?_
  rintro r e _ _ ⟨holds, value⟩
  refine ⟨holds, fun σ => ?_⟩
  cases first : d.value σ f <;> simp [value, first, Quantifier.decisive]

theorem joins_or : Joins .ex Diagram.or := by
  intro d f g valid holdsF holdsG
  refine (builds_or valid holdsF holdsG).mono ?_
  rintro r e _ _ ⟨holds, value⟩
  refine ⟨holds, fun σ => ?_⟩
  cases first : d.value σ f <;> simp [value, first, Quantifier.decisive]

def Settled (q : Quantifier) (d : Diagram) (functions : List Handle) (σ : Assignment) : Prop :=
  ∃ f ∈ functions, d.value σ f = q.decisive

@[simp] theorem settled_nil {σ : Assignment} : ¬ Settled q d [] σ := by
  simp [Settled]

@[simp] theorem settled_cons {σ : Assignment} :
    Settled q d (f :: functions) σ ↔ d.value σ f = q.decisive ∨ Settled q d functions σ := by
  simp [Settled]

theorem settled_grows (grows : d.Grows e) (valid : d.Valid) (holds : ∀ f ∈ functions, d.Holds f)
    (σ : Assignment) : Settled q e functions σ ↔ Settled q d functions σ := by
  constructor
  · rintro ⟨f, member, settled⟩
    exact ⟨f, member, grows.value_eq valid (holds f member) σ ▸ settled⟩
  · rintro ⟨f, member, settled⟩
    exact ⟨f, member, (grows.value_eq valid (holds f member) σ).symm ▸ settled⟩

theorem builds_linear (joins : Joins q operation) (valid : d.Valid) (holds : d.Holds f)
    (functions : List Handle) (all : ∀ g ∈ functions, d.Holds g) :
    Builds (functions.foldlM operation f) d fun r e => e.Holds r ∧ ∀ σ,
      e.value σ r = q.decisive ↔ Settled q d (f :: functions) σ := by
  induction functions generalizing d f with
  | nil => exact builds_pure valid ⟨holds, fun σ => by simp⟩
  | cons g rest ih =>
    refine Builds.bind (joins d f g valid holds (all g (by simp))) ?_
    rintro r e valid' grows ⟨held, joined⟩
    have allRest : ∀ g ∈ rest, d.Holds g := fun g member => all g (by simp [member])
    refine (ih valid' held fun g member => grows.holds (allRest g member)).mono ?_
    rintro result h _ _ ⟨done, value⟩
    refine ⟨done, fun σ => ?_⟩
    rw [value]
    simp only [settled_cons, joined, settled_grows grows valid allRest, or_assoc]

theorem builds_carry (joins : Joins q operation) (valid : d.Valid) (holds : d.Holds f)
    {partials : List Partial} (level : Nat) (all : ∀ p ∈ partials, d.Holds p.function) :
    Builds (carry operation level f partials) d fun result e =>
      (∀ p ∈ result, e.Holds p.function) ∧ ∀ σ, Settled q e (result.map (·.function)) σ ↔
        Settled q d (f :: partials.map (·.function)) σ := by
  induction partials generalizing d f level with
  | nil => exact builds_pure valid ⟨by simpa using holds, fun σ => by simp⟩
  | cons earlier rest ih =>
    have holdsEarlier : d.Holds earlier.function := all earlier (by simp)
    rw [carry]
    by_cases same : earlier.level = level
    · rw [if_pos same]
      refine Builds.bind (joins d earlier.function f valid holdsEarlier holds) ?_
      rintro r e valid' grows ⟨held, joined⟩
      have allRest : ∀ p ∈ rest, d.Holds p.function := fun p member => all p (by simp [member])
      refine (ih valid' held (level + 1) fun p member => grows.holds (allRest p member)).mono ?_
      rintro result h _ _ ⟨done, value⟩
      refine ⟨done, fun σ => ?_⟩
      have holdsRest : ∀ g ∈ rest.map (·.function), d.Holds g := by simpa using allRest
      have kept := settled_grows (q := q) grows valid holdsRest σ
      rw [value]
      simp only [settled_cons, joined, kept, List.map_cons]
      rw [← or_assoc, or_comm (a := d.value σ earlier.function = q.decisive)]
    · rw [if_neg same]
      refine builds_pure valid ⟨?_, fun σ => by simp⟩
      intro p member
      rcases List.mem_cons.mp member with rfl | later
      · exact holds
      · exact all p later

theorem builds_carries (joins : Joins q operation) (valid : d.Valid) (partials : List Partial)
    (held : ∀ p ∈ partials, d.Holds p.function) (all : ∀ g ∈ functions, d.Holds g) :
    Builds (functions.foldlM (fun partials f => carry operation 0 f partials) partials) d
      fun result e => (∀ p ∈ result, e.Holds p.function) ∧
        ∀ σ, Settled q e (result.map (·.function)) σ ↔
          Settled q d functions σ ∨ Settled q d (partials.map (·.function)) σ := by
  induction functions generalizing d partials with
  | nil => exact builds_pure valid ⟨held, fun σ => by simp⟩
  | cons f rest ih =>
    refine Builds.bind (builds_carry joins valid (all f (by simp)) 0 held) ?_
    rintro more e valid' grows ⟨holds, carried⟩
    have allRest : ∀ g ∈ rest, d.Holds g := fun g member => all g (by simp [member])
    refine (ih valid' more holds fun g member => grows.holds (allRest g member)).mono ?_
    rintro result h _ _ ⟨done, value⟩
    refine ⟨done, fun σ => ?_⟩
    rw [value, carried, settled_grows grows valid allRest]
    simp only [settled_cons]
    rw [← or_assoc, or_comm (a := Settled q d rest σ)]

theorem builds_joinPartials (joins : Joins q operation) (valid : d.Valid)
    {partials : List Partial} (all : ∀ p ∈ partials, d.Holds p.function) :
    Builds (joinPartials operation (.const !q.decisive) partials) d fun r e => e.Holds r ∧ ∀ σ,
      e.value σ r = q.decisive ↔ Settled q d (partials.map (·.function)) σ := by
  cases partials with
  | nil => exact builds_pure valid ⟨holds_const d _, fun σ => by simp⟩
  | cons last rest =>
    have flipped : Joins q fun f g => operation g f := by
      intro d f g valid holdsF holdsG
      refine (joins d g f valid holdsG holdsF).mono ?_
      rintro r e _ _ ⟨holds, joined⟩
      exact ⟨holds, fun σ => (joined σ).trans or_comm⟩
    have linear := builds_linear flipped valid (all last (by simp))
      (rest.map (·.function)) (by simpa using fun p member => all p (by simp [member]))
    rw [List.foldlM_map] at linear
    exact linear

/-- The reduction is settled iff one of the functions settles it. -/
theorem builds_run (fold : Fold) (joins : Joins q operation) (valid : d.Valid)
    (all : ∀ g ∈ functions, d.Holds g) :
    Builds (fold.run operation (.const !q.decisive) functions) d fun r e => e.Holds r ∧ ∀ σ,
      e.value σ r = q.decisive ↔ Settled q d functions σ := by
  cases fold with
  | linear =>
    refine (builds_linear joins valid (holds_const d _) functions all).mono ?_
    rintro r e _ _ ⟨holds, value⟩
    exact ⟨holds, fun σ => by simp [value]⟩
  | balanced =>
    refine Builds.bind (builds_carries joins valid [] (by simp) all) ?_
    rintro partials e valid' _ ⟨holds, carried⟩
    refine (builds_joinPartials joins valid' holds).mono ?_
    rintro r h _ _ ⟨held, value⟩
    exact ⟨held, fun σ => by simp [value, carried]⟩

end QuantCircuit.Fold
