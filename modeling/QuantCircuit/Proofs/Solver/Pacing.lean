import QuantCircuit.Proofs.Solver.Following
import QuantCircuit.Proofs.Solver.Storing

/-! Making the function of a gate in two solvers. The following one may have forgotten functions
that the leading one still has. -/

namespace QuantCircuit

open Diagram

variable {spare : Nat} {room : Option (Reserve spare)} {d e d' e' : Diagram} {f g : Handle}

/-- The functions match one by one. -/
def MatchesAll (d e : Diagram) (functions others : List Handle) : Prop :=
  List.Forall₂ (Matches d e) functions others

theorem MatchesAll.advance {functions others : List Handle}
    (all : MatchesAll d e functions others) (paired : Paired room d e)
    (advance : Diagram.Advance room d e d' e') : MatchesAll d' e' functions others :=
  all.imp fun _ _ same => Diagram.Alike.advance same paired advance

namespace Fold

/-- On matching operands the operation has matching results. -/
def Mirrored (room : Option (Reserve spare)) (operation : Handle → Handle → Build Handle) : Prop :=
  ∀ {d e : Diagram} {f g h k : Handle}, Paired room d e → Matches d e f g → Matches d e h k →
    Diagram.Shadows room (operation f h) (operation g k) d e
      Diagram.Alike

theorem mirrored_and : Mirrored room Diagram.and :=
  fun paired first second => Operation.shadows_perform (.and first second) paired

theorem mirrored_or : Mirrored room Diagram.or :=
  fun paired first second => Operation.shadows_perform (.or first second) paired

/-- Partial results of equal levels that match one by one. -/
def MatchesPartials (d e : Diagram) (partials others : List Partial) : Prop :=
  List.Forall₂ (fun p q => p.level = q.level ∧ Matches d e p.function q.function) partials others

theorem MatchesPartials.advance {partials others : List Partial}
    (all : MatchesPartials d e partials others) (paired : Paired room d e)
    (advance : Diagram.Advance room d e d' e') : MatchesPartials d' e' partials others :=
  all.imp fun _ _ same => ⟨same.1, Diagram.Alike.advance same.2 paired advance⟩

variable {operation : Handle → Handle → Build Handle} {functions others : List Handle}

theorem shadows_linear (mirrored : Mirrored room operation) (paired : Paired room d e)
    (same : Matches d e f g) (all : MatchesAll d e functions others) :
    Diagram.Shadows room (functions.foldlM operation f)
      (others.foldlM operation g) d e Diagram.Alike := by
  induction functions generalizing d e f g others with
  | nil =>
    cases all
    exact .pure paired same
  | cons h functions ih =>
    cases all with | cons first rest =>
    rw [List.foldlM_cons, List.foldlM_cons]
    apply Diagram.Shadows.bind (mirrored paired same first)
    intro r d' r' e' advance same'
    exact ih advance.toPaired same' (MatchesAll.advance rest paired advance)

theorem shadows_carry (mirrored : Mirrored room operation) (paired : Paired room d e)
    (same : Matches d e f g) (level : Nat) {partials others : List Partial}
    (all : MatchesPartials d e partials others) :
    Diagram.Shadows room (carry operation level f partials)
      (carry operation level g others) d e fun r d' r' e' => MatchesPartials d' e' r r' := by
  induction partials generalizing d e f g level others with
  | nil =>
    cases all
    exact .pure paired (.cons ⟨rfl, same⟩ .nil)
  | cons p partials ih =>
    cases all with | cons first rest =>
    rw [carry, carry, first.1]
    split
    · apply Diagram.Shadows.bind (mirrored paired first.2 same)
      intro r d' r' e' advance same'
      exact ih advance.toPaired same' _ (MatchesPartials.advance rest paired advance)
    · exact .pure paired (.cons ⟨rfl, same⟩ (.cons first rest))

theorem shadows_carries (mirrored : Mirrored room operation) (paired : Paired room d e)
    {partials others' : List Partial} (started : MatchesPartials d e partials others')
    (all : MatchesAll d e functions others) :
    Diagram.Shadows room
      (functions.foldlM (fun partials f => carry operation 0 f partials) partials)
      (others.foldlM (fun partials f => carry operation 0 f partials) others') d e
      fun r d' r' e' => MatchesPartials d' e' r r' := by
  induction functions generalizing d e partials others' others with
  | nil =>
    cases all
    exact .pure paired started
  | cons f functions ih =>
    cases all with | cons first rest =>
    rw [List.foldlM_cons, List.foldlM_cons]
    apply Diagram.Shadows.bind (shadows_carry mirrored paired first 0 started)
    intro r d' r' e' advance started'
    exact ih advance.toPaired started' (MatchesAll.advance rest paired advance)

theorem shadows_joinPartials (mirrored : Mirrored room operation) (paired : Paired room d e)
    (value : Bool) {partials others : List Partial} (all : MatchesPartials d e partials others) :
    Diagram.Shadows room (joinPartials operation (.const value) partials)
      (joinPartials operation (.const value) others) d e
      Diagram.Alike := by
  cases all with
  | nil => exact .pure paired (matches_const d e value)
  | cons last rest =>
    have flipped : Mirrored room fun f g => operation g f :=
      fun paired first second => mirrored paired second first
    have functions := rest.imp fun _ _ same => same.2
    have linear := shadows_linear flipped paired last.2 (List.forall₂_map_left_iff.mpr
      (List.forall₂_map_right_iff.mpr functions))
    rw [List.foldlM_map, List.foldlM_map] at linear
    exact linear

theorem shadows_run (fold : Fold) (mirrored : Mirrored room operation) (paired : Paired room d e)
    (value : Bool) (all : MatchesAll d e functions others) :
    Diagram.Shadows room (fold.run operation (.const value) functions)
      (fold.run operation (.const value) others) d e Diagram.Alike := by
  cases fold with
  | linear => exact shadows_linear mirrored paired (matches_const d e value) all
  | balanced =>
    apply Diagram.Shadows.bind (shadows_carries mirrored paired .nil all)
    intro partials d' others e' advance carried
    exact shadows_joinPartials mirrored advance.toPaired value carried

end Fold

namespace Solver

/-- The functions of gates are in the first table. Where the second one still has the function of
a gate, so has the first one. -/
structure Covers (d e : Diagram) (functions slots : Array (Option Handle)) : Prop where
  size_eq : slots.size = functions.size
  holds_left : ∀ (position : Nat) (f : Handle), functions[position]? = some (some f) → d.Holds f
  exists_match : ∀ (position : Nat) (g : Handle), slots[position]? = some (some g) →
    ∃ f, functions[position]? = some (some f) ∧ Matches d e f g

variable {functions slots : Array (Option Handle)} {state other : Compilation} {s t : Solver}

theorem covers_none (d e : Diagram) (count : Nat) :
    Covers d e (Array.replicate count none) (Array.replicate count none) where
  size_eq := rfl
  holds_left position f found := by simp [Array.getElem?_replicate] at found
  exists_match position g found := by simp [Array.getElem?_replicate] at found

theorem Covers.advance (covers : Covers d e functions slots) (paired : Paired room d e)
    (advance : Diagram.Advance room d e d' e') : Covers d' e' functions slots where
  size_eq := covers.size_eq
  holds_left position f found := advance.growsLeft.holds (covers.holds_left position f found)
  exists_match := by
    intro position g found
    obtain ⟨f, located, same⟩ := covers.exists_match position g found
    exact ⟨f, located, Diagram.Alike.advance same paired advance⟩

theorem Covers.set (covers : Covers d e functions slots) (same : Matches d e f g)
    (position : Nat) :
    Covers d e (functions.setIfInBounds position (some f))
      (slots.setIfInBounds position (some g)) where
  size_eq := by simpa using covers.size_eq
  holds_left := by
    intro other h found
    rcases getElem?_stored found with ⟨_, _, rfl⟩ | ⟨_, before⟩
    · exact same.left
    · exact covers.holds_left other h before
  exists_match := by
    intro other k found
    rcases getElem?_stored found with ⟨rfl, inside, rfl⟩ | ⟨different, before⟩
    · have insideLeft : position < functions.size := covers.size_eq ▸ inside
      exact ⟨f, by simp [insideLeft], same⟩
    · obtain ⟨h, located, same'⟩ := covers.exists_match other k before
      exact ⟨h, by simpa [different] using located, same'⟩

theorem shadows_ofVariable (paired : Paired room d e) (literal : Literal) :
    Diagram.Shadows room (Diagram.ofVariable literal)
      (Diagram.ofVariable literal) d e Diagram.Alike := by
  unfold Diagram.ofVariable
  split
  · exact .throw _
  · exact Operation.shadows_perform (.terminal literal.toNat) paired

theorem shadows_read (paired : Paired room d e)
    (covers : Covers d e state.functions other.functions) (maxVar : Nat) (literal : Literal) :
    Diagram.Shadows room (state.read maxVar literal)
      (other.read maxVar literal) d e Diagram.Alike := by
  have signed (f : Handle) (d : Diagram) (g : Handle) (e : Diagram) (paired : Paired room d e)
      (same : Matches d e f g) :
      Diagram.Shadows room
        (if literal < 0 then Diagram.not f else pure f)
        (if literal < 0 then Diagram.not g else pure g) d e
        Diagram.Alike := by
    split
    · exact Operation.shadows_perform (.not same) paired
    · exact .pure paired same
  unfold Compilation.read
  dsimp only
  split
  · apply Diagram.Shadows.bind (shadows_ofVariable paired _)
    intro f d' g e' advance same
    exact signed f d' g e' advance.toPaired same
  · rcases located : state.functions[literal.natAbs - maxVar]? with _ | _ | f
    · exact .throw_bind _
    · exact .throw_bind _
    · have gone : Diagram.Shadows room (pure f)
          (throw (.structural (.gateUnavailable literal.natAbs)) : Build Handle) d e
          Diagram.Alike := Coupled.throw_follow fun _ => nofun
      rcases found : other.functions[literal.natAbs - maxVar]? with _ | _ | g
      · exact gone.bind fun f d' g e' advance same => signed f d' g e' advance.toPaired same
      · exact gone.bind fun f d' g e' advance same => signed f d' g e' advance.toPaired same
      · obtain ⟨h, there, same⟩ := covers.exists_match _ g found
        obtain rfl : f = h := by simpa [located] using there
        exact signed f d g e paired same

theorem shadows_readInputs (paired : Paired room d e)
    (covers : Covers d e state.functions other.functions) (maxVar id : Nat)
    (inputs : List Literal) :
    Diagram.Shadows room (state.readInputs maxVar id inputs)
      (other.readInputs maxVar id inputs) d e fun r d' r' e' => MatchesAll d' e' r r' := by
  unfold Compilation.readInputs
  induction inputs generalizing d e with
  | nil => exact .pure paired .nil
  | cons l rest ih =>
    rw [List.mapM_cons, List.mapM_cons]
    have first : Diagram.Shadows room
        (do
          if id ≤ l.natAbs then throw (.structural (.forwardReference id l))
          state.read maxVar l)
        (do
          if id ≤ l.natAbs then throw (.structural (.forwardReference id l))
          other.read maxVar l) d e Diagram.Alike := by
      split
      · exact .throw_bind _
      · exact shadows_read paired covers maxVar l
    apply Diagram.Shadows.bind first
    intro f d₁ g e₁ advance₁ same
    apply Diagram.Shadows.bind (ih advance₁.toPaired (covers.advance paired advance₁))
    intro r d₂ r' e₂ advance₂ all
    have same₂ := Diagram.Alike.advance same advance₁.toPaired advance₂
    exact .pure advance₂.toPaired (.cons same₂ all)

theorem shadows_combineInputs (fold : Fold) (gate : Gate) (paired : Paired room d e)
    {functions others : List Handle} (all : MatchesAll d e functions others) :
    Diagram.Shadows room (combineInputs fold gate functions)
      (combineInputs fold gate others) d e Diagram.Alike := by
  unfold combineInputs
  cases gate.connective with
  | and => exact Fold.shadows_run fold Fold.mirrored_and paired true all
  | or => exact Fold.shadows_run fold Fold.mirrored_or paired false all
  | all =>
    cases all with
    | nil => exact .throw _
    | cons first _ => exact Operation.shadows_perform (.abstract .all gate.bound first) paired
  | ex =>
    cases all with
    | nil => exact .throw _
    | cons first _ => exact Operation.shadows_perform (.abstract .ex gate.bound first) paired

/-- The functions of a gate match, and so do all that the following solver has. -/
theorem shadows_storeGate (follows : Follows room s t) (roomy : room.isSome)
    (covers : Covers s.diagram t.diagram functions slots) (entry : Gate × Nat) :
    Shadows room (storeGate functions entry) (storeGate slots entry) s t fun a s' b t' =>
      Covers s'.diagram t'.diagram a b := by
  unfold storeGate
  apply Shadows.get
  apply Shadows.get
  dsimp only
  rw [follows.circuit_eq, follows.fold_eq roomy]
  apply (shadows_onDiagram follows (shadows_readInputs follows.paired covers _ _ _)).bind
  intro inputs s₁ inputs' t₁ advance₁ all
  have covers₁ := covers.advance follows.paired advance₁.onDiagrams
  apply (shadows_onDiagram advance₁.toFollows
    (shadows_combineInputs _ _ advance₁.paired all)).bind
  intro f s₂ g t₂ advance₂ same
  have covers₂ := covers₁.advance advance₁.paired advance₂.onDiagrams
  refine Shadows.bind (shadows_countOther advance₂.toFollows fun _ => ⟨rfl, rfl, rfl⟩) ?_
  intro _ s₃ _ t₃ advance₃ _
  apply (shadows_noteSize advance₃.toFollows).bind
  intro _ s₄ _ t₄ advance₄ _
  have advance := advance₃.trans advance₄
  have covers₄ := (covers₂.set same (entry.2 - s.circuit.maxVar)).advance advance₂.paired
    advance.onDiagrams
  exact .pure advance.toFollows covers₄

end Solver

end QuantCircuit
