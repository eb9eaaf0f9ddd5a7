import QuantCircuit.Proofs.Solver.Eliminating
import QuantCircuit.Proofs.Solver.Following
import QuantCircuit.Proofs.Solver.Simplifying

namespace QuantCircuit

theorem Diagram.Matches.forcedAt?_eq {d e : Diagram} {f g : Handle} (same : Matches d e f g)
    (valid : d.Valid) (validRight : e.Valid) (v : Nat) :
    forcedAt? (d.decisions f) v = forcedAt? (e.decisions g) v := by
  have transfers {d e : Diagram} {f g : Handle} (same : Matches d e f g) (valid : d.Valid)
      (validRight : e.Valid) {value : Bool} (forced : forcedAt? (d.decisions f) v = some value) :
      forcedAt? (e.decisions g) v = some value := by
    obtain ⟨⟨n, member, label⟩, all⟩ := forcedAt?_eq_some_iff.mp forced
    refine forcedAt?_eq_some_iff.mpr ⟨?_, fun m inside labelled => ?_⟩
    · obtain ⟨m, found, equal, _⟩ := same.decision valid validRight member
      exact ⟨m, found, equal.trans label⟩
    · obtain ⟨n, found, equal, low, high⟩ := same.symm.decision validRight valid inside
      have lows : n.low = .const false ↔ m.low = .const false :=
        low.symm.eq_const_iff valid validRight
      have highs : n.high = .const false ↔ m.high = .const false :=
        high.symm.eq_const_iff valid validRight
      have value := all n found (equal.trans labelled)
      simpa only [Node.forcedValue?, lows, highs] using value
  apply Option.ext
  intro value
  exact ⟨transfers same valid validRight, transfers same.symm validRight valid⟩

namespace Solver

open Diagram

variable {spare : Nat} {room : Option (Reserve spare)} {s t : Solver} {f g h k : Handle}
variable {c : Circuit}

theorem Alike.unitLiterals_eq (alike : Alike f s g t) (follows : Follows room s t) :
    unitLiterals c s.diagram f = unitLiterals c t.diagram g := by
  have paired := follows.paired
  unfold unitLiterals
  rw [Matches.support_eq paired.left paired.right alike]
  simp only [Matches.forcedAt?_eq alike paired.left paired.right]

theorem Alike.support_eq (alike : Alike f s g t) (follows : Follows room s t) :
    s.diagram.support f = t.diagram.support g :=
  Matches.support_eq follows.paired.left follows.paired.right alike

theorem Alike.isConstant_eq (alike : Alike f s g t) (follows : Follows room s t) :
    f.isConstant = g.isConstant := by
  unfold Handle.isConstant
  rw [Matches.asConstant_eq follows.paired.left follows.paired.right alike]

theorem Alike.eq_iff (first : Alike f s g t) (second : Alike h s k t)
    (follows : Follows room s t) : f = h ↔ g = k :=
  Matches.eq_iff follows.paired.left follows.paired.right first second

section Simplifying

theorem shadows_countUnit (follows : Follows room s t) :
    Shadows room (count fun x => { x with units := x.units + 1 })
      (count fun x => { x with units := x.units + 1 }) s t fun _ _ _ _ => True :=
  shadows_count follows fun tracks =>
    ⟨congrArg (· + 1) tracks.units_eq, tracks.pures_eq, tracks.peak_le⟩

theorem shadows_countPure (follows : Follows room s t) :
    Shadows room (count fun x => { x with pures := x.pures + 1 })
      (count fun x => { x with pures := x.pures + 1 }) s t fun _ _ _ _ => True :=
  shadows_count follows fun tracks =>
    ⟨tracks.units_eq, congrArg (· + 1) tracks.pures_eq, tracks.peak_le⟩

theorem shadows_fixUnit (follows : Follows room s t) (alike : Alike f s g t)
    (unit : Nat × Bool) : Shadows room (fixUnit f unit) (fixUnit g unit) s t Alike := by
  apply (shadows_restrict follows alike _).bind
  intro h s₁ k t₁ advance₁ alike₁
  apply (shadows_force advance₁.toFollows _ _).bind
  intro _ s₂ _ t₂ advance₂ _
  apply (shadows_countUnit advance₂.toFollows).bind
  intro _ s₃ _ t₃ advance₃ _
  have advance := advance₂.trans advance₃
  exact .pure advance.toFollows (alike₁.advance advance₁.toFollows advance)

theorem shadows_propagateUnitsWithin (rounds : Nat) (follows : Follows room s t)
    (alike : Alike f s g t) :
    Shadows room (propagateUnitsWithin rounds f) (propagateUnitsWithin rounds g) s t Alike := by
  induction rounds generalizing f g s t with
  | zero => exact .pure follows alike
  | succ rounds ih =>
    rw [propagateUnitsWithin, propagateUnitsWithin]
    apply Shadows.get
    apply Shadows.get
    rw [follows.circuit_eq, ← alike.unitLiterals_eq follows]
    dsimp only
    split
    · exact .pure follows alike
    · apply (Shadows.foldlM Alike _
        (fun unit f s g t follows alike => shadows_fixUnit follows alike unit) follows alike).bind
      intro h s' k t' advance later
      exact ih advance.toFollows later

theorem shadows_propagateUnits (follows : Follows room s t) (alike : Alike f s g t) :
    Shadows room (propagateUnits f) (propagateUnits g) s t Alike := by
  apply Shadows.get
  rw [alike.support_eq follows]
  exact shadows_propagateUnitsWithin _ follows alike

/-- The functions agree, and whether one was fixed. -/
def AlikeFixed (p : Handle × Bool) (s : Solver) (q : Handle × Bool) (t : Solver) : Prop :=
  Alike p.1 s q.1 t ∧ p.2 = q.2

theorem shadows_fixPure (follows : Follows room s t) {p q : Handle × Bool}
    (alike : AlikeFixed p s q t) (v : Nat) :
    Shadows room (fixPure p v) (fixPure q v) s t AlikeFixed := by
  obtain ⟨f, changed⟩ := p
  obtain ⟨g, changed'⟩ := q
  obtain ⟨alike, same⟩ := alike
  unfold fixPure
  apply Shadows.get
  rw [follows.circuit_eq]
  cases s.circuit.quantifierOf? (v : Literal) with
  | none => exact .pure follows ⟨alike, same⟩
  | some q =>
    apply (shadows_restrict follows alike _).bind
    intro below s₁ below' t₁ advance₁ alikeBelow
    have alike₁ := alike.advance follows advance₁
    apply (shadows_restrict advance₁.toFollows alike₁ _).bind
    intro above s₂ above' t₂ advance₂ alikeAbove
    have follows₂ := advance₂.toFollows
    have alike₂ := alike₁.advance advance₁.toFollows advance₂
    have alikeBelow₂ := alikeBelow.advance advance₁.toFollows advance₂
    simp only [alikeBelow₂.eq_iff alikeAbove follows₂]
    split
    · exact .pure follows₂ ⟨alike₂, same⟩
    · apply (shadows_abstract follows₂ alike₂ _ _).bind
      intro both s₃ both' t₃ advance₃ alikeBoth
      have follows₃ := advance₃.toFollows
      have alikeBelow₃ := alikeBelow₂.advance follows₂ advance₃
      have alikeAbove₃ := alikeAbove.advance follows₂ advance₃
      simp only [alikeBelow₃.eq_iff alikeBoth follows₃, alikeAbove₃.eq_iff alikeBoth follows₃]
      cases preferred? q (below' = both') (above' = both') with
      | none => exact .pure follows₃ ⟨alike₂.advance follows₂ advance₃, same⟩
      | some value =>
        apply (shadows_force follows₃ v value).bind
        intro _ s₄ _ t₄ advance₄ _
        apply (shadows_countPure advance₄.toFollows).bind
        intro _ s₅ _ t₅ advance₅ _
        have advance := advance₄.trans advance₅
        have chosen : Alike (if value then above else below) s₃
            (if value then above' else below') t₃ := by
          cases value with
          | true => exact alikeAbove₃
          | false => exact alikeBelow₃
        exact .pure advance.toFollows ⟨chosen.advance follows₃ advance, rfl⟩

theorem shadows_eliminatePureWithin (rounds : Nat) (follows : Follows room s t)
    (alike : Alike f s g t) :
    Shadows room (eliminatePureWithin rounds f) (eliminatePureWithin rounds g) s t Alike := by
  induction rounds generalizing f g s t with
  | zero => exact .pure follows alike
  | succ rounds ih =>
    rw [eliminatePureWithin, eliminatePureWithin]
    apply Shadows.get
    rw [alike.support_eq follows]
    have start : AlikeFixed (f, false) s (g, false) t := ⟨alike, rfl⟩
    apply (Shadows.foldlM AlikeFixed _
      (fun v p s q t follows alike => shadows_fixPure follows alike v) follows start).bind
    intro p s' q t' advance later
    obtain ⟨h, changed⟩ := p
    obtain ⟨k, changed'⟩ := q
    obtain ⟨later, same⟩ := later
    obtain rfl : changed = changed' := same
    cases changed with
    | true => exact ih advance.toFollows later
    | false => exact .pure advance.toFollows later

theorem shadows_eliminatePure (follows : Follows room s t) (alike : Alike f s g t) :
    Shadows room (eliminatePure f) (eliminatePure g) s t Alike := by
  apply Shadows.get
  rw [alike.support_eq follows]
  exact shadows_eliminatePureWithin _ follows alike

end Simplifying

section Eliminating

theorem shadows_countBlock (follows : Follows room s t) :
    Shadows room countBlock countBlock s t fun _ _ _ _ => True :=
  shadows_countOther follows fun _ => ⟨rfl, rfl, rfl⟩

theorem shadows_stopEarly (follows : Follows room s t) (alike : Alike f s g t) :
    Shadows room (stopEarly f) (stopEarly g) s t Alike := by
  refine Shadows.bind (shadows_countOther follows fun _ => ⟨rfl, rfl, rfl⟩) ?_
  intro _ s' _ t' advance _
  exact .pure advance.toFollows (alike.advance follows advance)

theorem shadows_abstractBlocks (blocks : List Block) (follows : Follows room s t)
    (alike : Alike f s g t) :
    Shadows room (abstractBlocks blocks f) (abstractBlocks blocks g) s t Alike := by
  induction blocks generalizing f g s t with
  | nil => exact .pure follows alike
  | cons block rest ih =>
    rw [abstractBlocks, abstractBlocks, alike.isConstant_eq follows]
    split
    · exact shadows_stopEarly follows alike
    · apply (shadows_abstract follows alike _ _).bind
      intro h s₁ k t₁ advance₁ alike₁
      apply (shadows_countBlock advance₁.toFollows).bind
      intro _ s₂ _ t₂ advance₂ _
      apply (shadows_noteSize advance₂.toFollows).bind
      intro _ s₃ _ t₃ advance₃ _
      have advance := advance₂.trans advance₃
      exact ih advance.toFollows (alike₁.advance advance₁.toFollows advance)

theorem shadows_abstractVariables (q : Quantifier) (vars : List Nat) (follows : Follows room s t)
    (alike : Alike f s g t) :
    Shadows room (abstractVariables q vars f) (abstractVariables q vars g) s t AlikeFixed := by
  induction vars generalizing f g s t with
  | nil => exact .pure follows ⟨alike, rfl⟩
  | cons v rest ih =>
    rw [abstractVariables, abstractVariables, alike.isConstant_eq follows]
    split
    · apply (shadows_stopEarly follows alike).bind
      intro h s' k t' advance later
      exact .pure advance.toFollows ⟨later, rfl⟩
    · apply (shadows_abstract follows alike _ _).bind
      intro h s₁ k t₁ advance₁ alike₁
      apply (shadows_noteSize advance₁.toFollows).bind
      intro _ s₂ _ t₂ advance₂ _
      exact ih advance₂.toFollows (alike₁.advance advance₁.toFollows advance₂)

theorem shadows_abstractBlocksByVariable (blocks : List Block) (follows : Follows room s t)
    (alike : Alike f s g t) :
    Shadows room (abstractBlocksByVariable blocks f) (abstractBlocksByVariable blocks g) s t
      Alike := by
  induction blocks generalizing f g s t with
  | nil => exact .pure follows alike
  | cons block rest ih =>
    rw [abstractBlocksByVariable, abstractBlocksByVariable]
    apply (shadows_abstractVariables _ _ follows alike).bind
    intro p s' q t' advance later
    obtain ⟨h, finished⟩ := p
    obtain ⟨k, finished'⟩ := q
    obtain ⟨alike', same⟩ := later
    obtain rfl : finished = finished' := same
    cases finished with
    | true =>
      apply (shadows_countBlock advance.toFollows).bind
      intro _ s'' _ t'' advance' _
      exact ih advance'.toFollows (alike'.advance advance.toFollows advance')
    | false => exact .pure advance.toFollows alike'

theorem shadows_closeFree (follows : Follows room s t) (alike : Alike f s g t) :
    Shadows room (closeFree f) (closeFree g) s t Alike := by
  have free : freeVariables s.circuit s.diagram f = freeVariables t.circuit t.diagram g := by
    unfold freeVariables
    rw [alike.support_eq follows, follows.circuit_eq]
  have quantifies (free : List Nat) {s t : Solver} {f g : Handle} (follows : Follows room s t)
      (alike : Alike f s g t) : Shadows room (do
        let f ← onDiagram (Diagram.abstract .ex (free.map Int.ofNat) f)
        noteSize
        return f) (do
        let f ← onDiagram (Diagram.abstract .ex (free.map Int.ofNat) g)
        noteSize
        return f) s t Alike := by
    apply (shadows_abstract follows alike _ _).bind
    intro h s₁ k t₁ advance₁ alike₁
    apply (shadows_noteSize advance₁.toFollows).bind
    intro _ s₂ _ t₂ advance₂ _
    exact .pure advance₂.toFollows (alike₁.advance advance₁.toFollows advance₂)
  unfold closeFree
  apply Shadows.get
  apply Shadows.get
  rw [free, follows.circuit_eq]
  dsimp only
  split
  · exact .pure follows alike
  · cases s.circuit.blocks.head? with
    | none => exact quantifies _ follows alike
    | some block =>
      dsimp only
      split
      · exact .pure follows alike
      · have noted : Follows room { s with outerAbstracted := true }
            { t with outerAbstracted := true } := { follows with outer_eq := rfl }
        apply (Shadows.modify noted ⟨rfl, rfl⟩ ⟨rfl, rfl⟩).bind
        intro _ s₁ _ t₁ advance₁ _
        apply (shadows_countBlock advance₁.toFollows).bind
        intro _ s₂ _ t₂ advance₂ _
        have advance := advance₁.trans advance₂
        apply (shadows_abstract advance.toFollows (alike.advance follows advance) _ _).bind
        intro h s₃ k t₃ advance₃ alike₃
        exact quantifies _ advance₃.toFollows alike₃

end Eliminating

end Solver

end QuantCircuit
