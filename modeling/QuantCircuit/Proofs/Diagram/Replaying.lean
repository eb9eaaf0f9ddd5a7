import QuantCircuit.Proofs.Diagram.Evaluating
import QuantCircuit.Proofs.Diagram.Pairing

/-! Doing an operation again. As long as nothing is collected, an operation that succeeded finds
all functions it wants in the table, and returns the same handle without a new node. One that
failed for want of nodes does not find them, however it is mixed with other operations. -/

namespace QuantCircuit.Diagram

/-- Operations lead from the first diagram to the second one, without a collection. Each is
applied to handles of the diagram it finds, and may fail. -/
inductive Proceeds (d : Diagram) : Diagram → Prop where
  | here : Proceeds d d
  | perform (operation : Operation) : Proceeds d e → e.HoldsAll operation.operands →
      Proceeds d (operation.perform e).2

variable {d e t : Diagram} {f g : Handle} {operation other : Operation} {limit full : Nat}

theorem Proceeds.grows (valid : d.Valid) (proceeds : d.Proceeds e) : e.Valid ∧ d.Grows e := by
  induction proceeds with
  | here => exact ⟨valid, .refl d⟩
  | perform operation _ holds ih =>
    obtain ⟨validLater, grows⟩ := perform_spec ih.1 holds
    exact ⟨validLater, ih.2.trans grows⟩

theorem Within.size_le_of_provides (within : d.Within e.Provides) (valid : d.Valid) :
    d.size ≤ e.size := by
  have beside : d.Within fun p => (empty 0).Provides p ∨ e.Provides p :=
    within.mono fun _ provides => .inr provides
  have bound := beside.size_le valid
  have none : (empty 0).size = 0 := rfl
  omega

theorem Grows.nodes_eq (grows : d.Grows e) (small : e.size ≤ d.size) : e.nodes = d.nodes := by
  have same := grows.nodes_isPrefix.eq_of_length_le (by simpa [size] using small)
  exact (Array.toList_inj.mp same).symm

namespace Operation

theorem Twins.symm (twins : Twins d e operation other) : Twins e d other operation := by
  cases twins with
  | ofVariable positive => exact .ofVariable positive
  | terminal label => exact .terminal label
  | not first => exact .not first.symm
  | and first second => exact .and first.symm second.symm
  | or first second => exact .or first.symm second.symm
  | select first second third => exact .select first.symm second.symm third.symm
  | restrict first literal => exact .restrict first.symm literal
  | abstract q literals first => exact .abstract q literals first.symm

/-- Operands match themselves in a table that has grown. -/
theorem twins_grows (valid : d.Valid) (grows : d.Grows e) (holds : d.HoldsAll operation.operands)
    (proper : operation.Proper) : Twins d e operation operation := by
  have same (f : Handle) (member : f ∈ operation.operands) : Matches d e f f :=
    (Matches.refl (holds f member)).grows valid valid (.refl d) grows
  cases operation with
  | ofVariable literal => exact .ofVariable (proper literal rfl)
  | terminal label => exact .terminal label
  | not f => exact .not (same f (by simp [operands]))
  | and f g => exact .and (same f (by simp [operands])) (same g (by simp [operands]))
  | or f g => exact .or (same f (by simp [operands])) (same g (by simp [operands]))
  | select test yes no =>
    exact .select (same test (by simp [operands])) (same yes (by simp [operands]))
      (same no (by simp [operands]))
  | restrict f literal => exact .restrict (same f (by simp [operands])) literal
  | abstract q literals f => exact .abstract q literals (same f (by simp [operands]))

/-- An operation that is not proper is refused for that reason. -/
theorem proper_of_perform (ended : operation.perform d = (result, e))
    (accepted : ∀ literal, result ≠ .error (.undefinedLiteral literal Literal.maximum)) :
    operation.Proper := by
  rintro literal rfl
  refine Int.not_le.mp fun negative => accepted literal ?_
  have refused : (ofVariable literal).perform d =
      (.error (.undefinedLiteral literal Literal.maximum), d) := by
    show Diagram.ofVariable literal d = _
    rw [Diagram.ofVariable, if_pos negative]
    rfl
  exact congrArg Prod.fst (ended.symm.trans refused)

/-- What has succeeded succeeds again, with the same handle and without a new node. -/
theorem perform_again (valid : d.Valid) (holds : d.HoldsAll operation.operands)
    (ran : operation.perform d = (.ok f, e)) (proceeds : e.Proceeds t) :
    ∃ u, operation.perform t = (.ok f, u) ∧ u.nodes = t.nodes := by
  obtain ⟨validE, growsE, holdsF, value⟩ := (ensures_perform valid holds).of_ok ran
  obtain ⟨validT, growsT⟩ := proceeds.grows validE
  have grows := growsE.trans growsT
  have proper := proper_of_perform ran fun _ => nofun
  have twins := twins_grows valid grows holds proper
  obtain ⟨g, u, again, within⟩ := twins.exists_success valid validT ran (closed_provides validT)
    (fun _ provides => provides.grows validE growsT) (within_provides t) (fun r validR within =>
      Nat.le_trans (within.size_le_of_provides validR) validT.size_le)
  obtain ⟨validU, growsU, holdsG, valueG⟩ := (ensures_perform validT twins.holds.2).of_ok again
  have held := growsT.holds holdsF
  have same : g = f := by
    apply validU.eq_of_value_eq holdsG (growsU.holds held)
    intro σ
    rw [valueG, ← twins.meaning_eq, growsU.value_eq validT held, growsT.value_eq validE holdsF,
      value]
  exact ⟨u, same ▸ again, growsU.nodes_eq (within.size_le_of_provides validU)⟩

/-- An operation runs out of nodes when the table is full, and not before. -/
theorem full_of_exhausted (valid : d.Valid) (holds : d.HoldsAll operation.operands)
    (failed : operation.perform d = (.error (.tableExhausted full), e)) :
    full = d.limit ∧ e.size = d.limit := by
  have proper := proper_of_perform failed fun _ => nofun
  obtain ⟨f, t, unbounded⟩ := exists_unbounded valid holds proper
  rcases Nat.lt_or_ge d.limit t.size with less | enough
  · obtain ⟨u, exhausted, filled⟩ := unbounded.beyond d.limit valid.size_le less
    obtain ⟨error, rfl⟩ := Prod.mk.inj (failed.symm.trans exhausted)
    exact ⟨Error.tableExhausted.inj (Except.error.inj error), filled⟩
  · have succeeded := failed.symm.trans (unbounded.within d.limit enough)
    exact nomatch congrArg Prod.fst succeeded

/-- A full table has no room for anything else. -/
theorem nodes_of_full (valid : d.Valid) (holds : d.HoldsAll operation.operands)
    (filled : d.size = d.limit) : (operation.perform d).2.nodes = d.nodes := by
  obtain ⟨validLater, grows⟩ := perform_spec valid holds
  apply grows.nodes_eq
  have bound := validLater.size_le
  rw [grows.limit_eq, ← filled] at bound
  exact bound

/-- What has run out of nodes does so again. Had it succeeded later, then the functions it wants
would have been in the full table, and so would have had room in it before. -/
theorem exhausted_again (valid : d.Valid) (holds : d.HoldsAll operation.operands)
    (failed : operation.perform d = (.error (.tableExhausted d.limit), e))
    (proceeds : e.Proceeds t) :
    (operation.perform t).1 = .error (.tableExhausted d.limit) := by
  obtain ⟨validE, growsE, _⟩ := (ensures_perform valid holds).of_error failed
  obtain ⟨validT, growsT⟩ := proceeds.grows validE
  have grows := growsE.trans growsT
  have proper := proper_of_perform failed fun _ => nofun
  have twins := twins_grows valid grows holds proper
  rcases ended : operation.perform t with ⟨result, u⟩
  cases result with
  | error error =>
    rcases ((ensures_perform validT twins.holds.2).of_error ended).2.2 with exhausted | refused
    · rw [exhausted, grows.limit_eq]
    · obtain ⟨literal, negative, same, _⟩ := refused
      exact absurd (proper literal same) (Int.not_lt.mpr negative)
  | ok f =>
    obtain ⟨validU, growsU, _⟩ := (ensures_perform validT twins.holds.2).of_ok ended
    have within := (within_provides u).of_grows valid (grows.trans growsU)
    have bound : u.size ≤ d.limit := (grows.trans growsU).limit_eq ▸ validU.size_le
    obtain ⟨g, e', succeeded, _⟩ := twins.symm.exists_success validT valid ended
      (closed_provides validU) (fun _ provides => provides) within fun r validR inside =>
        Nat.le_trans (inside.size_le_of_provides validR) bound
    exact nomatch congrArg Prod.fst (failed.symm.trans succeeded)

end Operation

/-- Running out of nodes does no harm. The operation has filled the table behind the nodes that
were there, so handles keep their functions. Until the next collection it runs out of nodes
whenever it is tried, while whatever succeeded since the last collection returns its handle once
more; neither changes the table. -/
theorem exhaustion_harmless (reached : Reachable limit d)
    (holds : d.HoldsAll operation.operands)
    (failed : operation.perform d = (.error (.tableExhausted full), e)) :
    full = limit ∧ e.nodes.size = limit ∧ d.nodes.toList <+: e.nodes.toList ∧
      (∀ f, d.Holds f → e.Holds f ∧ ∀ σ, e.value σ f = d.value σ f) ∧
      ∀ t, e.Proceeds t →
        (∃ u, operation.perform t = (.error (.tableExhausted limit), u) ∧ u.nodes = e.nodes) ∧
        ∀ (other : Operation) (before after : Diagram) (f : Handle), Reachable limit before →
          before.HoldsAll other.operands → other.perform before = (.ok f, after) →
          after.Proceeds t → ∃ u, other.perform t = (.ok f, u) ∧ u.nodes = e.nodes := by
  obtain ⟨valid, rfl⟩ := reached.valid
  obtain ⟨rfl, filled⟩ := Operation.full_of_exhausted valid holds failed
  obtain ⟨validE, grows, _⟩ := (ensures_perform valid holds).of_error failed
  refine ⟨rfl, filled, grows.nodes_isPrefix, fun f held =>
    ⟨grows.holds held, grows.value_eq valid held⟩, fun t proceeds => ?_⟩
  obtain ⟨validT, growsT⟩ := proceeds.grows validE
  have limits := (grows.trans growsT).limit_eq
  have same : t.nodes = e.nodes := by
    apply growsT.nodes_eq
    rw [filled, ← limits]
    exact validT.size_le
  constructor
  · have held : t.HoldsAll operation.operands := fun f member =>
      (grows.trans growsT).holds (holds f member)
    have full : t.size = t.limit := by
      rw [limits, ← filled, Diagram.size, same, Diagram.size]
    exact ⟨_, Prod.ext (Operation.exhausted_again valid holds failed proceeds) rfl,
      (Operation.nodes_of_full validT held full).trans same⟩
  · intro other before after f reachedBefore held ran later
    obtain ⟨u, again, nodes⟩ := Operation.perform_again reachedBefore.valid.1 held ran later
    exact ⟨u, again, nodes.trans same⟩

/-- The disjunction has no room in the table of the pair. After it has failed once more, and after
a restriction, the conjunction is still found. -/
theorem pair_exhaustion_harmless :
    let either : Operation := .or (.node 1) (.node 0)
    let both : Operation := .and (.node 1) (.node 0)
    ∃ e u, either.perform pair = (.error (.tableExhausted 3), e) ∧ e.nodes.size = 3 ∧
      both.perform ((Operation.restrict (.node 2) 1).perform e).2 = (.ok (.node 2), u) ∧
      u.nodes = e.nodes := by
  intro either both
  let before : Diagram := [.ofVariable 2, .ofVariable 1].foldl
    (fun d (operation : Operation) => (operation.perform d).2) (empty 3)
  have reached : Reachable 3 before :=
    (Reachable.start.perform (.ofVariable 2) (by decide +kernel)).perform (.ofVariable 1)
      (by decide +kernel)
  have made : both.perform before = (.ok (.node 2), (both.perform before).2) :=
    Prod.ext (by decide +kernel) rfl
  have failed : either.perform pair = (.error (.tableExhausted 3), (either.perform pair).2) :=
    Prod.ext (by decide +kernel) rfl
  have first : (both.perform before).2.Proceeds pair :=
    Proceeds.here.perform either (by decide +kernel)
  have second := first.perform either (by decide +kernel)
  obtain ⟨_, filled, _, _, later⟩ := exhaustion_harmless reachable_pair (by decide +kernel) failed
  obtain ⟨u, again, nodes⟩ := (later _ (Proceeds.here.perform (.restrict (.node 2) 1)
    (by decide +kernel))).2 both before _ _ reached (by decide +kernel) made
      (second.perform (.restrict (.node 2) 1) (by decide +kernel))
  exact ⟨_, u, failed, filled, again, nodes⟩

end QuantCircuit.Diagram
