import Mathlib.Control.Monad.Basic
import QuantCircuit.Proofs.Diagram.Collecting
import QuantCircuit.Proofs.Diagram.Quantifying

namespace QuantCircuit.Diagram

/-- The operations that make a function of other ones. -/
inductive Operation where
  | ofVariable (literal : Literal)
  | terminal (label : Nat)
  | not (f : Handle)
  | and (f g : Handle)
  | or (f g : Handle)
  | select (test yes no : Handle)
  | restrict (f : Handle) (literal : Literal)
  | abstract (q : Quantifier) (literals : List Literal) (f : Handle)
  deriving DecidableEq, Repr

namespace Operation

def perform : Operation → Build Handle
  | ofVariable literal => Diagram.ofVariable literal
  | terminal label => Diagram.terminal label
  | not f => Diagram.not f
  | and f g => Diagram.and f g
  | or f g => Diagram.or f g
  | select test yes no => Diagram.select test yes no
  | restrict f literal => Diagram.restrict f literal
  | abstract q literals f => Diagram.abstract q literals f

/-- The functions that the operation is applied to. -/
def operands : Operation → List Handle
  | ofVariable _ | terminal _ => []
  | not f | restrict f _ | abstract _ _ f => [f]
  | and f g | or f g => [f, g]
  | select test yes no => [test, yes, no]

/-- The function that the operation should make. -/
def meaning (d : Diagram) : Operation → Assignment → Bool
  | ofVariable literal, σ => σ literal.toNat
  | terminal label, σ => σ label
  | not f, σ => !d.value σ f
  | and f g, σ => d.value σ f && d.value σ g
  | or f g, σ => d.value σ f || d.value σ g
  | select test yes no, σ => if d.value σ test then d.value σ yes else d.value σ no
  | restrict f literal, σ => d.value (σ.set literal.natAbs (0 < literal)) f
  | abstract q literals f, σ => q.overVars (d.value · f) (literals.map Int.natAbs) σ

/-- The errors an operation may end in. -/
def MayFail (limit : Nat) (operation : Operation) (error : Error) : Prop :=
  error = .tableExhausted limit ∨
    ∃ literal, literal ≤ 0 ∧ operation = ofVariable literal ∧
      error = .undefinedLiteral literal Literal.maximum

end Operation

/-- The handles belong to the diagram. -/
def HoldsAll (d : Diagram) (handles : List Handle) : Prop :=
  ∀ f ∈ handles, d.Holds f

instance (d : Diagram) (f : Handle) : Decidable (d.Holds f) :=
  inferInstanceAs (Decidable (f.height ≤ d.nodes.size))

instance (d : Diagram) (handles : List Handle) : Decidable (d.HoldsAll handles) :=
  inferInstanceAs (Decidable (∀ f ∈ handles, d.Holds f))

/-- The diagrams that come from an empty one by operations and collections, each applied to
handles of the diagram it finds. -/
inductive Reachable (limit : Nat) : Diagram → Prop where
  | start : Reachable limit (empty limit)
  | perform (operation : Operation) : Reachable limit d → d.HoldsAll operation.operands →
      Reachable limit (operation.perform d).2
  | collect (roots : List Handle) : Reachable limit d → d.HoldsAll roots →
      Reachable limit (d.collect roots).2

variable {d e : Diagram} {f g : Handle} {operation : Operation} {limit : Nat}

/-- An operation keeps the diagram valid and its handles alive, and makes the function it
should make. -/
theorem ensures_perform (valid : d.Valid) (holds : d.HoldsAll operation.operands) :
    Ensures operation.perform d
      (fun f e => e.Valid ∧ d.Grows e ∧ e.Holds f ∧ ∀ σ, e.value σ f = operation.meaning d σ)
      fun error e => e.Valid ∧ d.Grows e ∧ operation.MayFail d.limit error := by
  have of_builds {work : Build Handle} {post : Handle → Diagram → Prop}
      (builds : Builds work d post) : Ensures work d (fun f e => e.Valid ∧ d.Grows e ∧ post f e)
        fun error e => e.Valid ∧ d.Grows e ∧ operation.MayFail d.limit error :=
    Ensures.mono_fail builds fun _ _ facts => ⟨facts.1, facts.2.1, .inl facts.2.2⟩
  simp only [HoldsAll] at holds
  cases operation with
  | ofVariable literal =>
    show Ensures (Diagram.ofVariable literal) d _ _
    unfold Diagram.ofVariable
    by_cases negative : literal ≤ 0
    · rw [if_pos negative]
      exact Ensures.throw ⟨valid, .refl d, .inr ⟨literal, negative, rfl, rfl⟩⟩
    · rw [if_neg negative]
      exact of_builds (builds_terminal valid literal.toNat)
  | terminal label => exact of_builds (builds_terminal valid label)
  | not f =>
    have holdsF : d.Holds f := holds f (by simp [Operation.operands])
    exact of_builds (builds_not valid holdsF)
  | and f g =>
    obtain ⟨holdsF, holdsG⟩ : d.Holds f ∧ d.Holds g := by simpa [Operation.operands] using holds
    exact of_builds (builds_and valid holdsF holdsG)
  | or f g =>
    obtain ⟨holdsF, holdsG⟩ : d.Holds f ∧ d.Holds g := by simpa [Operation.operands] using holds
    exact of_builds (builds_or valid holdsF holdsG)
  | select test yes no =>
    obtain ⟨holdsTest, holdsYes, holdsNo⟩ : d.Holds test ∧ d.Holds yes ∧ d.Holds no := by
      simpa [Operation.operands] using holds
    exact of_builds (builds_select valid holdsTest holdsYes holdsNo)
  | restrict f literal =>
    have holdsF : d.Holds f := holds f (by simp [Operation.operands])
    exact of_builds (builds_restrict_literal valid holdsF literal)
  | abstract q literals f =>
    have holdsF : d.Holds f := holds f (by simp [Operation.operands])
    exact of_builds (builds_abstract valid holdsF q literals)

/-- Whether it succeeds or not, an operation leaves a valid diagram with the old nodes. -/
theorem perform_spec (valid : d.Valid) (holds : d.HoldsAll operation.operands) :
    (operation.perform d).2.Valid ∧ d.Grows (operation.perform d).2 :=
  (Ensures.mono (ensures_perform valid holds) (fun _ _ facts => ⟨facts.1, facts.2.1⟩)
    fun _ _ facts => ⟨facts.1, facts.2.1⟩ : Ensures operation.perform d
      (fun _ e => e.Valid ∧ d.Grows e) fun _ e => e.Valid ∧ d.Grows e).state

theorem Reachable.valid (reached : Reachable limit d) : d.Valid ∧ d.limit = limit := by
  induction reached with
  | start => exact ⟨valid_empty limit, rfl⟩
  | perform operation _ holds before =>
    obtain ⟨valid, grows⟩ := perform_spec before.1 holds
    exact ⟨valid, grows.limit_eq.trans before.2⟩
  | collect roots _ holds before =>
    obtain ⟨valid, limited, _⟩ := collect_spec before.1 holds
    exact ⟨valid, limited.trans before.2⟩

theorem Valid.asConstant_eq_some_iff (valid : d.Valid) (holds : d.Holds f) {value : Bool} :
    f.asConstant = some value ↔ ∀ σ, d.value σ f = value := by
  constructor
  · intro constant
    cases f with
    | const other => simpa [Handle.asConstant] using constant
    | node index => simp [Handle.asConstant] at constant
  · intro same
    have equal : f = .const value := by
      apply valid.eq_of_value_eq holds (holds_const d value)
      intro σ
      rw [same, value_const]
    rw [equal]
    rfl

/-- Whatever was done to it, a diagram is reduced and ordered, finds each of its nodes, and
remembers the truth. So handles are equal iff their functions are, and a function is constant
iff its handle says so. -/
theorem reachable_canonical (reached : Reachable limit d) :
    d.Valid ∧ d.nodes.size ≤ limit ∧
      (∀ (index other : Nat) (n : Node), d.nodes[index]? = some n → d.nodes[other]? = some n →
        index = other) ∧
      (∀ f g, d.Holds f → d.Holds g → (f = g ↔ ∀ σ, d.value σ f = d.value σ g)) ∧
      ∀ f value, d.Holds f → (f.asConstant = some value ↔ ∀ σ, d.value σ f = value) := by
  obtain ⟨valid, limited⟩ := reached.valid
  refine ⟨valid, limited ▸ valid.size_le, fun _ _ _ => valid.index_unique, ?_,
    fun _ _ holds => valid.asConstant_eq_some_iff holds⟩
  intro f g holdsF holdsG
  constructor
  · intro same σ
    rw [same]
  · exact valid.eq_of_value_eq holdsF holdsG

/-- Two variables and their conjunction, in a table without room for their disjunction. -/
def pair : Diagram :=
  [.ofVariable 2, .ofVariable 1, .and (.node 1) (.node 0), .or (.node 1) (.node 0)].foldl
    (fun d (operation : Operation) => (operation.perform d).2) (empty 3)

theorem reachable_pair : Reachable 3 pair := by
  have first : Reachable 3 _ := Reachable.start.perform (.ofVariable 2) (by decide +kernel)
  have second := first.perform (.ofVariable 1) (by decide +kernel)
  have third := second.perform (.and (.node 1) (.node 0)) (by decide +kernel)
  exact third.perform (.or (.node 1) (.node 0)) (by decide +kernel)

theorem pair_canonical :
    ((Operation.or (.node 1) (.node 0)).perform pair).1 = .error (.tableExhausted 3) ∧
      pair.nodes.size ≤ 3 ∧
      ((Handle.node 2).asConstant = some false ↔ ∀ σ, pair.value σ (.node 2) = false) := by
  obtain ⟨_, size, _, _, constant⟩ := reachable_canonical reachable_pair
  exact ⟨by decide +kernel, size, constant (.node 2) false (by decide +kernel)⟩

end QuantCircuit.Diagram
