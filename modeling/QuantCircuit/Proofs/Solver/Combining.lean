import QuantCircuit.Proofs.Circuit.Interpretation
import QuantCircuit.Proofs.Diagram.Quantifying
import QuantCircuit.Proofs.Solver.Folding
import QuantCircuit.Solver.Compile

namespace QuantCircuit.Solver

open Diagram

variable {c : Circuit} {d e : Diagram} {state : Compilation} {gate : Gate} {id : Nat}

theorem builds_ofVariable (valid : d.Valid) {v : Nat} (positive : 0 < v) :
    Builds (Diagram.ofVariable v) d fun r e => e.Holds r ∧ ∀ σ : Assignment, e.value σ r = σ v := by
  have notZero : ¬ (v : Int) ≤ 0 := by omega
  rw [Diagram.ofVariable, if_neg notZero]
  exact builds_terminal valid v

namespace Compilation

/-- Every function in the table is that of its gate. -/
def Right (c : Circuit) (state : Compilation) (d : Diagram) : Prop :=
  ∀ (position : Nat) (f : Handle), state.functions[position]? = some (some f) →
    d.Holds f ∧ ∀ σ, d.value σ f = c.interpretation (c.maxVar + position) σ

/-- The literal is a variable, or a gate whose function is in the table. -/
def Offers (c : Circuit) (state : Compilation) (l : Literal) : Prop :=
  c.maxVar ≤ l.natAbs → ∃ f, state.functions[l.natAbs - c.maxVar]? = some (some f)

theorem Right.grows (right : Right c state d) (valid : d.Valid) (grows : d.Grows e) :
    Right c state e := by
  intro position f found
  obtain ⟨holds, value⟩ := right position f found
  exact ⟨grows.holds holds, fun σ => (grows.value_eq valid holds σ).trans (value σ)⟩

theorem builds_sign (valid : d.Valid) {f : Handle} (holds : d.Holds f) {l : Literal}
    (value : ∀ σ, d.value σ f = c.interpretation l.natAbs σ) :
    Builds (if l < 0 then Diagram.not f else pure f) d fun r e =>
      e.Holds r ∧ ∀ σ, e.value σ r = c.meaning l σ := by
  by_cases negative : l < 0
  · rw [if_pos negative]
    refine (builds_not valid holds).mono ?_
    rintro r h _ _ ⟨held, flipped⟩
    exact ⟨held, fun σ => by simp [flipped, value, Circuit.meaning, Interpretation.literal, negative]⟩
  · rw [if_neg negative]
    exact builds_pure valid
      ⟨holds, fun σ => by simp [value, Circuit.meaning, Interpretation.literal, negative]⟩

theorem builds_read (valid : d.Valid) (right : Right c state d) {l : Literal} (nonzero : l ≠ 0)
    (offers : Offers c state l) :
    Builds (state.read c.maxVar l) d fun r e => e.Holds r ∧ ∀ σ, e.value σ r = c.meaning l σ := by
  unfold read
  by_cases isVariable : l.natAbs < c.maxVar
  · have denotes := Circuit.interpretation_variable (Circuit.gate?_eq_none_of_lt isVariable)
    simp only [isVariable, ↓reduceIte]
    refine Builds.bind (builds_ofVariable valid (Int.natAbs_pos.mpr nonzero)) ?_
    rintro f e valid' _ ⟨holds, value⟩
    exact builds_sign valid' holds fun σ => by rw [value, denotes]
  · have isGate : c.maxVar ≤ l.natAbs := Nat.le_of_not_lt isVariable
    obtain ⟨f, found⟩ := offers isGate
    obtain ⟨holds, value⟩ := right _ f found
    rw [Nat.add_sub_cancel' isGate] at value
    simp only [isVariable, ↓reduceIte, found]
    exact builds_sign valid holds value

/-- The functions of a list of inputs, in their order. -/
def Denote (c : Circuit) (d : Diagram) (functions : List Handle) (inputs : List Literal) : Prop :=
  (∀ f ∈ functions, d.Holds f) ∧ ∀ σ, functions.map (d.value σ) = inputs.map (c.meaning · σ)

theorem builds_readInputs (valid : d.Valid) (right : Right c state d) {inputs : List Literal}
    (earlier : ∀ l ∈ inputs, l ≠ 0 ∧ l.natAbs < id) (offers : ∀ l ∈ inputs, Offers c state l) :
    Builds (state.readInputs c.maxVar id inputs) d fun functions e => Denote c e functions inputs := by
  unfold readInputs
  induction inputs generalizing d with
  | nil => exact builds_pure valid ⟨by simp, by simp⟩
  | cons l rest ih =>
    obtain ⟨nonzero, before⟩ := earlier l (by simp)
    have notForward : ¬ id ≤ l.natAbs := Nat.not_le_of_lt before
    rw [List.mapM_cons]
    simp only [notForward, ↓reduceIte]
    refine Builds.bind (builds_read valid right nonzero (offers l (by simp))) ?_
    rintro f e valid' grows ⟨holds, value⟩
    refine Builds.bind (ih valid' (right.grows valid grows)
      (fun l member => earlier l (by simp [member])) fun l member => offers l (by simp [member])) ?_
    rintro functions h validLater growsLater ⟨held, values⟩
    refine builds_pure validLater ⟨?_, fun σ => ?_⟩
    · intro g member
      rcases List.mem_cons.mp member with rfl | later
      · exact growsLater.holds holds
      · exact held g later
    · rw [List.map_cons, List.map_cons, values, growsLater.value_eq valid' holds, value]

end Compilation

open Compilation

theorem settled_iff_inputs {q : Quantifier} {functions : List Handle} {inputs : List Literal}
    (denote : Denote c d functions inputs) (σ : Assignment) :
    Fold.Settled q d functions σ ↔ ∃ l ∈ inputs, c.interpretation.literal l σ = q.decisive := by
  have listed : q.decisive ∈ functions.map (d.value σ) ↔ q.decisive ∈ inputs.map (c.meaning · σ) := by
    rw [denote.2 σ]
  simp only [List.mem_map] at listed
  exact listed

/-- A gate makes of the functions of its inputs what its connective says. -/
theorem builds_combineInputs (valid : d.Valid) (fold : Fold) {functions : List Handle}
    (arity : gate.connective.isQuantifier → gate.inputs.length = 1)
    (denote : Denote c d functions gate.inputs) :
    Builds (combineInputs fold gate functions) d fun r e =>
      e.Holds r ∧ ∀ σ, e.value σ r = gate.meaning c.interpretation σ := by
  obtain ⟨q, kind | kind⟩ := gate.connective.eq_distributesOver_or_gate
  · have joined (operation : Handle → Handle → Build Handle) (joins : Fold.Joins q operation) :
        Builds (fold.run operation (.const !q.decisive) functions) d fun r e =>
          e.Holds r ∧ ∀ σ, e.value σ r = gate.meaning c.interpretation σ := by
      refine (Fold.builds_run fold joins valid denote.1).mono ?_
      rintro r e _ _ ⟨holds, value⟩
      refine ⟨holds, fun σ => eq_of_eq_decisive ((value σ).trans ?_)⟩
      rw [settled_iff_inputs denote, Gate.meaning_eq_decisive c.interpretation kind]
    cases q with
    | all =>
      simp only [combineInputs, kind, Quantifier.distributesOver]
      exact joined Diagram.and Fold.joins_and
    | ex =>
      simp only [combineInputs, kind, Quantifier.distributesOver]
      exact joined Diagram.or Fold.joins_or
  · have only := Gate.inputs_eq_body kind arity
    obtain ⟨holds, values⟩ := denote
    rw [only] at values
    obtain ⟨f, rfl⟩ : ∃ f, functions = [f] := by
      have length := congrArg List.length (values fun _ => false)
      exact List.length_eq_one_iff.mp (by simpa using length)
    have body (σ : Assignment) : d.value σ f = c.interpretation.literal gate.body σ := by
      simpa [Circuit.meaning] using values σ
    have same : (d.value · f) = c.interpretation.literal gate.body := funext body
    have abstracted := builds_abstract valid (holds f (by simp)) q gate.bound
    rw [same] at abstracted
    simp only [← Gate.meaning_quantifier c.interpretation kind] at abstracted
    cases q <;> simpa [combineInputs, kind, Quantifier.gate] using abstracted

end QuantCircuit.Solver
