import QuantCircuit.Proofs.Circuit.Truth
import QuantCircuit.Proofs.Diagram.Inspecting
import QuantCircuit.Proofs.Diagram.Quantifying
import QuantCircuit.Proofs.Solver.Working
import QuantCircuit.Solver.Eliminate

namespace QuantCircuit.Solver

open Diagram

variable {c : Circuit} {d : Diagram} {f : Handle} {s t u : Solver}

theorem eq_const_of_isConstant (constant : f.isConstant = true) : ∃ value, f = .const value := by
  cases f with
  | const value => exact ⟨value, rfl⟩
  | node index => simp [Handle.isConstant, Handle.asConstant] at constant

theorem natAbs_map_ofNat (vars : List Nat) : (vars.map Int.ofNat).map Int.natAbs = vars := by
  induction vars with
  | nil => rfl
  | cons v rest ih => simpa using ih

theorem close_value_const (d : Diagram) (value : Bool) (blocks : List Block) (σ : Assignment) :
    Block.close (d.value · (.const value)) blocks σ = value := by
  have same : (d.value · (.const value)) = fun _ : Assignment => value :=
    funext fun σ => value_const d σ value
  rw [same, Block.close_const]

theorem works_stopEarly (valid : s.diagram.Valid) (f : Handle) :
    Works Extends (stopEarly f) s fun r t => r = f ∧ t.diagram = s.diagram :=
  ⟨⟨⟨rfl, rfl, rfl, rfl, rfl, rfl, valid⟩, .refl _⟩, rfl, rfl⟩

/-- The blocks are quantified one after the other; the first one is the innermost. -/
theorem works_abstractBlocks (valid : s.diagram.Valid) (holds : s.diagram.Holds f)
    (blocks : List Block) :
    Works Extends (abstractBlocks blocks f) s fun r t => t.diagram.Holds r ∧
      ∀ σ, t.diagram.value σ r = Block.close (s.diagram.value · f) blocks.reverse σ := by
  induction blocks generalizing s f with
  | nil => exact works_pure (.refl valid) ⟨holds, fun σ => rfl⟩
  | cons block rest ih =>
    rw [abstractBlocks]
    split
    · rename_i constant
      obtain ⟨value, rfl⟩ := eq_const_of_isConstant constant
      refine (works_stopEarly valid _).mono ?_
      rintro r t _ ⟨rfl, _⟩
      exact ⟨holds_const _ _, fun σ => by rw [value_const, close_value_const]⟩
    · refine Works.bind frame_extends (works_onDiagram
        (builds_abstract valid holds block.quantifier (block.vars.map Int.ofNat))) ?_
      rintro g t extended ⟨holdsG, valueG⟩
      refine Works.bind frame_extends (works_count extended.valid _) ?_
      intro _ u counted same
      refine Works.bind frame_extends (works_noteSize counted.valid) ?_
      intro _ w noted same'
      rw [← same, ← same'] at holdsG valueG
      refine (ih noted.valid holdsG).mono ?_
      rintro r x _ ⟨holdsR, valueR⟩
      refine ⟨holdsR, fun σ => ?_⟩
      have inner : (w.diagram.value · g) = Block.close (s.diagram.value · f) [block] :=
        funext fun σ => by rw [valueG, natAbs_map_ofNat]; rfl
      rw [valueR, List.reverse_cons, Block.close_append, inner]

theorem works_abstractVariables (q : Quantifier) (valid : s.diagram.Valid)
    (holds : s.diagram.Holds f) (vars : List Nat) :
    Works Extends (abstractVariables q vars f) s fun r t => t.diagram.Holds r.1 ∧
      (r.2 = false → r.1.isConstant = true) ∧
      ∀ σ, t.diagram.value σ r.1 = q.overVars (s.diagram.value · f) vars σ := by
  induction vars generalizing s f with
  | nil => exact works_pure (.refl valid) ⟨holds, by simp, fun σ => rfl⟩
  | cons v rest ih =>
    rw [abstractVariables]
    split
    · rename_i constant
      refine Works.bind frame_extends (works_stopEarly valid f) ?_
      rintro r t extended ⟨rfl, same⟩
      obtain ⟨value, rfl⟩ := eq_const_of_isConstant constant
      refine works_pure (.refl extended.valid) ⟨holds_const _ _, fun _ => rfl, fun σ => ?_⟩
      rw [value_const]
      exact (close_value_const s.diagram value [⟨q, v :: rest⟩] σ).symm
    · refine Works.bind frame_extends
        (works_onDiagram (builds_abstract valid holds q [(v : Literal)])) ?_
      rintro g t extended ⟨holdsG, valueG⟩
      refine Works.bind frame_extends (works_noteSize extended.valid) ?_
      intro _ u noted same
      rw [← same] at holdsG valueG
      refine (ih noted.valid holdsG).mono ?_
      rintro r x _ ⟨holdsR, finished, valueR⟩
      refine ⟨holdsR, finished, fun σ => ?_⟩
      have inner : (u.diagram.value · g) = q.overVars (s.diagram.value · f) [v] :=
        funext fun σ => valueG σ
      rw [valueR, inner, ← Quantifier.overVars_append]
      exact congrFun (q.overVars_congr_mem _ fun w => by simp [or_comm]) σ

/-- Quantifying single variables comes to the same function. -/
theorem works_abstractBlocksByVariable (valid : s.diagram.Valid) (holds : s.diagram.Holds f)
    (blocks : List Block) :
    Works Extends (abstractBlocksByVariable blocks f) s fun r t => t.diagram.Holds r ∧
      ∀ σ, t.diagram.value σ r = Block.close (s.diagram.value · f) blocks.reverse σ := by
  induction blocks generalizing s f with
  | nil => exact works_pure (.refl valid) ⟨holds, fun σ => rfl⟩
  | cons block rest ih =>
    rw [abstractBlocksByVariable]
    refine Works.bind frame_extends
      (works_abstractVariables block.quantifier valid holds block.vars.reverse) ?_
    rintro ⟨g, finished⟩ t extended ⟨holdsG, unfinished, valueG⟩
    have inner : (t.diagram.value · g) = Block.close (s.diagram.value · f) [block] := by
      funext σ
      rw [valueG]
      exact congrFun (Quantifier.overVars_congr_mem _ _ fun v => List.mem_reverse) σ
    cases finished with
    | true =>
      refine Works.bind frame_extends (works_count extended.valid _) ?_
      intro _ u counted same
      rw [← same] at holdsG inner
      refine (ih counted.valid holdsG).mono ?_
      rintro r x _ ⟨holdsR, valueR⟩
      refine ⟨holdsR, fun σ => ?_⟩
      rw [valueR, List.reverse_cons, Block.close_append, inner]
    | false =>
      obtain ⟨value, rfl⟩ := eq_const_of_isConstant (unfinished rfl)
      refine works_pure (.refl extended.valid) ⟨holdsG, fun σ => ?_⟩
      rw [List.reverse_cons, Block.close_append, ← inner, close_value_const, value_const]

end QuantCircuit.Solver
