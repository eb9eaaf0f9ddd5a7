import Mathlib.Data.List.Forall2
import QuantCircuit.Circuit.Miniscope
import QuantCircuit.Proofs.Circuit.Interpretation

namespace QuantCircuit

namespace Quantifier

/-- The other value is taken iff all assignments to the variables give it. -/
theorem overVars_eq_dual_decisive (q : Quantifier) (p : Assignment → Bool) (vars : List Nat)
    (σ : Assignment) :
    q.overVars p vars σ = q.dual.decisive ↔
      ∀ τ, σ.AgreeOff vars τ → p τ = q.dual.decisive := by
  have settled := q.overVars_eq_decisive p vars σ
  rw [decisive_dual, Bool.eq_not, ne_eq, settled]
  constructor
  · intro missing τ agree
    exact Bool.eq_not.mpr fun reached => missing ⟨τ, agree, reached⟩
  · rintro everywhere ⟨τ, agree, reached⟩
    exact Bool.eq_not.mp (everywhere τ agree) reached

/-- Variables under one quantifier may change places. -/
theorem overVars_comm (q : Quantifier) (p : Assignment → Bool) (vars others : List Nat) :
    q.overVars (q.overVars p vars) others = q.overVars (q.overVars p others) vars := by
  rw [← overVars_append, ← overVars_append]
  exact q.overVars_congr_mem p fun v => by rw [List.mem_append, List.mem_append, or_comm]

theorem overVars_neg (q : Quantifier) (p : Assignment → Bool) (vars : List Nat) :
    q.overVars (fun τ => !p τ) vars = fun σ => !q.dual.overVars p vars σ := by
  funext σ
  have flipped := q.dual.overVars_dual p vars σ
  rwa [dual_dual] at flipped

end Quantifier

open Circuit.Descent

theorem mem_mergeBound {outer inner : List Literal} {v : Literal} :
    v ∈ mergeBound outer inner ↔ v ∈ outer ∨ v ∈ inner := by
  unfold mergeBound
  induction inner generalizing outer with
  | nil => simp
  | cons w rest ih =>
    rw [List.foldl_cons, ih, List.mem_cons]
    split
    · rename_i present
      constructor
      · rintro (old | new)
        · exact .inl old
        · exact .inr (.inr new)
      · rintro (old | rfl | new)
        · exact .inl old
        · exact .inl present
        · exact .inr new
    · simp [or_assoc]

theorem mem_map_mergeBound {outer inner : List Literal} {v : Nat} :
    v ∈ (mergeBound outer inner).map Int.natAbs ↔
      v ∈ outer.map Int.natAbs ++ inner.map Int.natAbs := by
  simp only [List.mem_append, List.mem_map, mem_mergeBound, or_and_right, exists_or]

namespace Gate

variable {functions more : Interpretation} {gate inner : Gate} {q : Quantifier} {vars : List Nat}
variable {inside outside results : List Literal} {r : Literal}

/-- A quantifier commutes with the connective that it distributes over. -/
theorem meaning_distributed (kind : gate.connective = q.distributesOver)
    (pushed : List.Forall₂ (fun l r => more.literal r = q.overVars (functions.literal l) vars)
      gate.inputs results) :
    ({ connective := gate.connective, inputs := results } : Gate).meaning more =
      q.overVars (gate.meaning functions) vars := by
  have inputs : ∀ σ, (∃ r ∈ results, more.literal r σ = q.decisive) ↔
      ∃ l ∈ gate.inputs, q.overVars (functions.literal l) vars σ = q.decisive := by
    intro σ
    generalize gate.inputs = inputs at pushed
    induction pushed with
    | nil => simp
    | cons same _ ih => simp [ih, same]
  have sameKind : ({ connective := gate.connective, inputs := results } : Gate).connective =
      q.distributesOver := kind
  funext σ
  apply eq_of_eq_decisive
  rw [meaning_eq_decisive more sameKind, inputs, Quantifier.overVars_eq_decisive]
  simp only [Quantifier.overVars_eq_decisive, meaning_eq_decisive functions kind]
  constructor
  · rintro ⟨l, member, τ, agree, reached⟩
    exact ⟨τ, agree, l, member, reached⟩
  · rintro ⟨τ, agree, l, member, reached⟩
    exact ⟨l, member, τ, agree, reached⟩

/-- Under the other connective, inputs without the variables may stay outside. -/
theorem meaning_divided (kind : gate.connective = q.dual.distributesOver)
    (inputs : ∀ l, l ∈ gate.inputs ↔ l ∈ inside ∨ l ∈ outside)
    (ignored : ∀ l ∈ outside, ∀ v ∈ vars, Ignores (functions.literal l) v)
    (same : ∀ l ∈ outside, more.literal l = functions.literal l)
    (pushed : more.literal r = q.overVars
      (({ connective := gate.connective, inputs := inside } : Gate).meaning functions) vars) :
    ({ connective := gate.connective, inputs := outside ++ [r] } : Gate).meaning more =
      q.overVars (gate.meaning functions) vars := by
  have sameKind (inputs : List Literal) :
      ({ connective := gate.connective, inputs } : Gate).connective = q.dual.distributesOver := kind
  funext σ
  refine @eq_of_eq_decisive _ _ q.dual.decisive ?_
  rw [meaning_eq_decisive more (sameKind _), Quantifier.overVars_eq_dual_decisive]
  simp only [meaning_eq_decisive functions kind]
  constructor
  · rintro ⟨l, member, reached⟩ τ agree
    rcases List.mem_append.mp member with stays | last
    · rw [same l stays] at reached
      exact ⟨l, (inputs l).mpr (.inr stays),
        (eq_of_agreeOff (ignored l stays) agree).symm.trans reached⟩
    · rw [List.mem_singleton.mp last, pushed, Quantifier.overVars_eq_dual_decisive] at reached
      obtain ⟨l, moves, settled⟩ := (meaning_eq_decisive functions (sameKind _) τ).mp (reached τ agree)
      exact ⟨l, (inputs l).mpr (.inl moves), settled⟩
  · intro everywhere
    by_cases settled : ∃ l ∈ outside, functions.literal l σ = q.dual.decisive
    · obtain ⟨l, stays, reached⟩ := settled
      exact ⟨l, by simp [stays], by rw [same l stays, reached]⟩
    · refine ⟨r, by simp, ?_⟩
      rw [pushed, Quantifier.overVars_eq_dual_decisive]
      intro τ agree
      obtain ⟨l, member, reached⟩ := everywhere τ agree
      rcases (inputs l).mp member with moves | stays
      · exact (meaning_eq_decisive functions (sameKind _) τ).mpr ⟨l, moves, reached⟩
      · refine absurd ⟨l, stays, ?_⟩ settled
        exact (eq_of_agreeOff (ignored l stays) agree).trans reached

theorem meaning_quantify (functions : Interpretation) (q : Quantifier) (bound : List Literal)
    (body : Literal) :
    (quantify q bound body).meaning functions =
      q.overVars (functions.literal body) (bound.map Int.natAbs) :=
  meaning_quantifier functions rfl

theorem meaning_single (functions : Interpretation) (q : Quantifier) (l : Literal) :
    ({ connective := q.distributesOver, inputs := [l] } : Gate).meaning functions =
      functions.literal l := by
  funext σ
  apply eq_of_eq_decisive
  rw [meaning_eq_decisive functions rfl]
  simp

/-- A quantifier commutes with a gate that carries the same one. -/
theorem meaning_absorbed (kind : gate.connective = q.gate)
    (pushed : more.literal r = q.overVars (functions.literal gate.body) vars) :
    (quantify q gate.bound r).meaning more = q.overVars (gate.meaning functions) vars := by
  rw [meaning_quantify, pushed, meaning_quantifier functions kind, Quantifier.overVars_comm]

/-- Two gates with the same quantifier become one. -/
theorem meaning_merged (kind : inner.connective = q.gate)
    (body : more.literal r = inner.meaning more) (bound : List Literal) :
    (quantify q (mergeBound bound inner.bound) inner.body).meaning more =
      (quantify q bound r).meaning more := by
  rw [meaning_quantify, meaning_quantify, body, meaning_quantifier more kind,
    ← Quantifier.overVars_append]
  exact q.overVars_congr_mem _ fun v => mem_map_mergeBound

end Gate

end QuantCircuit
