import QuantCircuit.Proofs.Diagram.Operating

namespace QuantCircuit

namespace Assignment

/-- The variables of the literals have the listed values, in the order of the list. -/
def Gives (σ : Assignment) (literals : List Literal) (values : List Bool) : Prop :=
  literals.map (fun literal => σ literal.natAbs) = values

variable {σ τ : Assignment} {literals : List Literal} {values : List Bool}

theorem Gives.length_eq (gives : σ.Gives literals values) : values.length = literals.length := by
  rw [← gives, List.length_map]

theorem Gives.getElem?_eq (gives : σ.Gives literals values) {position : Nat} {literal : Literal}
    (listed : literals[position]? = some literal) : values[position]? = some (σ literal.natAbs) := by
  rw [← gives, List.getElem?_map, listed]
  rfl

/-- The values determine the assignment on the variables that are listed. -/
theorem Gives.agree (first : σ.Gives literals values) (second : τ.Gives literals values) :
    ∀ v ∈ literals.map Int.natAbs, σ v = τ v := by
  intro v member
  obtain ⟨literal, listed, rfl⟩ := List.mem_map.mp member
  exact List.map_inj_left.mp (first.trans second.symm) literal listed

end Assignment

namespace Diagram

variable {d : Diagram} {f : Handle} {limit : Nat}

theorem Valid.eq_false_iff (valid : d.Valid) (holds : d.Holds f) :
    f = .const false ↔ ∀ σ, d.value σ f = false := by
  rw [← valid.asConstant_eq_some_iff holds]
  cases f <;> simp [Handle.asConstant]

/-- Values are picked unless the function is unsatisfiable. They are those of one satisfying
assignment, in the order of the literals. If every variable the function looks at is listed,
whatever has these values satisfies it. -/
theorem pickCube_exact (reached : Reachable limit d) (holds : d.Holds f)
    (literals : List Literal) :
    (d.pickCube f literals = none ↔ ∀ σ, d.value σ f = false) ∧
      ∀ values, d.pickCube f literals = some values →
        values.length = literals.length ∧
        (∃ σ : Assignment, d.value σ f = true ∧ σ.Gives literals values) ∧
        (∀ (i j : Nat) (first second : Literal), literals[i]? = some first →
          literals[j]? = some second → first.natAbs = second.natAbs → values[i]? = values[j]?) ∧
        ((∀ v, ¬ Ignores (d.value · f) v → v ∈ literals.map Int.natAbs) →
          ∀ σ : Assignment, σ.Gives literals values → d.value σ f = true) := by
  obtain ⟨valid, _⟩ := reached.valid
  refine ⟨pickCube_eq_none_iff.trans (valid.eq_false_iff holds), fun values picked => ?_⟩
  obtain ⟨σ, satisfied, same⟩ := pickCube_spec valid holds picked
  have gives : σ.Gives literals values := same.symm
  refine ⟨gives.length_eq, ⟨σ, satisfied, gives⟩, fun i j first second atI atJ equal => ?_,
    fun complete τ again => ?_⟩
  · rw [gives.getElem?_eq atI, gives.getElem?_eq atJ, equal]
  · rw [← satisfied]
    refine readsOnly_support valid holds τ σ fun v member => ?_
    exact again.agree gives v (complete v ((mem_support_iff valid holds).mp member))

/-- The conjunction of two variables, one of them listed twice and one that it does not know. -/
theorem pair_pickCube_exact :
    pair.pickCube (.node 2) [-2, 7, 1, 2] = some [true, false, true, true] ∧
      ∃ σ : Assignment, pair.value σ (.node 2) = true ∧
        σ.Gives [-2, 7, 1, 2] [true, false, true, true] := by
  have picked : pair.pickCube (.node 2) [-2, 7, 1, 2] = some [true, false, true, true] := by
    decide +kernel
  exact ⟨picked, ((pickCube_exact reachable_pair (by decide +kernel) _).2 _ picked).2.1⟩

end Diagram

end QuantCircuit
