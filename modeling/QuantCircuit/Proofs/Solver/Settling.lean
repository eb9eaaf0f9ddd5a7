import QuantCircuit.Proofs.Solver.Compiling
import QuantCircuit.Proofs.Solver.Preserving
import QuantCircuit.Proofs.Solver.Simplifying

namespace QuantCircuit.Solver

open Diagram

variable {c : Circuit} {s₀ s t : Solver} {f₀ f r : Handle} {made : List (Nat × Bool)}

/-- Forced values and monotone variables may be fixed at every quantifier: where an
assignment of the first block has the new values, the formula behind that block stays the
same, and so does the whole formula. -/
theorem simplification_sound (wellFormed : s.circuit.WellFormed) (valid : s.diagram.Valid)
    (holds : s.diagram.Holds f)
    (reads : ReadsOnly (s.diagram.value · f) fun v => 0 < v ∧ v < s.circuit.maxVar)
    (ran : propagateUnits f s = (.ok r, t) ∨ eliminatePure f s = (.ok r, t)) :
    ∃ made, t.forced = record s.forced made ∧ (made.map (·.1)).Nodup ∧
      t.statistics.units + t.statistics.pures =
        s.statistics.units + s.statistics.pures + made.length ∧
      (∀ σ : Assignment,
        (∀ block ∈ s.circuit.blocks.head?, ∀ entry ∈ made, entry.1 ∈ block.vars →
          σ entry.1 = entry.2) →
        Block.close (t.diagram.value · r) s.circuit.blocks.tail σ =
          Block.close (s.diagram.value · f) s.circuit.blocks.tail σ) ∧
      Quantifier.ex.overVars (Block.close (t.diagram.value · r) s.circuit.blocks)
          s.circuit.freeVariables (fun _ => false) =
        Quantifier.ex.overVars (Block.close (s.diagram.value · f) s.circuit.blocks)
          s.circuit.freeVariables (fun _ => false) := by
  obtain ⟨made, reaches⟩ : ∃ made, Reaches f s made r t := by
    rw [propagateUnits_eq, eliminatePure_eq] at ran
    rcases ran with units | pures
    · exact ((settling_unitRound.ensures wellFormed valid holds).of_ok units).1
    · exact ((settling_pureRound.ensures wellFormed valid holds).of_ok pures).1
  obtain ⟨whole, behind⟩ := reaches.fixes.close_eq wellFormed reads
  refine ⟨made, reaches.forced_eq, reaches.fixes.nodup, reaches.counted, fun σ agree => ?_, ?_⟩
  · cases blocks : s.circuit.blocks with
    | nil =>
      rw [blocks] at whole
      exact congrFun whole σ
    | cons block rest => exact behind block rest blocks σ (agree block (by simp [blocks]))
  · rw [whole]

/-- The first variable, although the second one is quantified behind it. -/
def projection : Circuit where
  name := "projection"
  maxVar := 3
  blocks := [⟨.ex, [1]⟩, ⟨.all, [2]⟩]
  gates := #[{ connective := .and, inputs := [1] }]
  output? := some 3
  names := #["", "1", "2", "3"]
  origin := #[0, 1, 2, 3]

/-- The solver with the function of the output in its diagram. -/
def projecting : Solver := (compileLiteral 3 (start projection {} 20)).2

theorem projecting_spec : projecting.circuit = projection ∧ projecting.diagram.Valid ∧
    projecting.diagram.Holds (.node 0) := by
  have compiled : (compileLiteral 3 (start projection {} 20)).1 = .ok (.node 0) := by
    decide +kernel
  have defined : projection.Defines 3 := ⟨by decide, by decide⟩
  obtain ⟨kept, holds, _⟩ := (works_compileLiteral (by decide) rfl (valid_empty 20)
    defined).of_ok (run_eq_ok compiled)
  exact ⟨kept.circuit_eq, kept.valid, holds⟩

theorem projection_simplification_sound :
    let t := (propagateUnits (.node 0) projecting).2
    (propagateUnits (.node 0) projecting).1 = .ok (.const true) ∧ t.forced[1]? = some true ∧
      ∀ σ : Assignment, σ 1 = true →
        Block.close (t.diagram.value · (.const true)) [⟨.all, [2]⟩] σ =
          Block.close (projecting.diagram.value · (.node 0)) [⟨.all, [2]⟩] σ := by
  intro t
  obtain ⟨circuit, valid, holds⟩ := projecting_spec
  have ran : (propagateUnits (.node 0) projecting).1 = .ok (.const true) := by decide +kernel
  have fixed : t.forced[1]? = some true := by decide +kernel
  have support : projecting.diagram.support (.node 0) = [1] := by decide +kernel
  have reads : ReadsOnly (projecting.diagram.value · (.node 0))
      fun v => 0 < v ∧ v < projecting.circuit.maxVar := by
    refine (readsOnly_support valid holds).mono fun v member => ?_
    rw [support, List.mem_singleton] at member
    rw [member, circuit]
    decide
  obtain ⟨made, recorded, _, counted, behind, _⟩ := simplification_sound
    (by rw [circuit]; decide) valid holds reads (.inl (run_eq_ok ran))
  have listed : (1, true) ∈ made := by
    have other : projecting.forced[1]? = none := by decide +kernel
    apply Choices.mem_of_ofList
    rw [← fixed, recorded, getElem?_record, other, Option.or_none]
  have one : made.length = 1 := by
    have before : projecting.statistics.units + projecting.statistics.pures = 0 := by
      decide +kernel
    have after : t.statistics.units + t.statistics.pures = 1 := by decide +kernel
    rw [before, Nat.zero_add] at counted
    exact counted.symm.trans after
  obtain ⟨entry, rfl⟩ := List.length_eq_one_iff.mp one
  obtain rfl := List.mem_singleton.mp listed
  rw [circuit] at behind
  refine ⟨ran, fixed, fun σ holds => behind σ fun block first entry only _ => ?_⟩
  rw [List.mem_singleton.mp only]
  exact holds

theorem mem_record {v : Nat} : v ∈ record ∅ made ↔ v ∈ made.map (·.1) := by
  induction made with
  | nil => simp [record]
  | cons entry earlier ih =>
    rw [record_cons, Std.TreeMap.mem_insert, ih, List.map_cons, List.mem_cons,
      Std.LawfulEqCmp.compare_eq_iff_eq, eq_comm]

theorem size_record (distinct : (made.map (·.1)).Nodup) : (record ∅ made).size = made.length := by
  induction made with
  | nil => rfl
  | cons entry earlier ih =>
    rw [List.map_cons, List.nodup_cons] at distinct
    have absent : ¬ (record ∅ earlier).contains entry.1 = true :=
      fun present => distinct.1 (mem_record.mp (Std.TreeMap.mem_iff_contains.mpr present))
    rw [record_cons, Std.TreeMap.size_insert, if_neg absent, ih distinct.2]
    rfl

/-- A simplification that the options may ask for, and what comes after it. -/
theorem ensures_simplify (asked : Bool) {settled : Handle → Solver → Prop}
    {round : Handle → Solve (Handle × Bool)} {next : Handle → Solve Unit}
    {post : Unit → Solver → Prop} (settling : Settling settled round)
    (wellFormed : s₀.circuit.WellFormed) (reaches : Reaches f₀ s₀ made f s)
    (rest : ∀ r t more, Reaches f₀ s₀ more r t → Ensures (next r) t post fun _ _ => True) :
    Ensures (if asked = true then rounds round f >>= next else pure f >>= next) s post
      fun _ _ => True := by
  cases asked with
  | true =>
    refine Ensures.bind (Ensures.mono_fail (settling.ensures (reaches.circuit_eq ▸ wellFormed)
      reaches.valid reaches.holds) fun _ _ _ => trivial) ?_
    rintro r t ⟨⟨more, further⟩, _⟩
    exact rest r t _ (reaches.trans further)
  | false => exact rest f s made reaches

/-- Compilation on a new solver ends with what simplification has reached from the function
of the output. -/
theorem ensures_compileMatrix_fixes (wellFormed : c.WellFormed) (options : SolverOptions)
    (limit : Nat) :
    Ensures compileMatrix (start c options limit)
      (fun _ t => ∃ g made, t.progress = .compiled g ∧ t.forced = record ∅ made ∧
        t.statistics.units + t.statistics.pures = made.length ∧
        ∃ f, c.Fixes f made (t.diagram.value · g))
      fun _ _ => True := by
  unfold compileMatrix
  refine Ensures.get ?_
  rw [if_neg (by simp [start])]
  refine Ensures.get (Ensures.get ?_)
  cases output : c.output? with
  | none =>
    simp only [start, Circuit.output, output]
    exact trivial
  | some out =>
    simp only [start, Circuit.output, output]
    refine Ensures.lift ?_
    refine Ensures.bind (Ensures.mono_fail (Ensures.with_run (works_compileLiteral wellFormed rfl
      (valid_empty limit) (wellFormed.output_lt out output))) fun _ _ _ => trivial) ?_
    rintro f s ⟨ran, kept, holds, _⟩
    have counted : bystanders s = bystanders (start c options limit) := by
      have same := preserves_compileLiteral out (start c options limit)
      rwa [show compileLiteral out (start c options limit) = (.ok f, s) from ran] at same
    have wellFormedAt : s.circuit.WellFormed := kept.circuit_eq ▸ wellFormed
    simp only [propagateUnits_eq, eliminatePure_eq]
    refine ensures_simplify _ settling_unitRound wellFormedAt (.refl kept.valid holds) ?_
    intro r t units reaches
    refine ensures_simplify _ settling_pureRound wellFormedAt reaches ?_
    intro g u made reaches
    have created : u.progress = .created := reaches.progress_eq.trans kept.progress_eq
    refine Ensures.of_run (noteFunction_compiled created g) ?_
    refine ⟨g, made, rfl, ?_, ?_, _, kept.circuit_eq ▸ reaches.fixes⟩
    · exact reaches.forced_eq.trans (congrArg (record · made) kept.forced_eq)
    · have none : s.statistics.units = 0 ∧ s.statistics.pures = 0 := by
        simpa [bystanders, start] using congrArg (·.2.2) counted
      have total := reaches.counted
      rw [none.1, none.2, Nat.zero_add] at total
      exact total

/-- Both simplifications end, each round but the last one having removed variables from the
support, and leave nothing to fix. Compilation fixes no variable twice, and the compiled
function looks at no fixed variable. -/
theorem simplification_settles (wellFormed : s.circuit.WellFormed) (valid : s.diagram.Valid)
    (holds : s.diagram.Holds f) :
    Repeats unitRound f s (propagateUnits f s) ∧ Repeats pureRound f s (eliminatePure f s) ∧
      (∀ r t, propagateUnits f s = (.ok r, t) → ∀ v ∈ t.diagram.support r,
        s.circuit.quantifierOf? (v : Literal) = some .ex → ¬ OneSided t.diagram r v) ∧
      (∀ r t, eliminatePure f s = (.ok r, t) → ∀ v ∈ t.diagram.support r,
        (s.circuit.quantifierOf? (v : Literal)).isSome →
          ¬ Increasing (t.diagram.value · r) v ∧ ¬ Decreasing (t.diagram.value · r) v) ∧
      ∀ options limit t, compileMatrix (start s.circuit options limit) = (.ok (), t) →
        ∃ g made, t.progress = .compiled g ∧ t.forced = record ∅ made ∧
          (made.map (·.1)).Nodup ∧ (∀ v ∈ t.forced, Ignores (t.diagram.value · g) v) ∧
          t.statistics.units + t.statistics.pures = made.length ∧
          t.statistics.units + t.statistics.pures = t.forced.size ∧
          t.forced.size ≤ (s.circuit.blocks.flatMap (·.vars)).length := by
  rw [propagateUnits_eq, eliminatePure_eq]
  refine ⟨settling_unitRound.repeats wellFormed valid holds,
    settling_pureRound.repeats wellFormed valid holds, fun r t ran => ?_, fun r t ran => ?_,
    fun options limit t ran => ?_⟩
  · obtain ⟨⟨made, reaches⟩, settled⟩ :=
      (settling_unitRound.ensures wellFormed valid holds).of_ok ran
    exact reaches.circuit_eq ▸ settled
  · obtain ⟨⟨made, reaches⟩, settled⟩ :=
      (settling_pureRound.ensures wellFormed valid holds).of_ok ran
    exact reaches.circuit_eq ▸ settled
  · obtain ⟨g, made, compiled, recorded, counted, f, fixes⟩ :=
      (ensures_compileMatrix_fixes wellFormed options limit).of_ok ran
    have size : t.forced.size = made.length := by rw [recorded, size_record fixes.nodup]
    refine ⟨g, made, compiled, recorded, fixes.nodup, fun v fixed => ?_, counted,
      counted.trans size.symm, size ▸ fixes.length_le wellFormed⟩
    rw [recorded] at fixed
    exact fixes.blind (mem_record.mp fixed)

theorem projection_simplification_settles :
    let unit : SolverOptions := { unitLiterals := true }
    let t := (compileMatrix (start projection unit 20)).2
    Repeats unitRound (.node 0) projecting (propagateUnits (.node 0) projecting) ∧
      (compileMatrix (start projection unit 20)).1 = .ok () ∧
      ∃ g, t.progress = .compiled g ∧ (∀ v ∈ t.forced, Ignores (t.diagram.value · g) v) ∧
        t.statistics.units + t.statistics.pures = t.forced.size := by
  intro unit t
  obtain ⟨circuit, valid, holds⟩ := projecting_spec
  have ran : (compileMatrix (start projection unit 20)).1 = .ok () := by decide +kernel
  obtain ⟨repeats, _, _, _, compiles⟩ :=
    simplification_settles (by rw [circuit]; decide) valid holds
  rw [circuit] at compiles
  obtain ⟨g, _, compiled, _, _, blind, _, total, _⟩ := compiles unit 20 t (run_eq_ok ran)
  exact ⟨repeats, ran, g, compiled, blind, total⟩

end QuantCircuit.Solver
