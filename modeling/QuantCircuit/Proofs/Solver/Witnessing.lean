import QuantCircuit.Proofs.Solver.Stages

namespace QuantCircuit

namespace Diagram

variable {d e : Diagram} {s : Selection} {f r : Handle}

theorem selectWithin_known (bound : Nat) (undecided : s.direct? = none)
    (known : d.selections[s]? = some f) : selectWithin (bound + 1) s d = (.ok f, d) := by
  rw [selectWithin, undecided]
  simp only
  rw [run_get]
  simp only [known]
  rfl

/-- A selection leaves the diagram as it is, or is remembered. -/
theorem selectWithin_cases (bound : Nat) (s : Selection) (d : Diagram) :
    Ensures (selectWithin bound s) d
      (fun f e => e = d ∨ s.direct? = none ∧ 0 < bound ∧ e.selections[s]? = some f)
      fun _ _ => True := by
  cases bound with
  | zero => exact .inl rfl
  | succ bound =>
    rw [selectWithin]
    cases direct : s.direct? with
    | some f => exact .inl rfl
    | none =>
      refine Ensures.get ?_
      cases known : d.selections[s]? with
      | some f => exact .inl rfl
      | none =>
        cases d.split? s with
        | none => exact .inl rfl
        | some halves =>
          refine Ensures.bind (.trivial _ _) fun low d₁ _ => ?_
          refine Ensures.bind (.trivial _ _) fun high d₂ _ => ?_
          refine Ensures.bind (.trivial _ _) fun f d₃ _ => .inr ⟨rfl, Nat.succ_pos _, ?_⟩
          simp

theorem selectWithin_again {bound : Nat} (made : selectWithin bound s d = (.ok f, e)) :
    selectWithin bound s e = (.ok f, e) := by
  rcases (selectWithin_cases bound s d).of_ok made with rfl | ⟨undecided, positive, known⟩
  · exact made
  · obtain ⟨bound, rfl⟩ := Nat.exists_eq_succ_of_ne_zero (Nat.ne_of_gt positive)
    exact selectWithin_known bound undecided known

theorem not_again (made : Diagram.not f d = (.ok r, e)) : Diagram.not f e = (.ok r, e) :=
  selectWithin_again made

end Diagram

namespace Solver

open Diagram

variable {c : Circuit} {out : Literal} {g : Assignment → Bool} {s t u : Solver}
variable {f r : Handle} {verdict : Bool} {block : Block} {rest : List Block} {valuation : Valuation}

def assigned (s : Solver) (block : Block) (values : List Bool) : Valuation :=
  (block.vars.zip values).map fun (v, value) => (Int.ofNat v, s.forced.getD v value)

theorem assignBlock_eq (f : Handle) (block : Block) (s : Solver) :
    assignBlock f block s =
      match s.diagram.pickCube f (block.vars.map Int.ofNat) with
      | none => (.error (.structural .noAssignment), s)
      | some values => (.ok (s.assigned block values), s) := by
  unfold assignBlock
  show (match s.diagram.pickCube f (block.vars.map Int.ofNat) with
    | none => _ | some values => _ : Solve Valuation) s = _
  cases s.diagram.pickCube f (block.vars.map Int.ofNat) <;> rfl

/-- The function whose satisfying assignments the witness is looked for in. -/
def target (f : Handle) (verdict : Bool) : Solve Handle :=
  if verdict then pure f else onDiagram (Diagram.not f)

theorem ensures_witness_early {post : Option Valuation → Solver → Prop}
    (early : s.progress.verdict? = none) : Ensures witness s post (Refuses .witness s) := by
  have refuses : Ensures expectVerdict s (fun _ _ => False) (Refuses .witness s) := by
    refine Ensures.get ?_
    simp only [early]
    exact ⟨rfl, rfl⟩
  exact Ensures.bind_of_fails refuses

theorem expectVerdict_run (decided : Decided s f verdict) :
    expectVerdict s = (.ok verdict, s) := by
  unfold expectVerdict
  rw [run_get]
  rcases decided with progress | progress <;> rw [progress] <;> rfl

theorem expectFunction_run (decided : Decided s f verdict) : expectFunction s = (.ok f, s) := by
  unfold expectFunction
  rw [run_get]
  rcases decided with progress | progress <;> rw [progress] <;> rfl

/-- The solver comes to its last stage. -/
theorem Decided.witnessReady (decided : Decided s f verdict) :
    { s.progress with stage := .witnessReady } = Progress.witnessed f verdict := by
  rcases decided with progress | progress <;> rw [progress]

theorem witness_eq (decided : Decided s f verdict) :
    witness s =
      match s.circuit.blocks.head? with
      | none => (.ok none, s)
      | some block =>
        if s.outerAbstracted then (.ok none, s)
        else if verdict ≠ (block.quantifier == .ex) then (.ok none, s)
        else (do
          let r ← target f verdict
          let valuation ← assignBlock r block
          modify fun s => { s with progress := { s.progress with stage := .witnessReady } }
          return some valuation : Solve (Option Valuation)) s := by
  unfold witness
  rw [run_bind_of_ok (expectVerdict_run decided), run_bind_of_ok (expectFunction_run decided),
    run_get]
  cases s.circuit.blocks.head? with
  | none => rfl
  | some block =>
    dsimp only
    rw [run_get]
    cases s.outerAbstracted with
    | true => rfl
    | false =>
      rw [if_neg Bool.false_ne_true, if_neg Bool.false_ne_true]
      by_cases differs : verdict ≠ (block.quantifier == .ex)
      · rw [if_pos differs, if_pos differs]
        rfl
      · rw [if_neg differs, if_neg differs]
        cases verdict <;> rfl

theorem target_again (found : target f verdict s = (.ok r, t)) (same : u.diagram = t.diagram) :
    target f verdict u = (.ok r, u) := by
  cases verdict with
  | true =>
    have equal : (.ok f : Except Error Handle) = .ok r := congrArg Prod.fst found
    rw [Except.ok.inj equal]
    rfl
  | false =>
    obtain ⟨circuit, options, d, progress, forced, outer, statistics⟩ := s
    obtain ⟨circuit', options', d', progress', forced', outer', statistics'⟩ := u
    simp only [target, onDiagram, Bool.false_eq_true, ↓reduceIte] at found ⊢
    rcases made : Diagram.not f d with ⟨result, e⟩
    rw [made] at found
    obtain ⟨rfl, rfl⟩ := Prod.mk.inj found
    obtain rfl : d' = e := same
    rw [not_again made]

theorem assignBlock_again (found : assignBlock r block s = (.ok valuation, s))
    (sameDiagram : u.diagram = s.diagram) (sameForced : u.forced = s.forced) :
    assignBlock r block u = (.ok valuation, u) := by
  rw [assignBlock_eq] at found ⊢
  rw [sameDiagram]
  cases picked : s.diagram.pickCube r (block.vars.map Int.ofNat) with
  | none =>
    rw [picked] at found
    exact absurd (congrArg Prod.fst found) (by simp)
  | some values =>
    rw [picked] at found
    have same : s.assigned block values = valuation := Except.ok.inj (congrArg Prod.fst found)
    have equal : u.assigned block values = s.assigned block values := by
      unfold assigned
      rw [sameForced]
    simp only [equal, same]

theorem witness_eq_open (decided : Decided s f verdict)
    (blocks : s.circuit.blocks.head? = some block) (outer : s.outerAbstracted = false)
    (agrees : verdict = (block.quantifier == .ex)) :
    witness s = (do
      let r ← target f verdict
      let valuation ← assignBlock r block
      modify fun s => { s with progress := { s.progress with stage := .witnessReady } }
      return some valuation : Solve (Option Valuation)) s := by
  rw [witness_eq decided, blocks]
  simp only [outer, Bool.false_eq_true, ↓reduceIte, ne_eq, agrees, not_true_eq_false]

theorem witness_run (decided : Decided s f verdict) (blocks : s.circuit.blocks.head? = some block)
    (outer : s.outerAbstracted = false) (agrees : verdict = (block.quantifier == .ex))
    (found : target f verdict s = (.ok r, t)) (assigned : assignBlock r block t = (.ok valuation, t)) :
    witness s = (.ok (some valuation),
      { t with progress := { t.progress with stage := .witnessReady } }) := by
  rw [witness_eq_open decided blocks outer agrees, run_bind_of_ok found, run_bind_of_ok assigned]
  rfl

/-- The outermost block's values that the choices and an assignment give. -/
def valuationOf (block : Block) (choices : Choices) (σ : Assignment) : Valuation :=
  block.vars.map fun v => (Int.ofNat v, (choices v).getD (σ v))

theorem assigned_map (s : Solver) (block : Block) (σ : Assignment) :
    s.assigned block ((block.vars.map Int.ofNat).map fun literal => σ literal.natAbs) =
      valuationOf block (choicesOf s) σ := by
  unfold assigned valuationOf
  induction block.vars with
  | nil => rfl
  | cons v rest ih => simpa [choicesOf, Std.TreeMap.getD_eq_getD_getElem?] using ih

/-- A satisfiable function gives the block values of a satisfying assignment. -/
theorem ensures_assignBlock (valid : s.diagram.Valid) (holds : s.diagram.Holds r)
    (possible : r ≠ .const false) (block : Block) :
    Ensures (assignBlock r block) s
      (fun valuation t => t = s ∧ ∃ σ, s.diagram.value σ r = true ∧
        valuation = valuationOf block (choicesOf s) σ)
      fun _ _ => False := by
  unfold Ensures
  rw [assignBlock_eq]
  cases picked : s.diagram.pickCube r (block.vars.map Int.ofNat) with
  | none => exact possible (pickCube_eq_none_iff.mp picked)
  | some values =>
    obtain ⟨σ, reached, rfl⟩ := pickCube_spec valid holds picked
    exact ⟨rfl, σ, reached, assigned_map s block σ⟩

theorem works_target (valid : s.diagram.Valid) (holds : s.diagram.Holds f) (q : Quantifier) :
    Works Extends (target f (q == .ex)) s fun r t => t.diagram.Holds r ∧
      ∀ σ, t.diagram.value σ r = true ↔ s.diagram.value σ f = q.decisive := by
  cases q with
  | ex => exact works_pure (.refl valid) ⟨holds, fun σ => Iff.rfl⟩
  | all =>
    refine (works_onDiagram (builds_not valid holds)).mono ?_
    rintro r t _ ⟨holdsR, value⟩
    exact ⟨holdsR, fun σ => by simp [value, Quantifier.decisive]⟩

/-- There is an outermost block, it is not entangled with free variables, and its
quantifier has got its way. -/
def Available (c : Circuit) (g : Assignment → Bool) (verdict : Bool) : Prop :=
  ∃ block rest, c.blocks = block :: rest ∧ verdict = (block.quantifier == .ex) ∧ ¬ Entangled c g

/-- The valuation of the outermost block comes from an assignment that settles it. -/
def Witnesses (c : Circuit) (g : Assignment → Bool) (choices : Choices) (valuation : Valuation) :
    Prop :=
  ∃ block rest σ, c.blocks = block :: rest ∧
    Block.close g rest σ = block.quantifier.decisive ∧ valuation = valuationOf block choices σ

/-- What a witness call comes to. -/
structure Answers (c : Circuit) (out : Literal) (g : Assignment → Bool) (s : Solver) (f : Handle)
    (verdict : Bool) (result : Option Valuation) (t : Solver) : Prop where
  limit_eq : t.diagram.limit = s.diagram.limit
  known : Known c out g t
  decided : Decided t f verdict
  isSome_iff : result.isSome ↔ Available c g verdict
  witnesses : ∀ valuation, result = some valuation → Witnesses c g (choicesOf s) valuation
  again : witness t = (.ok result, t)

theorem answers_none (known : Known c out g s) (decided : Decided s f verdict)
    (missing : ¬ Available c g verdict) (ran : witness s = (.ok none, s)) :
    Answers c out g s f verdict none s :=
  ⟨rfl, known, decided, by simp [missing], by simp, ran⟩

theorem Known.remains (known : Known c out g s) (decided : Decided s f verdict) :
    Remains c g s.diagram f ∧ (s.outerAbstracted = true ↔ Entangled c g) ∧
      (verdict = true ↔ ∃ τ, Block.close g c.blocks τ = true) := by
  have stands := known.stands
  rcases decided with progress | progress <;> rw [progress] at stands <;> exact stands

theorem Remains.value_outermost {d : Diagram} (remains : Remains c g d f)
    (blocks : c.blocks = block :: rest) (open_ : ¬ Entangled c g) (σ : Assignment) :
    d.value σ f = Block.close g rest σ := by
  obtain ⟨_, ⟨none | entangled, _⟩ | ⟨other, more, split, _, value⟩⟩ := remains
  · simp [blocks] at none
  · exact absurd entangled open_
  · obtain ⟨rfl, rfl⟩ := List.cons.inj (blocks.symm.trans split)
    exact value σ

/-- An assignment that settles the outermost block gives a witness. -/
theorem Remains.witnesses {d : Diagram} (remains : Remains c g d f)
    (blocks : c.blocks = block :: rest) (open_ : ¬ Entangled c g) {σ : Assignment}
    (settled : d.value σ f = block.quantifier.decisive) (choices : Choices) :
    Witnesses c g choices (valuationOf block choices σ) :=
  ⟨block, rest, σ, blocks, (remains.value_outermost blocks open_ σ).symm.trans settled, rfl⟩

/-- If the quantifier of the outermost block has got its way, some assignment settles it. -/
theorem Known.exists_settled (known : Known c out g s) (decided : Decided s f verdict)
    (blocks : c.blocks = block :: rest) (agrees : verdict = (block.quantifier == .ex))
    (open_ : ¬ Entangled c g) : ∃ σ, s.diagram.value σ f = block.quantifier.decisive := by
  obtain ⟨remains, _, truth⟩ := known.remains decided
  have wanted : ((∃ τ, Block.close g c.blocks τ = true) ↔ block.quantifier = .ex) := by
    rw [← truth, agrees, beq_iff_eq]
  obtain ⟨σ, settled⟩ := (truth_iff_exists_decisive known.simplified.reads blocks open_).mp wanted
  exact ⟨σ, (remains.value_outermost blocks open_ σ).trans settled⟩

def Fails (c : Circuit) (out : Literal) (g : Assignment → Bool) (s : Solver) (error : Error)
    (t : Solver) : Prop :=
  t.diagram.limit = s.diagram.limit ∧ Known c out g t ∧ t.progress = s.progress ∧
    error = .tableExhausted s.diagram.limit

/-- What the outermost block was assigned is an answer, and the next call finds it again. -/
theorem answers_some {σ : Assignment} (known : Known c out g s) (decided : Decided s f verdict)
    (blocks : c.blocks = block :: rest) (agrees : verdict = (block.quantifier == .ex))
    (open_ : ¬ Entangled c g) (extended : Extends s u) (found : target f verdict s = (.ok r, u))
    (settled : s.diagram.value σ f = block.quantifier.decisive)
    (assigned : assignBlock r block u = (.ok (valuationOf block (choicesOf u) σ), u)) :
    Answers c out g s f verdict (some (valuationOf block (choicesOf u) σ))
      { u with progress := { u.progress with stage := .witnessReady } } := by
  obtain ⟨remains, outer, truth⟩ := known.remains decided
  have later := extended.known known
  have same : choicesOf u = choicesOf s :=
    funext fun v => by rw [choicesOf, extended.forced_eq]; rfl
  have witnesses : Witnesses c g (choicesOf s) (valuationOf block (choicesOf u) σ) :=
    same ▸ remains.witnesses blocks open_ settled (choicesOf u)
  have stands : Stands c g u (.witnessed f verdict) :=
    ⟨remains.grows known.valid extended.grows, extended.outer_eq ▸ outer, truth⟩
  have ready : { u.progress with stage := .witnessReady } = Progress.witnessed f verdict := by
    rw [extended.progress_eq, decided.witnessReady]
  have head : u.circuit.blocks.head? = some block := by rw [later.circuit_eq, blocks]; rfl
  have notNoted : u.outerAbstracted = false := by
    rw [extended.outer_eq]
    simpa [open_] using outer
  have again := witness_run (s := { u with progress := .witnessed f verdict })
    (t := { u with progress := .witnessed f verdict }) (.inr rfl) head notNoted agrees
    (target_again found rfl) (assignBlock_again assigned rfl rfl)
  rw [ready]
  exact {
    limit_eq := extended.limit_eq
    known := ⟨later.circuit_eq, later.valid, later.simplified, stands⟩
    decided := .inr rfl
    isSome_iff := by simpa using ⟨block, rest, blocks, agrees, open_⟩
    witnesses := fun _ given => Option.some.inj given ▸ witnesses
    again := again }

/-- Where a witness is available it is found, unless the table is full. -/
theorem ensures_witness_available (known : Known c out g s) (decided : Decided s f verdict)
    (blocks : c.blocks = block :: rest) (agrees : verdict = (block.quantifier == .ex))
    (open_ : ¬ Entangled c g) :
    Ensures witness s (Answers c out g s f verdict) (Fails c out g s) := by
  obtain ⟨remains, outer, _⟩ := known.remains decided
  have head : s.circuit.blocks.head? = some block := by rw [known.circuit_eq, blocks]; rfl
  have notNoted : s.outerAbstracted = false := by simpa [open_] using outer
  obtain ⟨ρ, settled⟩ := known.exists_settled decided blocks agrees open_
  have chain : Ensures (do
      let r ← target f verdict
      let valuation ← assignBlock r block
      modify fun s => { s with progress := { s.progress with stage := .witnessReady } }
      return some valuation : Solve (Option Valuation)) s (Answers c out g s f verdict)
        (Fails c out g s) := by
    have works := works_target known.valid remains.1 block.quantifier
    rw [← agrees] at works
    refine Ensures.bind (Ensures.mono_fail (Ensures.with_run works)
      fun error t ⟨extended, exhausted⟩ =>
        ⟨extended.limit_eq, extended.known known, extended.progress_eq, exhausted⟩) ?_
    rintro r t ⟨found, extended, holds, reached⟩
    have possible : r ≠ .const false := by
      rintro rfl
      have impossible := (reached ρ).mpr settled
      simp at impossible
    refine Ensures.bind (Ensures.mono_fail (Ensures.with_run (ensures_assignBlock extended.valid holds
      possible block)) fun _ _ => False.elim) ?_
    rintro valuation u ⟨assigned, rfl, σ, satisfied, rfl⟩
    exact answers_some known decided blocks agrees open_ extended found ((reached σ).mp satisfied)
      assigned
  unfold Ensures
  rw [witness_eq_open decided head notNoted agrees]
  exact chain

/-- A witness call answers as it should, now and later. -/
theorem ensures_witness (known : Known c out g s) (decided : Decided s f verdict) :
    Ensures witness s (Answers c out g s f verdict) (Fails c out g s) := by
  have plain := witness_eq decided
  by_cases available : Available c g verdict
  · obtain ⟨block, rest, blocks, agrees, open_⟩ := available
    exact ensures_witness_available known decided blocks agrees open_
  · have ran : witness s = (.ok none, s) := by
      rw [plain, known.circuit_eq]
      cases blocks : c.blocks with
      | nil => rfl
      | cons block rest =>
        simp only [List.head?_cons]
        split
        · rfl
        · rename_i notNoted
          split
          · rfl
          · rename_i agrees
            refine absurd ⟨block, rest, blocks, Classical.not_not.mp agrees, fun entangled => ?_⟩
              available
            exact notNoted ((known.remains decided).2.1.mpr entangled)
    exact Ensures.of_run ran (answers_none known decided available ran)

end Solver

end QuantCircuit
