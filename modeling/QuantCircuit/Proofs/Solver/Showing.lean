import QuantCircuit.Proofs.Solver.Calls

namespace QuantCircuit

/-- The assignment gives the listed variables their values. -/
def Assignment.Follows (σ : Assignment) (valuation : Valuation) : Prop :=
  ∀ entry ∈ valuation, σ entry.1.natAbs = entry.2

namespace Solver

variable {c : Circuit} {out : Literal} {g : Assignment → Bool} {s t : Solver}
variable {f : Handle} {verdict : Bool} {block : Block} {rest : List Block} {valuation : Valuation}

/-- The outermost block's quantifier has got its way. If it is universal, what the inner
blocks leave of the function depends on no variable outside all blocks. -/
def Showable (c : Circuit) (g : Assignment → Bool) (verdict : Bool) : Prop :=
  ∃ block rest, c.blocks = block :: rest ∧
    (block.quantifier = .ex ∧ verdict = true ∨
      block.quantifier = .all ∧ verdict = false ∧
        ∀ v : Nat, c.quantifierOf? (v : Literal) = none → Ignores (Block.close g rest) v)

/-- The valuation lists the outermost block's variables. If the block is existential, some
assignment that follows the valuation makes the rest of the formula true; if it is
universal, every one makes it false. -/
def Shows (c : Circuit) (out : Literal) (valuation : Valuation) : Prop :=
  ∃ block rest, c.blocks = block :: rest ∧
    valuation.map Prod.fst = block.vars.map Int.ofNat ∧ block.vars.Nodup ∧
    match block.quantifier with
    | .ex => ∃ σ : Assignment, σ.Follows valuation ∧
        Block.close (c.meaning out) rest σ = true
    | .all => ∀ σ : Assignment, σ.Follows valuation →
        Block.close (c.meaning out) rest σ = false

theorem available_iff_showable : Available c g verdict ↔ Showable c g verdict := by
  constructor
  · rintro ⟨block, rest, blocks, agrees, open_⟩
    refine ⟨block, rest, blocks, ?_⟩
    cases kind : block.quantifier with
    | ex => exact .inl ⟨rfl, by simp [agrees, kind]⟩
    | all =>
      exact .inr ⟨rfl, by simp [agrees, kind],
        free_ignored_of_not_entangled blocks kind open_⟩
  · rintro ⟨block, rest, blocks, ⟨kind, rfl⟩ | ⟨kind, rfl, free⟩⟩
    · refine ⟨block, rest, blocks, by simp [kind], fun entangled => ?_⟩
      obtain ⟨universal, _⟩ := (entangled_cons_iff blocks).mp entangled
      simp [kind] at universal
    · refine ⟨block, rest, blocks, by simp [kind], fun entangled => ?_⟩
      obtain ⟨_, v, absent, looks⟩ := (entangled_cons_iff blocks).mp entangled
      exact looks (free v absent)

theorem follows_valuationOf {choices : Choices} {σ τ : Assignment} :
    τ.Follows (valuationOf block choices σ) ↔ ∀ v ∈ block.vars, τ v = (choices v).getD (σ v) := by
  simp [Assignment.Follows, valuationOf]

theorem follows_fix (choices : Choices) (σ : Assignment) :
    (σ.fix (choices.within block.vars)).Follows (valuationOf block choices σ) :=
  follows_valuationOf.mpr fun _ member => Assignment.fix_within_of_mem σ choices member

/-- A valuation that settles the simplified function settles the output's function. -/
theorem shows_of_witnesses (wellFormed : c.WellFormed) {choices : Choices}
    (simplified : c.Simplified (c.meaning out) g choices) (open_ : ¬ Entangled c g)
    (witnesses : Witnesses c g choices valuation) : Shows c out valuation := by
  obtain ⟨block, rest, σ, blocks, settled, rfl⟩ := witnesses
  have distinct : block.vars.Nodup := by
    have all := wellFormed.block_nodup
    rw [blocks, List.flatMap_cons] at all
    exact (List.nodup_append.mp all).1
  refine ⟨block, rest, blocks, by simp [valuationOf], distinct, ?_⟩
  cases kind : block.quantifier with
  | ex =>
    have lifted := simplified.lift block rest blocks σ settled
    rw [kind] at lifted
    exact ⟨_, follows_fix choices σ, lifted⟩
  | all =>
    intro τ follows
    -- outside of the block the witnessing assignment may be any other
    have outermost := readsOnly_outermost simplified.reads blocks
      (free_ignored_of_not_entangled blocks kind open_)
    let moved : Assignment := fun v => if v ∈ block.vars then σ v else τ v
    have same : Block.close g rest moved = Block.close g rest σ :=
      outermost moved σ fun v member => if_pos member
    have lifted := simplified.lift block rest blocks moved (same.trans settled)
    have reached : moved.fix (choices.within block.vars) = τ := by
      funext v
      by_cases member : v ∈ block.vars
      · rw [Assignment.fix_within_of_mem _ _ member, follows_valuationOf.mp follows v member]
        exact congrArg _ (if_pos member)
      · rw [Assignment.fix_within_of_not_mem _ _ member]
        exact if_neg member
    rwa [reached, kind] at lifted

/-- Once there is a verdict only a witness call does anything. -/
theorem ensures_perform_of_decided (property : Solver → Prop) (decided : Decided s f verdict)
    (stays : property s)
    (asked : Ensures witness s (fun _ t => property t) fun _ t => property t) (call : Call) :
    Ensures call.perform s (fun _ t => property t) fun _ t => property t := by
  have late : s.progress.stage ≠ .created ∧ s.progress.stage ≠ .matrixCompiled := by
    rcases decided with progress | progress <;> simp [progress]
  have done {work : Solve Unit} {fail : Error → Solver → Prop}
      (ensures : Ensures work s (fun _ t => property t) fail)
      (stayed : ∀ error t, fail error t → t = s) :
      Ensures (do work; return Reply.done) s (fun _ t => property t) fun _ t => property t :=
    Ensures.bind (Ensures.mono_fail ensures fun error t failed =>
      stayed error t failed ▸ stays) fun _ _ reached => Ensures.pure reached
  cases call with
  | compile => exact done (ensures_compileMatrix_late late.1) fun _ _ refuses => refuses.1
  | eliminateBlocks => exact done (ensures_eliminateWith_early late.2) fun _ _ refuses => refuses.1
  | eliminateVariables =>
    exact done (ensures_eliminateWith_early late.2) fun _ _ refuses => refuses.1
  | verdict =>
    exact Ensures.map (Ensures.of_run (verdict_again decided) stays)
  | witness => exact Ensures.map asked

/-- After a verdict all calls keep it, and what it was derived from. -/
theorem Known.afterCalls (known : Known c out g s) (decided : Decided s f verdict)
    (calls : List Call) :
    Known c out g (afterCalls calls s) ∧ Decided (afterCalls calls s) f verdict := by
  refine afterCalls_induction (fun t => Known c out g t ∧ Decided t f verdict)
    (fun s ⟨known, decided⟩ call => ?_) calls ⟨known, decided⟩
  refine (ensures_perform_of_decided (fun t => Known c out g t ∧ Decided t f verdict) decided
    ⟨known, decided⟩ ?_ call).state
  refine Ensures.mono (ensures_witness known decided) (fun _ t answers =>
    ⟨answers.known, answers.decided⟩) ?_
  rintro error t ⟨_, later, progress, _⟩
  refine ⟨later, ?_⟩
  unfold Decided
  rw [progress]
  exact decided

/-- Once a witness call has succeeded nothing changes any more. -/
theorem afterCalls_of_again (decided : Decided s f verdict)
    (again : witness s = (.ok result, s)) (calls : List Call) : Solver.afterCalls calls s = s := by
  refine afterCalls_induction (· = s) (fun t same call => ?_) calls rfl
  subst same
  exact (ensures_perform_of_decided (· = t) decided rfl (Ensures.of_run again rfl) call).state

/-- A witness call that succeeds after a verdict returns a valuation iff the outermost
block alone can show the verdict. The valuation shows it, and further calls return it again. -/
theorem witness_shows (wellFormed : c.WellFormed) (output : c.output? = some out)
    (options : SolverOptions) (limit : Nat) (calls more : List Call)
    {result : Option Valuation}
    (decided : Solver.verdict (afterCalls calls (start c options limit)) = (.ok verdict, s))
    (returned : witness (afterCalls more s) = (.ok result, t)) :
    (∃ g, CompiledBy calls (start c options limit) g ∧
      (result.isSome ↔ Showable c g verdict)) ∧
    (∀ valuation, result = some valuation → Shows c out valuation) ∧
    ∀ later, (witness (afterCalls later t)).1 = .ok result := by
  have defined : c.Defines out := wellFormed.output_lt out output
  obtain ⟨_, fresh | ⟨g, compiled, known⟩⟩ :=
    reached_afterCalls wellFormed output options limit calls
  · have early : Ensures Solver.verdict _ (fun _ _ => False) _ :=
      ensures_verdict_early (by rw [fresh.created]) (by simp [fresh.created])
    exact (early.of_ok decided).elim
  obtain ⟨_, known, _, f, stage⟩ := (ensures_verdict wellFormed defined known).of_ok decided
  obtain ⟨known, stage⟩ := known.afterCalls stage more
  have answers := (ensures_witness known stage).of_ok returned
  refine ⟨⟨g, compiled, answers.isSome_iff.trans available_iff_showable⟩, ?_, fun later => ?_⟩
  · rintro valuation rfl
    obtain ⟨_, _, _, _, open_⟩ := answers.isSome_iff.mp rfl
    exact shows_of_witnesses wellFormed known.simplified open_ (answers.witnesses valuation rfl)
  · rw [afterCalls_of_again answers.decided answers.again, answers.again]

theorem disjunction_witness_shows :
    let start := start disjunction { fold := .balanced } 20
    let decided := (Solver.verdict (afterCalls [.compile, .eliminateBlocks] start)).2
    (witness (afterCalls [.compile] decided)).1 = .ok (some [(1, true)]) ∧
      Shows disjunction 3 [(1, true)] := by
  intro start decided
  have verdict : Solver.verdict (afterCalls [.compile, .eliminateBlocks] start) =
      (.ok true, decided) := Prod.ext (by decide +kernel) rfl
  have returned : (witness (afterCalls [.compile] decided)).1 = .ok (some [(1, true)]) := by
    decide +kernel
  exact ⟨returned, (witness_shows (by decide) rfl { fold := .balanced } 20
    [.compile, .eliminateBlocks] [.compile] verdict (Prod.ext returned rfl)).2.1 _ rfl⟩

end Solver

end QuantCircuit
