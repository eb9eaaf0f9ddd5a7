import QuantCircuit.Proofs.Solver.Compiling
import QuantCircuit.Proofs.Solver.Deciding
import QuantCircuit.Proofs.Solver.Simplifying

namespace QuantCircuit.Solver

open Diagram

variable {c : Circuit} {out : Literal} {g : Assignment → Bool} {s t : Solver}

/-- Before the output is compiled. Values fixed by failed attempts do no harm. -/
structure Fresh (c : Circuit) (out : Literal) (s : Solver) : Prop where
  circuit_eq : s.circuit = c
  valid : s.diagram.Valid
  created : s.progress = .created
  outer : s.outerAbstracted = false
  harmless : c.Harmless (c.meaning out) (choicesOf s)

/-- What is known at a stage after compilation, `g` being the simplified function. Progress
has no other forms. -/
def Stands (c : Circuit) (g : Assignment → Bool) (s : Solver) : Progress → Prop
  | .compiled f => s.diagram.Holds f ∧ (∀ σ, s.diagram.value σ f = g σ) ∧
      (s.outerAbstracted = true → Entangled c g)
  | .eliminated f => Remains c g s.diagram f ∧ (s.outerAbstracted = true ↔ Entangled c g)
  | .decided f verdict | .witnessed f verdict =>
    Remains c g s.diagram f ∧ (s.outerAbstracted = true ↔ Entangled c g) ∧
      (verdict = true ↔ ∃ τ, Block.close g c.blocks τ = true)
  | _ => False

/-- The verdict is known, and a witness may be asked for. -/
def Decided (s : Solver) (f : Handle) (verdict : Bool) : Prop :=
  s.progress = .decided f verdict ∨ s.progress = .witnessed f verdict

/-- After the output is compiled. -/
structure Known (c : Circuit) (out : Literal) (g : Assignment → Bool) (s : Solver) : Prop where
  circuit_eq : s.circuit = c
  valid : s.diagram.Valid
  simplified : c.Simplified (c.meaning out) g (choicesOf s)
  stands : Stands c g s s.progress

theorem Known.progress_cases (known : Known c out g s) :
    (∃ f, s.progress = .compiled f) ∨ (∃ f, s.progress = .eliminated f) ∨
      ∃ f verdict, Decided s f verdict := by
  have stands := known.stands
  unfold Stands at stands
  split at stands
  case h_1 f progress => exact .inl ⟨f, progress⟩
  case h_2 f progress => exact .inr (.inl ⟨f, progress⟩)
  case h_3 f verdict progress => exact .inr (.inr ⟨f, verdict, .inl progress⟩)
  case h_4 f verdict progress => exact .inr (.inr ⟨f, verdict, .inr progress⟩)
  case h_5 => exact stands.elim

theorem Known.exists_compiled (known : Known c out g s)
    (stage : s.progress.stage = .matrixCompiled) : ∃ f, s.progress = .compiled f := by
  rcases known.progress_cases with compiled | ⟨f, progress⟩ | ⟨f, verdict, progress | progress⟩
  · exact compiled
  all_goals simp [progress] at stage

theorem Known.stage_ne (known : Known c out g s) : s.progress.stage ≠ .created := by
  rcases known.progress_cases with ⟨f, progress⟩ | ⟨f, progress⟩ | ⟨f, verdict, progress | progress⟩
  all_goals simp [progress]

theorem Remains.grows {d e : Diagram} {f : Handle} (remains : Remains c g d f) (valid : d.Valid)
    (grows : d.Grows e) : Remains c g e f := by
  obtain ⟨holds, settled | ⟨block, rest, blocks, open_, value⟩⟩ := remains
  · exact ⟨grows.holds holds, .inl settled⟩
  · exact ⟨grows.holds holds, .inr ⟨block, rest, blocks, open_, fun σ =>
      (grows.value_eq valid holds σ).trans (value σ)⟩⟩

/-- Work on the diagram takes nothing away from what is known. -/
theorem Extends.known (extended : Extends s t) (known : Known c out g s) : Known c out g t := by
  have same : choicesOf t = choicesOf s :=
    funext fun v => by rw [choicesOf, extended.forced_eq]; rfl
  refine ⟨extended.circuit_eq.trans known.circuit_eq, extended.valid, same ▸ known.simplified, ?_⟩
  have stands := known.stands
  rw [extended.progress_eq]
  rcases known.progress_cases with ⟨f, progress⟩ | ⟨f, progress⟩ | ⟨f, verdict, progress | progress⟩
  all_goals rw [progress] at stands ⊢
  · obtain ⟨holds, value, noted⟩ := stands
    exact ⟨extended.grows.holds holds,
      fun σ => (extended.grows.value_eq known.valid holds σ).trans (value σ),
      fun outer => noted (extended.outer_eq ▸ outer)⟩
  all_goals exact ⟨stands.1.grows known.valid extended.grows, extended.outer_eq ▸ stands.2⟩

theorem fresh_start (c : Circuit) (out : Literal) (options : SolverOptions) (limit : Nat) :
    Fresh c out (start c options limit) where
  circuit_eq := rfl
  valid := valid_empty limit
  created := rfl
  outer := rfl
  harmless := by
    have same : choicesOf (start c options limit) = .none := by
      funext v
      simp [choicesOf, start, Choices.none]
    rw [same]
    exact Circuit.harmless_none c _

theorem Known.truth_iff (known : Known c out g s) (valid : c.WellFormed)
    (defined : c.Defines out) :
    (∃ τ, Block.close g c.blocks τ = true) ↔ c.truth out = true := by
  rw [known.simplified.close_eq, Circuit.truth_eq_true_iff valid defined]

/-- A call at the wrong stage changes nothing. -/
def Refuses (call : StagedCall) (s : Solver) (error : Error) (t : Solver) : Prop :=
  t = s ∧ error = .structural (.outOfStage call s.progress.stage)

theorem ensures_expectStage_early {stage : Stage} {call : StagedCall}
    {post : Handle → Solver → Prop} (early : s.progress.stage ≠ stage) :
    Ensures (expectStage stage call) s post (Refuses call s) := by
  refine Ensures.get ?_
  dsimp only
  cases s.progress.function? with
  | none => exact ⟨rfl, rfl⟩
  | some f =>
    dsimp only
    rw [if_neg early]
    exact ⟨rfl, rfl⟩

theorem ensures_eliminateWith_early {work : List Block → Handle → Solve Handle}
    {call : StagedCall} {post : Unit → Solver → Prop}
    (early : s.progress.stage ≠ .matrixCompiled) :
    Ensures (eliminateWith call work) s post (Refuses call s) :=
  Ensures.bind_of_fails (ensures_expectStage_early early)

theorem ensures_verdict_early {post : Bool → Solver → Prop} (undecided : s.progress.verdict? = none)
    (early : s.progress.stage ≠ .prefixEliminated) :
    Ensures verdict s post (Refuses .verdict s) := by
  refine Ensures.get ?_
  rw [undecided]
  exact Ensures.bind_of_fails (ensures_expectStage_early early)

theorem ensures_compileMatrix_late {post : Unit → Solver → Prop}
    (late : s.progress.stage ≠ .created) :
    Ensures compileMatrix s post fun error t => t = s ∧ error = .structural .alreadyCompiled := by
  refine Ensures.get ?_
  rw [if_pos late]
  exact Ensures.throw ⟨rfl, rfl⟩

theorem Keeps.fresh (kept : Keeps s t) (fresh : Fresh c out s) : Fresh c out t where
  circuit_eq := kept.circuit_eq.trans fresh.circuit_eq
  valid := kept.valid
  created := kept.progress_eq.trans fresh.created
  outer := kept.outer_eq.trans fresh.outer
  harmless := by
    have same : choicesOf t = choicesOf s := funext fun v => by rw [choicesOf, kept.forced_eq]; rfl
    rw [same]
    exact fresh.harmless

theorem Chooses.fresh (chooses : Chooses c (c.meaning out) s t) (fresh : Fresh c out s) :
    Fresh c out t where
  circuit_eq := chooses.circuit_eq.trans fresh.circuit_eq
  valid := chooses.valid
  created := chooses.progress_eq.trans fresh.created
  outer := chooses.outer_eq.trans fresh.outer
  harmless := chooses.harmless

/-- The output's function is at hand, perhaps simplified, on a solver with the limit. -/
def AtHand (c : Circuit) (out : Literal) (limit : Nat) (stale : Choices) (f : Handle)
    (s : Solver) : Prop :=
  Fresh c out s ∧ s.diagram.limit = limit ∧ ∃ choices, Chosen c (c.meaning out) stale choices f s

def Compiles (c : Circuit) (out : Literal) (limit : Nat) (t : Solver) : Prop :=
  t.diagram.limit = limit ∧
    ∃ f, t.progress = .compiled f ∧ Known c out (t.diagram.value · f) t

def Retries (c : Circuit) (out : Literal) (limit : Nat) (error : Error) (t : Solver) : Prop :=
  Fresh c out t ∧ t.diagram.limit = limit ∧ error = .tableExhausted limit

variable {stale : Choices} {f : Handle} {limit : Nat}

theorem AtHand.compiled (atHand : AtHand c out limit stale f s)
    (harmless : c.Harmless (c.meaning out) stale) :
    Compiles c out limit { s with progress := .compiled f } := by
  obtain ⟨fresh, limited, choices, chosen⟩ := atHand
  refine ⟨limited, f, rfl, fresh.circuit_eq, chosen.valid,
    chosen.narrows.simplified harmless chosen.layered, chosen.holds, fun _ => rfl, fun noted => ?_⟩
  have outer : s.outerAbstracted = true := noted
  simp [fresh.outer] at outer

/-- A simplification that the options may ask for, and what comes after it. -/
theorem ensures_optional (asked : Bool) {first : Handle → Solve Handle}
    {next : Handle → Solve Unit} (atHand : AtHand c out limit stale f s)
    (works : ∀ choices, Chosen c (c.meaning out) stale choices f s →
      Works (Chooses c (c.meaning out)) (first f) s fun r t =>
        ∃ more, Chosen c (c.meaning out) stale more r t)
    (rest : ∀ r t, AtHand c out limit stale r t →
      Ensures (next r) t (fun _ t => Compiles c out limit t) (Retries c out limit)) :
    Ensures (if asked = true then first f >>= next else pure f >>= next) s
      (fun _ t => Compiles c out limit t) (Retries c out limit) := by
  obtain ⟨fresh, limited, choices, chosen⟩ := id atHand
  cases asked with
  | true =>
    refine Ensures.bind (Ensures.mono_fail (works choices chosen) ?_) ?_
    · rintro error t ⟨chooses, exhausted⟩
      exact ⟨chooses.fresh fresh, chooses.limit_eq.trans limited, limited ▸ exhausted⟩
    · rintro r t ⟨chooses, more, later⟩
      exact rest r t ⟨chooses.fresh fresh, chooses.limit_eq.trans limited, more, later⟩
  | false => exact rest f s atHand

/-- Compilation on a new solver, or one on which it has failed before. -/
theorem ensures_compileMatrix (wellFormed : c.WellFormed) (output : c.output? = some out)
    (fresh : Fresh c out s) :
    Ensures compileMatrix s (fun _ t => Compiles c out s.diagram.limit t)
      (Retries c out s.diagram.limit) := by
  have defined : c.Defines out := wellFormed.output_lt out output
  have harmless := fresh.harmless
  unfold compileMatrix
  refine Ensures.get ?_
  rw [if_neg (by simp [fresh.created])]
  refine Ensures.get (Ensures.get ?_)
  simp only [fresh.circuit_eq, Circuit.output, output]
  refine Ensures.lift ?_
  refine Ensures.bind (Ensures.mono_fail (works_compileLiteral wellFormed fresh.circuit_eq
    fresh.valid defined) ?_) ?_
  · rintro error t ⟨kept, exhausted⟩
    exact ⟨kept.fresh fresh, kept.limit_eq, exhausted⟩
  rintro f t ⟨kept, holds, value⟩
  have started : AtHand c out s.diagram.limit (choicesOf s) f t := by
    refine ⟨kept.fresh fresh, kept.limit_eq, .none, kept.circuit_eq.trans fresh.circuit_eq, kept.valid,
      holds, (Circuit.narrows_self (Circuit.readsOnly_meaning wellFormed defined)).congr value,
      fun v => ?_⟩
    rw [choicesOf, kept.forced_eq]
    rfl
  refine ensures_optional s.options.unitLiterals started
    (fun _ chosen => works_propagateUnits wellFormed harmless chosen) fun r u simplified => ?_
  refine ensures_optional s.options.pureLiterals simplified
    (fun _ chosen => works_eliminatePure wellFormed harmless chosen) fun r u simplified => ?_
  exact Ensures.of_run (noteFunction_compiled simplified.1.created r) (simplified.compiled harmless)

/-- Failed elimination leaves what is known of the compiled function. -/
theorem Closes.known (closes : Closes (Entangled c g) s t) (known : Known c out g s)
    (compiled : s.progress = .compiled f) : Known c out g t := by
  have stands := known.stands
  rw [compiled] at stands
  obtain ⟨holds, value, noted⟩ := stands
  have same : choicesOf t = choicesOf s := funext fun v => by rw [choicesOf, closes.forced_eq]; rfl
  refine ⟨closes.circuit_eq.trans known.circuit_eq, closes.valid, same ▸ known.simplified, ?_⟩
  rw [closes.progress_eq, compiled]
  refine ⟨closes.grows.holds holds, fun σ => ?_, fun outer => (closes.outer outer).elim noted id⟩
  rw [closes.grows.value_eq known.valid holds, value]

/-- Both ways of elimination come to the function with the inner blocks quantified. -/
def Closing (work : List Block → Handle → Solve Handle) : Prop :=
  ∀ (s : Solver) (f : Handle) (blocks : List Block), s.diagram.Valid → s.diagram.Holds f →
    Works Extends (work blocks f) s fun r t => t.diagram.Holds r ∧
      ∀ σ, t.diagram.value σ r = Block.close (s.diagram.value · f) blocks.reverse σ

theorem closing_abstractBlocks : Closing abstractBlocks :=
  fun _ _ blocks valid holds => works_abstractBlocks valid holds blocks

theorem closing_abstractBlocksByVariable : Closing abstractBlocksByVariable :=
  fun _ _ blocks valid holds => works_abstractBlocksByVariable valid holds blocks

theorem ensures_eliminateWith {work : List Block → Handle → Solve Handle} (closing : Closing work)
    (call : StagedCall) (known : Known c out g s) (compiled : s.progress = .compiled f) :
    Ensures (eliminateWith call work) s
      (fun _ t => t.diagram.limit = s.diagram.limit ∧ Known c out g t ∧
        ∃ r, t.progress = .eliminated r)
      fun error t => t.diagram.limit = s.diagram.limit ∧ Known c out g t ∧
        t.progress = .compiled f ∧ error = .tableExhausted s.diagram.limit := by
  have stands := known.stands
  rw [compiled] at stands
  obtain ⟨holds, value, noted⟩ := stands
  have same : (s.diagram.value · f) = g := funext value
  have failed {error : Error} {t : Solver} (closes : Closes (Entangled c g) s t)
      (exhausted : error = .tableExhausted s.diagram.limit) :
      t.diagram.limit = s.diagram.limit ∧ Known c out g t ∧ t.progress = .compiled f ∧
        error = .tableExhausted s.diagram.limit :=
    ⟨closes.limit_eq, closes.known known compiled, closes.progress_eq.trans compiled, exhausted⟩
  unfold eliminateWith
  have closed := Ensures.mono_fail (closing s f s.circuit.blocks.tail.reverse known.valid holds)
    fun _ _ ⟨extended, exhausted⟩ => failed (extended.closes _) exhausted
  refine Ensures.of_run_bind (expectStage_compiled call compiled)
    (Ensures.get (Ensures.bind closed ?_))
  rintro h t ⟨extended, holdsH, valueH⟩
  have left (σ : Assignment) : t.diagram.value σ h = Block.close g c.blocks.tail σ := by
    rw [valueH, same, List.reverse_reverse, known.circuit_eq]
  refine Ensures.bind (Ensures.mono_fail (works_closeFree extended.valid
    (extended.circuit_eq.trans known.circuit_eq) holdsH left)
      fun _ _ ⟨closes, exhausted⟩ => failed
        ((frame_closes _).trans (extended.closes _) closes) (extended.limit_eq ▸ exhausted)) ?_
  rintro r u ⟨closes, remains, outer⟩
  have both := (frame_closes _).trans (extended.closes _) closes
  have later := both.known known compiled
  rw [extended.outer_eq] at outer
  refine Ensures.of_run (noteFunction_eliminated (both.progress_eq.trans compiled) r) ?_
  refine ⟨both.limit_eq, ⟨later.circuit_eq, later.valid, later.simplified, remains, ?_⟩, r, rfl⟩
  exact outer.trans ⟨fun either => either.elim noted id, .inr⟩

theorem Decided.verdict?_eq {f : Handle} {verdict : Bool} (decided : Decided s f verdict) :
    s.progress.verdict? = some verdict := by
  rcases decided with progress | progress <;> rw [progress]

theorem verdict_run {f : Handle} (progress : s.progress = .eliminated f) :
    verdict s =
      (.ok (verdictOf s.circuit f), { s with progress := .decided f (verdictOf s.circuit f) }) := by
  unfold verdict
  rw [run_get]
  simp only [progress]
  rw [run_bind_of_ok (expectStage_eliminated .verdict progress), run_get]
  show (Except.ok (verdictOf s.circuit f), { s with progress := _ }) = _
  rw [progress]

theorem verdict_again {f : Handle} {value : Bool} (decided : Decided s f value) :
    verdict s = (.ok value, s) := by
  unfold verdict
  rw [run_get]
  simp only [decided.verdict?_eq]
  rfl

/-- The verdict is the truth of the formula. -/
theorem ensures_verdict (wellFormed : c.WellFormed) (defined : c.Defines out)
    (known : Known c out g s) :
    Ensures verdict s
      (fun value t => t.diagram.limit = s.diagram.limit ∧ Known c out g t ∧ value = c.truth out ∧
        ∃ f, Decided t f value)
      (Refuses .verdict s) := by
  have agrees {value : Bool} (iff : value = true ↔ ∃ τ, Block.close g c.blocks τ = true) :
      value = c.truth out :=
    Bool.eq_iff_iff.mpr (iff.trans (known.truth_iff wellFormed defined))
  have stands := known.stands
  rcases known.progress_cases with ⟨f, progress⟩ | ⟨f, progress⟩ | ⟨f, value, decided⟩
  · exact ensures_verdict_early (by rw [progress]) (by simp [progress])
  · rw [progress] at stands
    obtain ⟨remains, outer⟩ := stands
    have iff := verdictOf_iff known.valid known.simplified.reads remains
    have later : Stands c g s (.decided f (verdictOf c f)) := ⟨remains, outer, iff⟩
    refine Ensures.of_run (verdict_run progress) ?_
    rw [known.circuit_eq]
    exact ⟨rfl, ⟨rfl, known.valid, known.simplified, later⟩, agrees iff, f, .inl rfl⟩
  · have iff : value = true ↔ ∃ τ, Block.close g c.blocks τ = true := by
      rcases decided with progress | progress <;> rw [progress] at stands <;> exact stands.2.2
    exact Ensures.of_run (verdict_again decided) ⟨rfl, known, agrees iff, f, decided⟩

end QuantCircuit.Solver
