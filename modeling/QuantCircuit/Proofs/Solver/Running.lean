import QuantCircuit.Proofs.Circuit.Transport
import QuantCircuit.Proofs.Solver.Showing

namespace QuantCircuit

def Valuation.choices (valuation : Valuation) : Choices :=
  fun v => valuation.lookup (v : Literal)

namespace Solver

open Circuit Diagram

variable {c : Circuit} {out : Literal} {s t : Solver} {valuation : Valuation}
variable {vars : List Nat} {σ : Assignment}

/-- The valuation has one entry for each of the listed variables. -/
def Assigns (valuation : Valuation) (vars : List Nat) : Prop :=
  valuation.map Prod.fst = vars.map Int.ofNat ∧ vars.Nodup

theorem Assigns.distinct (assigns : Assigns valuation vars) : (valuation.map Prod.fst).Nodup := by
  rw [assigns.1]
  exact List.pairwise_map.mpr (assigns.2.imp fun different same => different (Int.ofNat.inj same))

theorem Assigns.choices_eq_some_iff (assigns : Assigns valuation vars) {v : Nat} {value : Bool} :
    valuation.choices v = some value ↔ ((v : Literal), value) ∈ valuation :=
  lookup_eq_some_iff_mem assigns.distinct

theorem Assigns.mem_iff (assigns : Assigns valuation vars) {v : Nat} :
    (valuation.choices v).isSome ↔ v ∈ vars := by
  have keys : (v : Literal) ∈ valuation.map Prod.fst ↔ v ∈ vars := by
    rw [assigns.1]
    refine ⟨fun listed => ?_, fun member => List.mem_map_of_mem member⟩
    obtain ⟨w, member, same⟩ := List.mem_map.mp listed
    exact Int.ofNat.inj same ▸ member
  rw [← keys, Option.isSome_iff_exists, List.mem_map]
  constructor
  · intro made
    obtain ⟨value, made⟩ := made
    exact ⟨_, assigns.choices_eq_some_iff.mp made, rfl⟩
  · intro listed
    obtain ⟨entry, member, same⟩ := listed
    exact ⟨entry.2, assigns.choices_eq_some_iff.mpr (same ▸ member)⟩

theorem Assigns.exists_var (assigns : Assigns valuation vars) {entry : Literal × Bool}
    (member : entry ∈ valuation) : ∃ v ∈ vars, entry.1 = (v : Literal) := by
  have key : entry.1 ∈ vars.map Int.ofNat := assigns.1 ▸ List.mem_map_of_mem member
  obtain ⟨v, listed, same⟩ := List.mem_map.mp key
  exact ⟨v, listed, same.symm⟩

theorem Assigns.fix_eq (assigns : Assigns valuation vars) (follows : σ.Follows valuation) :
    σ.fix valuation.choices = σ := by
  funext v
  unfold Assignment.fix
  cases made : valuation.choices v with
  | none => rfl
  | some value => exact (follows _ (assigns.choices_eq_some_iff.mp made)).symm

/-- Every assignment follows the valuation once it is changed by it. -/
theorem Assigns.follows_fix (assigns : Assigns valuation vars) (σ : Assignment) :
    (σ.fix valuation.choices).Follows valuation := by
  intro entry member
  obtain ⟨v, _, same⟩ := assigns.exists_var member
  have made : valuation.choices v = some entry.2 :=
    assigns.choices_eq_some_iff.mpr (same ▸ member)
  rw [same, Int.natAbs_natCast, Assignment.fix, made, Option.getD_some]

/-- Fixing the variables as shown leaves the outermost quantifier its way. -/
theorem Shows.truthFixing_eq (shows : Shows c out valuation) (valid : c.WellFormed)
    (defined : c.Defines out) : ∃ block rest, c.blocks = block :: rest ∧
      Assigns valuation block.vars ∧
        c.truthFixing out valuation.choices = (block.quantifier == .ex) := by
  obtain ⟨block, rest, blocks, keys, distinct, settled⟩ := shows
  have assigns : Assigns valuation block.vars := ⟨keys, distinct⟩
  refine ⟨block, rest, blocks, assigns, ?_⟩
  have fixed := truthFixing_outermost valid defined blocks fun _ => assigns.mem_iff
  cases kind : block.quantifier with
  | ex =>
    rw [kind] at settled
    obtain ⟨σ, follows, reached⟩ := settled
    rw [← assigns.fix_eq follows] at reached
    exact fixed.mpr ⟨σ, reached⟩
  | all =>
    rw [kind] at settled
    refine Bool.eq_false_iff.mpr fun holds => ?_
    obtain ⟨τ, reached⟩ := fixed.mp holds
    simp [settled _ (assigns.follows_fix τ)] at reached

theorem ensures_verdict_eliminated {g : Assignment → Bool} {f : Handle}
    {fail : Error → Solver → Prop} (wellFormed : c.WellFormed) (defined : c.Defines out)
    (known : Known c out g s) (progress : s.progress = .eliminated f) :
    Ensures verdict s
      (fun value t => t.diagram.limit = s.diagram.limit ∧ Known c out g t ∧ value = c.truth out ∧
        ∃ f, Decided t f value)
      fail := by
  exact Ensures.of_run (verdict_run progress)
    ((ensures_verdict wellFormed defined known).of_ok (verdict_run progress))

/-- What a whole run finds out about a circuit. -/
def Finds (c : Circuit) (out : Literal) (outcome : Outcome) : Prop :=
  outcome.verdict = c.truth out ∧ ∀ valuation, outcome.witness = some valuation →
    ∃ block, c.blocks.head? = some block ∧ Assigns valuation block.vars ∧
      c.truthFixing out valuation.choices = outcome.verdict

theorem Answers.finds {g : Assignment → Bool} {f : Handle} {verdict : Bool}
    {result : Option Valuation} (answers : Answers c out g s f verdict result t)
    (known : Known c out g s) (right : verdict = c.truth out) (wellFormed : c.WellFormed)
    (defined : c.Defines out) (statistics : Statistics) :
    Finds c out { verdict, witness := result, statistics } := by
  refine ⟨right, fun valuation given => ?_⟩
  have found : result = some valuation := given
  obtain ⟨block, rest, blocks, agrees, open_⟩ := answers.isSome_iff.mp (by simp [found])
  have shows := shows_of_witnesses wellFormed known.simplified open_
    (answers.witnesses valuation found)
  obtain ⟨outermost, inner, split, assigns, fixed⟩ := shows.truthFixing_eq wellFormed defined
  obtain ⟨rfl, rfl⟩ := List.cons.inj (blocks.symm.trans split)
  exact ⟨block, by rw [blocks]; rfl, assigns, fixed.trans agrees.symm⟩

/-- The run succeeds unless the table is too small, and finds out what it should. -/
theorem ensures_solveWith (wellFormed : c.WellFormed) (output : c.output? = some out)
    {work : List Block → Handle → Solve Handle} (closing : Closing work) (call : StagedCall)
    (options : SolverOptions) (limit : Nat) :
    Ensures (solveWith (eliminateWith call work)) (start c options limit)
      (fun outcome _ => Finds c out outcome) fun error _ => error = .tableExhausted limit := by
  have defined : c.Defines out := wellFormed.output_lt out output
  have first : (start c options limit).diagram.limit = limit := rfl
  unfold solveWith
  refine Ensures.bind (Ensures.mono_fail (ensures_compileMatrix wellFormed output
    (fresh_start c out options limit)) fun _ _ facts => facts.2.2) ?_
  intro _ s compiles
  obtain ⟨limitS, f, compiled, known⟩ := compiles
  rw [first] at limitS
  refine Ensures.bind (Ensures.mono_fail (ensures_eliminateWith closing call known compiled)
    fun _ _ facts => limitS ▸ facts.2.2.2) ?_
  intro _ t eliminates
  obtain ⟨limitT, known, r, eliminated⟩ := eliminates
  refine Ensures.bind (ensures_verdict_eliminated wellFormed defined known eliminated) ?_
  intro verdict u decides
  obtain ⟨limitU, known, right, f, decided⟩ := decides
  rw [limitT, limitS] at limitU
  refine Ensures.get ?_
  dsimp only
  split
  · refine Ensures.bind (Ensures.mono_fail (ensures_witness known decided)
      fun _ _ facts => limitU ▸ facts.2.2.2) ?_
    intro result _ answers
    exact Ensures.get (Ensures.pure (answers.finds known right wellFormed defined _))
  · have found : Finds c out { verdict, witness := none, statistics := u.statistics } :=
      ⟨right, fun _ given => (nomatch given)⟩
    exact found

/-- The two ways to eliminate the inner blocks. -/
inductive Elimination where
  | byBlock
  | byVariable
  deriving DecidableEq, Repr

namespace Elimination

def work : Elimination → List Block → Handle → Solve Handle
  | byBlock => abstractBlocks
  | byVariable => abstractBlocksByVariable

def call : Elimination → StagedCall
  | byBlock => .eliminateBlocks
  | byVariable => .eliminateVariables

/-- A complete run over a fresh table. -/
def solve (elimination : Elimination) (c : Circuit) (options : SolverOptions) (limit : Nat) :
    Except Error Outcome :=
  (solveWith (eliminateWith elimination.call elimination.work) (start c options limit)).1

theorem solve_byBlock (c : Circuit) (options : SolverOptions) (limit : Nat) :
    byBlock.solve c options limit = (Solver.solve (start c options limit)).1 := rfl

theorem closing (elimination : Elimination) : Closing elimination.work := by
  cases elimination with
  | byBlock => exact closing_abstractBlocks
  | byVariable => exact closing_abstractBlocksByVariable

end Elimination

end Solver

end QuantCircuit
