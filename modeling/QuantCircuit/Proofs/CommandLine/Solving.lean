import QuantCircuit.Proofs.CommandLine.Transforming
import QuantCircuit.Proofs.Qcir.Reading
import QuantCircuit.Proofs.Solver.Running

/-! From the text to the answer. Whatever was asked for on the command line, the verdict is the
truth of the circuit that was read, and a witness line, read by the names in it, fixes
variables of that circuit so that its truth stays the verdict. -/

namespace QuantCircuit

def Qcir.namedLine (named : List (String × Bool)) : String :=
  " ".intercalate (named.map fun entry => s!"{entry.1}={entry.2}") ++ "\n"

def Circuit.named (c : Circuit) (valuation : Valuation) : List (String × Bool) :=
  valuation.map fun entry => (c.nameOf entry.1, entry.2)

theorem Qcir.valuationLine_eq (c : Circuit) (valuation : Valuation) :
    Qcir.valuationLine c valuation = Qcir.namedLine (c.named valuation) := by
  rw [valuationLine, namedLine, Circuit.named, List.map_map]
  rfl

/-- The choices for variables that are given by their names. -/
def Circuit.choicesNamed (c : Circuit) (named : List (String × Bool)) : Choices :=
  fun v => named.lookup (c.nameOf v)

namespace CommandLine

open Circuit Diagram Solver

variable {settings : Settings} {c d m : Circuit} {out r s : Literal} {place : Nat → Nat}
variable {valuation : Valuation} {block : Block} {text name : String} {outcome : Outcome}

/-- The verdict and what is known of a circuit after deciding it. -/
theorem solve_spec (wellFormed : c.WellFormed) (output : c.output? = some out)
    (solved : solve settings c = .ok outcome) : Finds c out outcome := by
  unfold solve at solved
  dsimp only at solved
  split at solved
  · exact (ensures_solveWith wellFormed output closing_abstractBlocksByVariable
      .eliminateVariables settings.solver settings.table).of_ok (run_eq_ok solved)
  · exact (ensures_solveWith wellFormed output closing_abstractBlocks
      .eliminateBlocks settings.solver settings.table).of_ok (run_eq_ok solved)

section Names

variable (transports : Transports c out d r place) (condenses : Condenses d r m s)

include transports condenses

theorem exists_variable {p : Nat} (positive : 0 < p) (below : p < d.maxVar) :
    ∃ v : Nat, 0 < v ∧ v < c.maxVar ∧ place v = p ∧ m.nameOf p = c.nameOf v := by
  obtain ⟨v, positiveV, belowV, rfl⟩ := transports.onto p positive below
  refine ⟨v, positiveV, belowV, rfl, ?_⟩
  rw [condenses.nameOf_eq _ positive below, transports.nameOf_eq v belowV (Nat.ne_of_gt positive)]

variable (names : c.NamesVariables) (assigns : Assigns valuation block.vars)
variable (inside : ∀ p ∈ block.vars, 0 < p ∧ p < d.maxVar)

include names

theorem nameOf_injective {p q : Nat} (insideP : 0 < p ∧ p < d.maxVar)
    (insideQ : 0 < q ∧ q < d.maxVar) (same : m.nameOf p = m.nameOf q) : p = q := by
  obtain ⟨v, positiveV, belowV, rfl, nameV⟩ :=
    exists_variable transports condenses insideP.1 insideP.2
  obtain ⟨w, positiveW, belowW, rfl, nameW⟩ :=
    exists_variable transports condenses insideQ.1 insideQ.2
  have equal := names v w ⟨positiveV, belowV⟩ ⟨positiveW, belowW⟩
    (nameV.symm.trans (same.trans nameW))
  rw [equal]

include assigns inside

theorem named_distinct : ((m.named valuation).map Prod.fst).Nodup := by
  have keys : (m.named valuation).map Prod.fst = block.vars.map fun p : Nat => m.nameOf p := by
    calc (m.named valuation).map Prod.fst
      _ = (valuation.map Prod.fst).map m.nameOf := by simp [Circuit.named]
      _ = block.vars.map fun p : Nat => m.nameOf p := by rw [assigns.1, List.map_map]; rfl
  rw [keys]
  refine List.pairwise_map.mpr (assigns.2.imp_of_mem fun memberP memberQ different same => ?_)
  exact different (nameOf_injective transports condenses names (inside _ memberP) (inside _ memberQ)
    same)

/-- The names choose for a variable what the valuation chooses for what it has become. -/
theorem choicesNamed_eq {v : Nat} (positive : 0 < v) (below : v < c.maxVar) :
    c.choicesNamed (m.named valuation) v = valuation.choices (place v) := by
  have distinct := named_distinct transports condenses names assigns inside
  apply Option.ext
  intro value
  rw [choicesNamed, lookup_eq_some_iff_mem distinct, assigns.choices_eq_some_iff, Circuit.named,
    List.mem_map]
  constructor
  · intro named
    obtain ⟨entry, member, same⟩ := named
    obtain ⟨sameName, rfl⟩ := Prod.mk.inj same
    obtain ⟨p, listed, key⟩ := assigns.exists_var member
    obtain ⟨w, positiveW, belowW, rfl, nameW⟩ :=
      exists_variable transports condenses (inside p listed).1 (inside p listed).2
    rw [key, nameW] at sameName
    rw [names v w ⟨positive, below⟩ ⟨positiveW, belowW⟩ sameName.symm, ← key]
    exact member
  · intro member
    obtain ⟨p, listed, key⟩ := assigns.exists_var member
    have at_ : place v = p := Int.ofNat.inj key
    have placed := at_ ▸ inside p listed
    refine ⟨_, member, Prod.ext ?_ rfl⟩
    rw [condenses.nameOf_eq _ placed.1 placed.2,
      transports.nameOf_eq v below (Nat.ne_of_gt placed.1)]

end Names

/-- The names are those of variables of the circuit, none of them twice, and fixing these
variables to the values leaves a formula of the given truth. -/
structure Confirms (c : Circuit) (out : Literal) (named : List (String × Bool)) (verdict : Bool) :
    Prop where
  known : ∀ entry ∈ named, ∃ v : Nat, 0 < v ∧ v < c.maxVar ∧ c.nameOf v = entry.1
  distinct : (named.map Prod.fst).Nodup
  truthFixing_eq : c.truthFixing out (c.choicesNamed named) = verdict

/-- A valuation for the transformed circuit confirms the verdict for the original one. -/
theorem confirms_of_transformed (wellFormed : c.WellFormed) (output : c.output? = some out)
    (names : c.NamesVariables) (transports : Transports c out d r place)
    (condenses : Condenses d r m s) (first : m.blocks.head? = some block)
    (assigns : Assigns valuation block.vars) :
    Confirms c out (m.named valuation) (m.truthFixing s valuation.choices) := by
  have head : d.blocks.head? = some block := condenses.head_eq.symm.trans first
  obtain ⟨rest, blocks⟩ := List.head?_eq_some_iff.mp head
  have inside := transports.valid.block_lt block (by simp [blocks])
  have open_ := inner_open transports.valid blocks fun _ => assigns.mem_iff.mp
  have zero : valuation.choices 0 = none := by
    rw [← Option.not_isSome_iff_eq_none, assigns.mem_iff]
    exact fun member => Nat.lt_irrefl 0 (inside 0 member).1
  refine ⟨fun entry member => ?_, named_distinct transports condenses names assigns inside, ?_⟩
  · obtain ⟨from_, listed, rfl⟩ := List.mem_map.mp member
    obtain ⟨p, present, key⟩ := assigns.exists_var listed
    obtain ⟨v, positive, below, _, same⟩ :=
      exists_variable transports condenses (inside p present).1 (inside p present).2
    exact ⟨v, positive, below, by rw [key, same]⟩
  · rw [condenses.truthFixing_eq _ (by rwa [blocks]), transports.truthFixing_eq _ zero]
    exact truthFixing_congr wellFormed (wellFormed.output_lt out output) fun v positive below =>
      choicesNamed_eq transports condenses names assigns inside positive below

/-- From the text to the verdict and the witness, for every command line. -/
theorem answer_sound (read : Qcir.read text name = .ok c)
    (transformed : transform settings c = .ok m) (solved : solve settings m = .ok outcome) :
    ∃ out, c.output? = some out ∧ c.Computes (c.meaning out) ∧ c.NamesVariables ∧
      outcome.verdict = c.truth out ∧ ∀ valuation, outcome.witness = some valuation →
        Qcir.valuationLine m valuation = Qcir.namedLine (m.named valuation) ∧
          Confirms c out (m.named valuation) outcome.verdict := by
  obtain ⟨wellFormed, ⟨out, output⟩, names⟩ := Qcir.read_spec read
  obtain ⟨d, r, place, s, transports, condenses⟩ :=
    transform_spec (Initial.read read).stands output transformed
  obtain ⟨right, shown⟩ := solve_spec condenses.valid condenses.output solved
  refine ⟨out, output, computes_meaning wellFormed output, names,
    right.trans (condenses.truth_eq.trans transports.truth_eq), fun valuation given => ?_⟩
  obtain ⟨block, first, assigns, fixed⟩ := shown valuation given
  exact ⟨Qcir.valuationLine_eq m valuation,
    fixed ▸ confirms_of_transformed wellFormed output names transports condenses first assigns⟩

/-- The first two blocks become one here, `c` is dropped from it, `k` is merged into `o`, and
gates quantify `x` and `y`. -/
theorem merged_answer_sound :
    let text := "exists(a)\nexists(c)\nforall(x)\nexists(y)\noutput(o)\n" ++
      "g = or(x, y)\nh = or(-x, -y)\nk = and(g, h)\no = and(k, a)\n"
    let settings : Settings :=
      { split := true, combine := true, flatten := true, cleanup := true,
        reorder := some .traversal, blocksToGates := true, miniscope := true, perVariable := true,
        solver := { unitLiterals := true, pureLiterals := true, releaseDead := true,
                    fold := .balanced, witness := true } }
    ∃ c m outcome, Qcir.read text "text" = .ok c ∧ transform settings c = .ok m ∧
      solve settings m = .ok outcome ∧ report m outcome = "Result: TRUE\na=true\n" ∧
        ∃ out, c.output? = some out ∧ c.Computes (c.meaning out) ∧ c.NamesVariables ∧
          outcome.verdict = c.truth out ∧ ∀ valuation, outcome.witness = some valuation →
            Qcir.valuationLine m valuation = Qcir.namedLine (m.named valuation) ∧
              Confirms c out (m.named valuation) outcome.verdict := by
  intro text settings
  have ran : (do
      let c ← Qcir.read text "text"
      let m ← transform settings c
      let outcome ← solve settings m
      return report m outcome : Except Error String) =
        .ok "Result: TRUE\na=true\n" := by decide +kernel
  obtain ⟨c, read, ran⟩ := exists_of_bind_eq_ok ran
  obtain ⟨m, transformed, ran⟩ := exists_of_bind_eq_ok ran
  obtain ⟨outcome, solved, ran⟩ := exists_of_bind_eq_ok ran
  exact ⟨c, m, outcome, read, transformed, solved, Except.ok.inj ran,
    answer_sound read transformed solved⟩

end CommandLine

end QuantCircuit
