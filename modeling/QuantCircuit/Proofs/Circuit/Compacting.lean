import Mathlib.Data.List.Sort
import QuantCircuit.Proofs.Circuit.Cleaning
import QuantCircuit.Proofs.Circuit.Restating

namespace QuantCircuit.Circuit

variable {c m : Circuit} {n : Numbering} {marks : List Bool} {kept : Nat → Prop}
variable {id : Nat} {out : Literal}

/-- The circuit consists of what is kept of another one, numbered in the old order and without
gaps, the variables before the gates. -/
structure Compacts (c m : Circuit) (n : Numbering) (kept : Nat → Prop) : Prop where
  place_ne_zero_iff : ∀ id, n.place id ≠ 0 ↔ kept id
  increasing : ∀ first second, kept first → kept second → first < second →
    n.place first < n.place second
  variable_iff : ∀ id, kept id → (n.place id < m.maxVar ↔ id < c.maxVar)
  lt_maxGate : ∀ id, kept id → n.place id < m.maxGate
  onto : ∀ p, 0 < p → p < m.maxGate → ∃ id, kept id ∧ n.place id = p
  gate? : ∀ id gate, kept id → c.gate? id = some gate →
    m.gate? (n.place id) = some (n.gate gate)

theorem compacts_renumber (valid : c.WellFormed) (closed : c.Closed marks)
    (kept_iff : ∀ id, kept id ↔ 0 < id ∧ marks[id]? = some true) :
    Compacts c (c.renumber (c.keeping marks)) (c.keeping marks) kept := by
  have fits := closed.fits valid
  have below (id : Nat) (marked : marks[id]? = some true) : id < c.maxGate := by
    rw [← closed.size]
    exact (List.getElem?_eq_some_iff.mp marked).1
  have place_ne_zero_iff (id : Nat) : (c.keeping marks).place id ≠ 0 ↔ kept id := by
    rw [kept_iff]
    rcases Nat.eq_zero_or_pos id with rfl | positive
    · simp [fits.zero]
    · rw [closed.place_ne_zero_iff positive, and_iff_right positive]
  refine ⟨place_ne_zero_iff, ?_, ?_, ?_, ?_, ?_⟩
  · intro first second keptFirst keptSecond order
    have markedFirst := ((kept_iff first).mp keptFirst).2
    rw [place_of_marked markedFirst, place_of_marked ((kept_iff second).mp keptSecond).2]
    exact count_take_lt order markedFirst
  · intro id isKept
    refine ⟨fun small => Nat.lt_of_not_le fun large => ?_, fits.variable_lt id⟩
    have fewer : (marks.take c.maxVar).count true ≤ (marks.take id).count true :=
      (List.take_sublist_take_left large).count_le true
    rw [place_of_marked ((kept_iff id).mp isKept).2] at small
    exact Nat.not_lt_of_le fewer small
  · intro id isKept
    exact place_lt_maxGate fits (below id ((kept_iff id).mp isKept).2)
      ((place_ne_zero_iff id).mpr isKept)
  · intro p positive inside
    obtain ⟨id, _, _, rfl⟩ := exists_place fits positive inside
    exact ⟨id, (place_ne_zero_iff id).mp (Nat.ne_of_gt positive), rfl⟩
  · intro id gate isKept found
    exact renumbered_gate fits found ((place_ne_zero_iff id).mpr isKept)

/-- The kept variables, in their old order, are the variables of the new circuit. -/
theorem Compacts.map_place_variables (compacts : Compacts c m n kept) (zero : n.place 0 = 0) :
    ((List.range' 1 (c.maxVar - 1)).map n.place).filter (· ≠ 0) = List.range' 1 (m.maxVar - 1) := by
  have sorted : (((List.range' 1 (c.maxVar - 1)).map n.place).filter (· ≠ 0)).Pairwise (· < ·) := by
    refine List.pairwise_filter.mpr (List.pairwise_map.mpr ?_)
    refine (List.pairwise_lt_range' (s := 1)).imp fun order first second => ?_
    exact compacts.increasing _ _ ((compacts.place_ne_zero_iff _).mp (by simpa using first))
      ((compacts.place_ne_zero_iff _).mp (by simpa using second)) order
  -- both lists are increasing, so their members are all that counts
  refine sorted.eq_of_mem_iff List.pairwise_lt_range' fun p => ?_
  rw [List.mem_filter, List.mem_map]
  constructor
  · rintro ⟨⟨v, listed, rfl⟩, nonzero⟩
    have isKept := (compacts.place_ne_zero_iff v).mp (by simpa using nonzero)
    have small := (compacts.variable_iff v isKept).mpr (mem_variables.mp listed).2
    exact mem_variables.mpr ⟨Nat.pos_of_ne_zero (by simpa using nonzero), small⟩
  · intro listed
    obtain ⟨positive, small⟩ := mem_variables.mp listed
    have inside : p < m.maxGate := Nat.lt_of_lt_of_le small (Nat.le_add_right ..)
    obtain ⟨v, isKept, rfl⟩ := compacts.onto p positive inside
    have nonzero : v ≠ 0 := by
      rintro rfl
      exact Nat.ne_of_gt positive zero
    refine ⟨⟨v, mem_variables.mpr ⟨Nat.pos_of_ne_zero nonzero, ?_⟩, rfl⟩,
      by simpa using Nat.ne_of_gt positive⟩
    exact (compacts.variable_iff v isKept).mp small

theorem plain_renumber (n : Numbering) (plain : c.hasQuantifierGates = false) :
    (c.renumber n).hasQuantifierGates = false := by
  refine Array.any_eq_false'.mpr fun gate member => ?_
  obtain ⟨position, located⟩ := Array.mem_iff_getElem?.mp member
  obtain ⟨_, old, before, _, _, rfl⟩ := gates_renumber_getElem?.mp located
  exact Array.any_eq_false'.mp plain old (Array.mem_of_getElem? before)

theorem isPrenex_renumber (fits : n.Fits c) (compacts : Compacts c (c.renumber n) n kept)
    (prenex : c.isPrenex = true) : (c.renumber n).isPrenex = true := by
  simp only [isPrenex, Bool.and_eq_true, Bool.not_eq_true', beq_iff_eq] at prenex ⊢
  refine ⟨plain_renumber n prenex.1, ?_⟩
  rw [flatMap_vars_renumber, prenex.2]
  exact compacts.map_place_variables fits.zero

theorem Connected.renumber (connected : c.Connected out id) (fits : n.Fits c)
    (output : c.output? = some out) :
    n.place id ≠ 0 ∧ (c.renumber n).Connected (n.literal out) (n.place id) := by
  induction connected with
  | self =>
    refine ⟨fits.output out output, ?_⟩
    rw [← Numbering.natAbs_literal]
    exact .self
  | @input id gate l _ found member ih =>
    obtain ⟨isKept, above⟩ := ih
    refine ⟨fits.inputs id gate found isKept l member, ?_⟩
    rw [← Numbering.natAbs_literal]
    exact .input above (renumbered_gate fits found isKept) (List.mem_map_of_mem member)

theorem Live.renumber (live : c.Live out id) (fits : n.Fits c) (output : c.output? = some out) :
    (c.renumber n).Live (n.literal out) (n.place id) := by
  rcases live with connected | ⟨binder, gate, connected, found, binds⟩
  · exact .inl (connected.renumber fits output).2
  · obtain ⟨v, member, rfl⟩ := List.mem_map.mp binds
    obtain ⟨isKept, above⟩ := connected.renumber fits output
    refine .inr ⟨_, _, above, renumbered_gate fits found isKept, ?_⟩
    rw [← Numbering.natAbs_literal]
    exact List.mem_map_of_mem (List.mem_map_of_mem member)

/-- If the kept gates are live, all gates are connected afterwards. -/
theorem connected_renumber (valid : c.WellFormed) (fits : n.Fits c) (output : c.output? = some out)
    (live : ∀ id, c.maxVar ≤ id → n.place id ≠ 0 → c.Live out id)
    (found : (c.renumber n).gate? id = some gate) :
    (c.renumber n).Connected (n.literal out) id := by
  obtain ⟨before, old, located, rfl, isKept, _⟩ := (gate?_renumber fits id).mp found
  have large := maxVar_le_of_gate? located
  exact (((live before large isKept).connected valid large).renumber fits output).2

theorem renumber_keeping_eq_self (valid : c.WellFormed) (closed : c.Closed marks)
    (zero : c.origin[0]? = some 0) (all : ∀ id, id < c.maxGate → marks[id]? = some true) :
    c.renumber (c.keeping marks) = c := by
  have counted (k : Nat) (inside : k ≤ c.maxGate) : (marks.take k).count true = k :=
    count_take_of_all fun i below => all i (Nat.lt_of_lt_of_le below inside)
  refine renumber_eq_self valid (closed.fits valid) zero (counted _ (Nat.le_add_right ..)) ?_
  intro id below
  rw [place_of_marked (all id below), counted id (Nat.le_of_lt below)]

theorem cleanup_eq_self (valid : c.WellFormed) (output : c.output? = some out)
    (zero : c.origin[0]? = some 0) (plain : c.hasQuantifierGates = false)
    (live : ∀ id, 0 < id → id < c.maxGate → c.Live out id) : c.cleanup = .ok c := by
  obtain ⟨marks, computed, closed, iff_live⟩ := cleanup_eq valid output plain
  rw [computed, renumber_keeping_eq_self valid closed zero fun id below => ?_]
  rcases Nat.eq_zero_or_pos id with rfl | positive
  · exact closed.zero
  · exact (iff_live id positive).mpr (live id positive below)

theorem cleanupGates_eq_self (valid : c.WellFormed) (output : c.output? = some out)
    (zero : c.origin[0]? = some 0)
    (connected : ∀ id gate, c.gate? id = some gate → c.Connected out id) :
    c.cleanupGates = .ok c := by
  obtain ⟨marks, computed, closed, iff_live⟩ := cleanupGates_eq valid output
  rw [computed, renumber_keeping_eq_self valid closed zero fun id below => ?_]
  refine (iff_live id).mpr ((Nat.lt_or_ge id c.maxVar).imp_right fun large => ?_)
  obtain ⟨gate, found⟩ := gate?_of_lt_maxGate large below
  exact .inl (connected id gate found)

theorem cleanup_compacts (valid : c.WellFormed) (output : c.output? = some out)
    (plain : c.hasQuantifierGates = false) :
    ∃ marks, c.cleanup = .ok (c.renumber (c.keeping marks)) ∧ c.Closed marks ∧
      Compacts c (c.renumber (c.keeping marks)) (c.keeping marks) (c.Live out) := by
  obtain ⟨marks, computed, closed, iff_live⟩ := cleanup_eq valid output plain
  refine ⟨marks, computed, closed, compacts_renumber valid closed fun id => ?_⟩
  constructor
  · intro live
    have positive := (live.defined valid (valid.output_lt out output)).1
    exact ⟨positive, (iff_live id positive).mpr live⟩
  · rintro ⟨positive, marked⟩
    exact (iff_live id positive).mp marked

def VariableOrLive (c : Circuit) (out : Literal) (id : Nat) : Prop :=
  0 < id ∧ (id < c.maxVar ∨ c.Live out id)

theorem cleanupGates_compacts (valid : c.WellFormed) (output : c.output? = some out) :
    ∃ marks, c.cleanupGates = .ok (c.renumber (c.keeping marks)) ∧ c.Closed marks ∧
      (∀ v, v < c.maxVar → marks[v]? = some true) ∧
      Compacts c (c.renumber (c.keeping marks)) (c.keeping marks) (c.VariableOrLive out) := by
  obtain ⟨marks, computed, closed, iff_live⟩ := cleanupGates_eq valid output
  refine ⟨marks, computed, closed, fun v small => (iff_live v).mpr (.inl small), ?_⟩
  exact compacts_renumber valid closed fun id => and_congr_right fun _ => (iff_live id).symm

/-- Cleanups change neither what the circuit says about the kept identifiers nor the order of the
kept variables in the blocks and among them. -/
theorem cleanups_preserve (valid : c.WellFormed) (output : c.output? = some out) :
    (∀ entries, ∃ value, c.evaluate entries = .ok value) ∧
    (c.hasQuantifierGates = false → ∃ m n, c.cleanup = .ok m ∧
      Compacts c m n (c.Live out) ∧ Restates c m n ∧
      m.blocks = (c.blocks.map fun block => Block.mk block.quantifier
        ((block.vars.filter fun v => n.place v ≠ 0).map n.place)).filter (!·.vars.isEmpty)) ∧
    ∃ m n, c.cleanupGates = .ok m ∧ Compacts c m n (c.VariableOrLive out) ∧ Restates c m n ∧
      m.maxVar = c.maxVar ∧ m.blocks = c.blocks ∧ ∀ v, v < c.maxVar → n.place v = v := by
  refine ⟨fun entries => ⟨_, computes_meaning valid output entries⟩, fun plain => ?_, ?_⟩
  · obtain ⟨marks, computed, closed, compacts⟩ := cleanup_compacts valid output plain
    refine ⟨_, _, computed, compacts, restates_renumber valid (closed.fits valid), ?_⟩
    refine congrArg (List.filter _) (List.map_congr_left fun block _ => ?_)
    rw [Numbering.block, List.filter_map]
    rfl
  · obtain ⟨marks, computed, closed, all, compacts⟩ := cleanupGates_compacts valid output
    have place (v : Nat) (small : v < c.maxVar) : (c.keeping marks).place v = v :=
      place_of_all_marked all small
    exact ⟨_, _, computed, compacts, restates_renumber valid (closed.fits valid),
      count_take_of_all all, blocks_renumber_of_place_eq valid place, place⟩

/-- The outermost block, another variable and the gate at six are not needed for the output. -/
def sparse : Circuit where
  name := "sparse"
  maxVar := 5
  blocks := [⟨.ex, [1]⟩, ⟨.all, [2, 3]⟩, ⟨.ex, [4]⟩]
  gates := #[{ connective := .and, inputs := [2, -4] }, { connective := .or, inputs := [1, 5] },
    { connective := .or, inputs := [-5, 4] }]
  output? := some (-7)
  names := #["", "a", "b", "c", "d", "5", "6", "7"]
  origin := #[0, 1, 2, 3, 4, 5, 6, 7]

theorem sparse_cleanups_preserve :
    (∃ m, sparse.cleanup = .ok m ∧ m.blocks = [⟨.all, [1]⟩, ⟨.ex, [2]⟩] ∧
      m.output? = some (-4) ∧ m.truth (-4) = sparse.truth (-7)) ∧
    ∃ m, sparse.cleanupGates = .ok m ∧ m.gates.size = 2 ∧ m.blocks = sparse.blocks ∧
      ∀ entries, m.evaluate entries = sparse.evaluate entries := by
  obtain ⟨_, plain, m, n, computed, _, restates, _, blocks, place⟩ :=
    cleanups_preserve (by decide : sparse.WellFormed) (rfl : sparse.output? = some (-7))
  obtain ⟨t, k, cleaned, _, stated, _⟩ := plain (by decide +kernel)
  have left : sparse.cleanup.map (fun m => (m.blocks, m.output?)) =
      .ok ([⟨.all, [1]⟩, ⟨.ex, [2]⟩], some (-4)) := by decide +kernel
  have size : sparse.cleanupGates.map (·.gates.size) = .ok 2 := by decide +kernel
  rw [cleaned] at left
  rw [computed] at size
  obtain ⟨blocksLeft, outputLeft⟩ := Prod.mk.inj (Except.ok.inj left)
  have literal : k.literal (-7) = -4 := Option.some.inj (stated.output.symm.trans outputLeft)
  refine ⟨⟨t, cleaned, blocksLeft, outputLeft, literal ▸ stated.truth_eq (-7) rfl⟩, m, computed,
    Except.ok.inj size, blocks, fun entries => ?_⟩
  exact restates.evaluate_eq entries entries fun v small _ => by rw [place v small]

/-- The pass leaves what is kept, all gates of which are connected to the output, and leaves
the circuit as it is if it is applied again. -/
structure CleansUp (pass : Circuit → Except Error Circuit) (c : Circuit) (out : Literal)
    (kept : Nat → Prop) (m : Circuit) (n : Numbering) : Prop where
  computed : pass c = .ok m
  output : m.output? = some (n.literal out)
  compacts : Compacts c m n kept
  connected : ∀ id gate, m.gate? id = some gate → m.Connected (n.literal out) id
  again : pass m = .ok m

theorem cleansUp_cleanup (valid : c.WellFormed) (output : c.output? = some out)
    (plain : c.hasQuantifierGates = false) :
    ∃ m n, CleansUp cleanup c out (c.Live out) m n ∧ (c.isPrenex = true → m.isPrenex = true) := by
  obtain ⟨marks, computed, closed, compacts⟩ := cleanup_compacts valid output plain
  have fits := closed.fits valid
  have outputLater := output_renumber (c.keeping marks) output
  refine ⟨_, _, ⟨computed, outputLater, compacts, fun id gate found => ?_, ?_⟩,
    isPrenex_renumber fits compacts⟩
  · exact connected_renumber valid fits output
      (fun before _ isKept => (compacts.place_ne_zero_iff before).mp isKept) found
  · -- every number left belongs to a live identifier, which is live under that number
    refine cleanup_eq_self (wellFormed_renumber valid fits) outputLater
      (origin_renumber_zero c fits.maxVar_pos) (plain_renumber _ plain) fun id positive below => ?_
    obtain ⟨before, live, rfl⟩ := compacts.onto id positive below
    exact live.renumber fits output

theorem cleansUp_cleanupGates (valid : c.WellFormed) (output : c.output? = some out) :
    ∃ m n, CleansUp cleanupGates c out (c.VariableOrLive out) m n := by
  obtain ⟨marks, computed, closed, _, compacts⟩ := cleanupGates_compacts valid output
  have fits := closed.fits valid
  have outputLater := output_renumber (c.keeping marks) output
  have connected (id : Nat) (gate : Gate)
      (found : (c.renumber (c.keeping marks)).gate? id = some gate) :
      (c.renumber (c.keeping marks)).Connected ((c.keeping marks).literal out) id := by
    refine connected_renumber valid fits output (fun before large isKept => ?_) found
    have live := (compacts.place_ne_zero_iff before).mp isKept
    exact live.2.resolve_left (Nat.not_lt.mpr large)
  exact ⟨_, _, computed, outputLater, compacts, connected, cleanupGates_eq_self
    (wellFormed_renumber valid fits) outputLater (origin_renumber_zero c fits.maxVar_pos) connected⟩

/-- Reachable is what is live. One cleanup keeps just that and refuses quantifier gates, the other
one keeps all variables besides. -/
theorem cleanups_keep_reachable (valid : c.WellFormed) (output : c.output? = some out) :
    (∃ marked, c.reachable = .ok marked ∧ c.Reachable out marked) ∧
    (c.hasQuantifierGates = true → c.cleanup = .error (.structural .cleanupNeedsPrenex)) ∧
    (c.hasQuantifierGates = false → ∃ m n, CleansUp cleanup c out (c.Live out) m n ∧
      (c.isPrenex = true → m.isPrenex = true)) ∧
    ∃ m n, CleansUp cleanupGates c out (c.VariableOrLive out) m n := by
  refine ⟨reachable_spec valid output, fun quantifies => ?_, cleansUp_cleanup valid output,
    cleansUp_cleanupGates valid output⟩
  rw [cleanup, if_pos quantifies]
  rfl

theorem sparse_cleanups_keep_reachable :
    (∃ marked, sparse.reachable = .ok marked ∧ marked.toList =
      [false, false, true, false, true, true, false, true]) ∧
    (∃ m, sparse.cleanup = .ok m ∧ m.maxVar = 3 ∧ m.isPrenex = true ∧ m.cleanup = .ok m) ∧
    ∃ m, sparse.cleanupGates = .ok m ∧ m.maxVar = 5 ∧ m.Connected (-6) 5 ∧
      m.cleanupGates = .ok m := by
  obtain ⟨⟨marked, reachable, _⟩, _, plain, m, n, cleansGates⟩ :=
    cleanups_keep_reachable (by decide : sparse.WellFormed) (rfl : sparse.output? = some (-7))
  obtain ⟨t, k, cleans, prenex⟩ := plain (by decide +kernel)
  have marks : sparse.reachable.map (·.toList) =
      .ok [false, false, true, false, true, true, false, true] := by decide +kernel
  have variables_ : sparse.cleanup.map (·.maxVar) = .ok 3 := by decide +kernel
  have left : sparse.cleanupGates.map (fun m => (m.maxVar, m.output?, (m.gate? 5).isSome)) =
      .ok (5, some (-6), true) := by decide +kernel
  rw [reachable] at marks
  rw [cleans.computed] at variables_
  rw [cleansGates.computed] at left
  obtain ⟨size, rest⟩ := Prod.mk.inj (Except.ok.inj left)
  obtain ⟨output, present⟩ := Prod.mk.inj rest
  obtain ⟨gate, found⟩ := Option.isSome_iff_exists.mp present
  have literal : n.literal (-7) = -6 := Option.some.inj (cleansGates.output.symm.trans output)
  exact ⟨⟨marked, reachable, Except.ok.inj marks⟩,
    ⟨t, cleans.computed, Except.ok.inj variables_, prenex (by decide +kernel), cleans.again⟩,
    m, cleansGates.computed, size, literal ▸ cleansGates.connected 5 gate found, cleansGates.again⟩

end QuantCircuit.Circuit
