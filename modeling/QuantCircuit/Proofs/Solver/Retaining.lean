import QuantCircuit.Proofs.Solver.Compiling
import QuantCircuit.Proofs.Solver.Storing

/-! Compilation with releasing holds the functions that are still to be read, and no others. A
function is released by the last gate that reads it, or at once if no gate does. -/

namespace QuantCircuit

/-- The identifier is an input of the gate, perhaps negated. -/
def Circuit.HasInput (c : Circuit) (id input : Nat) : Prop :=
  ∃ gate, c.gate? id = some gate ∧ ∃ l ∈ gate.inputs, l.natAbs = input

theorem Circuit.HasInput.lt {c : Circuit} {id input : Nat} (reads : c.HasInput id input)
    (wellFormed : c.WellFormed) : input < id := by
  obtain ⟨gate, found, l, member, rfl⟩ := reads
  exact (wellFormed.inputs_lt id gate found l member).2

namespace Solver

open Diagram Compilation

variable {c : Circuit} {d : Diagram} {s t : Solver} {state after : Compilation} {out : Literal}
variable {functions : Array (Option Handle)} {uses : Array (Option Nat)} {gate : Gate}
variable {maxVar id next target bound position : Nat} {kept : Nat → Prop}

def Held (functions : Array (Option Handle)) (position : Nat) : Prop :=
  ∃ f, functions[position]? = some (some f)

theorem Held.stored {written : Nat} {f : Handle}
    (held : Held (functions.setIfInBounds written (some f)) position) :
    written = position ∧ position < functions.size ∨ Held functions position := by
  obtain ⟨g, found⟩ := held
  rcases getElem?_stored found with ⟨same, inside, _⟩ | ⟨_, before⟩
  · exact .inl ⟨same, same ▸ inside⟩
  · exact .inr ⟨g, before⟩

theorem Thins.held (thins : Thins state after kept) (held : Held after.functions position) :
    Held state.functions position := by
  obtain ⟨f, found⟩ := held
  exact ⟨f, thins.2.1 position f found⟩

theorem not_held_release (state : Compilation) (position : Nat) :
    ¬ Held (state.release position).functions position := by
  rintro ⟨f, found⟩
  rw [release_getElem?, if_pos rfl] at found
  simp at found

theorem Held.of_release {released : Nat}
    (held : Held (state.release released).functions position) : Held state.functions position := by
  have thins : Thins state (state.release released) fun _ => False := thins_release not_false
  exact thins.held held

/-- What a gate reads for the last time is not there any more, whatever it reads besides. -/
theorem not_held_releaseInputs {inputs : List Literal} {l : Literal} (member : l ∈ inputs)
    (isGate : maxVar ≤ l.natAbs) (lastUse : uses[l.natAbs - maxVar]? = some (some id)) :
    ¬ Held (inputs.foldl (releaseInput maxVar uses id) state).functions (l.natAbs - maxVar) := by
  induction inputs generalizing state with
  | nil => simp at member
  | cons first rest ih =>
    rcases List.mem_cons.mp member with rfl | later
    · intro held
      have thins : Thins (releaseInput maxVar uses id state l)
          (rest.foldl (releaseInput maxVar uses id) (releaseInput maxVar uses id state l))
          fun _ => False := thins_releaseInputs fun _ _ _ _ => not_false
      have remaining := thins.held held
      rw [releaseInput, if_pos ⟨isGate, lastUse⟩] at remaining
      exact not_held_release state _ remaining
    · exact ih later

theorem not_held_releaseUnused_input {l : Literal} (member : l ∈ gate.inputs)
    (isGate : maxVar ≤ l.natAbs) (lastUse : uses[l.natAbs - maxVar]? = some (some id)) :
    ¬ Held (releaseUnused maxVar uses target id gate state).functions (l.natAbs - maxVar) := by
  rw [releaseUnused_eq]
  split
  · intro held
    exact not_held_releaseInputs member isGate lastUse held.of_release
  · exact not_held_releaseInputs member isGate lastUse

theorem not_held_releaseUnused_self (different : id ≠ target)
    (unread : uses[id - maxVar]? = some none) :
    ¬ Held (releaseUnused maxVar uses target id gate state).functions (id - maxVar) := by
  rw [releaseUnused_eq, if_pos ⟨different, unread⟩]
  exact not_held_release _ _

theorem held_refill_iff (slots : List (Option Handle)) (move : Handle → Handle) :
    Held (Compilation.refill slots ((slots.filterMap fun slot => slot).map move)).toArray position ↔
      Held slots.toArray position := by
  rw [refill_map]
  simp [Held]

/-- Collection moves functions, but no function comes or goes. -/
theorem held_collectGarbage_iff (ran : collectGarbage state s = (.ok after, t)) :
    Held after.functions position ↔ Held state.functions position := by
  rw [collectGarbage_eq] at ran
  split at ran
  · obtain ⟨same, _⟩ := Prod.mk.inj ran
    rw [Except.ok.inj same]
  · obtain ⟨same, _⟩ := Prod.mk.inj ran
    rw [← Except.ok.inj same]
    exact held_refill_iff state.functions.toList _

theorem storeGate_eq_ok {slots : Array (Option Handle)}
    (ran : storeGate functions (gate, id) s = (.ok slots, t)) :
    ∃ f, slots = functions.setIfInBounds (id - s.circuit.maxVar) (some f) := by
  dsimp only [storeGate] at ran
  rw [run_get, run_get] at ran
  obtain ⟨inputs, _, _, ran⟩ := exists_of_run_bind_eq_ok ran
  obtain ⟨f, _, _, ran⟩ := exists_of_run_bind_eq_ok ran
  obtain ⟨_, _, _, ran⟩ := exists_of_run_bind_eq_ok ran
  obtain ⟨_, _, _, ran⟩ := exists_of_run_bind_eq_ok ran
  obtain ⟨same, _⟩ := Prod.mk.inj ran
  exact ⟨f, (Except.ok.inj same).symm⟩

/-- A gate adds its function to the table, and then releases. -/
theorem held_compileGate_iff (releasing : s.options.releaseDead = true)
    (ran : compileGate uses target state (gate, id) s = (.ok after, t)) :
    ∃ f, ∀ position, Held after.functions position ↔
      Held (releaseUnused s.circuit.maxVar uses target id gate { state with
        functions := state.functions.setIfInBounds (id - s.circuit.maxVar) (some f) }).functions
        position := by
  rw [compileGate_eq] at ran
  obtain ⟨functions, _, stored, settled⟩ := exists_of_run_bind_eq_ok ran
  obtain ⟨f, rfl⟩ := storeGate_eq_ok stored
  rw [settleGate, if_pos releasing] at settled
  exact ⟨f, fun position => held_collectGarbage_iff settled⟩

/-- What is noted as the last use of a gate is one. -/
def NotesUses (c : Circuit) (target : Nat) (uses : Array (Option Nat)) : Prop :=
  ∀ position last, uses[position]? = some (some last) →
    last ≤ target ∧ c.HasInput last (c.maxVar + position)

theorem NotesUses.noteUse (notes : NotesUses c target uses) (early : id ≤ target) {l : Literal}
    (reads : c.HasInput id l.natAbs) : NotesUses c target (noteUse c.maxVar id uses l) := by
  unfold Solver.noteUse
  split
  · exact notes
  · rename_i isGate
    intro position last found
    rw [Array.getElem?_setIfInBounds] at found
    split at found
    · rename_i same
      obtain rfl : id = last := by
        split at found <;> simp_all
      rw [← same, Nat.add_sub_cancel' (Nat.le_of_not_lt isGate)]
      exact ⟨early, reads⟩
    · exact notes position last found

theorem notesUses_lastUses (c : Circuit) (literal : Literal) :
    NotesUses c literal.natAbs (lastUses c.maxVar (gatesUpTo c literal)) := by
  rw [lastUses_eq]
  refine List.foldlRecOn _ _ ?_ fun uses notes entry member => ?_
  · intro position last found
    simp [Array.getElem?_replicate] at found
  · obtain ⟨found, early⟩ := mem_gatesUpTo member
    exact List.foldlRecOn _ _ notes fun uses notes l read =>
      notes.noteUse early ⟨entry.1, found, l, read, rfl⟩

theorem size_lastUses (maxVar : Nat) (gates : List (Gate × Nat)) :
    (lastUses maxVar gates).size = gates.length := by
  rw [lastUses_eq]
  refine List.foldlRecOn (motive := fun uses : Array (Option Nat) => uses.size = gates.length) _ _
    (by simp) ?_
  intro uses same entry _
  rw [size_noteUses, same]

theorem mem_gatesUpTo_of_gate? {literal : Literal} (found : c.gate? id = some gate)
    (early : id ≤ literal.natAbs) : (gate, id) ∈ gatesUpTo c literal := by
  obtain ⟨large, located⟩ := Circuit.gate?_eq_some_iff.mp found
  refine List.mem_iff_getElem?.mpr ⟨id - c.maxVar, ?_⟩
  rw [gatesUpTo, List.getElem?_take_of_lt (by omega), List.getElem?_zipIdx]
  simp [located, large]

/-- Exactly what gates from the bound on read is noted as used by one of them. -/
theorem usedFrom_lastUses_iff (wellFormed : c.WellFormed) {literal : Literal}
    (below : literal.natAbs < c.maxGate) :
    UsedFrom bound (lastUses c.maxVar (gatesUpTo c literal)) position ↔
      ∃ j, bound ≤ j ∧ j ≤ literal.natAbs ∧ c.HasInput j (c.maxVar + position) := by
  constructor
  · rintro ⟨last, found, behind⟩
    exact ⟨last, behind, notesUses_lastUses c literal position last found⟩
  · rintro ⟨j, behind, early, gate, found, l, member, same⟩
    obtain ⟨_, _, used⟩ := scheduled_gatesUpTo wellFormed below (gate, j)
      (mem_gatesUpTo_of_gate? found early)
    obtain ⟨last, noted, later⟩ := used l member (by omega)
    rw [same, Nat.add_sub_cancel_left] at noted
    exact ⟨last, noted, Nat.le_trans behind later⟩

/-- Compilation has come to the gate `next`, and the table holds nothing but the functions of
gates before it that are still needed. -/
structure Retains (c : Circuit) (uses : Array (Option Nat)) (target next : Nat)
    (state : Compilation) (d : Diagram) : Prop extends Serves c uses target next state d where
  needed : ∀ position, Held state.functions position →
    c.maxVar + position < next ∧ Needed c uses target next position

/-- What is left when gate `id` has been added and has released is needed by later gates. -/
theorem Retains.needed_next (retains : Retains c uses target id state d)
    (wellFormed : c.WellFormed) (notes : NotesUses c target uses)
    (sized : uses.size = target + 1 - c.maxVar) (found : c.gate? id = some gate) {f : Handle}
    (held : Held (releaseUnused c.maxVar uses target id gate { state with
      functions := state.functions.setIfInBounds (id - c.maxVar) (some f) }).functions position) :
    c.maxVar + position < id + 1 ∧ Needed c uses target (id + 1) position := by
  have isGate := Circuit.maxVar_le_of_gate? found
  have stored := (thins_releaseUnused_any c.maxVar uses target id gate _).held held
  rcases Held.stored stored with ⟨rfl, inside⟩ | before
  · -- the gate itself, which some gate reads if it is still there
    rw [retains.size_eq, ← sized] at inside
    refine ⟨by omega, ?_⟩
    cases noted : uses[id - c.maxVar]? with
    | none =>
      have outside := Array.getElem?_eq_none_iff.mp noted
      omega
    | some use =>
      cases use with
      | none =>
        by_cases asked : id = target
        · exact .inl (by omega)
        · exact absurd held (not_held_releaseUnused_self asked noted)
      | some last =>
        have reads := (notes _ last noted).2
        rw [Nat.add_sub_cancel' isGate] at reads
        exact .inr ⟨last, noted, reads.lt wellFormed⟩
  · -- an earlier gate, whose last use was not this one if it is still there
    obtain ⟨early, asked | ⟨last, noted, behind⟩⟩ := retains.needed position before
    · exact ⟨Nat.lt_succ_of_lt early, .inl asked⟩
    · refine ⟨Nat.lt_succ_of_lt early, .inr ⟨last, noted, ?_⟩⟩
      refine Nat.lt_of_le_of_ne behind ?_
      rintro rfl
      obtain ⟨_, other, located, l, member, same⟩ := notes position id noted
      obtain rfl : gate = other := Option.some.inj (found.symm.trans located)
      obtain rfl : l.natAbs - c.maxVar = position := by omega
      exact not_held_releaseUnused_input member (by omega) noted held

theorem works_compileGate_retains (wellFormed : c.WellFormed) (circuit : s.circuit = c)
    (releasing : s.options.releaseDead = true) (valid : s.diagram.Valid)
    (notes : NotesUses c target uses) (sized : uses.size = target + 1 - c.maxVar)
    (scheduled : Scheduled c uses target (gate, id))
    (retains : Retains c uses target id state s.diagram) :
    Works Keeps (compileGate uses target state (gate, id)) s fun after t =>
      Retains c uses target (id + 1) after t.diagram := by
  have serving := works_compileGate wellFormed circuit valid scheduled retains.toServes
  refine Ensures.mono serving.with_run ?_ fun _ _ failed => failed
  rintro after t ⟨ran, kept, serves⟩
  refine ⟨kept, serves, fun position held => ?_⟩
  obtain ⟨f, iff⟩ := held_compileGate_iff releasing ran
  have remaining := (iff position).mp held
  rw [circuit] at remaining
  exact retains.needed_next wellFormed notes sized scheduled.1 remaining

/-- Compilation of a literal of the circuit until gate `id` has been processed. -/
def compileThrough (c : Circuit) (literal : Literal) (id : Nat) : Solve Compilation := do
  let gates := gatesUpTo c literal
  let start : Compilation :=
    { functions := Array.replicate gates.length none
      collectAbove := (← get).diagram.limit / 2 }
  (gates.take (id + 1 - c.maxVar)).foldlM (compileGate (lastUses c.maxVar gates) literal.natAbs)
    start

/-- Compilation of the gates behind gate `id`. -/
def compileBehind (c : Circuit) (literal : Literal) (id : Nat) (state : Compilation) :
    Solve Handle := do
  let gates := gatesUpTo c literal
  let state ← (gates.drop (id + 1 - c.maxVar)).foldlM
    (compileGate (lastUses c.maxVar gates) literal.natAbs) state
  onDiagram (state.read c.maxVar literal)

/-- What is left to do when the function of the output is there. -/
def settleOutput (options : SolverOptions) (f : Handle) : Solve Unit := do
  let f ← if options.unitLiterals then propagateUnits f else pure f
  let f ← if options.pureLiterals then eliminatePure f else pure f
  noteFunction .matrixCompiled f

theorem compileLiteral_eq (literal : Literal) (id : Nat) (s : Solver) :
    compileLiteral literal s =
      (compileThrough s.circuit literal id >>= compileBehind s.circuit literal id) s := by
  have parts (step : Compilation → Gate × Nat → Solve Compilation) (start : Compilation) :
      (gatesUpTo s.circuit literal).foldlM step start =
        ((gatesUpTo s.circuit literal).take (id + 1 - s.circuit.maxVar)).foldlM step start >>=
          ((gatesUpTo s.circuit literal).drop (id + 1 - s.circuit.maxVar)).foldlM step := by
    rw [← List.foldlM_append, List.take_append_drop]
  unfold compileLiteral compileThrough compileBehind
  rw [run_get, run_get, parts, bind_assoc]
  rfl

/-- Compilation of the output comes by the state in which gate `id` has been processed. -/
theorem compileMatrix_eq (output : s.circuit.output? = some out) (created : s.progress = .created)
    (id : Nat) :
    compileMatrix s = (do
      let state ← compileThrough s.circuit out id
      let f ← compileBehind s.circuit out id state
      settleOutput s.options f) s := by
  have asked : s.circuit.output = .ok out := by rw [Circuit.output, output]
  have compiles : compileMatrix s = (compileLiteral out >>= settleOutput s.options) s := by
    unfold compileMatrix
    rw [run_get, if_neg (by simp [created])]
    dsimp only
    rw [run_get, run_get, run_lift_of_ok asked]
    rfl
  rw [compiles, run_bind_congr (compileLiteral_eq out id s), bind_assoc]

theorem retains_none (uses : Array (Option Nat)) (target collectAbove : Nat) (d : Diagram) :
    Retains c uses target c.maxVar
      { functions := Array.replicate (target + 1 - c.maxVar) none, collectAbove } d where
  toServes := serves_none uses target collectAbove d
  needed := by
    rintro position ⟨f, found⟩
    simp [Array.getElem?_replicate] at found

theorem works_compileThrough (wellFormed : c.WellFormed) (circuit : s.circuit = c)
    (releasing : s.options.releaseDead = true) (valid : s.diagram.Valid) {literal : Literal}
    (below : literal.natAbs < c.maxGate) (isGate : c.maxVar ≤ id) (early : id ≤ literal.natAbs) :
    Works Keeps (compileThrough c literal id) s fun state t =>
      Retains c (lastUses c.maxVar (gatesUpTo c literal)) literal.natAbs (id + 1) state
        t.diagram := by
  obtain ⟨length, numbered⟩ := gatesUpTo_numbered below
  have scheduled := scheduled_gatesUpTo wellFormed below
  have notes := notesUses_lastUses c literal
  have sized := (size_lastUses c.maxVar (gatesUpTo c literal)).trans length
  have taken : ((gatesUpTo c literal).take (id + 1 - c.maxVar)).length = id + 1 - c.maxVar := by
    rw [List.length_take, length]
    omega
  have numberedTaken : ((gatesUpTo c literal).take (id + 1 - c.maxVar)).map (·.2) =
      List.range' c.maxVar ((gatesUpTo c literal).take (id + 1 - c.maxVar)).length := by
    rw [List.map_take, numbered, taken, List.take_range'_of_length_ge (by omega)]
  unfold compileThrough
  refine works_get ?_
  dsimp only
  rw [length]
  have retained := works_gates valid numberedTaken
    (fun entry member t state kept retains => works_compileGate_retains wellFormed
      (kept.circuit_eq.trans circuit) (kept.options_eq ▸ releasing) kept.valid notes sized
      (scheduled entry (List.mem_of_mem_take member)) retains)
    (retains_none _ _ (s.diagram.limit / 2) s.diagram)
  rwa [taken, Nat.add_sub_cancel' (Nat.le_succ_of_le isGate)] at retained

/-- The table holds the function of a gate exactly from the gate itself until the last gate that
reads it. The output stays. Whatever was moved, the handles denote the functions of their gates, and
what the next gate reads is there. -/
theorem compilation_holds_live (wellFormed : c.WellFormed) (output : c.output? = some out)
    (gateOutput : c.maxVar ≤ out.natAbs) (circuit : s.circuit = c)
    (releasing : s.options.releaseDead = true) (created : s.progress = .created)
    (valid : s.diagram.Valid) (isGate : c.maxVar ≤ id) (early : id ≤ out.natAbs) :
    compileMatrix s = (do
        let state ← compileThrough c out id
        let f ← compileBehind c out id state
        settleOutput s.options f) s ∧
      (∀ error t, compileThrough c out id s = (.error error, t) →
        error = .tableExhausted s.diagram.limit) ∧
      ∀ state t, compileThrough c out id s = (.ok state, t) →
        (∀ i, c.maxVar ≤ i → i ≤ out.natAbs → (Held state.functions (i - c.maxVar) ↔
          i ≤ id ∧ (i = out.natAbs ∨ ∃ j, id < j ∧ j ≤ out.natAbs ∧ c.HasInput j i))) ∧
        (∀ i f, c.maxVar ≤ i → state.functions[i - c.maxVar]? = some (some f) →
          t.diagram.Valid ∧ t.diagram.Holds f ∧ ∀ σ, t.diagram.value σ f = c.meaning i σ) ∧
        (id < out.natAbs → ∀ i, c.maxVar ≤ i → c.HasInput (id + 1) i →
          Held state.functions (i - c.maxVar)) := by
  have below := (wellFormed.output_lt out output).2
  have works := works_compileThrough wellFormed circuit releasing valid below isGate early
  refine ⟨?_, fun error t ran => (works.of_error ran).2, fun state t ran => ?_⟩
  · subst circuit
    exact compileMatrix_eq output created id
  obtain ⟨kept, retains⟩ := works.of_ok ran
  have held_iff (i : Nat) (large : c.maxVar ≤ i) : Held state.functions (i - c.maxVar) ↔
      i ≤ id ∧ (i = out.natAbs ∨ ∃ j, id < j ∧ j ≤ out.natAbs ∧ c.HasInput j i) := by
    have needed_iff : Needed c (lastUses c.maxVar (gatesUpTo c out)) out.natAbs (id + 1)
        (i - c.maxVar) ↔ i = out.natAbs ∨ ∃ j, id < j ∧ j ≤ out.natAbs ∧ c.HasInput j i := by
      rw [Needed, usedFrom_lastUses_iff wellFormed below, Nat.add_sub_cancel' large]
      rfl
    rw [← needed_iff, ← Nat.lt_succ_iff]
    constructor
    · intro held
      have needed := retains.needed _ held
      rwa [Nat.add_sub_cancel' large] at needed
    · rintro ⟨before, needed⟩
      exact retains.available _ (by omega) needed
  refine ⟨fun i large _ => held_iff i large, fun i f large found => ?_, fun more i large reads => ?_⟩
  · obtain ⟨holds, value⟩ := retains.right _ f found
    rw [Nat.add_sub_cancel' large] at value
    exact ⟨kept.valid, holds, fun σ => by rw [value, Circuit.meaning_natCast]⟩
  · exact (held_iff i large).mpr ⟨Nat.le_of_lt_succ (reads.lt wellFormed),
      .inr ⟨id + 1, Nat.lt_succ_self id, more, reads⟩⟩

/-- The last gate reads the fifth identifier, too; the sixth one is not read. -/
def passing : Circuit where
  name := "passing"
  maxVar := 4
  blocks := [⟨.ex, [1, 2, 3]⟩]
  gates := #[
    { connective := .and, inputs := [1, -2] },
    { connective := .or, inputs := [4, 4, 3] },
    { connective := .and, inputs := [1, 2, 3] },
    { connective := .or, inputs := [-5, 4, 4] },
    { connective := .and, inputs := [7, 5] }]
  output? := some (-8)
  names := #["", "1", "2", "3", "4", "5", "6", "7", "8"]
  origin := #[0, 1, 2, 3, 4, 5, 6, 7, 8]

/-- The table is so small that garbage is collected three times before the last gate. -/
theorem passing_holds_live :
    ∃ state t, compileThrough passing (-8) 7 (start passing { releaseDead := true } 10) =
        (.ok state, t) ∧ t.statistics.collections = 3 ∧
      state.functions = #[none, some (.node 2), none, some (.node 5), none] ∧
      (∀ i, 4 ≤ i → i ≤ 8 → (Held state.functions (i - 4) ↔
        i ≤ 7 ∧ (i = 8 ∨ ∃ j, 7 < j ∧ j ≤ 8 ∧ passing.HasInput j i))) ∧
      ∀ σ, t.diagram.value σ (.node 2) = passing.meaning 5 σ := by
  have reached :
      let run := compileThrough passing (-8) 7 (start passing { releaseDead := true } 10)
      run.1.map (·.functions) = .ok #[none, some (.node 2), none, some (.node 5), none] ∧
        run.2.statistics.collections = 3 := by decide +kernel
  have wellFormed : passing.WellFormed := by decide +kernel
  have output : passing.output? = some (-8) := rfl
  obtain ⟨_, _, live⟩ := compilation_holds_live wellFormed output (by decide)
    (s := start passing { releaseDead := true } 10) rfl rfl rfl (valid_empty 10)
    (by decide : passing.maxVar ≤ 7) (by decide)
  rcases ran : compileThrough passing (-8) 7 (start passing { releaseDead := true } 10) with
    ⟨result, t⟩
  rw [ran] at reached
  obtain ⟨functions, collected⟩ := reached
  cases result with
  | error error => nomatch functions
  | ok state =>
    have slots : state.functions = #[none, some (.node 2), none, some (.node 5), none] :=
      Except.ok.inj functions
    obtain ⟨heldIff, denotes, _⟩ := live state t ran
    have fifth := denotes 5 (.node 2) (by decide) (by rw [slots]; rfl)
    exact ⟨state, t, rfl, collected, slots, heldIff, fifth.2.2⟩

end Solver

end QuantCircuit
