import QuantCircuit.Proofs.Solver.Releasing

namespace QuantCircuit.Solver

open Diagram Compilation

variable {c : Circuit} {d e : Diagram} {state after : Compilation} {uses : Array (Option Nat)}
variable {gate : Gate} {id next target : Nat} {s t : Solver}

/-- Compilation has come to the gate `next`: the table is right, and the gates before it
that are still needed are there. -/
structure Serves (c : Circuit) (uses : Array (Option Nat)) (target next : Nat)
    (state : Compilation) (d : Diagram) : Prop where
  right : Right c state d
  size_eq : state.functions.size = target + 1 - c.maxVar
  available : ∀ position, c.maxVar + position < next → Needed c uses target next position →
    ∃ f, state.functions[position]? = some (some f)

theorem Needed.mono (needed : Needed c uses target bound position) (less : lower ≤ bound) :
    Needed c uses target lower position := by
  rcases needed with asked | ⟨last, found, behind⟩
  · exact .inl asked
  · exact .inr ⟨last, found, Nat.le_trans less behind⟩

theorem Serves.store (serves : Serves c uses target id state d) {f : Handle} (holds : d.Holds f)
    (value : ∀ σ, d.value σ f = c.interpretation id σ) (isGate : c.maxVar ≤ id)
    (early : id ≤ target) :
    Serves c uses target (id + 1)
      { state with functions := state.functions.setIfInBounds (id - c.maxVar) (some f) } d := by
  have inside : id - c.maxVar < state.functions.size := by
    rw [serves.size_eq]
    omega
  refine ⟨?_, by simpa using serves.size_eq, ?_⟩
  · intro position g found
    by_cases same : id - c.maxVar = position
    · subst position
      obtain rfl : f = g := by simpa [inside] using found
      rw [Nat.add_sub_cancel' isGate]
      exact ⟨holds, value⟩
    · exact serves.right position g (by simpa [same] using found)
  · intro position before needed
    by_cases same : id - c.maxVar = position
    · exact ⟨f, by simp [← same, inside]⟩
    · obtain ⟨g, found⟩ := serves.available position (by omega) (needed.mono (Nat.le_succ id))
      exact ⟨g, by simp [same, found]⟩

theorem Serves.thin (serves : Serves c uses target next state d)
    (thins : Thins state after (Needed c uses target next)) :
    Serves c uses target next after d := by
  obtain ⟨size, fewer, kept⟩ := thins
  refine ⟨fun position f found => serves.right position f (fewer position f found),
    size.trans serves.size_eq, fun position before needed => ?_⟩
  rw [kept position needed]
  exact serves.available position before needed

theorem Serves.grows (serves : Serves c uses target next state d) (valid : d.Valid)
    (grows : d.Grows e) : Serves c uses target next state e :=
  ⟨serves.right.grows valid grows, serves.size_eq, serves.available⟩

theorem works_serve_collectGarbage (valid : s.diagram.Valid)
    (serves : Serves c uses target next state s.diagram) :
    Works Keeps (collectGarbage state) s fun after t =>
      Serves c uses target next after t.diagram := by
  refine (works_collectGarbage valid fun position f found => (serves.right position f found).1).mono ?_
  rintro after t _ ⟨size, move, moved, same⟩
  refine ⟨?_, size.trans serves.size_eq, ?_⟩
  · intro position g found
    rw [moved position, Option.map_eq_some_iff] at found
    obtain ⟨slot, located, present⟩ := found
    obtain ⟨f, rfl, rfl⟩ := Option.map_eq_some_iff.mp present
    obtain ⟨holds, value⟩ := same position f located
    exact ⟨holds, fun σ => (value σ).trans ((serves.right position f located).2 σ)⟩
  · intro position before needed
    obtain ⟨f, found⟩ := serves.available position before needed
    exact ⟨move f, by simp [moved position, found]⟩

/-- The gate stands at its place in the circuit, and the uses of its inputs are noted. -/
def Scheduled (c : Circuit) (uses : Array (Option Nat)) (target : Nat) (entry : Gate × Nat) : Prop :=
  c.gate? entry.2 = some entry.1 ∧ entry.2 ≤ target ∧
    ∀ l ∈ entry.1.inputs, c.maxVar ≤ l.natAbs → UsedFrom entry.2 uses (l.natAbs - c.maxVar)

theorem works_compileGate (wellFormed : c.WellFormed) (circuit : s.circuit = c)
    (valid : s.diagram.Valid) (scheduled : Scheduled c uses target (gate, id))
    (serves : Serves c uses target id state s.diagram) :
    Works Keeps (compileGate uses target state (gate, id)) s fun after t =>
      Serves c uses target (id + 1) after t.diagram := by
  obtain ⟨found, early, used⟩ := scheduled
  have isGate := Circuit.maxVar_le_of_gate? found
  have earlier := wellFormed.inputs_lt id gate found
  have offers : ∀ l ∈ gate.inputs, Offers c state l := by
    intro l member reached
    have before := (earlier l member).2
    exact serves.available _ (by omega) (.inr (used l member reached))
  unfold compileGate
  refine works_get (works_get ?_)
  simp only [circuit]
  refine Works.bind frame_keeps (works_onDiagram
    (builds_readInputs valid serves.right earlier offers)).keeps ?_
  rintro functions t kept ⟨grows, denote⟩
  have arity := wellFormed.one_input id gate found
  refine Works.bind frame_keeps (works_onDiagram
    (builds_combineInputs kept.valid s.options.fold arity denote)).keeps ?_
  rintro f u keptLater ⟨growsLater, holds, value⟩
  rw [← Circuit.interpretation_gate wellFormed found] at value
  have stored := ((serves.grows valid grows).grows kept.valid growsLater).store holds value isGate early
  refine Works.bind frame_keeps (works_count keptLater.valid _).keeps ?_
  rintro _ v counted ⟨_, same⟩
  refine Works.bind frame_keeps (works_noteSize counted.valid).keeps ?_
  rintro _ w noted ⟨_, same'⟩
  rw [← same, ← same'] at stored
  split
  · exact works_serve_collectGarbage noted.valid (stored.thin
      (thins_releaseUnused isGate (fun l member => (earlier l member).2) early))
  · exact works_pure (.refl noted.valid) stored

/-- What each gate hands on to the next one, gate after gate hands on to the one behind all. -/
theorem works_gates {holds : Nat → Compilation → Diagram → Prop} {entries : List (Gate × Nat)}
    (valid : s.diagram.Valid)
    (numbered : entries.map (·.2) = List.range' next entries.length)
    (step : ∀ entry ∈ entries, ∀ t state, Keeps s t → holds entry.2 state t.diagram →
      Works Keeps (compileGate uses target state entry) t fun after u =>
        holds (entry.2 + 1) after u.diagram)
    (start : holds next state s.diagram) :
    Works Keeps (entries.foldlM (compileGate uses target) state) s fun after t =>
      holds (next + entries.length) after t.diagram := by
  induction entries generalizing s state next with
  | nil => exact works_pure (.refl valid) start
  | cons entry rest ih =>
    rw [List.length_cons, List.range'_succ, List.map_cons, List.cons.injEq] at numbered
    obtain ⟨rfl, numberedRest⟩ := numbered
    rw [List.foldlM_cons]
    refine Works.bind frame_keeps (step entry (by simp) s state (.refl valid) start) ?_
    intro after t kept held
    refine (ih kept.valid numberedRest (fun other member u middle later =>
      step other (by simp [member]) u middle (kept.trans later)) held).mono ?_
    intro last u _ done
    rwa [List.length_cons, Nat.add_comm rest.length, ← Nat.add_assoc]

theorem mem_gatesUpTo {literal : Literal} (member : (gate, id) ∈ gatesUpTo c literal) :
    c.gate? id = some gate ∧ id ≤ literal.natAbs := by
  obtain ⟨position, located⟩ := List.mem_iff_getElem?.mp member
  rw [gatesUpTo, List.getElem?_take] at located
  split at located
  · rename_i before
    rw [List.getElem?_zipIdx, Option.map_eq_some_iff] at located
    obtain ⟨other, found, same⟩ := located
    obtain ⟨rfl, rfl⟩ := Prod.mk.inj same
    refine ⟨Circuit.gate?_eq_some_iff.mpr ⟨Nat.le_add_right .., ?_⟩, by omega⟩
    rw [Nat.add_sub_cancel_left]
    simpa using found
  · simp at located

theorem gatesUpTo_numbered {literal : Literal} (below : literal.natAbs < c.maxGate) :
    (gatesUpTo c literal).length = literal.natAbs + 1 - c.maxVar ∧
      (gatesUpTo c literal).map (·.2) =
        List.range' c.maxVar (literal.natAbs + 1 - c.maxVar) := by
  have enough : literal.natAbs + 1 - c.maxVar ≤ c.gates.toList.length := by
    unfold Circuit.maxGate at below
    simp
    omega
  constructor
  · rw [gatesUpTo, List.length_take, List.length_zipIdx]
    exact Nat.min_eq_left enough
  · rw [gatesUpTo, List.map_take]
    have numbers := List.zipIdx_map_snd c.maxVar (l := c.gates.toList)
    rw [show (c.gates.toList.zipIdx c.maxVar).map (·.2) = _ from numbers,
      List.take_range'_of_length_ge enough]

theorem scheduled_gatesUpTo (wellFormed : c.WellFormed) {literal : Literal}
    (below : literal.natAbs < c.maxGate) : ∀ entry ∈ gatesUpTo c literal,
      Scheduled c (lastUses c.maxVar (gatesUpTo c literal)) literal.natAbs entry := by
  obtain ⟨length, numbered⟩ := gatesUpTo_numbered below
  rintro ⟨gate, id⟩ member
  obtain ⟨found, early⟩ := mem_gatesUpTo member
  refine ⟨found, early, fun l read isGate => ?_⟩
  have before := (wellFormed.inputs_lt id gate found l read).2
  have increasing : (gatesUpTo c literal).Pairwise fun first second => first.2 ≤ second.2 := by
    rw [← List.pairwise_map (R := (· ≤ ·)), numbered]
    exact List.pairwise_le_range'
  exact usedFrom_lastUses increasing member read isGate (by omega)

theorem serves_none (uses : Array (Option Nat)) (target collectAbove : Nat) (d : Diagram) :
    Serves c uses target c.maxVar
      { functions := Array.replicate (target + 1 - c.maxVar) none, collectAbove } d where
  right position f found := by simp [Array.getElem?_replicate] at found
  size_eq := by simp
  available position before := by omega

theorem works_compileLiteral (wellFormed : c.WellFormed) (circuit : s.circuit = c)
    (valid : s.diagram.Valid) {literal : Literal} (defined : c.Defines literal) :
    Works Keeps (compileLiteral literal) s fun f t => t.diagram.Holds f ∧
      ∀ σ, t.diagram.value σ f = c.meaning literal σ := by
  obtain ⟨length, numbered⟩ := gatesUpTo_numbered defined.2
  have scheduled := scheduled_gatesUpTo wellFormed defined.2
  unfold compileLiteral
  refine works_get (works_get ?_)
  simp only [circuit]
  rw [length]
  refine Works.bind frame_keeps (works_gates valid (by rw [numbered, length])
    (fun entry member t state kept serves => works_compileGate wellFormed
      (kept.circuit_eq.trans circuit) kept.valid (scheduled entry member) serves)
    (serves_none _ _ _ s.diagram)) ?_
  intro state t kept served
  refine (works_onDiagram (builds_read kept.valid served.right defined.1 fun isGate => ?_)).keeps.mono
    fun f u _ ⟨_, reached⟩ => reached
  exact served.available _ (by omega) (.inl (Nat.add_sub_cancel' isGate))

end QuantCircuit.Solver
