import QuantCircuit.Edit.Walk
import QuantCircuit.Proofs.Circuit.Flattening
import QuantCircuit.Proofs.Edit.Walking

/-! Merging by recursion. A gate that is done while it is not on the path to the present one has
been merged, so in the end the same gates are merged as by the sweep, and into the same ones. -/

namespace QuantCircuit.Circuit

variable {c m t : Circuit} {gate : Gate} {id : Nat} {flat other : Nat → Prop}
variable {out : Literal} {path : List Nat} {done : Array Bool}

/-- A gate with merged inputs, unless it is a quantifier gate. -/
def unnestedGate (c : Circuit) (gate : Gate) : Gate :=
  if gate.connective.isQuantifier then gate else c.mergedGate gate

def unnest (c : Circuit) (id : Nat) (gate : Gate) : Circuit :=
  if gate.connective.isQuantifier then c else c.withGate (id - c.maxVar) (c.mergedGate gate)

theorem unnestedGate_congr (same : ∀ l ∈ gate.inputs, m.gate? l.natAbs = t.gate? l.natAbs) :
    m.unnestedGate gate = t.unnestedGate gate := by
  have inputs : gate.inputs.flatMap (m.mergedInput gate.connective) =
      gate.inputs.flatMap (t.mergedInput gate.connective) := by
    refine List.flatMap_congr fun l member => ?_
    rw [mergedInput, mergedInput, same l member]
  unfold unnestedGate mergedGate
  rw [inputs]

theorem gate?_unnest (found : c.gate? id = some gate) (other : Nat) :
    (c.unnest id gate).gate? other =
      if other = id then some (c.unnestedGate gate) else c.gate? other := by
  have place : id = c.maxVar + (id - c.maxVar) := by
    have lower := maxVar_le_of_gate? found
    omega
  unfold unnest unnestedGate
  split
  · split
    · rename_i same
      rw [same, found]
    · rfl
  · rw [gate?_withGate (lt_size_of_gate? (place ▸ found)), ← place]

theorem unnest_rest (c : Circuit) (id : Nat) (gate : Gate) :
    c.unnest id gate = { c with gates := (c.unnest id gate).gates } ∧
      (c.unnest id gate).gates.size = c.gates.size := by
  unfold unnest
  split
  · exact ⟨rfl, rfl⟩
  · exact ⟨rfl, by simp [withGate]⟩

/-- Some gates have merged inputs, and with them all gates that they read. -/
structure Unnested (c m : Circuit) (flat : Nat → Prop) : Prop where
  rest_eq : m = { c with gates := m.gates }
  size_eq : m.gates.size = c.gates.size
  closed : ∀ id gate, c.gate? id = some gate → flat id →
    ∀ l ∈ gate.inputs, c.maxVar ≤ l.natAbs → flat l.natAbs
  merged : ∀ id, c.maxVar ≤ id → flat id → m.gate? id = (c.gate? id).map m.unnestedGate
  others : ∀ id, c.maxVar ≤ id → ¬ flat id → m.gate? id = c.gate? id

namespace Unnested

theorem start (c : Circuit) : Unnested c c fun _ => False :=
  ⟨rfl, rfl, fun _ _ _ flat => flat.elim, fun _ _ flat => flat.elim, fun _ _ _ => rfl⟩

theorem congr (unnested : Unnested c m flat) (same : ∀ id, c.maxVar ≤ id → (flat id ↔ other id)) :
    Unnested c m other where
  rest_eq := unnested.rest_eq
  size_eq := unnested.size_eq
  closed := by
    intro id gate found flat l member isGate
    refine (same _ isGate).mp (unnested.closed id gate found ?_ l member isGate)
    exact (same id (maxVar_le_of_gate? found)).mpr flat
  merged := fun id isGate flat => unnested.merged id isGate ((same id isGate).mpr flat)
  others := fun id isGate fresh => unnested.others id isGate fun flat =>
    fresh ((same id isGate).mp flat)

theorem maxVar_eq (unnested : Unnested c m flat) : m.maxVar = c.maxVar := by
  rw [unnested.rest_eq]

theorem gate?_eq_none (unnested : Unnested c m flat) (isVariable : id < c.maxVar) :
    m.gate? id = none :=
  gate?_eq_none_of_lt (unnested.maxVar_eq ▸ isVariable)

/-- A gate gets merged inputs once those it reads have them. -/
theorem unnest (unnested : Unnested c m flat) (layered : c.Layered)
    (found : c.gate? id = some gate) (fresh : ¬ flat id)
    (below : ∀ l ∈ gate.inputs, c.maxVar ≤ l.natAbs → flat l.natAbs) :
    Unnested c (m.unnest id gate) fun other => flat other ∨ other = id := by
  have isGate := maxVar_le_of_gate? found
  have here : m.gate? id = some gate := (unnested.others id isGate fresh).trans found
  obtain ⟨rest, size⟩ := m.unnest_rest id gate
  -- no gate that is merged by now reads this one
  have kept {other : Nat} {reader : Gate} (located : c.gate? other = some reader)
      (reads : flat other ∨ other = id) :
      (m.unnest id gate).unnestedGate reader = m.unnestedGate reader := by
    refine unnestedGate_congr fun l member => ?_
    rw [gate?_unnest here, if_neg]
    intro same
    rcases reads with before | rfl
    · exact fresh (same ▸ unnested.closed other reader located before l member (same ▸ isGate))
    · exact Nat.lt_irrefl _ (same ▸ (layered _ _ located l member).2)
  refine ⟨?_, size.trans unnested.size_eq, ?_, ?_, ?_⟩
  · rw [rest, unnested.rest_eq]
  · rintro other reader located (before | rfl) l member input
    · exact .inl (unnested.closed other reader located before l member input)
    · obtain rfl := Option.some.inj (found.symm.trans located)
      exact .inl (below l member input)
  · intro other lower reads
    rw [gate?_unnest here]
    split
    · rename_i same
      rw [same, found, Option.map_some, kept found (.inr rfl)]
    · rename_i different
      have before := reads.resolve_right different
      rw [unnested.merged other lower before]
      cases located : c.gate? other with
      | none => rfl
      | some reader => rw [Option.map_some, Option.map_some, kept located (.inl before)]
  · intro other lower unread
    obtain ⟨before, different⟩ := not_or.mp unread
    rw [gate?_unnest here, if_neg different]
    exact unnested.others other lower before

/-- Which gates have merged inputs determines the circuit. -/
theorem unique (first : Unnested c m flat) (second : Unnested c t flat) (layered : c.Layered) :
    m = t := by
  have gates (id : Nat) : m.gate? id = t.gate? id := by
    induction id using Nat.strongRecOn with
    | ind id ih =>
      by_cases isVariable : id < c.maxVar
      · rw [first.gate?_eq_none isVariable, second.gate?_eq_none isVariable]
      have lower := Nat.le_of_not_lt isVariable
      by_cases merged : flat id
      · rw [first.merged id lower merged, second.merged id lower merged]
        cases found : c.gate? id with
        | none => rfl
        | some gate =>
          refine congrArg some (unnestedGate_congr fun l member => ?_)
          exact ih l.natAbs (layered id gate found l member).2
      · rw [first.others id lower merged, second.others id lower merged]
  have same : m.gates = t.gates := by
    refine Array.ext_getElem? fun position => ?_
    have here := gates (c.maxVar + position)
    have isGate : ¬ c.maxVar + position < c.maxVar := Nat.not_lt_of_le (Nat.le_add_right ..)
    unfold gate? at here
    rwa [first.maxVar_eq, second.maxVar_eq, if_neg isGate, if_neg isGate,
      Nat.add_sub_cancel_left] at here
  rw [first.rest_eq, second.rest_eq, same]

end Unnested

/-! The sweep. -/

theorem flattenGate_eq_unnest {marked : Array Bool} {position : Nat}
    (found : c.gate? (c.maxVar + position) = some gate)
    (marks : marked[c.maxVar + position]? = some true) :
    flattenGate marked c position = c.unnest (c.maxVar + position) gate := by
  have located : c.gates[position]? = some gate := by
    simpa using (gate?_eq_some_iff.mp found).2
  unfold flattenGate unnest
  rw [marks, located, Nat.add_sub_cancel_left]

theorem flattenGate_of_unmarked {marked : Array Bool} {position : Nat}
    (unmarked : ¬ marked[c.maxVar + position]? = some true) :
    flattenGate marked c position = c := by
  unfold flattenGate
  split
  · contradiction
  · rfl

theorem unnested_sweep {marked : Array Bool} (layered : c.Layered)
    (closed : ∀ id gate, c.gate? id = some gate → marked[id]? = some true →
      ∀ l ∈ gate.inputs, marked[l.natAbs]? = some true)
    (count : Nat) (bounded : count ≤ c.gates.size) :
    Unnested c ((List.range count).foldl (flattenGate marked) c)
      fun id => marked[id]? = some true ∧ id < c.maxVar + count := by
  induction count with
  | zero =>
    refine (Unnested.start c).congr fun id isGate => ⟨False.elim, fun early => ?_⟩
    exact absurd early.2 (Nat.not_lt_of_le isGate)
  | succ count ih =>
    have before := ih (Nat.le_of_succ_le bounded)
    have split (id : Nat) : id < c.maxVar + (count + 1) ↔
        id < c.maxVar + count ∨ id = c.maxVar + count := by omega
    rw [List.range_succ, List.foldl_append, List.foldl_cons, List.foldl_nil]
    obtain ⟨gate, found⟩ := gate?_of_lt_maxGate (Nat.le_add_right c.maxVar count)
      (show c.maxVar + count < c.maxVar + c.gates.size by omega)
    have fresh : ¬ (marked[c.maxVar + count]? = some true ∧
        c.maxVar + count < c.maxVar + count) := fun early => Nat.lt_irrefl _ early.2
    have here := (before.others _ (Nat.le_add_right ..) fresh).trans found
    rw [← before.maxVar_eq] at here
    by_cases marks : marked[c.maxVar + count]? = some true
    · rw [flattenGate_eq_unnest here (before.maxVar_eq ▸ marks), before.maxVar_eq]
      refine (before.unnest layered found fresh fun l member _ => ?_).congr fun id _ => ?_
      · exact ⟨closed _ gate found marks l member, (layered _ gate found l member).2⟩
      · rw [split]
        constructor
        · rintro (⟨marks, early⟩ | rfl)
          · exact ⟨marks, .inl early⟩
          · exact ⟨marks, .inr rfl⟩
        · rintro ⟨marks, early | rfl⟩
          · exact .inl ⟨marks, early⟩
          · exact .inr rfl
    · rw [flattenGate_of_unmarked (before.maxVar_eq ▸ marks)]
      refine before.congr fun id _ => ?_
      rw [split]
      constructor
      · exact fun early => ⟨early.1, .inl early.2⟩
      · rintro ⟨marked, early | rfl⟩
        · exact ⟨marked, early⟩
        · contradiction

/-! The recursion. -/

/-- The gates that are done are connected to the output, and all of them that do not lie on the
path have merged inputs. -/
structure Descends (c : Circuit) (out : Literal) (path : List Nat) (done : Array Bool)
    (m : Circuit) : Prop where
  size : done.size = c.gates.size
  sound : ∀ id, c.maxVar ≤ id → done[id - c.maxVar]? = some true → c.Connected out id
  unnested : Unnested c m fun id => done[id - c.maxVar]? = some true ∧ id ∉ path

theorem descends_start (c : Circuit) (out : Literal) :
    Descends c out [] (Array.replicate c.gates.size false) c where
  size := Array.size_replicate
  sound := by
    intro id _ marks
    simp [Array.getElem?_replicate] at marks
  unnested := by
    refine (Unnested.start c).congr fun id _ => ⟨False.elim, fun marks => ?_⟩
    simp [Array.getElem?_replicate] at marks

namespace Descends

theorem enter (descends : Descends c out path done m) (found : c.gate? id = some gate)
    (fresh : done[id - c.maxVar]? = some false) (connected : c.Connected out id) :
    Descends c out (id :: path) (done.setIfInBounds (id - c.maxVar) true) m := by
  have isGate := maxVar_le_of_gate? found
  have elsewhere {other : Nat} (lower : c.maxVar ≤ other) (different : other ≠ id) :
      (done.setIfInBounds (id - c.maxVar) true)[other - c.maxVar]? = done[other - c.maxVar]? := by
    rw [Array.getElem?_setIfInBounds_ne (by omega)]
  refine ⟨by simpa using descends.size, fun other lower marks => ?_, ?_⟩
  · by_cases same : other = id
    · exact same ▸ connected
    · exact descends.sound other lower (elsewhere lower same ▸ marks)
  · refine descends.unnested.congr fun other lower => ?_
    by_cases same : other = id
    · subst same
      simp [fresh]
    · rw [elsewhere lower same, List.mem_cons, not_or]
      simp [same]

/-- Work at a gate ends, when all gates that it reads are done. -/
theorem leave (descends : Descends c out (id :: path) done m) (layered : c.Layered)
    (found : c.gate? id = some gate) (marks : done[id - c.maxVar]? = some true)
    (above : ∀ other ∈ path, id < other)
    (below : ∀ l ∈ gate.inputs, c.maxVar ≤ l.natAbs → done[l.natAbs - c.maxVar]? = some true) :
    Descends c out path done (m.unnest id gate) := by
  have absent : id ∉ path := fun member => Nat.lt_irrefl id (above id member)
  refine ⟨descends.size, descends.sound, ?_⟩
  refine (descends.unnested.unnest layered found (by simp) fun l member isGate => ?_).congr
    fun other _ => ?_
  · have earlier := (layered id gate found l member).2
    refine ⟨below l member isGate, fun listed => ?_⟩
    rcases List.mem_cons.mp listed with same | higher
    · omega
    · have later := above _ higher
      omega
  · by_cases same : other = id
    · subst same
      simp [marks, absent]
    · simp [same]

end Descends

/-- The work at the gates that an identifier is connected to ends with all of them done. -/
def Completes (c : Circuit) (out : Literal) (work : Array Bool → Nat → Edit (Array Bool))
    (id : Nat) : Prop :=
  ∀ path done m, Descends c out path done m → (∀ other ∈ path, id < other) →
    c.Connected out id → c.maxVar ≤ id → id < c.maxGate →
      ∃ later t, work done id m = (.ok later, t) ∧ Descends c out path later t ∧
        later[id - c.maxVar]? = some true ∧
        ∀ position : Nat, done[position]? = some true → later[position]? = some true

theorem enterInputs_eq {work : Array Bool → Nat → Edit (Array Bool)} {b : Circuit}
    (layered : c.Layered) (found : c.gate? id = some gate) (connected : c.Connected out id)
    (above : ∀ other ∈ path, id < other)
    (completes : ∀ l ∈ gate.inputs, Completes c out work l.natAbs)
    (gates : ∀ l : Literal, b.isGate l = c.isGate l) (arithmetic : Arithmetic)
    {inputs : List Literal} (subset : inputs ⊆ gate.inputs)
    (descends : Descends c out (id :: path) done m) :
    ∃ later t, inputs.foldlM (Edit.enterInput arithmetic b id work) done m = (.ok later, t) ∧
      Descends c out (id :: path) later t ∧
      (∀ l ∈ inputs, c.maxVar ≤ l.natAbs → later[l.natAbs - c.maxVar]? = some true) ∧
      ∀ position : Nat, done[position]? = some true → later[position]? = some true := by
  induction inputs generalizing done m with
  | nil => exact ⟨done, m, rfl, descends, by simp, fun _ marks => marks⟩
  | cons l rest ih =>
    obtain ⟨member, others⟩ := List.cons_subset.mp subset
    obtain ⟨nonzero, earlier⟩ := layered id gate found l member
    have inside := Nat.lt_trans earlier (lt_maxGate_of_gate? found)
    have first : ∃ later t,
        Edit.enterInput arithmetic b id work done l m = (.ok later, t) ∧
          Descends c out (id :: path) later t ∧
          (c.maxVar ≤ l.natAbs → later[l.natAbs - c.maxVar]? = some true) ∧
          ∀ position : Nat, done[position]? = some true → later[position]? = some true := by
      unfold Edit.enterInput
      rw [run_lift_of_ok (checkLiteral_eq_ok nonzero earlier), gates l]
      by_cases isVariable : l.natAbs < c.maxVar
      · have none : c.isGate l = false := by
          simp [isGate, Nat.not_le_of_lt isVariable]
        rw [none]
        exact ⟨done, m, rfl, descends, fun lower => absurd isVariable (Nat.not_lt_of_le lower),
          fun _ marks => marks⟩
      · have lower := Nat.le_of_not_lt isVariable
        have gate : c.isGate l = true := by simp [isGate, lower, inside]
        rw [gate]
        have higher : ∀ other ∈ id :: path, l.natAbs < other :=
          List.forall_mem_cons.mpr
            ⟨earlier, fun other listed => Nat.lt_trans earlier (above other listed)⟩
        obtain ⟨later, t, ran, state, marks, kept⟩ := completes l member (id :: path) done m
          descends higher (connected.input found member) lower inside
        exact ⟨later, t, ran, state, fun _ => marks, kept⟩
    obtain ⟨next, s, ran, state, marks, kept⟩ := first
    obtain ⟨later, t, again, last, all, keeps⟩ := ih others state
    refine ⟨later, t, ?_, last, ?_, fun position before => keeps position (kept position before)⟩
    · rw [List.foldlM_cons, run_bind_of_ok ran]
      exact again
    · exact List.forall_mem_cons.mpr ⟨fun lower => keeps _ (marks lower), all⟩

/-- The recursion is on the number of gates that may still lie on the path. -/
theorem completes_flattenBelow (layered : c.Layered) (out : Literal) (arithmetic : Arithmetic)
    (depth id : Nat) (deep : id < c.maxVar + depth) :
    Completes c out (Edit.flattenBelow arithmetic depth) id := by
  induction depth generalizing id with
  | zero =>
    intro path done m _ _ _ isGate _
    exact absurd deep (Nat.not_lt_of_le isGate)
  | succ depth ih =>
    intro path done m descends above connected isGate inside
    obtain ⟨gate, found⟩ := gate?_of_lt_maxGate isGate inside
    have maxVar := descends.unnested.maxVar_eq
    have maxGate : m.maxGate = c.maxGate := by
      rw [Circuit.maxGate, Circuit.maxGate, maxVar, descends.unnested.size_eq]
    have sized : id - c.maxVar < done.size := by
      have bound : id < c.maxVar + c.gates.size := inside
      rw [descends.size]
      omega
    have located := Array.getElem?_eq_getElem sized
    unfold Edit.flattenBelow
    rw [run_get, maxVar, located]
    cases mark : done[id - c.maxVar] with
    | true => exact ⟨done, m, rfl, descends, mark ▸ located, fun _ marks => marks⟩
    | false =>
      have fresh := mark ▸ located
      have here : m.gate? id = some gate :=
        (descends.unnested.others id isGate (by simp [fresh])).trans found
      have given : m.getGate (id : Int) = .ok gate :=
        getGate_eq (gateOf?_eq_some_iff.mpr ⟨Int.natCast_nonneg id, here⟩)
      have entered := descends.enter found fresh connected
      have gates (l : Literal) : m.isGate l = c.isGate l := by
        rw [Circuit.isGate, Circuit.isGate, maxVar, maxGate]
      have completes (l : Literal) (member : l ∈ gate.inputs) :
          Completes c out (Edit.flattenBelow arithmetic depth) l.natAbs := by
        have earlier := (layered id gate found l member).2
        exact ih l.natAbs (by omega)
      obtain ⟨later, t, ran, left, all, kept⟩ := enterInputs_eq layered found
        connected above completes gates arithmetic (List.Subset.refl _) entered
      have marks := kept (id - c.maxVar) (by simp [sized])
      refine ⟨later, t.unnest id gate, ?_, left.leave layered found marks above all, marks,
        fun position before => kept position ?_⟩
      · dsimp only
        rw [run_lift_of_ok given, run_bind_of_ok ran]
        unfold Circuit.unnest
        cases gate.connective.isQuantifier <;> rfl
      · rw [Array.getElem?_setIfInBounds]
        split <;> simp_all

/-- When the path is empty again, the gates that are done are those connected to the output. -/
theorem Descends.unnested_connected (descends : Descends c out [] done m)
    (marks : c.maxVar ≤ out.natAbs → done[out.natAbs - c.maxVar]? = some true) :
    Unnested c m (c.Connected out) := by
  refine descends.unnested.congr fun id isGate =>
    ⟨fun flat => descends.sound id isGate flat.1, fun connected => ?_⟩
  induction connected with
  | self => exact ⟨marks isGate, List.not_mem_nil⟩
  | input _ found member ih =>
    exact descends.unnested.closed _ _ found (ih (maxVar_le_of_gate? found)) _ member isGate

/-- Merging by recursion does what the sweep does. -/
theorem run_flatten (layered : c.Layered) (output : c.output? = some out)
    (defined : c.Defines out) (arithmetic : Arithmetic) : Edit.flatten arithmetic c =
      (.ok (), (List.range c.gates.size).foldl (flattenGate (c.cone out)) c) := by
  obtain ⟨_, _, closed⟩ := cone_spec layered defined
  have swept : Unnested c ((List.range c.gates.size).foldl (flattenGate (c.cone out)) c)
      (c.Connected out) := by
    refine (unnested_sweep layered closed c.gates.size (Nat.le_refl _)).congr fun id _ => ?_
    rw [getElem?_cone layered defined]
    exact ⟨And.left, fun connected => ⟨connected, (connected.defined layered defined).2⟩⟩
  have start := descends_start c out
  unfold Edit.flatten
  rw [run_get, run_lift_of_ok (definedOutput_eq output defined)]
  by_cases isVariable : out.natAbs < c.maxVar
  · have none : c.isGate out = false := by simp [isGate, Nat.not_le_of_lt isVariable]
    have same := (start.unnested_connected fun lower =>
      absurd isVariable (Nat.not_lt_of_le lower)).unique swept layered
    rw [none, ← same]
    rfl
  · have lower := Nat.le_of_not_lt isVariable
    have gate : c.isGate out = true := by simp [isGate, lower, defined.2]
    have bound : out.natAbs < c.maxVar + c.gates.size := defined.2
    obtain ⟨done, t, ran, descends, marks, _⟩ :=
      completes_flattenBelow layered out arithmetic (c.gates.size + 1) out.natAbs
        (by omega) [] _ c start (by simp) .self lower defined.2
    have same := (descends.unnested_connected fun _ => marks).unique swept layered
    rw [gate, ← same]
    exact run_discard_of_ok ran

end QuantCircuit.Circuit
