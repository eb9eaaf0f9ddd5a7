import QuantCircuit.Circuit.Reduce
import QuantCircuit.Proofs.Circuit.Evaluation
import QuantCircuit.Proofs.Circuit.Transport

/-! Merging nested conjunctions and disjunctions. A gate with merged inputs is settled by the
same assignments, so every identifier keeps its meaning. -/

namespace QuantCircuit.Circuit

variable {c m t : Circuit} {gate child : Gate} {q : Quantifier} {position : Nat}
variable {l out : Literal} {marked : Array Bool}

/-- What replaces an input settles a gate iff the input does. -/
theorem settles_mergedInput (valid : c.WellFormed) (l : Literal) (σ : Assignment) :
    (∃ r ∈ c.mergedInput q.distributesOver l, c.meaning r σ = q.decisive) ↔
      c.meaning l σ = q.decisive := by
  unfold mergedInput
  cases found : c.gate? l.natAbs with
  | none => simp
  | some child =>
    have denotes := congrFun (interpretation_gate valid found) σ
    dsimp only
    split
    · rename_i same
      have positive : ¬ l < 0 := Int.not_lt.mpr (Int.le_of_lt same.1)
      rw [meaning, Interpretation.literal, denotes]
      simp only [positive, decide_false, Bool.xor_false]
      exact (Gate.meaning_eq_decisive c.interpretation same.2 σ).symm
    · split
      · rename_i dual
        have kind : child.connective = q.dual.distributesOver := by
          rw [dual.2]
          cases q <;> rfl
        have settled := Gate.meaning_eq_decisive c.interpretation kind σ
        have negated (r : Literal) (member : r ∈ child.inputs) :
            c.meaning (-r) σ = q.decisive ↔ c.interpretation.literal r σ = q.dual.decisive := by
          rw [meaning_neg c (valid.inputs_lt _ child found r member).1, Quantifier.decisive_dual]
          exact Bool.not_eq_eq_eq_not
        rw [meaning, Interpretation.literal, denotes]
        simp only [dual.1, decide_true, Bool.xor_true]
        rw [Bool.not_eq_eq_eq_not, ← Quantifier.decisive_dual, settled]
        constructor
        · intro settled
          obtain ⟨_, member, reached⟩ := settled
          obtain ⟨r, listed, rfl⟩ := List.mem_map.mp member
          exact ⟨r, listed, (negated r listed).mp reached⟩
        · intro settled
          obtain ⟨r, listed, reached⟩ := settled
          exact ⟨-r, List.mem_map.mpr ⟨r, listed, rfl⟩, (negated r listed).mpr reached⟩
      · simp

theorem mergedInput_lt (valid : c.WellFormed) (nonzero : l ≠ 0) (connective : Connective) :
    ∀ r ∈ c.mergedInput connective l, r ≠ 0 ∧ r.natAbs ≤ l.natAbs := by
  have itself : ∀ r ∈ [l], r ≠ 0 ∧ r.natAbs ≤ l.natAbs := by
    intro r member
    obtain rfl := List.mem_singleton.mp member
    exact ⟨nonzero, Nat.le_refl _⟩
  unfold mergedInput
  cases found : c.gate? l.natAbs with
  | none => exact itself
  | some child =>
    have inputs := valid.inputs_lt _ child found
    dsimp only
    split
    · exact fun r member => ⟨(inputs r member).1, Nat.le_of_lt (inputs r member).2⟩
    · split
      · intro r member
        obtain ⟨s, listed, rfl⟩ := List.mem_map.mp member
        obtain ⟨nonzero, earlier⟩ := inputs s listed
        exact ⟨Int.neg_ne_zero.mpr nonzero, by rw [Int.natAbs_neg]; exact Nat.le_of_lt earlier⟩
      · exact itself

theorem meaning_mergedGate (valid : c.WellFormed)
    (plain : gate.connective.isQuantifier = false) :
    (c.mergedGate gate).meaning c.interpretation = gate.meaning c.interpretation := by
  obtain ⟨q, kind | kind⟩ := gate.connective.eq_distributesOver_or_gate
  · funext σ
    apply eq_of_eq_decisive
    have merged : (c.mergedGate gate).connective = q.distributesOver := kind
    rw [Gate.meaning_eq_decisive c.interpretation merged,
      Gate.meaning_eq_decisive c.interpretation kind]
    simp only [mergedGate, List.mem_flatMap, kind]
    constructor
    · intro ⟨r, ⟨l, member, listed⟩, settled⟩
      exact ⟨l, member, (settles_mergedInput valid l σ).mp ⟨r, listed, settled⟩⟩
    · intro ⟨l, member, settled⟩
      obtain ⟨r, listed, reached⟩ := (settles_mergedInput valid l σ).mpr settled
      exact ⟨r, ⟨l, member, listed⟩, reached⟩
  · simp [kind] at plain

@[simp] theorem maxGate_withGate (c : Circuit) (position : Nat) (gate : Gate) :
    (c.withGate position gate).maxGate = c.maxGate := by
  simp [withGate, maxGate]

theorem gate?_withGate (inside : position < c.gates.size) (gate : Gate) (id : Nat) :
    (c.withGate position gate).gate? id =
      if id = c.maxVar + position then some gate else c.gate? id := by
  unfold gate? withGate
  by_cases below : id < c.maxVar
  · have different : id ≠ c.maxVar + position := by omega
    simp [below, different]
  · rw [if_neg below, if_neg below, Array.getElem?_setIfInBounds]
    by_cases here : id = c.maxVar + position
    · have same : position = id - c.maxVar := by omega
      rw [if_pos same, if_pos here, if_pos inside]
    · have different : position ≠ id - c.maxVar := by omega
      rw [if_neg different, if_neg here]

/-- A circuit with the same variables, blocks, output and names, and with other gates that
mean the same. -/
structure Rewrites (c m : Circuit) : Prop where
  valid : m.WellFormed
  maxVar_eq : m.maxVar = c.maxVar
  blocks_eq : m.blocks = c.blocks
  output_eq : m.output? = c.output?
  names_eq : m.names = c.names
  origin_eq : m.origin = c.origin
  maxGate_eq : m.maxGate = c.maxGate
  interpretation_eq : ∀ id, id < c.maxGate → m.interpretation id = c.interpretation id

theorem Rewrites.refl (valid : c.WellFormed) : Rewrites c c :=
  ⟨valid, rfl, rfl, rfl, rfl, rfl, rfl, fun _ _ => rfl⟩

theorem Rewrites.trans (first : Rewrites c m) (second : Rewrites m t) : Rewrites c t where
  valid := second.valid
  maxVar_eq := second.maxVar_eq.trans first.maxVar_eq
  blocks_eq := second.blocks_eq.trans first.blocks_eq
  output_eq := second.output_eq.trans first.output_eq
  names_eq := second.names_eq.trans first.names_eq
  origin_eq := second.origin_eq.trans first.origin_eq
  maxGate_eq := second.maxGate_eq.trans first.maxGate_eq
  interpretation_eq := fun id below =>
    (second.interpretation_eq id (first.maxGate_eq ▸ below)).trans (first.interpretation_eq id below)

theorem gate?_of_withGate {better other : Gate} {id : Nat}
    (found : c.gate? (c.maxVar + position) = some gate)
    (located : (c.withGate position better).gate? id = some other) :
    id = c.maxVar + position ∧ other = better ∨
      id ≠ c.maxVar + position ∧ c.gate? id = some other := by
  rw [gate?_withGate (lt_size_of_gate? found)] at located
  split at located
  · rename_i here
    exact .inl ⟨here, (Option.some.inj located).symm⟩
  · rename_i elsewhere
    exact .inr ⟨elsewhere, located⟩

/-- A gate may be replaced by one that binds the same and reads earlier identifiers. -/
theorem WellFormed.withGate (valid : c.WellFormed)
    (found : c.gate? (c.maxVar + position) = some gate) {better : Gate}
    (inputs : ∀ l ∈ better.inputs, l ≠ 0 ∧ l.natAbs < c.maxVar + position)
    (bound : better.bound = gate.bound)
    (arity : better.connective.isQuantifier → better.inputs.length = 1) :
    (c.withGate position better).WellFormed where
  maxVar_pos := valid.maxVar_pos
  inputs_lt := by
    intro id other located
    rcases gate?_of_withGate found located with ⟨rfl, rfl⟩ | ⟨_, before⟩
    · exact inputs
    · exact valid.inputs_lt id other before
  bound_lt := by
    intro id other located
    rcases gate?_of_withGate found located with ⟨rfl, rfl⟩ | ⟨_, before⟩
    · rw [bound]
      exact valid.bound_lt _ gate found
    · exact valid.bound_lt id other before
  one_input := by
    intro id other located
    rcases gate?_of_withGate found located with ⟨rfl, rfl⟩ | ⟨_, before⟩
    · exact arity
    · exact valid.one_input id other before
  output_lt := by
    intro l output
    rw [maxGate_withGate]
    exact valid.output_lt l output
  block_nonempty := valid.block_nonempty
  block_lt := valid.block_lt
  block_nodup := valid.block_nodup
  origin_size := by
    rw [maxGate_withGate]
    exact valid.origin_size
  origin_lt := valid.origin_lt
  origin_nodup := valid.origin_nodup

theorem rewrites_withGate (valid : c.WellFormed) (found : c.gate? (c.maxVar + position) = some gate)
    {better : Gate} (inputs : ∀ l ∈ better.inputs, l ≠ 0 ∧ l.natAbs < c.maxVar + position)
    (bound : better.bound = gate.bound)
    (arity : better.connective.isQuantifier → better.inputs.length = 1)
    (same : better.meaning c.interpretation = gate.meaning c.interpretation) :
    Rewrites c (c.withGate position better) := by
  have validNew := valid.withGate found inputs bound arity
  refine ⟨validNew, rfl, rfl, rfl, rfl, rfl, maxGate_withGate .., fun id below => ?_⟩
  -- what the old gates denote solves the equations of the new ones
  refine (@interpretation_unique (c.withGate position better) validNew c.interpretation _ ?_ ?_ id
    below).symm
  · intro id missing _
    have absent : c.gate? id = none := by
      rw [gate?_withGate (lt_size_of_gate? found)] at missing
      split at missing
      · exact absurd missing (by simp)
      · exact missing
    rw [interpretation_variable absent, interpretation_variable missing]
  · intro id other located _
    rcases gate?_of_withGate found located with ⟨rfl, rfl⟩ | ⟨_, before⟩
    · rw [interpretation_gate valid found, same]
    · exact interpretation_gate valid before

theorem flattenGate_eq (marked : Array Bool) (c : Circuit) (position : Nat) :
    flattenGate marked c position = c ∨ ∃ gate, c.gates[position]? = some gate ∧
      gate.connective.isQuantifier = false ∧
        flattenGate marked c position = c.withGate position (c.mergedGate gate) := by
  unfold flattenGate
  split
  · rename_i gate _ located
    split
    · exact .inl rfl
    · rename_i plain
      exact .inr ⟨gate, located, by simpa using plain, rfl⟩
  · exact .inl rfl

theorem rewrites_flattenGate (valid : c.WellFormed) (marked : Array Bool) (position : Nat) :
    Rewrites c (flattenGate marked c position) := by
  rcases flattenGate_eq marked c position with same | ⟨gate, located, plain, changed⟩
  · rw [same]
    exact .refl valid
  · have found : c.gate? (c.maxVar + position) = some gate := gate?_of_located located
    have inputs : ∀ r ∈ (c.mergedGate gate).inputs, r ≠ 0 ∧ r.natAbs < c.maxVar + position := by
      intro r member
      obtain ⟨l, listed, merged⟩ := List.mem_flatMap.mp member
      obtain ⟨nonzero, earlier⟩ := valid.inputs_lt _ gate found l listed
      obtain ⟨defined, behind⟩ := mergedInput_lt valid nonzero _ r merged
      exact ⟨defined, Nat.lt_of_le_of_lt behind earlier⟩
    have arity (kind : (c.mergedGate gate).connective.isQuantifier = true) :
        (c.mergedGate gate).inputs.length = 1 := by
      have quantifies : gate.connective.isQuantifier = true := kind
      simp [plain] at quantifies
    rw [changed]
    exact rewrites_withGate valid found inputs rfl arity (meaning_mergedGate valid plain)

theorem rewrites_flattenGates (marked : Array Bool) (positions : List Nat)
    (valid : c.WellFormed) : Rewrites c (positions.foldl (flattenGate marked) c) := by
  induction positions generalizing c with
  | nil => exact .refl valid
  | cons position rest ih =>
    have first := rewrites_flattenGate valid marked position
    exact first.trans (ih first.valid)

/-- Only the inputs of gates differ. -/
structure Remakes (c m : Circuit) : Prop where
  rest_eq : m = { c with gates := m.gates }
  size_eq : m.gates.size = c.gates.size
  gate? : ∀ id gate, c.gate? id = some gate → ∃ made, m.gate? id = some made ∧
    made.connective = gate.connective ∧ made.bound = gate.bound

theorem Remakes.refl (c : Circuit) : Remakes c c :=
  ⟨rfl, rfl, fun _ gate found => ⟨gate, found, rfl, rfl⟩⟩

theorem Remakes.trans (first : Remakes c m) (second : Remakes m t) : Remakes c t where
  rest_eq := by
    rw [second.rest_eq, first.rest_eq]
  size_eq := second.size_eq.trans first.size_eq
  gate? := by
    intro id gate found
    obtain ⟨made, located, connective, bound⟩ := first.gate? id gate found
    obtain ⟨last, foundLast, connectiveLast, boundLast⟩ := second.gate? id made located
    exact ⟨last, foundLast, connectiveLast.trans connective, boundLast.trans bound⟩

theorem remakes_flattenGate (marked : Array Bool) (c : Circuit) (position : Nat) :
    Remakes c (flattenGate marked c position) := by
  rcases flattenGate_eq marked c position with same | ⟨gate, located, _, changed⟩
  · rw [same]
    exact .refl c
  · have inside : position < c.gates.size := (Array.getElem?_eq_some_iff.mp located).1
    rw [changed]
    refine ⟨rfl, by simp [withGate], fun id other found => ?_⟩
    rw [gate?_withGate inside]
    split
    · rename_i here
      have own : c.gate? (c.maxVar + position) = some gate := gate?_of_located located
      obtain rfl : gate = other := Option.some.inj (own.symm.trans (here ▸ found))
      exact ⟨_, rfl, rfl, rfl⟩
    · exact ⟨other, found, rfl, rfl⟩

theorem remakes_flattenGates (marked : Array Bool) (positions : List Nat) (c : Circuit) :
    Remakes c (positions.foldl (flattenGate marked) c) := by
  induction positions generalizing c with
  | nil => exact .refl c
  | cons position rest ih => exact (remakes_flattenGate marked c position).trans (ih _)

theorem flatten_eq (output : c.output? = some out) :
    c.flatten = .ok ((List.range c.gates.size).foldl (flattenGate (c.cone out)) c) := by
  rw [flatten, Circuit.output, output]
  rfl

theorem Rewrites.transports (rewrites : Rewrites c m) (valid : c.WellFormed)
    (output : c.output? = some out) : Transports c out m out id := by
  have defined := valid.output_lt out output
  have meaning : m.meaning out = c.meaning out :=
    Interpretation.literal_congr (rewrites.interpretation_eq _ defined.2)
  apply transports_of_close_eq rewrites.valid valid defined (rewrites.output_eq.trans output)
    rewrites.maxVar_eq
  · intro v _
    rw [nameOf, nameOf, rewrites.names_eq, rewrites.origin_eq]
  · intro choices
    rw [meaning, rewrites.blocks_eq]

theorem transports_flatten (valid : c.WellFormed) (output : c.output? = some out) :
    ∃ m, c.flatten = .ok m ∧ Transports c out m out id :=
  ⟨_, flatten_eq output, (rewrites_flattenGates (c.cone out) _ valid).transports valid output⟩

/-- Whichever identifier is taken for the output, evaluation returns the same. -/
theorem Rewrites.evaluate_eq (rewrites : Rewrites c m) (valid : c.WellFormed) (defined : c.Defines l)
    (entries : List Bool) : { m with output? := some l : Circuit }.evaluate entries =
      { c with output? := some l : Circuit }.evaluate entries := by
  have definedLater : m.Defines l := ⟨defined.1, rewrites.maxGate_eq ▸ defined.2⟩
  have meaning : m.meaning l = c.meaning l :=
    Interpretation.literal_congr (rewrites.interpretation_eq _ defined.2)
  rw [computes_meaning (rewrites.valid.withOutput definedLater) rfl entries,
    computes_meaning (valid.withOutput defined) rfl entries]
  exact congrArg (fun f => Except.ok (f (Assignment.ofEntries entries))) meaning

/-- Flattening changes the inputs of gates only. Every identifier, whether the output depends
on it or not, denotes the function that it denoted before, and evaluates as before; gates keep
their connectives and bound variables, and read earlier identifiers. -/
theorem flatten_preserves (valid : c.WellFormed) (output : c.output? = some out) :
    ∃ m, c.flatten = .ok m ∧ m = { c with gates := m.gates } ∧ m.gates.size = c.gates.size ∧
      (∀ id, id < c.maxGate → m.interpretation id = c.interpretation id) ∧
      (∀ l, c.Defines l → ∀ entries, { m with output? := some l : Circuit }.evaluate entries =
        { c with output? := some l : Circuit }.evaluate entries) ∧
      ∀ id gate, c.gate? id = some gate → ∃ made, m.gate? id = some made ∧
        made.connective = gate.connective ∧ made.bound = gate.bound ∧
        ∀ l ∈ made.inputs, l ≠ 0 ∧ l.natAbs < id := by
  have rewrites := rewrites_flattenGates (c.cone out) (List.range c.gates.size) valid
  have remakes := remakes_flattenGates (c.cone out) (List.range c.gates.size) c
  refine ⟨_, flatten_eq output, remakes.rest_eq, remakes.size_eq, rewrites.interpretation_eq,
    fun l defined => rewrites.evaluate_eq valid defined, fun id gate found => ?_⟩
  obtain ⟨made, located, connective, bound⟩ := remakes.gate? id gate found
  exact ⟨made, located, connective, bound, rewrites.valid.inputs_lt id made located⟩

/-- Gates that are shared, negated and constant, under a quantifier gate and above one, and one
that the output does not depend on. -/
def nested : Circuit where
  name := "nested"
  maxVar := 4
  blocks := [⟨.all, [1, 2]⟩]
  gates := #[{ connective := .and, inputs := [1, 2] }, { connective := .or, inputs := [-4, 3] },
    { connective := .or, inputs := [] }, { connective := .or, inputs := [5, 6, -4] },
    .quantify .ex [3] 7, { connective := .and, inputs := [-7, 8, 4] },
    { connective := .and, inputs := [4, 9] }]
  output? := some (-9)
  names := #["", "1", "2", "3", "4", "5", "6", "7", "8", "9", "10"]
  origin := #[0, 1, 2, 3, 4, 5, 6, 7, 8, 9, 10]

theorem nested_flatten_preserves :
    ∃ m, nested.flatten = .ok m ∧ m.output? = some (-9) ∧ m.gates.size = 7 ∧
      m.interpretation 10 = nested.interpretation 10 ∧
      ∃ made, m.gate? 9 = some made ∧ made.connective = .and ∧
        ∀ l ∈ made.inputs, l ≠ 0 ∧ l.natAbs < 9 := by
  obtain ⟨m, computed, rest, size, same, _, gates⟩ :=
    flatten_preserves (by decide : nested.WellFormed) rfl
  obtain ⟨made, located, connective, _, earlier⟩ := gates 9 _ rfl
  exact ⟨m, computed, by rw [rest]; rfl, size, same 10 (by decide), made, located, connective,
    earlier⟩

end QuantCircuit.Circuit
