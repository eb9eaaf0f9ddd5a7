import QuantCircuit.Proofs.Circuit.Interpretation

namespace QuantCircuit.Circuit

variable {c more other : Circuit} {gate : Gate} {id : Nat} {l : Literal}

variable {arithmetic : Arithmetic}

theorem forM_checkLiteral {literals : List Literal} {max : Nat}
    (inside : ∀ l ∈ literals, l ≠ 0 ∧ l.natAbs < max) :
    literals.forM (checkLiteral · max arithmetic) = .ok () := by
  induction literals with
  | nil => rfl
  | cons l rest ih =>
    obtain ⟨nonzero, below⟩ := inside l (by simp)
    show (do checkLiteral l max arithmetic; rest.forM (checkLiteral · max arithmetic)) = .ok ()
    rw [checkLiteral_eq_ok nonzero below]
    exact ih fun other member => inside other (by simp [member])

theorem setOutput_eq (some_ : c.gates.isEmpty = false) (defined : c.Defines l) :
    c.setOutput l = .ok { c with output? := some l } := by
  unfold setOutput
  rw [some_, checkLiteral_eq_ok defined.1 defined.2]
  rfl

/-- What a new gate has to satisfy. Bound literals are positive. -/
structure Accepts (c : Circuit) (gate : Gate) : Prop where
  inputs : ∀ l ∈ gate.inputs, c.Defines l
  bound : ∀ v ∈ gate.bound, 0 < v ∧ v.natAbs < c.maxVar
  arity : gate.connective.isQuantifier → gate.inputs.length = 1

theorem Accepts.check (accepts : c.Accepts gate) :
    gate.check c.maxVar c.maxGate arithmetic = .ok () := by
  have bound : gate.bound.forM (checkLiteral · c.maxVar arithmetic) = .ok () := by
    refine forM_checkLiteral fun v member => ?_
    obtain ⟨positive, below⟩ := accepts.bound v member
    exact ⟨Int.ne_of_gt positive, below⟩
  have arity : ¬ (gate.connective.isQuantifier ∧ gate.inputs.length ≠ 1) :=
    fun wrong => wrong.2 (accepts.arity wrong.1)
  unfold Gate.check
  rw [forM_checkLiteral accepts.inputs, bound, if_neg arity]
  rfl

/-- The circuit with one more gate and a name for it. -/
def append (c : Circuit) (gate : Gate) (name : String) : Circuit :=
  { c with
    gates := c.gates.push gate
    names := c.names.push name
    origin := c.origin.push c.names.size }

@[simp] theorem maxGate_append (c : Circuit) (gate : Gate) (name : String) :
    (c.append gate name).maxGate = c.maxGate + 1 := by
  simp [append, maxGate, Nat.add_assoc]

theorem addGate_eq (accepts : c.Accepts gate) :
    c.addGate gate = .ok (c.maxGate, c.append gate c.freshName) := by
  unfold addGate addNamedGate
  rw [accepts.check]
  rfl

theorem gate?_append (c : Circuit) (gate : Gate) (name : String) (id : Nat) :
    (c.append gate name).gate? id = if id = c.maxGate then some gate else c.gate? id := by
  unfold gate? append maxGate
  by_cases below : id < c.maxVar
  · have different : id ≠ c.maxVar + c.gates.size := by omega
    simp [below, different]
  · rw [if_neg below, if_neg below, Array.getElem?_push]
    by_cases last : id = c.maxVar + c.gates.size
    · have position : id - c.maxVar = c.gates.size := by omega
      rw [if_pos position, if_pos last]
    · have position : id - c.maxVar ≠ c.gates.size := by omega
      rw [if_neg position, if_neg last]

theorem WellFormed.names_pos (valid : c.WellFormed) (defined : c.Defines l) :
    0 < c.names.size := by
  have size := valid.origin_size
  have inside := defined.2
  have nonzero : 0 < l.natAbs := Int.natAbs_pos.mpr defined.1
  have entries : 1 < c.origin.toList.length := by
    rw [Array.length_toList]
    omega
  obtain ⟨entry, member⟩ := List.exists_mem_of_length_pos (l := c.origin.toList.tail) (by simp; omega)
  exact Nat.lt_of_le_of_lt (Nat.zero_le entry) (valid.origin_lt entry member).2

theorem WellFormed.of_origin (valid : c.WellFormed) (positive : 0 < id) {entry : Nat}
    (located : c.origin[id]? = some entry) : 0 < entry ∧ entry < c.names.size := by
  refine valid.origin_lt entry (List.mem_iff_getElem?.mpr ⟨id - 1, ?_⟩)
  rw [List.getElem?_tail, show id - 1 + 1 = id by omega]
  simpa using located

theorem WellFormed.exists_origin (valid : c.WellFormed) (positive : 0 < id)
    (below : id < c.maxGate) : ∃ entry, c.origin[id]? = some entry ∧ entry < c.names.size := by
  have inside : id < c.origin.size := by rw [valid.origin_size]; exact below
  have located : c.origin[id]? = some c.origin[id] := by simp [inside]
  exact ⟨c.origin[id], located, (valid.of_origin positive located).2⟩

theorem tail_origin_push (valid : c.WellFormed) (entry : Nat) :
    (c.origin.push entry).toList.tail = c.origin.toList.tail ++ [entry] := by
  have size := valid.origin_size
  have positive := valid.maxVar_pos
  have nonempty : c.origin.toList ≠ [] := by
    intro empty
    have none : c.origin.toList.length = 0 := by rw [empty]; rfl
    rw [Array.length_toList, size] at none
    unfold maxGate at none
    omega
  rw [Array.toList_push, List.tail_append_of_ne_nil nonempty]

theorem WellFormed.origin_pushed (valid : c.WellFormed) (named : 0 < c.names.size) :
    (∀ entry ∈ (c.origin.push c.names.size).toList.tail, 0 < entry ∧ entry < c.names.size + 1) ∧
      (c.origin.push c.names.size).toList.tail.Nodup := by
  rw [tail_origin_push valid]
  constructor
  · intro entry member
    rcases List.mem_append.mp member with before | last
    · have bounds := valid.origin_lt entry before
      omega
    · have same := List.mem_singleton.mp last
      omega
  · refine List.nodup_append.mpr ⟨valid.origin_nodup, by simp, ?_⟩
    intro entry before other last
    have bounds := valid.origin_lt entry before
    have same := List.mem_singleton.mp last
    omega

theorem WellFormed.append (valid : c.WellFormed) (named : 0 < c.names.size)
    (accepts : c.Accepts gate) (name : String) : (c.append gate name).WellFormed := by
  have looked {id : Nat} {found : Gate} (located : (c.append gate name).gate? id = some found) :
      id = c.maxGate ∧ found = gate ∨ c.gate? id = some found := by
    rw [gate?_append] at located
    split at located
    · exact .inl ⟨by assumption, (Option.some.inj located).symm⟩
    · exact .inr located
  exact {
    maxVar_pos := valid.maxVar_pos
    inputs_lt := by
      intro id found located
      rcases looked located with ⟨rfl, rfl⟩ | before
      · exact accepts.inputs
      · exact valid.inputs_lt id found before
    bound_lt := by
      intro id found located
      rcases looked located with ⟨rfl, rfl⟩ | before
      · exact accepts.bound
      · exact valid.bound_lt id found before
    one_input := by
      intro id found located
      rcases looked located with ⟨rfl, rfl⟩ | before
      · exact accepts.arity
      · exact valid.one_input id found before
    output_lt := by
      intro l output
      obtain ⟨nonzero, below⟩ := valid.output_lt l output
      exact ⟨nonzero, by rw [maxGate_append]; omega⟩
    block_nonempty := valid.block_nonempty
    block_lt := valid.block_lt
    block_nodup := valid.block_nodup
    origin_size := by
      rw [maxGate_append, ← valid.origin_size]
      simp [Circuit.append]
    origin_lt := by
      have size : (c.append gate name).names.size = c.names.size + 1 := by simp [Circuit.append]
      rw [size]
      exact (valid.origin_pushed named).1
    origin_nodup := (valid.origin_pushed named).2 }

/-- The second circuit has the gates of the first one and more behind them. -/
structure Continues (c more : Circuit) : Prop where
  maxVar_eq : more.maxVar = c.maxVar
  blocks_eq : more.blocks = c.blocks
  output_eq : more.output? = c.output?
  gate? : ∀ id gate, c.gate? id = some gate → more.gate? id = some gate
  nameOf_eq : ∀ id : Nat, 0 < id → id < c.maxGate → more.nameOf id = c.nameOf id

theorem Continues.refl (c : Circuit) : c.Continues c :=
  ⟨rfl, rfl, rfl, fun _ _ found => found, fun _ _ _ => rfl⟩

theorem Continues.maxGate_le (continues : c.Continues more) : c.maxGate ≤ more.maxGate := by
  refine Nat.le_of_not_lt fun shorter => ?_
  have below : c.maxVar ≤ more.maxGate := continues.maxVar_eq ▸ Nat.le_add_right ..
  obtain ⟨gate, found⟩ := gate?_of_lt_maxGate below shorter
  exact Nat.lt_irrefl _ (lt_maxGate_of_gate? (continues.gate? _ gate found))

theorem Continues.lt_maxVar_add (continues : c.Continues more) (below : id < c.maxGate) :
    id < c.maxVar + more.gates.size := by
  rw [← continues.maxVar_eq]
  exact Nat.lt_of_lt_of_le below continues.maxGate_le

theorem Continues.gate?_eq (continues : c.Continues more) (below : id < c.maxGate) :
    more.gate? id = c.gate? id := by
  cases found : c.gate? id with
  | none =>
    refine gate?_eq_none_of_lt ?_
    rw [continues.maxVar_eq]
    exact lt_maxVar_of_gate?_eq_none found below
  | some gate => exact continues.gate? id gate found

theorem Continues.trans (first : c.Continues more) (second : more.Continues other) :
    c.Continues other where
  maxVar_eq := second.maxVar_eq.trans first.maxVar_eq
  blocks_eq := second.blocks_eq.trans first.blocks_eq
  output_eq := second.output_eq.trans first.output_eq
  gate? := fun id gate found => second.gate? id gate (first.gate? id gate found)
  nameOf_eq := fun id positive below =>
    (second.nameOf_eq id positive (Nat.lt_of_lt_of_le below first.maxGate_le)).trans
      (first.nameOf_eq id positive below)

theorem Continues.defines (continues : c.Continues more) (defined : c.Defines l) :
    more.Defines l :=
  ⟨defined.1, Nat.lt_of_lt_of_le defined.2 continues.maxGate_le⟩

theorem nameOf_pushed {name : String} (valid : c.WellFormed) (names : more.names = c.names.push name)
    (origin : more.origin = c.origin.push c.names.size) (positive : 0 < id)
    (below : id < c.maxGate) : more.nameOf id = c.nameOf id := by
  obtain ⟨entry, located, bound⟩ := valid.exists_origin positive below
  have before : more.origin[id]? = some entry := by
    have different : id ≠ c.origin.size := by rw [valid.origin_size]; omega
    rw [origin, Array.getElem?_push, if_neg different, located]
  have kept : more.names[entry]? = c.names[entry]? := by
    rw [names, Array.getElem?_push, if_neg (by omega)]
  simp [nameOf, before, located, kept]

theorem nameOf_pushed_last {name : String} (valid : c.WellFormed)
    (names : more.names = c.names.push name) (origin : more.origin = c.origin.push c.names.size) :
    more.nameOf c.maxGate = name := by
  simp [nameOf, origin, names, ← valid.origin_size]

theorem continues_append (valid : c.WellFormed) (gate : Gate) (name : String) :
    c.Continues (c.append gate name) where
  maxVar_eq := rfl
  blocks_eq := rfl
  output_eq := rfl
  gate? := by
    intro id found located
    have different : id ≠ c.maxGate := Nat.ne_of_lt (lt_maxGate_of_gate? located)
    rw [gate?_append, if_neg different, located]
  nameOf_eq := fun _ positive below => nameOf_pushed valid rfl rfl positive below

theorem Continues.interpretation_eq (continues : c.Continues more) (valid : c.WellFormed)
    (validMore : more.WellFormed) (below : id < c.maxGate) :
    more.interpretation id = c.interpretation id :=
  interpretation_of_more_gates valid validMore continues.maxVar_eq continues.gate? below

theorem Continues.meaning_eq (continues : c.Continues more) (valid : c.WellFormed)
    (validMore : more.WellFormed) (defined : c.Defines l) : more.meaning l = c.meaning l :=
  Interpretation.literal_congr (continues.interpretation_eq valid validMore defined.2)

/-- A new gate denotes what its connective makes of what was there before. -/
theorem interpretation_append (valid : c.WellFormed) (named : 0 < c.names.size)
    (accepts : c.Accepts gate) (name : String) :
    (c.append gate name).interpretation c.maxGate = gate.meaning c.interpretation := by
  have validMore := valid.append named accepts name
  have found : (c.append gate name).gate? c.maxGate = some gate := by
    rw [gate?_append, if_pos rfl]
  rw [interpretation_gate validMore found]
  refine Gate.meaning_congr accepts.arity fun l member => ?_
  exact (continues_append valid gate name).meaning_eq valid validMore (accepts.inputs l member)

end QuantCircuit.Circuit
