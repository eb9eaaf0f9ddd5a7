import QuantCircuit.Proofs.Circuit.Appending
import QuantCircuit.Proofs.Ensures

namespace QuantCircuit.Circuit

variable {c m : Circuit} {gate : Gate} {name : String} {v max : Nat} {l : Literal}

def declare (c : Circuit) (name : String) : Circuit :=
  { c with
    maxVar := c.maxVar + 1
    names := c.names.push name
    origin := c.origin.push c.names.size }

theorem of_addUnboundVariable (declared : c.addUnboundVariable name = .ok (v, m)) :
    c.gates = #[] ∧ v = c.maxVar ∧ m = c.declare name := by
  unfold addUnboundVariable at declared
  split at declared
  · rename_i empty
    obtain ⟨rfl, rfl⟩ := Prod.mk.inj (Except.ok.inj declared)
    exact ⟨Array.isEmpty_iff.mp empty, rfl, rfl⟩
  · simp at declared

theorem addUnboundVariable_eq (empty : c.gates = #[]) (name : String) :
    c.addUnboundVariable name = .ok (c.maxVar, c.declare name) := by
  rw [addUnboundVariable, if_pos (Array.isEmpty_iff.mpr empty)]
  rfl

theorem addUnboundVariable_late (gates : ¬ c.gates = #[]) (name : String) :
    c.addUnboundVariable name = .error (.structural (.lateDeclaration name)) := by
  rw [addUnboundVariable, if_neg fun none => gates (Array.isEmpty_iff.mp none)]

theorem addUnboundVariables_eq (empty : c.gates = #[]) (names : List String) :
    c.addUnboundVariables names =
      .ok (List.range' c.maxVar names.length, names.foldl declare c) := by
  induction names generalizing c with
  | nil => rfl
  | cons name rest ih =>
    have later := ih (c := c.declare name) empty
    rw [addUnboundVariables, addUnboundVariable_eq empty]
    dsimp only [Bind.bind, Except.bind]
    rw [later]
    rfl

theorem of_addBlock {q : Quantifier} {names : List String} {vars : List Nat}
    (added : c.addBlock q names = .ok (vars, m)) :
    ∃ n, c.addUnboundVariables names = .ok (vars, n) ∧
      (vars = [] ∧ m = n ∨ vars ≠ [] ∧ m = { n with blocks := n.blocks ++ [⟨q, vars⟩] }) := by
  obtain ⟨⟨fresh, n⟩, declared, added⟩ := exists_of_bind_eq_ok added
  dsimp only at added
  split at added
  · rename_i empty
    obtain ⟨rfl, rfl⟩ := Prod.mk.inj (Except.ok.inj added)
    exact ⟨n, declared, .inl ⟨List.isEmpty_iff.mp empty, rfl⟩⟩
  · rename_i nonempty
    obtain ⟨rfl, rfl⟩ := Prod.mk.inj (Except.ok.inj added)
    exact ⟨n, declared, .inr ⟨fun empty => nonempty (List.isEmpty_iff.mpr empty), rfl⟩⟩

theorem maxGate_of_no_gates (empty : c.gates = #[]) : c.maxGate = c.maxVar := by
  rw [maxGate, empty]
  rfl

theorem gate?_of_no_gates (empty : c.gates = #[]) (id : Nat) : c.gate? id = none := by
  unfold gate?
  split
  · rfl
  · simp [empty]

theorem WellFormed.declare (valid : c.WellFormed) (named : 0 < c.names.size)
    (empty : c.gates = #[]) (name : String) : (c.declare name).WellFormed := by
  have noGates {id : Nat} {gate : Gate} (found : (c.declare name).gate? id = some gate) : False := by
    have none : (c.declare name).gate? id = none :=
      gate?_of_no_gates (c := c.declare name) empty id
    simp [none] at found
  have larger : (c.declare name).maxGate = c.maxGate + 1 := by
    simp [maxGate, Circuit.declare]
    omega
  have size : (c.declare name).names.size = c.names.size + 1 := by simp [Circuit.declare]
  exact {
    maxVar_pos := Nat.succ_pos _
    inputs_lt := fun _ _ found => (noGates found).elim
    bound_lt := fun _ _ found => (noGates found).elim
    one_input := fun _ _ found => (noGates found).elim
    output_lt := by
      intro l given
      obtain ⟨nonzero, below⟩ := valid.output_lt l given
      exact ⟨nonzero, by omega⟩
    block_nonempty := valid.block_nonempty
    block_lt := by
      intro block present v member
      obtain ⟨positive, small⟩ := valid.block_lt block present v member
      exact ⟨positive, Nat.lt_succ_of_lt small⟩
    block_nodup := valid.block_nodup
    origin_size := by
      rw [larger, ← valid.origin_size]
      simp [Circuit.declare]
    origin_lt := by
      rw [size]
      exact (valid.origin_pushed named).1
    origin_nodup := (valid.origin_pushed named).2 }

theorem WellFormed.bindNew (valid : c.WellFormed) {first count : Nat} {blocks : List Block}
    (positive : 0 < first) (earlier : ∀ block ∈ c.blocks, ∀ v ∈ block.vars, v < first)
    (counted : c.maxVar = first + count) (nonempty : ∀ block ∈ blocks, block.vars ≠ [])
    (vars : blocks.flatMap (·.vars) = c.blocks.flatMap (·.vars) ++ List.range' first count) :
    WellFormed { c with blocks } := by
  have new {v : Nat} (member : v ∈ List.range' first count) : first ≤ v ∧ v < c.maxVar := by
    have inside := List.mem_range'_1.mp member
    exact ⟨inside.1, counted ▸ inside.2⟩
  refine valid.withBlocks nonempty (fun block present v listed => ?_) ?_
  · have member : v ∈ blocks.flatMap (·.vars) := List.mem_flatMap.mpr ⟨block, present, listed⟩
    rw [vars] at member
    rcases List.mem_append.mp member with old | late
    · obtain ⟨other, before, listed⟩ := List.mem_flatMap.mp old
      exact valid.block_lt other before v listed
    · exact ⟨Nat.lt_of_lt_of_le positive (new late).1, (new late).2⟩
  · rw [vars, List.nodup_append]
    refine ⟨valid.block_nodup, List.nodup_range', fun v old w late same => ?_⟩
    obtain ⟨block, present, member⟩ := List.mem_flatMap.mp old
    have below := earlier block present v member
    have behind := (new late).1
    omega

theorem of_checkLiteral (checked : checkLiteral l max = .ok ()) : l ≠ 0 ∧ l.natAbs < max := by
  unfold checkLiteral at checked
  split at checked
  · assumption
  · split at checked <;> simp at checked

/-- Only the lowest literal can pass where arithmetic wraps around and fail where it does not. -/
theorem checkLiteral_eq_checked (fits : l ≠ .lowest) (max : Nat) (arithmetic : Arithmetic) :
    checkLiteral l max arithmetic = checkLiteral l max := by
  unfold checkLiteral
  rw [if_neg fits, if_neg fits]

theorem forM_checkLiteral_eq_checked {literals : List Literal} (fits : Literal.lowest ∉ literals)
    (max : Nat) (arithmetic : Arithmetic) :
    literals.forM (checkLiteral · max arithmetic) = literals.forM (checkLiteral · max) := by
  induction literals with
  | nil => rfl
  | cons l rest ih =>
    obtain ⟨first, others⟩ := not_or.mp (mt List.mem_cons.mpr fits)
    show (checkLiteral l max arithmetic >>= fun _ => _) = (checkLiteral l max >>= fun _ => _)
    rw [checkLiteral_eq_checked (Ne.symm first) max arithmetic]
    exact congrArg _ (funext fun _ => ih others)

theorem check_eq_checked (fits : Literal.lowest ∉ gate.inputs ++ gate.bound)
    (maxVar maxGate : Nat) (arithmetic : Arithmetic) :
    gate.check maxVar maxGate arithmetic = gate.check maxVar maxGate := by
  obtain ⟨inputs, bound⟩ := not_or.mp (mt List.mem_append.mpr fits)
  unfold Gate.check
  rw [forM_checkLiteral_eq_checked inputs maxGate arithmetic,
    forM_checkLiteral_eq_checked bound maxVar arithmetic]

theorem addNamedGate_eq_checked (fits : Literal.lowest ∉ gate.inputs ++ gate.bound) (c : Circuit)
    (name : String) (arithmetic : Arithmetic) :
    c.addNamedGate gate name arithmetic = c.addNamedGate gate name := by
  unfold addNamedGate
  rw [check_eq_checked fits c.maxVar c.maxGate arithmetic]

theorem setOutput_eq_checked (fits : l ≠ .lowest) (c : Circuit) (arithmetic : Arithmetic) :
    c.setOutput l arithmetic = c.setOutput l := by
  unfold setOutput
  rw [checkLiteral_eq_checked fits c.maxGate arithmetic]

theorem of_forM_checkLiteral {literals : List Literal}
    (checked : literals.forM (checkLiteral · max) = .ok ()) :
    ∀ l ∈ literals, l ≠ 0 ∧ l.natAbs < max := by
  induction literals with
  | nil => simp
  | cons l rest ih =>
    obtain ⟨_, first, others⟩ := exists_of_bind_eq_ok checked
    intro other member
    rcases List.mem_cons.mp member with rfl | later
    · exact of_checkLiteral first
    · exact ih others other later

theorem of_check {maxVar maxGate : Nat} (checked : gate.check maxVar maxGate = .ok ()) :
    (∀ l ∈ gate.inputs, l ≠ 0 ∧ l.natAbs < maxGate) ∧
      (∀ v ∈ gate.bound, v ≠ 0 ∧ v.natAbs < maxVar) ∧
      (gate.connective.isQuantifier → gate.inputs.length = 1) := by
  unfold Gate.check at checked
  obtain ⟨_, inputs, checked⟩ := exists_of_bind_eq_ok checked
  obtain ⟨_, bound, checked⟩ := exists_of_bind_eq_ok checked
  refine ⟨of_forM_checkLiteral inputs, of_forM_checkLiteral bound, fun kind => ?_⟩
  split at checked
  · simp [throw, throwThe, MonadExceptOf.throw] at checked
  · rename_i proper
    exact Classical.not_not.mp fun wrong => proper ⟨kind, wrong⟩

theorem accepts_of_check (checked : gate.check c.maxVar c.maxGate = .ok ())
    (positive : ∀ v ∈ gate.bound, ¬ v < 0) : c.Accepts gate := by
  obtain ⟨inputs, bound, arity⟩ := of_check checked
  refine ⟨inputs, fun v member => ?_, arity⟩
  obtain ⟨nonzero, below⟩ := bound v member
  exact ⟨Int.lt_iff_le_and_ne.mpr ⟨Int.not_lt.mp (positive v member), Ne.symm nonzero⟩, below⟩

/-- What passes where nothing wraps around passes anyway. -/
theorem check_of_checked {maxVar maxGate : Nat} (checked : gate.check maxVar maxGate = .ok ())
    (arithmetic : Arithmetic) : gate.check maxVar maxGate arithmetic = .ok () := by
  obtain ⟨inputs, bound, arity⟩ := of_check checked
  unfold Gate.check
  rw [forM_checkLiteral inputs, forM_checkLiteral bound]
  exact if_neg fun wrong => wrong.2 (arity wrong.1)

theorem of_addNamedGate {arithmetic : Arithmetic}
    (added : c.addNamedGate gate name arithmetic = .ok (v, m)) :
    gate.check c.maxVar c.maxGate arithmetic = .ok () ∧ v = c.maxGate ∧ m = c.append gate name := by
  obtain ⟨_, checked, rest⟩ := exists_of_bind_eq_ok added
  obtain ⟨rfl, rfl⟩ := Prod.mk.inj (Except.ok.inj rest)
  exact ⟨checked, rfl, rfl⟩

theorem of_setOutput (given : c.setOutput l = .ok m) :
    c.Defines l ∧ m = { c with output? := some l } := by
  unfold setOutput at given
  split at given
  · exact absurd given throw_bind_ne_ok
  · obtain ⟨_, checked, rest⟩ := exists_of_bind_eq_ok given
    exact ⟨of_checkLiteral checked, (Except.ok.inj rest).symm⟩

theorem addGate_of_checked {id : Nat} (added : c.addGate gate = .ok (id, m))
    (arithmetic : Arithmetic) : c.addGate gate arithmetic = .ok (id, m) := by
  obtain ⟨checked, rfl, rfl⟩ := of_addNamedGate added
  rw [addGate, addNamedGate, check_of_checked checked arithmetic]
  rfl

theorem setOutput_of_checked (given : c.setOutput l = .ok m) (arithmetic : Arithmetic) :
    c.setOutput l arithmetic = .ok m := by
  have passed := of_setOutput given
  unfold setOutput at *
  split at given
  · exact absurd given throw_bind_ne_ok
  · rename_i built
    rw [if_neg built, passed.2]
    show (checkLiteral l c.maxGate arithmetic >>= _) = _
    rw [checkLiteral_eq_ok passed.1.1 passed.1.2]
    rfl

end QuantCircuit.Circuit
