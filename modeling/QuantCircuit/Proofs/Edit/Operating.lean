import QuantCircuit.Proofs.Edit.Moving
import QuantCircuit.Proofs.Qcir.Reading
import QuantCircuit.Proofs.Solver.Running
import QuantCircuit.Qcir.Writer

namespace QuantCircuit

namespace Pass

/-- Why a pass does not rewrite a circuit. -/
def Refuses : Pass → Circuit → Prop
  | splitBlocks, _ | combineBlocks, _ | reorderByAppearance, _ => False
  | flatten, c | cleanupGates, c | reorderByTraversal, c => c.output? = none
  | cleanup, c => c.output? = none ∨ c.hasQuantifierGates = true
  | blocksToGates, c | miniscope, c => 2 ≤ c.blocks.length ∧ c.output? = none

theorem performs (pass : Pass) (arithmetic : Arithmetic) {c : Circuit} (stands : c.Stands) :
    Performs (pass.edit arithmetic) c (pass.apply c) (pass.Refuses c) := by
  cases pass with
  | splitBlocks => exact Circuit.performs_splitBlocks stands
  | combineBlocks => exact Circuit.performs_combineBlocks stands
  | flatten => exact Circuit.performs_flatten stands
  | cleanup => exact Circuit.performs_cleanup stands
  | cleanupGates => exact Circuit.performs_cleanupGates stands
  | reorderByTraversal => exact Circuit.performs_reorderByTraversal stands
  | reorderByAppearance => exact Circuit.performs_reorderByAppearance stands
  | blocksToGates => exact Circuit.performs_blocksToGates stands
  | miniscope => exact Circuit.performs_miniscope stands

end Pass

namespace Operation

def gate? : Operation → Option Gate
  | addGate gate | addNamedGate gate _ => some gate
  | _ => none

/-- No gate that is given binds a negative literal. -/
def BindsVariables (operation : Operation) : Prop :=
  ∀ gate ∈ operation.gate?, ∀ v ∈ gate.bound, ¬ v < 0

instance (operation : Operation) : Decidable operation.BindsVariables :=
  inferInstanceAs (Decidable (∀ gate ∈ operation.gate?, ∀ v ∈ gate.bound, ¬ v < 0))

/-- The literals that an operation gives to the circuit. -/
def literals : Operation → List Literal
  | addGate gate | addNamedGate gate _ => gate.inputs ++ gate.bound
  | setOutput literal => [literal]
  | _ => []

/-- If arithmetic wraps around, all literals that are given have absolute values. -/
def Fits (operation : Operation) (arithmetic : Arithmetic) : Prop :=
  arithmetic = .checked ∨ Literal.lowest ∉ operation.literals

instance (operation : Operation) (arithmetic : Arithmetic) :
    Decidable (operation.Fits arithmetic) :=
  inferInstanceAs (Decidable (arithmetic = .checked ∨ Literal.lowest ∉ operation.literals))

end Operation

namespace Circuit

variable {c m : Circuit} {name : String} {names : List String} {q : Quantifier} {v : Nat}
variable {vars : List Nat} {gate : Gate} {l : Literal}

theorem flatMap_vars_joinBlock (q : Quantifier) (v : Nat) (blocks : List Block) :
    (joinBlock q v blocks).flatMap (·.vars) = blocks.flatMap (·.vars) ++ [v] := by
  induction blocks with
  | nil => rfl
  | cons block rest ih =>
    cases rest with
    | nil =>
      rw [joinBlock]
      split <;> simp
    | cons next more =>
      have later : joinBlock q v (block :: next :: more) = block :: joinBlock q v (next :: more) :=
        rfl
      rw [later, List.flatMap_cons, ih, ← List.append_assoc, ← List.flatMap_cons]

theorem joinBlock_nonempty (q : Quantifier) (v : Nat) {blocks : List Block}
    (nonempty : ∀ block ∈ blocks, block.vars ≠ []) :
    ∀ block ∈ joinBlock q v blocks, block.vars ≠ [] := by
  induction blocks with
  | nil => simp [joinBlock]
  | cons block rest ih =>
    obtain ⟨first, others⟩ := List.forall_mem_cons.mp nonempty
    cases rest with
    | nil =>
      rw [joinBlock]
      split
      · simp
      · simpa using first
    | cons next more => exact List.forall_mem_cons.mpr ⟨first, ih others⟩

theorem Stands.declare (stands : c.Stands) (empty : c.gates = #[]) (name : String) :
    (c.declare name).Stands :=
  ⟨stands.valid.declare stands.named empty name, by simp [Circuit.declare]⟩

theorem Stands.addVariable (stands : c.Stands) (added : c.addVariable q name = .ok (v, m)) :
    m.Stands := by
  obtain ⟨⟨w, n⟩, declared, added⟩ := exists_of_bind_eq_ok added
  obtain ⟨rfl, rfl⟩ := Prod.mk.inj (Except.ok.inj added)
  obtain ⟨empty, rfl, rfl⟩ := of_addUnboundVariable declared
  have next := stands.declare empty name
  have earlier : ∀ block ∈ (c.declare name).blocks, ∀ v ∈ block.vars, v < c.maxVar :=
    fun block present v member => (stands.valid.block_lt block present v member).2
  exact ⟨next.valid.bindNew stands.valid.maxVar_pos earlier rfl
    (joinBlock_nonempty _ _ next.valid.block_nonempty) (flatMap_vars_joinBlock _ _ _), next.named⟩

theorem Stands.declareAll (stands : c.Stands) (empty : c.gates = #[]) (names : List String) :
    (names.foldl Circuit.declare c).Stands ∧ (names.foldl Circuit.declare c).blocks = c.blocks ∧
      (names.foldl Circuit.declare c).maxVar = c.maxVar + names.length := by
  induction names generalizing c with
  | nil => exact ⟨stands, rfl, rfl⟩
  | cons name rest ih =>
    obtain ⟨last, blocks, counted⟩ := ih (stands.declare empty name) empty
    refine ⟨last, blocks, counted.trans ?_⟩
    rw [List.length_cons]
    show c.maxVar + 1 + rest.length = _
    omega

theorem Stands.addBlock (stands : c.Stands) (added : c.addBlock q names = .ok (vars, m)) :
    m.Stands := by
  obtain ⟨n, declared, opened⟩ := of_addBlock added
  cases names with
  | nil =>
    obtain ⟨rfl, rfl⟩ := Prod.mk.inj (Except.ok.inj declared)
    rcases opened with ⟨_, rfl⟩ | ⟨several, _⟩
    · exact stands
    · exact absurd rfl several
  | cons name rest =>
    by_cases empty : c.gates = #[]
    · rw [addUnboundVariables_eq empty] at declared
      obtain ⟨rfl, rfl⟩ := Prod.mk.inj (Except.ok.inj declared)
      obtain ⟨next, blocks, counted⟩ := stands.declareAll empty (name :: rest)
      have earlier : ∀ block ∈ ((name :: rest).foldl Circuit.declare c).blocks,
          ∀ v ∈ block.vars, v < c.maxVar := by
        rw [blocks]
        exact fun block present v member => (stands.valid.block_lt block present v member).2
      rcases opened with ⟨_, rfl⟩ | ⟨several, rfl⟩
      · exact next
      · refine ⟨next.valid.bindNew stands.valid.maxVar_pos earlier counted ?_ ?_, next.named⟩
        · intro block member
          rcases List.mem_append.mp member with old | new
          · exact next.valid.block_nonempty block old
          · exact List.mem_singleton.mp new ▸ several
        · rw [List.flatMap_append, List.flatMap_singleton]
    · rw [addUnboundVariables, addUnboundVariable_late empty] at declared
      exact absurd declared (by simp [Bind.bind, Except.bind])

theorem Stands.append (stands : c.Stands) (accepts : c.Accepts gate) (name : String) :
    (c.append gate name).Stands :=
  ⟨stands.valid.append stands.named accepts name, by simp [Circuit.append]⟩

theorem Stands.addNamedGate (stands : c.Stands) (positive : ∀ v ∈ gate.bound, ¬ v < 0)
    (added : c.addNamedGate gate name = .ok (v, m)) : m.Stands := by
  obtain ⟨checked, rfl, rfl⟩ := of_addNamedGate added
  exact stands.append (accepts_of_check checked positive) name

theorem Stands.setOutput (stands : c.Stands) (given : c.setOutput l = .ok m) : m.Stands := by
  obtain ⟨defined, rfl⟩ := of_setOutput given
  exact ⟨stands.valid.withOutput defined, stands.named⟩

end Circuit

namespace Operation

open Circuit

variable {c m : Circuit} {arithmetic : Arithmetic}

theorem exists_of_map_eq_ok {computed : Except Error α} {change : α → β} {b : β}
    (ended : change <$> computed = .ok b) : ∃ a, computed = .ok a ∧ change a = b := by
  cases computed with
  | ok a => exact ⟨a, rfl, Except.ok.inj ended⟩
  | error e =>
    have failed : (Except.error e : Except Error β) = .ok b := ended
    simp at failed

/-- An operation in place does what it computes, or fails and leaves the circuit alone. -/
theorem enacts (operation : Operation) (arithmetic : Arithmetic) (stands : c.Stands) :
    Enacts (operation.edit arithmetic) c
      ((fun m => ((), m)) <$> operation.apply arithmetic c) := by
  have forget {α : Type} (computed : Except Error (α × Circuit)) :
      (fun m => ((), m)) <$> Prod.snd <$> computed = (fun p => ((), p.2)) <$> computed := by
    cases computed <;> rfl
  cases operation with
  | addVariable q name => exact forget _ ▸ (enacts_addVariable c q name).discard
  | addBlock q names => exact forget _ ▸ (enacts_addBlock c q names).discard
  | addUnboundVariable name => exact forget _ ▸ (enacts_declare c name).discard
  | addGate gate => exact forget _ ▸ (enacts_addGate c arithmetic gate).discard
  | addNamedGate gate name => exact forget _ ▸ (enacts_addNamedGate c arithmetic gate name).discard
  | setOutput literal => exact enacts_setOutput c arithmetic literal
  | rewrite pass =>
    have unfolded : (rewrite pass).apply arithmetic c = pass.apply c := rfl
    rw [unfolded]
    cases pass.performs arithmetic stands with
    | refuses _ _ failed left =>
      rw [failed]
      exact left
    | rewrites _ _ computed edited _ =>
      rw [computed]
      exact edited

/-- What fits is computed without anything that wraps around. -/
theorem apply_eq_checked {operation : Operation} (fits : operation.Fits arithmetic) (c : Circuit) :
    operation.apply arithmetic c = operation.apply .checked c := by
  rcases fits with rfl | absent
  · rfl
  cases operation with
  | addGate gate =>
    exact congrArg (Prod.snd <$> ·) (addNamedGate_eq_checked absent c c.freshName arithmetic)
  | addNamedGate gate name =>
    exact congrArg (Prod.snd <$> ·) (addNamedGate_eq_checked absent c name arithmetic)
  | setOutput l =>
    have fits : l ≠ .lowest := fun same => absent (List.mem_singleton.mpr same.symm)
    exact setOutput_eq_checked fits c arithmetic
  | addVariable | addBlock | addUnboundVariable | rewrite => rfl

/-- What one operation keeps, if it succeeds. -/
theorem stands_apply (operation : Operation) (stands : c.Stands)
    (positive : operation.BindsVariables) (fits : operation.Fits arithmetic)
    (applied : operation.apply arithmetic c = .ok m) : m.Stands := by
  rw [apply_eq_checked fits] at applied
  cases operation with
  | addVariable q name =>
    obtain ⟨_, added, rfl⟩ := exists_of_map_eq_ok applied
    exact stands.addVariable added
  | addBlock q names =>
    obtain ⟨_, added, rfl⟩ := exists_of_map_eq_ok applied
    exact stands.addBlock added
  | addUnboundVariable name =>
    obtain ⟨_, added, rfl⟩ := exists_of_map_eq_ok applied
    obtain ⟨empty, _, same⟩ := of_addUnboundVariable added
    rw [same]
    exact stands.declare empty name
  | addGate gate =>
    obtain ⟨_, added, rfl⟩ := exists_of_map_eq_ok applied
    exact stands.addNamedGate (positive gate rfl) added
  | addNamedGate gate name =>
    obtain ⟨_, added, rfl⟩ := exists_of_map_eq_ok applied
    exact stands.addNamedGate (positive gate rfl) added
  | setOutput literal => exact stands.setOutput applied
  | rewrite pass =>
    cases pass.performs .checked stands with
    | refuses _ _ failed _ => exact absurd (failed.symm.trans applied) (by simp)
    | rewrites _ _ computed _ later => exact Except.ok.inj (computed.symm.trans applied) ▸ later

end Operation

namespace Circuit

variable {c : Circuit} {operations : List Operation} {out : Literal} {arithmetic : Arithmetic}

/-- The circuits that operations start from. -/
inductive Initial : Circuit → Prop
  | new (name : String) : Initial { name }
  | read {text name : String} {c : Circuit} (read : Qcir.read text name = .ok c) : Initial c

theorem Initial.stands (initial : c.Initial) : c.Stands := by
  cases initial with
  | new name => exact stands_new name
  | read read =>
    obtain ⟨valid, ⟨out, output⟩, _⟩ := Qcir.read_spec read
    exact ⟨valid, valid.names_pos (valid.output_lt out output)⟩

theorem WellFormed.exists_name (valid : c.WellFormed) {id : Nat} (positive : 0 < id)
    (below : id < c.maxGate) :
    ∃ entry, c.origin[id]? = some entry ∧ c.names[entry]? = some (c.nameOf id) := by
  obtain ⟨entry, located, inside⟩ := valid.exists_origin positive below
  exact ⟨entry, located, by simp [nameOf, located, inside]⟩

end Circuit

end QuantCircuit
