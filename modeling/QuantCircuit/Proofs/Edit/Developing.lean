import QuantCircuit.Proofs.Edit.Lowering

namespace QuantCircuit

/-- The operation is told no name: what it names it finds a name for. -/
def Operation.Unnamed : Operation → Prop
  | addGate _ | setOutput _ | rewrite _ => True
  | addVariable _ _ | addBlock _ _ | addUnboundVariable _ | addNamedGate _ _ => False

namespace Circuit

variable {b c : Circuit}

theorem ensures_addGate (gate : Gate) (becomes : Becomes b c) : Ensures (Edit.addGate .checked gate) c
    (fun id m => Becomes b m ∧ m.Defines (id : Int)) fun _ m => Becomes b m := by
  have enacts := enacts_addGate c .checked gate
  unfold Ensures
  cases added : c.addGate gate with
  | error e =>
    rw [enacts.of_error added]
    exact becomes
  | ok p =>
    obtain ⟨checked, number, same⟩ := of_addNamedGate added
    have later := becomes.append checked
    rw [← same] at later
    rw [enacts.of_ok added]
    have positive := becomes.sound.stands.valid.maxVar_pos
    refine ⟨later, defines_natCast ?_ ?_⟩
    · rw [number]
      exact Nat.lt_of_lt_of_le positive (Nat.le_add_right ..)
    · rw [number, same, maxGate_append]
      exact Nat.lt_succ_self _

theorem develops_setOutput (literal : Literal) (becomes : Becomes b c) :
    Develops b (Edit.setOutput .checked literal) c := by
  have enacts := enacts_setOutput c .checked literal
  unfold Develops Ensures
  cases given : c.setOutput literal with
  | error e =>
    rw [enacts.of_error (by rw [given]; rfl)]
    exact becomes
  | ok m =>
    obtain ⟨defined, rfl⟩ := of_setOutput given
    rw [enacts.of_ok (by rw [given]; rfl)]
    exact becomes.withOutput defined

theorem Becomes.dropLast (becomes : Becomes b c) :
    Becomes b { c with blocks := c.blocks.dropLast } :=
  becomes.withBlocks (becomes.sound.stands.valid.withFirst (List.dropLast_prefix _))
    fun block present _ member => ⟨block, List.mem_of_mem_dropLast present, member, rfl⟩

theorem develops_moveLastBlock (becomes : Becomes b c) :
    Develops b (Edit.moveLastBlock .checked) c := by
  unfold Edit.moveLastBlock
  refine develops_get (develops_lift becomes fun out _ => ?_)
  split
  · refine Develops.bind becomes.dropLast fun _ m later => ?_
    refine Ensures.bind (ensures_addGate _ later) ?_
    rintro gate t ⟨last, defined⟩
    exact last.withOutput defined
  · exact becomes

theorem develops_blocksToGates (becomes : Becomes b c) : Develops b (Edit.blocksToGates .checked) c :=
  develops_get (develops_forM _ (fun _ _ => develops_moveLastBlock) becomes)

theorem ensures_descend {work : ExceptT Error (StateM Descent) α} {post : α → Circuit → Prop}
    {fail : Error → Circuit → Prop}
    (ensures : Ensures work { circuit := c } (fun a t => post a t.circuit)
      fun e t => fail e t.circuit) : Ensures (Edit.descend work) c post fail := by
  unfold Ensures Edit.descend at *
  rcases ended : work { circuit := c } with ⟨_ | _, t⟩ <;> simpa only [ended] using ensures

theorem develops_quantifyOutput (q : Quantifier) (x : Nat) (becomes : Becomes b c) :
    Develops b (Edit.quantifyOutput .checked q x) c := by
  have descended (d : Dependencies) (out : Literal) :
      Develops b (Edit.descend (bringDown d q x out)) c :=
    ensures_descend (Descent.lowers_bringDown d q x out { circuit := c } becomes)
  unfold Edit.quantifyOutput
  refine develops_get (develops_lift becomes fun d _ => develops_get ?_)
  refine develops_lift becomes fun out _ => (descended d out).bind fun literal m later => ?_
  split
  · exact develops_cleanupGates later
  · exact (develops_setOutput literal later).bind fun _ t last => develops_cleanupGates last

theorem develops_miniscopeLastBlock (becomes : Becomes b c) :
    Develops b (Edit.miniscopeLastBlock .checked) c := by
  unfold Edit.miniscopeLastBlock
  refine develops_get ?_
  split
  · exact (develops_forM _ (fun x _ => develops_quantifyOutput _ x) becomes).bind
      fun _ m later => later.dropLast
  · exact becomes

theorem develops_miniscope (becomes : Becomes b c) : Develops b (Edit.miniscope .checked) c :=
  develops_get (develops_forM _ (fun _ _ => develops_miniscopeLastBlock) becomes)

theorem develops_pass (pass : Pass) (becomes : Becomes b c) : Develops b (pass.edit .checked) c := by
  cases pass with
  | splitBlocks => exact develops_splitBlocks becomes
  | combineBlocks => exact develops_combineBlocks becomes
  | flatten => exact develops_flatten becomes
  | cleanup => exact develops_cleanup becomes
  | cleanupGates => exact develops_cleanupGates becomes
  | reorderByTraversal => exact develops_reorderByTraversal becomes
  | reorderByAppearance => exact develops_reorderByAppearance becomes
  | blocksToGates => exact develops_blocksToGates becomes
  | miniscope => exact develops_miniscope becomes

theorem Becomes.edit {operation : Operation} (becomes : Becomes b c) (unnamed : operation.Unnamed) :
    Becomes b (operation.edit .checked c).2 := by
  cases operation with
  | addGate gate =>
    have added := (ensures_addGate gate becomes).mono (fun _ _ => And.left) fun _ _ => id
    exact Ensures.state (Ensures.map added)
  | setOutput literal => exact Ensures.state (develops_setOutput literal becomes)
  | rewrite pass => exact Ensures.state (develops_pass pass becomes)
  | addVariable | addBlock | addUnboundVariable | addNamedGate => exact unnamed.elim

theorem Becomes.afterOperations {operations : List Operation} (becomes : Becomes b c)
    (unnamed : ∀ operation ∈ operations, operation.Unnamed) :
    Becomes b (c.afterOperations operations) := by
  induction operations generalizing c with
  | nil => exact becomes
  | cons operation rest ih =>
    obtain ⟨first, others⟩ := List.forall_mem_cons.mp unnamed
    exact ih (becomes.edit first) others

end Circuit

end QuantCircuit
