import QuantCircuit.Edit.Walk
import QuantCircuit.Proofs.Circuit.Cleaning
import QuantCircuit.Proofs.Circuit.Declaring
import QuantCircuit.Proofs.Circuit.Searching
import QuantCircuit.Proofs.Circuit.Unsigning

/-! Going through a circuit with a stack. If gates read earlier identifiers, no check fails and
the number of steps suffices, and what has been met in the end is what the sweeps find. -/

namespace QuantCircuit.Circuit

variable {c : Circuit} {arithmetic : Arithmetic} {out : Literal} {gate : Gate} {id : Nat}
variable {stack visited : List Nat} {live seen marked : Array Bool}

theorem definedOutput_eq (output : c.output? = some out) (defined : c.Defines out) :
    c.definedOutput arithmetic = .ok out := by
  rw [definedOutput, Circuit.output, output]
  show (do checkLiteral out c.maxGate arithmetic; return out) = _
  rw [checkLiteral_eq_ok defined.1 defined.2]
  rfl

theorem of_definedOutput (defined : c.definedOutput .checked = .ok out) :
    c.output? = some out ∧ c.Defines out := by
  obtain ⟨l, output, defined⟩ := exists_of_bind_eq_ok defined
  obtain ⟨_, checked, same⟩ := exists_of_bind_eq_ok defined
  obtain rfl := Except.ok.inj same
  exact ⟨of_output output, of_checkLiteral checked⟩

theorem definedOutput_eq_error (missing : c.output? = none) :
    c.definedOutput arithmetic = .error (.structural .noOutput) := by
  rw [definedOutput, Circuit.output, missing]
  rfl

/-! The number of steps. What lies on the stack, and the inputs of all gates that have not been
visited, are what there is still to be taken off the stack. -/

/-- The gates with their identifiers. -/
def numberedGates (c : Circuit) : List (Gate × Nat) :=
  c.gates.toList.zipIdx c.maxVar

theorem inputCount_eq (c : Circuit) : c.inputCount = unreadInputs [] c.numberedGates := by
  rw [inputCount, ← Array.foldl_toList, foldl_inputs_length _ 0 c.maxVar, Nat.zero_add]
  rfl

theorem mem_numberedGates (found : c.gate? id = some gate) : (gate, id) ∈ c.numberedGates :=
  List.mem_zipIdx_iff_le_and_getElem?_sub.mpr
    ⟨maxVar_le_of_gate? found, by simpa using (gate?_eq_some_iff.mp found).2⟩

/-- What is not marked has not been visited. -/
def Unmet (marks : Array Bool) (visited : List Nat) : Prop :=
  ∀ id : Nat, marks[id]? = some false → id ∉ visited

theorem unmet_start (size : Nat) : Unmet (Array.replicate size false) [] := by
  intro id _
  exact List.not_mem_nil

theorem Unmet.mark (unmet : Unmet live visited) (id : Nat) :
    Unmet (live.setIfInBounds id true) (visited ++ [id]) := by
  intro other marks member
  rw [Array.getElem?_setIfInBounds] at marks
  split at marks
  · simp at marks
  · rename_i different
    rcases List.mem_append.mp member with before | last
    · exact unmet other marks before
    · exact different (List.mem_singleton.mp last).symm

theorem Unmet.markAll (unmet : Unmet live visited) (place : α → Nat) (entries : List α) :
    Unmet (entries.foldl (fun live a => live.setIfInBounds (place a) true) live) visited := by
  intro id marks
  refine unmet id ?_
  have inside : id < live.size := by
    rw [← size_markAll place entries live]
    exact (Array.getElem?_eq_some_iff.mp marks).1
  cases before : live[id]? with
  | none => exact absurd (Array.getElem?_eq_none_iff.mp before) (Nat.not_le_of_lt inside)
  | some mark =>
    cases mark with
    | false => rfl
    | true =>
      have still := (getElem?_markAll place entries live id).mpr (.inl before)
      rw [marks] at still
      simp at still

/-- After a gate there are fewer steps to be taken than before. -/
theorem steps_of_gate {steps : Nat} (found : c.gate? id = some gate) (fresh : id ∉ visited)
    (enough : (id :: stack).length + unreadInputs visited c.numberedGates ≤ steps + 1)
    {inputs : List Nat} (counted : inputs.length = gate.inputs.length) :
    (inputs ++ stack).length + unreadInputs (visited ++ [id]) c.numberedGates ≤ steps := by
  have read := unreadInputs_visit (mem_numberedGates found) fresh
  rw [List.length_cons] at enough
  rw [List.length_append, counted]
  omega

theorem steps_of_visit {steps : Nat}
    (enough : (id :: stack).length + unreadInputs visited c.numberedGates ≤ steps + 1) :
    stack.length + unreadInputs (visited ++ [id]) c.numberedGates ≤ steps := by
  have fewer := unreadInputs_concat_le visited id c.numberedGates
  rw [List.length_cons] at enough
  omega

/-! The variables that are met. -/

/-- The search meets the variables in the order of the traversal. -/
theorem search_eq (layered : c.Layered) (steps : Nat) (stack : List Nat)
    (inside : ∀ id ∈ stack, id < c.maxGate) (sized : seen.size = c.maxGate)
    (unmet : Unmet seen visited)
    (enough : stack.length + unreadInputs visited c.numberedGates ≤ steps) :
    c.search arithmetic steps stack seen = .ok (c.traverse steps stack seen) := by
  induction steps generalizing stack visited seen with
  | zero =>
    obtain rfl : stack = [] := List.eq_nil_of_length_eq_zero (by omega)
    simp [search, traverse, pure, Except.pure]
  | succ steps ih =>
    cases stack with
    | nil => simp [search, traverse, pure, Except.pure]
    | cons id stack =>
      obtain ⟨below, others⟩ := List.forall_mem_cons.mp inside
      have located := Array.getElem?_eq_getElem (sized ▸ below : id < seen.size)
      have sizedLater : (seen.setIfInBounds id true).size = c.maxGate := by simpa using sized
      rw [search, traverse, Array.getD_eq_getD_getElem?, located]
      cases mark : seen[id] with
      | true =>
        rw [List.length_cons] at enough
        exact ih stack others sized unmet (by omega)
      | false =>
        have fresh := unmet id (mark ▸ located)
        simp only [Option.getD_some, Bool.false_eq_true, if_false]
        split
        · rename_i isVariable
          rw [gate?_eq_none_of_lt isVariable,
            ih stack others sizedLater (unmet.mark id) (steps_of_visit enough)]
          rfl
        · rename_i isGate
          obtain ⟨gate, found⟩ := gate?_of_lt_maxGate (Nat.le_of_not_lt isGate) below
          have given : c.getGate (id : Int) = .ok gate :=
            getGate_eq (gateOf?_eq_some_iff.mpr ⟨Int.natCast_nonneg id, found⟩)
          have checked : gate.inputs.reverse.forM (checkLiteral · id arithmetic) = .ok () :=
            forM_checkLiteral fun l member => layered id gate found l (List.mem_reverse.mp member)
          rw [found, given]
          dsimp only [Bind.bind, Except.bind]
          rw [checked]
          refine ih _ (List.forall_mem_append.mpr ⟨fun v input => ?_, others⟩) sizedLater
            (unmet.mark id) (steps_of_gate found fresh enough (List.length_map _))
          obtain ⟨l, member, rfl⟩ := List.mem_map.mp input
          exact Nat.lt_trans (layered id gate found l member).2 below

theorem run_metVariables (layered : c.Layered) (output : c.output? = some out)
    (defined : c.Defines out) (arithmetic : Arithmetic) :
    Edit.metVariables arithmetic c = (.ok (c.traversalOrder out), c) := by
  have counted : c.gates.foldl (fun steps gate => steps + gate.inputs.length) 1 =
      c.inputCount + 1 := by
    rw [inputCount_eq, ← Array.foldl_toList, foldl_inputs_length _ 1 c.maxVar, Nat.add_comm]
    rfl
  have searched : c.search arithmetic (c.inputCount + 1) [out.natAbs]
      (Array.replicate c.maxGate false) = .ok (c.traversalOrder out) := by
    rw [traversalOrder, counted]
    refine search_eq layered _ _ (by simpa using defined.2) (by simp) (unmet_start _) ?_
    rw [inputCount_eq, List.length_singleton, Nat.add_comm]
  unfold Edit.metVariables
  rw [run_get, run_lift_of_ok (definedOutput_eq output defined), searched]
  rfl

theorem metVariables_of_no_output (missing : c.output? = none) (arithmetic : Arithmetic) :
    Edit.metVariables arithmetic c = (.error (.structural .noOutput), c) := by
  unfold Edit.metVariables
  rw [run_get, run_lift_of_error (definedOutput_eq_error missing)]

/-! What is reachable. -/

/-- What is marked or lies on the stack is live. Of what a marked gate reads, all is marked or
lies on the stack, and of what it binds, all is marked. -/
structure Explores (c : Circuit) (out : Literal) (stack : List Nat) (live : Array Bool) : Prop where
  size : live.size = c.maxGate
  sound : ∀ id : Nat, live[id]? = some true → c.Live out id
  pending : ∀ id ∈ stack, c.Connected out id
  start : live[out.natAbs]? = some true ∨ out.natAbs ∈ stack
  inputs : ∀ id gate, c.gate? id = some gate → live[id]? = some true →
    ∀ l ∈ gate.inputs, live[l.natAbs]? = some true ∨ l.natAbs ∈ stack
  bound : ∀ id gate, c.gate? id = some gate → live[id]? = some true →
    ∀ v ∈ gate.bound, live[v.natAbs]? = some true

theorem explores_start (c : Circuit) (out : Literal) :
    c.Explores out [out.natAbs] (Array.replicate c.maxGate false) where
  size := Array.size_replicate
  sound := by
    intro id marks
    simp [Array.getElem?_replicate] at marks
  pending := by
    intro id member
    exact List.mem_singleton.mp member ▸ .self
  start := .inr (List.mem_singleton.mpr rfl)
  inputs := by
    intro id gate _ marks
    simp [Array.getElem?_replicate] at marks
  bound := by
    intro id gate _ marks
    simp [Array.getElem?_replicate] at marks

theorem Reachable.unique {other : Array Bool} (first : c.Reachable out live)
    (second : c.Reachable out other) : live = other := by
  refine Array.ext (first.size.trans second.size.symm) fun id inside insideToo => ?_
  have iff := (first.iff_live id).trans (second.iff_live id).symm
  rw [Array.getElem?_eq_getElem inside, Array.getElem?_eq_getElem insideToo] at iff
  exact Bool.eq_iff_iff.mpr (by simpa using iff)

/-- When nothing is left on the stack, what is live is marked. -/
theorem Explores.reachable (explores : c.Explores out [] live) : c.Reachable out live where
  size := explores.size
  iff_live := by
    have connected {id : Nat} (connected : c.Connected out id) : live[id]? = some true := by
      refine marked_of_connected connected (explores.start.resolve_right List.not_mem_nil) ?_
      exact fun id gate found marks l member =>
        (explores.inputs id gate found marks l member).resolve_right List.not_mem_nil
    refine fun id => ⟨explores.sound id, fun live => ?_⟩
    rcases live with above | ⟨binder, gate, above, found, binds⟩
    · exact connected above
    · obtain ⟨v, member, rfl⟩ := List.mem_map.mp binds
      exact explores.bound binder gate found (connected above) v member

/-- An identifier may be taken off the stack once it is marked. -/
theorem Explores.pop (explores : c.Explores out (id :: stack) live)
    (marks : live[id]? = some true) : c.Explores out stack live where
  size := explores.size
  sound := explores.sound
  pending := fun other member => explores.pending other (List.mem_cons_of_mem id member)
  start := by
    rcases explores.start with before | here
    · exact .inl before
    · rcases List.mem_cons.mp here with same | later
      · exact .inl (same ▸ marks)
      · exact .inr later
  inputs := by
    intro other gate found marked l member
    rcases explores.inputs other gate found marked l member with before | here
    · exact .inl before
    · rcases List.mem_cons.mp here with same | later
      · exact .inl (same ▸ marks)
      · exact .inr later
  bound := explores.bound

/-- The top of the stack is visited: it is marked with all that it binds, and what it reads goes
on the stack. -/
theorem Explores.visit {later : Array Bool} {inputs : List Nat}
    (explores : c.Explores out (id :: stack) live) (size : later.size = c.maxGate)
    (kept : ∀ other : Nat, live[other]? = some true → later[other]? = some true)
    (here : later[id]? = some true)
    (added : ∀ other : Nat, later[other]? = some true →
      live[other]? = some true ∨ other = id ∨ other < c.maxVar ∧ c.Live out other)
    (reads : ∀ gate, c.gate? id = some gate → (∀ l ∈ gate.inputs, l.natAbs ∈ inputs) ∧
      ∀ v ∈ gate.bound, later[v.natAbs]? = some true)
    (pending : ∀ other ∈ inputs, c.Connected out other) :
    c.Explores out (inputs ++ stack) later := by
  have waits {other : Nat} (before : live[other]? = some true ∨ other ∈ id :: stack) :
      later[other]? = some true ∨ other ∈ inputs ++ stack := by
    rcases before with marks | listed
    · exact .inl (kept other marks)
    · rcases List.mem_cons.mp listed with rfl | below
      · exact .inl here
      · exact .inr (List.mem_append_right inputs below)
  -- a gate that is marked was so before, or is the one that is visited
  have gates {other : Nat} {gate : Gate} (found : c.gate? other = some gate)
      (marks : later[other]? = some true) : live[other]? = some true ∨ other = id := by
    rcases added other marks with before | same | ⟨isVariable, _⟩
    · exact .inl before
    · exact .inr same
    · exact absurd (maxVar_le_of_gate? found) (Nat.not_le_of_lt isVariable)
  refine ⟨size, fun other marks => ?_, ?_, waits explores.start, ?_, ?_⟩
  · rcases added other marks with before | rfl | ⟨_, live⟩
    · exact explores.sound other before
    · exact .inl (explores.pending other (by simp))
    · exact live
  · exact List.forall_mem_append.mpr
      ⟨pending, fun other member => explores.pending other (List.mem_cons_of_mem id member)⟩
  · intro other gate found marks l member
    rcases gates found marks with before | rfl
    · exact waits (explores.inputs other gate found before l member)
    · exact .inr (List.mem_append_left stack ((reads gate found).1 l member))
  · intro other gate found marks v member
    rcases gates found marks with before | rfl
    · exact kept _ (explores.bound other gate found before v member)
    · exact (reads gate found).2 v member

theorem foldlM_markBound {bound : List Literal}
    (inside : ∀ v ∈ bound, 0 < v ∧ v.natAbs < c.maxVar) (live : Array Bool) :
    bound.foldlM (c.markBound arithmetic) live =
      .ok (bound.foldl (fun live v => live.setIfInBounds v.natAbs true) live) := by
  induction bound generalizing live with
  | nil => rfl
  | cons v rest ih =>
    obtain ⟨positive, below⟩ := inside v (by simp)
    rw [List.foldlM_cons, markBound, boundVariable_eq positive below]
    exact ih (fun other member => inside other (by simp [member])) _

theorem Explores.visitVariable (explores : c.Explores out (id :: stack) live)
    (isVariable : id < c.maxVar) : c.Explores out stack (live.setIfInBounds id true) := by
  have inside : id < live.size := by
    rw [explores.size]
    exact Nat.lt_of_lt_of_le isVariable (Nat.le_add_right ..)
  have size : (live.setIfInBounds id true).size = c.maxGate := by simpa using explores.size
  have visited := explores.visit size (fun other marks => ?_) (by simp [inside])
    (fun other marks => ?_) (fun gate found => ?_) (List.forall_mem_nil (c.Connected out))
  · exact visited
  · rw [Array.getElem?_setIfInBounds]
    split <;> simp_all
  · rw [Array.getElem?_setIfInBounds] at marks
    split at marks
    · rename_i same
      exact .inr (.inl same.symm)
    · exact .inl marks
  · exact absurd (maxVar_le_of_gate? found) (Nat.not_le_of_lt isVariable)

theorem Explores.visitGate (explores : c.Explores out (id :: stack) live) (valid : c.WellFormed)
    (found : c.gate? id = some gate) :
    c.Explores out ((gate.inputs.map Int.natAbs).reverse ++ stack)
      (gate.bound.foldl (fun live v => live.setIfInBounds v.natAbs true)
        (live.setIfInBounds id true)) := by
  have inside : id < live.size := explores.size ▸ lt_maxGate_of_gate? found
  have connected := explores.pending id (by simp)
  have marks := getElem?_markAll Int.natAbs gate.bound (live.setIfInBounds id true)
  have bound (v : Literal) (member : v ∈ gate.bound) : v.natAbs < c.maxVar :=
    (valid.bound_lt id gate found v member).2
  refine explores.visit ?_ (fun other before => ?_) ?_ (fun other after => ?_) ?_ ?_
  · rw [size_markAll Int.natAbs, Array.size_setIfInBounds]
    exact explores.size
  · rw [marks, Array.getElem?_setIfInBounds]
    split <;> simp_all
  · rw [marks]
    exact .inl (by simp [inside])
  · rcases (marks other).mp after with before | ⟨_, v, member, rfl⟩
    · rw [Array.getElem?_setIfInBounds] at before
      split at before
      · rename_i same
        exact .inr (.inl same.symm)
      · exact .inl before
    · exact .inr (.inr ⟨bound v member,
        .inr ⟨id, gate, connected, found, List.mem_map.mpr ⟨v, member, rfl⟩⟩⟩)
  · rintro other again
    obtain rfl := Option.some.inj (found.symm.trans again)
    refine ⟨fun l member => List.mem_reverse.mpr (List.mem_map.mpr ⟨l, member, rfl⟩),
      fun v member => (marks _).mpr (.inr ⟨?_, v, member, rfl⟩)⟩
    rw [Array.size_setIfInBounds, explores.size]
    exact Nat.lt_of_lt_of_le (bound v member) (Nat.le_add_right ..)
  · intro other member
    obtain ⟨l, listed, rfl⟩ := List.mem_map.mp (List.mem_reverse.mp member)
    exact .input connected found listed

/-- Emptying the stack marks what is reachable. -/
theorem explore_eq (valid : c.WellFormed) (defined : c.Defines out) (arithmetic : Arithmetic)
    (steps : Nat) (stack : List Nat) (explores : c.Explores out stack live)
    (unmet : Unmet live visited) (enough : stack.length + unreadInputs visited c.numberedGates ≤ steps) :
    ∃ marked, c.explore arithmetic steps stack live = .ok marked ∧ c.Reachable out marked := by
  induction steps generalizing stack visited live with
  | zero =>
    obtain rfl : stack = [] := List.eq_nil_of_length_eq_zero (by omega)
    exact ⟨live, by simp [explore, pure, Except.pure], explores.reachable⟩
  | succ steps ih =>
    cases stack with
    | nil => exact ⟨live, by simp [explore, pure, Except.pure], explores.reachable⟩
    | cons id stack =>
      have below := ((explores.pending id (by simp)).defined valid.layered defined).2
      have sized : id < live.size := explores.size ▸ below
      have located := Array.getElem?_eq_getElem sized
      rw [explore, located]
      cases mark : live[id] with
      | true =>
        rw [List.length_cons] at enough
        exact ih stack (explores.pop (mark ▸ located)) unmet (by omega)
      | false =>
        have fresh := unmet id (mark ▸ located)
        dsimp only
        split
        · rename_i isVariable
          exact ih stack (explores.visitVariable isVariable) (unmet.mark id) (steps_of_visit enough)
        · rename_i isGate
          obtain ⟨gate, found⟩ := gate?_of_lt_maxGate (Nat.le_of_not_lt isGate) below
          have given : c.getGate (id : Int) = .ok gate :=
            getGate_eq (gateOf?_eq_some_iff.mpr ⟨Int.natCast_nonneg id, found⟩)
          have checked : gate.inputs.forM (checkLiteral · id arithmetic) = .ok () :=
            forM_checkLiteral (valid.inputs_lt id gate found)
          rw [given]
          dsimp only [Bind.bind, Except.bind]
          rw [foldlM_markBound (valid.bound_lt id gate found)]
          dsimp only
          rw [checked]
          refine ih _ (explores.visitGate valid found) ((unmet.mark id).markAll Int.natAbs _)
            (steps_of_gate found fresh enough ?_)
          rw [List.length_reverse, List.length_map]

/-- What is reachable is found without a failing check, and it is what the sweep finds. -/
theorem run_reachable (valid : c.WellFormed) (output : c.output? = some out)
    (reached : c.reachable = .ok marked) : Edit.reachable arithmetic c = (.ok marked, c) := by
  have defined := valid.output_lt out output
  obtain ⟨live, explored, reachable⟩ := explore_eq valid defined arithmetic
    (c.inputCount + 1) _ (c.explores_start out) (unmet_start _)
    (by rw [inputCount_eq, List.length_singleton, Nat.add_comm])
  obtain ⟨other, again, expected⟩ := reachable_spec valid output
  obtain rfl := Except.ok.inj (reached.symm.trans again)
  have same : live = marked := reachable.unique expected
  unfold Edit.reachable
  rw [run_get, run_lift_of_ok (definedOutput_eq output defined), explored, same]
  rfl

theorem reachable_of_no_output (missing : c.output? = none) :
    c.reachable = .error (.structural .noOutput) ∧
      Edit.reachable arithmetic c = (.error (.structural .noOutput), c) := by
  refine ⟨by rw [reachable, Circuit.output, missing]; rfl, ?_⟩
  unfold Edit.reachable
  rw [run_get, run_lift_of_error (definedOutput_eq_error missing)]

/-! Signs of bound literals. If no check fails, they do not matter. -/

theorem of_boundVariable {v : Literal} {limit w : Nat}
    (bound : boundVariable v limit arithmetic = .ok w) : ¬ v < 0 := by
  unfold boundVariable at bound
  obtain ⟨_, _, bound⟩ := exists_of_bind_eq_ok bound
  split at bound
  · exact absurd bound throw_bind_ne_ok
  · assumption

theorem markBound_unsigned {v : Literal} (marks : c.markBound arithmetic live v = .ok marked) :
    c.unsigned.markBound arithmetic live (v.natAbs : Int) = .ok marked := by
  obtain ⟨w, bound, _⟩ := exists_of_bind_eq_ok marks
  have same : ((v.natAbs : Nat) : Int) = v :=
    Int.natAbs_of_nonneg (Int.not_lt.mp (of_boundVariable bound))
  rw [same]
  exact marks

theorem foldlM_markBound_unsigned {bound : List Literal}
    (marks : bound.foldlM (c.markBound arithmetic) live = .ok marked) :
    (bound.map fun v => (v.natAbs : Int)).foldlM (c.unsigned.markBound arithmetic) live =
      .ok marked := by
  induction bound generalizing live with
  | nil => exact marks
  | cons v rest ih =>
    rw [List.foldlM_cons] at marks
    obtain ⟨next, first, others⟩ := exists_of_bind_eq_ok marks
    rw [List.map_cons, List.foldlM_cons, markBound_unsigned first]
    exact ih others

theorem of_getGate (given : c.getGate (id : Int) = .ok gate) : c.gate? id = some gate := by
  unfold getGate gateOf? at given
  rw [if_neg (Int.not_ofNat_neg id), Int.natAbs_natCast] at given
  cases found : c.gate? id with
  | none => simp [found] at given
  | some other =>
    rw [found] at given
    exact congrArg some (Except.ok.inj given)

theorem explore_unsigned {steps : Nat}
    (explored : c.explore arithmetic steps stack live = .ok marked) :
    c.unsigned.explore arithmetic steps stack live = .ok marked := by
  induction steps generalizing stack live with
  | zero =>
    cases stack with
    | nil => simpa [explore] using explored
    | cons => simp [explore, throw, throwThe, MonadExceptOf.throw] at explored
  | succ steps ih =>
    cases stack with
    | nil => simpa [explore] using explored
    | cons id stack =>
      rw [explore] at explored ⊢
      cases mark : live[id]? with
      | none => simp [mark, throw, throwThe, MonadExceptOf.throw] at explored
      | some known =>
        rw [mark] at explored
        cases known with
        | true => exact ih explored
        | false =>
          dsimp only at explored ⊢
          by_cases isVariable : id < c.maxVar
          · rw [if_pos isVariable] at explored
            rw [if_pos (show id < c.unsigned.maxVar from isVariable)]
            exact ih explored
          · rw [if_neg isVariable] at explored
            rw [if_neg (show ¬ id < c.unsigned.maxVar from isVariable)]
            obtain ⟨gate, given, explored⟩ := exists_of_bind_eq_ok explored
            obtain ⟨later, marks, explored⟩ := exists_of_bind_eq_ok explored
            obtain ⟨_, checked, explored⟩ := exists_of_bind_eq_ok explored
            have found : c.unsigned.gate? id = some gate.unsigned := by
              rw [gate?_unsigned, of_getGate given]
              rfl
            rw [getGate_eq (gateOf?_eq_some_iff.mpr ⟨Int.natCast_nonneg id, found⟩)]
            dsimp only [Bind.bind, Except.bind, Gate.unsigned]
            rw [foldlM_markBound_unsigned marks]
            dsimp only
            rw [checked]
            exact ih explored

/-- What is found to be reachable is so up to the signs, and nothing changes on the way. -/
theorem ensures_reachable (valid : c.unsigned.WellFormed) : Ensures (Edit.reachable .checked) c
    (fun live m => m = c ∧ ∃ out, c.unsigned.output? = some out ∧
      c.unsigned.Reachable out live) fun _ m => m = c := by
  unfold Edit.reachable
  refine .get (.lift_bind (fun _ _ => rfl) fun out defined => ?_)
  obtain ⟨output, definedOut⟩ := of_definedOutput defined
  have counted : c.unsigned.inputCount = c.inputCount := by
    rw [inputCount, inputCount, ← Array.foldl_toList, ← Array.foldl_toList, unsigned,
      Array.toList_map, List.foldl_map]
    rfl
  cases explored : c.explore .checked (c.inputCount + 1) [out.natAbs]
      (Array.replicate c.maxGate false) with
  | error e => exact rfl
  | ok live =>
    refine ⟨rfl, out, output, ?_⟩
    obtain ⟨marked, again, reachable⟩ := explore_eq valid definedOut.unsigned
      .checked (c.inputCount + 1) _ (c.unsigned.explores_start out) (unmet_start _)
      (by rw [← counted, inputCount_eq, List.length_singleton, Nat.add_comm])
    rw [maxGate_unsigned, explore_unsigned explored] at again
    exact Except.ok.inj again ▸ reachable

end QuantCircuit.Circuit
