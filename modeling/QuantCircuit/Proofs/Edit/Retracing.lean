import QuantCircuit.Edit.Passes
import QuantCircuit.Proofs.Circuit.Declaring

/-! Bringing a quantifier down in the circuit itself. The steps neither read nor change the
blocks, so they go the same way whatever the blocks are, and all they do is to add gates. -/

namespace QuantCircuit

/-- Only quantifier gates bind anything. -/
def Gate.Tidy (gate : Gate) : Prop :=
  gate.connective.isQuantifier = false → gate.bound = []

namespace Circuit

variable {c m t : Circuit} {gate : Gate}

def withBlocks (c : Circuit) (blocks : List Block) : Circuit := { c with blocks }

/-- Gates have been added under new names. -/
inductive Grows (c : Circuit) : Circuit → Prop
  | refl : Grows c c
  | append {m : Circuit} {gate : Gate} (before : Grows c m) (tidy : gate.Tidy) :
      Grows c (m.append gate m.freshName)

theorem Grows.trans (first : c.Grows m) (second : m.Grows t) : c.Grows t := by
  induction second with
  | refl => exact first
  | append _ tidy ih => exact ih.append tidy

theorem freshName_withBlocks (c : Circuit) (blocks : List Block) :
    (c.withBlocks blocks).freshName = c.freshName := rfl

theorem of_addGate {id : Nat} (added : c.addGate gate = .ok (id, m)) :
    id = c.maxGate ∧ m = c.append gate c.freshName ∧ ∀ blocks,
      (c.withBlocks blocks).addGate gate = .ok (id, m.withBlocks blocks) := by
  obtain ⟨checked, rfl, rfl⟩ := of_addNamedGate added
  refine ⟨rfl, rfl, fun blocks => ?_⟩
  have same : gate.check (c.withBlocks blocks).maxVar (c.withBlocks blocks).maxGate = .ok () :=
    checked
  rw [addGate, addNamedGate, same, freshName_withBlocks]
  rfl

namespace Descent

def withBlocks (s : Descent) (blocks : List Block) : Descent :=
  { s with circuit := s.circuit.withBlocks blocks }

/-- If the work succeeds it has added gates, and does the same in place, whatever the blocks
are. -/
def Retraces (work : Descend α) (other : ExceptT Error (StateM Descent) α) : Prop :=
  ∀ s a t, work s = .ok (a, t) → s.circuit.Grows t.circuit ∧
    ∀ blocks, other (s.withBlocks blocks) = (.ok a, t.withBlocks blocks)

variable {work : Descend α} {other : ExceptT Error (StateM Descent) α}

theorem descend_get (next : Descent → Descend β) (s : Descent) : (get >>= next) s = next s s := rfl

theorem retraces_pure (a : α) : Retraces (pure a) (pure a) := by
  intro s b t ended
  obtain ⟨rfl, rfl⟩ := Prod.mk.inj (Except.ok.inj ended)
  exact ⟨.refl, fun _ => rfl⟩

theorem Retraces.bind {next : α → Descend β} {nextOther : α → ExceptT Error (StateM Descent) β}
    (first : Retraces work other) (rest : ∀ a, Retraces (next a) (nextOther a)) :
    Retraces (work >>= next) (other >>= nextOther) := by
  intro s b u ended
  obtain ⟨⟨a, t⟩, ran, again⟩ := exists_of_bind_eq_ok ended
  obtain ⟨grows, same⟩ := first s a t ran
  obtain ⟨further, others⟩ := rest a t b u again
  exact ⟨grows.trans further, fun blocks => (run_bind_of_ok (same blocks)).trans (others blocks)⟩

theorem Retraces.map (retraces : Retraces work other) (change : α → β) :
    Retraces (change <$> work) (change <$> other) := by
  rw [map_eq_pure_bind, map_eq_pure_bind]
  exact retraces.bind fun a => retraces_pure (change a)

/-- What is done with the state must not depend on the blocks. -/
theorem retraces_get {next : Descent → Descend β}
    {nextOther : Descent → ExceptT Error (StateM Descent) β}
    (blind : ∀ s blocks, nextOther (s.withBlocks blocks) = nextOther s)
    (rest : ∀ s, Retraces (next s) (nextOther s)) :
    Retraces (get >>= next) (get >>= nextOther) := by
  intro s a t ended
  obtain ⟨grows, same⟩ := rest s s a t ended
  refine ⟨grows, fun blocks => ?_⟩
  rw [run_get, blind]
  exact same blocks

theorem retraces_lift {result : Except Error β} {next : β → Descend α}
    {nextOther : β → ExceptT Error (StateM Descent) α}
    (rest : ∀ a, Retraces (next a) (nextOther a)) :
    Retraces (liftM result >>= next) (liftM result >>= nextOther) := by
  intro s a t ended
  cases result with
  | ok b => exact rest b s a t ended
  | error e =>
    have failed : (Except.error e : Except Error (α × Descent)) = .ok (a, t) := ended
    simp at failed

theorem retraces_addGate {gate : Gate} (tidy : gate.Tidy) :
    Retraces (addGate gate) (addGate gate) := by
  intro s a t ended
  have unfolded : (addGate gate : Descend Literal) s =
      s.circuit.addGate gate >>= fun p => .ok ((p.1 : Literal), { s with circuit := p.2 }) := by
    unfold addGate
    rw [descend_get]
    cases s.circuit.addGate gate <;> rfl
  rw [unfolded] at ended
  obtain ⟨⟨id, m⟩, added, ended⟩ := exists_of_bind_eq_ok ended
  obtain ⟨rfl, rfl⟩ := Prod.mk.inj (Except.ok.inj ended)
  obtain ⟨_, rfl, same⟩ := of_addGate added
  refine ⟨Grows.refl.append tidy, fun blocks => ?_⟩
  unfold addGate
  rw [run_get]
  refine (run_lift_of_ok (same blocks) _ _).trans ?_
  rfl

theorem retraces_remember (q : Quantifier) (id : Nat) (literal : Literal) :
    Retraces (remember q id literal) (remember q id literal) := by
  intro s a t ended
  obtain ⟨rfl, rfl⟩ := Prod.mk.inj (Except.ok.inj ended)
  exact ⟨.refl, fun _ => rfl⟩

variable {down : Literal → Descend Literal}
variable {downOther : Literal → ExceptT Error (StateM Descent) Literal}

theorem retraces_mapM (pushes : ∀ l, Retraces (down l) (downOther l)) (inputs : List Literal) :
    Retraces (inputs.mapM down) (inputs.mapM downOther) := by
  induction inputs with
  | nil => exact retraces_pure []
  | cons l rest ih =>
    rw [List.mapM_cons, List.mapM_cons]
    exact (pushes l).bind fun r => ih.bind fun rs => retraces_pure (r :: rs)

theorem tidy_plain (connective : Connective) (inputs : List Literal) :
    Gate.Tidy { connective, inputs } :=
  fun _ => rfl

theorem tidy_quantify (q : Quantifier) (bound : List Literal) (body : Literal) :
    (Gate.quantify q bound body).Tidy := by
  intro plain
  simp [Gate.quantify] at plain

theorem retraces_distribute (pushes : ∀ l, Retraces (down l) (downOther l)) (id : Nat)
    (gate : Gate) : Retraces (distribute down id gate) (distribute downOther id gate) := by
  unfold distribute
  refine (retraces_mapM pushes gate.inputs).bind fun inputs => ?_
  split
  · exact retraces_pure (id : Literal)
  · exact retraces_addGate (tidy_plain _ _)

theorem retraces_divide (pushes : ∀ l, Retraces (down l) (downOther l))
    (dependent : Literal → Bool) (q : Quantifier) (x : Nat) (gate : Gate) :
    Retraces (divide down dependent q x gate) (divide downOther dependent q x gate) := by
  have rejoined (outside : List Literal) (inner : Literal) :
      Retraces (if outside.isEmpty then pure inner
          else addGate { connective := gate.connective, inputs := outside ++ [inner] })
        (if outside.isEmpty then pure inner
          else addGate { connective := gate.connective, inputs := outside ++ [inner] }) := by
    split
    · exact retraces_pure inner
    · exact retraces_addGate (tidy_plain _ _)
  unfold divide
  rw [List.partition_eq_filter_filter]
  dsimp only
  split
  · exact (pushes _).bind fun inner => rejoined _ inner
  · refine (retraces_addGate (tidy_plain _ _)).bind fun body => ?_
    exact (retraces_addGate (tidy_quantify _ _ _)).bind fun inner => rejoined _ inner

theorem retraces_absorb (pushes : ∀ l, Retraces (down l) (downOther l)) (q : Quantifier)
    (id : Nat) (gate : Gate) : Retraces (absorb down q id gate) (absorb downOther q id gate) := by
  unfold absorb
  refine retraces_lift fun first => (pushes first).bind fun result => ?_
  split
  · exact retraces_pure (id : Literal)
  refine retraces_get (fun _ _ => rfl) fun s => ?_
  dsimp only
  split
  · refine retraces_lift fun inner => ?_
    split
    · exact retraces_lift fun _ => retraces_addGate (tidy_quantify _ _ _)
    · exact retraces_addGate (tidy_quantify _ _ _)
  · exact retraces_addGate (tidy_quantify _ _ _)

theorem retraces_bringGateDown (pushes : ∀ l, Retraces (down l) (downOther l)) (d : Dependencies)
    (x : Nat) (q : Quantifier) (id : Nat) (gate : Gate) :
    Retraces (bringGateDown down d x q id gate) (bringGateDown downOther d x q id gate) := by
  unfold bringGateDown
  split
  · exact retraces_pure (id : Literal)
  split
  · exact retraces_distribute pushes id gate
  split
  · exact retraces_absorb pushes q id gate
  split
  · exact retraces_addGate (tidy_quantify _ _ _)
  · exact retraces_divide pushes _ q x gate

theorem retraces_bringDownWithin (d : Dependencies) (x depth : Nat) (q : Quantifier) (id : Nat) :
    Retraces (bringDownWithin d x depth q id) (bringDownWithin d x depth q id) := by
  induction depth generalizing q id with
  | zero =>
    intro s a t ended
    have failed : (Except.error (.endless id) : Except Error (Literal × Descent)) = .ok (a, t) :=
      ended
    simp at failed
  | succ depth ih =>
    have pushes (l : Literal) : Retraces
        (if l < 0 then (- ·) <$> bringDownWithin d x depth q.dual l.natAbs
          else bringDownWithin d x depth q l.natAbs)
        (if l < 0 then (- ·) <$> bringDownWithin d x depth q.dual l.natAbs
          else bringDownWithin d x depth q l.natAbs) := by
      split
      · exact (ih q.dual _).map _
      · exact ih q _
    rw [bringDownWithin, bringDownWithin]
    refine retraces_get (fun _ _ => rfl) fun s => ?_
    dsimp only
    split
    · refine retraces_lift fun _ => ?_
      split
      · exact retraces_pure (id : Literal)
      · exact retraces_addGate (tidy_plain _ _)
    split
    · exact retraces_pure (id : Literal)
    refine retraces_get (fun _ _ => rfl) fun s => ?_
    split
    · exact retraces_pure _
    refine retraces_lift fun gate =>
      (retraces_bringGateDown pushes d x q id gate).bind fun literal => ?_
    exact (retraces_remember q id literal).bind fun _ => retraces_pure literal

theorem retraces_bringDown (d : Dependencies) (q : Quantifier) (x : Nat) (literal : Literal) :
    Retraces (bringDown d q x literal) (bringDown d q x literal) := by
  unfold bringDown
  refine retraces_get (fun _ _ => rfl) fun s => ?_
  split
  · exact (retraces_bringDownWithin d x _ q.dual _).map _
  · exact retraces_bringDownWithin d x _ q _

end Descent

end Circuit

end QuantCircuit
