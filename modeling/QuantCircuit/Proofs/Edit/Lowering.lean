import QuantCircuit.Proofs.Edit.Becoming

namespace QuantCircuit.Circuit.Descent

variable {b : Circuit} {work : ExceptT Error (StateM Descent) α}
variable {down : Literal → ExceptT Error (StateM Descent) Literal}

/-- Whether the work succeeds or fails, it leaves a circuit that has kept the identifiers. -/
def Lowers (b : Circuit) (work : ExceptT Error (StateM Descent) α) : Prop :=
  ∀ s, Becomes b s.circuit →
    Ensures work s (fun _ t => Becomes b t.circuit) fun _ t => Becomes b t.circuit

theorem lowers_pure (a : α) : Lowers b (pure a) :=
  fun _ becomes => becomes

theorem Lowers.bind {next : α → ExceptT Error (StateM Descent) β} (first : Lowers b work)
    (rest : ∀ a, Lowers b (next a)) : Lowers b (work >>= next) :=
  fun s becomes => (first s becomes).bind fun a t later => rest a t later

theorem Lowers.map (lowers : Lowers b work) (change : α → β) : Lowers b (change <$> work) :=
  fun s becomes => (lowers s becomes).map

theorem lowers_get {next : Descent → ExceptT Error (StateM Descent) β}
    (rest : ∀ s, Lowers b (next s)) : Lowers b (get >>= next) :=
  fun s becomes => rest s s becomes

theorem lowers_lift {result : Except Error β} {next : β → ExceptT Error (StateM Descent) α}
    (rest : ∀ a, Lowers b (next a)) : Lowers b (liftM result >>= next) :=
  fun s becomes => .lift_bind (fun _ _ => becomes) fun a _ => rest a s becomes

theorem lowers_addGate (gate : Gate) : Lowers b (addGate gate) := by
  intro s becomes
  unfold addGate
  refine .get (.lift_bind (fun _ _ => becomes) fun added ended => ?_)
  obtain ⟨checked, _, same⟩ := of_addNamedGate ended
  have later := becomes.append checked
  rw [← same] at later
  exact later

theorem lowers_remember (q : Quantifier) (id : Nat) (literal : Literal) :
    Lowers b (remember q id literal) :=
  fun _ becomes => becomes

theorem lowers_mapM (pushes : ∀ l, Lowers b (down l)) (inputs : List Literal) :
    Lowers b (inputs.mapM down) := by
  induction inputs with
  | nil => exact lowers_pure []
  | cons l rest ih =>
    rw [List.mapM_cons]
    exact (pushes l).bind fun r => ih.bind fun rs => lowers_pure (r :: rs)

theorem lowers_distribute (pushes : ∀ l, Lowers b (down l)) (id : Nat) (gate : Gate) :
    Lowers b (distribute down id gate) := by
  unfold distribute
  refine (lowers_mapM pushes gate.inputs).bind fun inputs => ?_
  split
  · exact lowers_pure (id : Literal)
  · exact lowers_addGate _

theorem lowers_divide (pushes : ∀ l, Lowers b (down l)) (dependent : Literal → Bool)
    (q : Quantifier) (x : Nat) (gate : Gate) : Lowers b (divide down dependent q x gate) := by
  have rejoined (outside : List Literal) (inner : Literal) :
      Lowers b (if outside.isEmpty then pure inner
        else addGate { connective := gate.connective, inputs := outside ++ [inner] }) := by
    split
    · exact lowers_pure inner
    · exact lowers_addGate _
  unfold divide
  rw [List.partition_eq_filter_filter]
  dsimp only
  split
  · exact (pushes _).bind fun inner => rejoined _ inner
  · exact (lowers_addGate _).bind fun body => (lowers_addGate _).bind fun inner => rejoined _ inner

theorem lowers_absorb (pushes : ∀ l, Lowers b (down l)) (q : Quantifier) (id : Nat)
    (gate : Gate) : Lowers b (absorb down q id gate) := by
  unfold absorb
  refine lowers_lift fun first => (pushes first).bind fun result => ?_
  split
  · exact lowers_pure (id : Literal)
  refine lowers_get fun s => ?_
  dsimp only
  split
  · refine lowers_lift fun inner => ?_
    split
    · exact lowers_lift fun _ => lowers_addGate _
    · exact lowers_addGate _
  · exact lowers_addGate _

theorem lowers_bringGateDown (pushes : ∀ l, Lowers b (down l)) (d : Dependencies) (x : Nat)
    (q : Quantifier) (id : Nat) (gate : Gate) : Lowers b (bringGateDown down d x q id gate) := by
  unfold bringGateDown
  split
  · exact lowers_pure (id : Literal)
  split
  · exact lowers_distribute pushes id gate
  split
  · exact lowers_absorb pushes q id gate
  split
  · exact lowers_addGate _
  · exact lowers_divide pushes _ q x gate

theorem lowers_bringDownWithin (d : Dependencies) (x depth : Nat) (q : Quantifier) (id : Nat) :
    Lowers b (bringDownWithin d x depth q id) := by
  induction depth generalizing q id with
  | zero => exact fun _ becomes => becomes
  | succ depth ih =>
    have pushes (l : Literal) : Lowers b
        (if l < 0 then (- ·) <$> bringDownWithin d x depth q.dual l.natAbs
          else bringDownWithin d x depth q l.natAbs) := by
      split
      · exact (ih q.dual _).map _
      · exact ih q _
    rw [bringDownWithin]
    refine lowers_get fun s => ?_
    dsimp only
    split
    · refine lowers_lift fun _ => ?_
      split
      · exact lowers_pure (id : Literal)
      · exact lowers_addGate _
    split
    · exact lowers_pure (id : Literal)
    refine lowers_get fun s => ?_
    split
    · exact lowers_pure _
    refine lowers_lift fun gate => (lowers_bringGateDown pushes d x q id gate).bind fun literal => ?_
    exact (lowers_remember q id literal).bind fun _ => lowers_pure literal

theorem lowers_bringDown (d : Dependencies) (q : Quantifier) (x : Nat) (literal : Literal) :
    Lowers b (bringDown d q x literal) := by
  unfold bringDown
  refine lowers_get fun s => ?_
  split
  · exact (lowers_bringDownWithin d x _ q.dual _).map _
  · exact lowers_bringDownWithin d x _ q _

end QuantCircuit.Circuit.Descent
