import QuantCircuit.Circuit.Reduce
import QuantCircuit.Proofs.Circuit.Gates

namespace QuantCircuit.Circuit

variable {c : Circuit} {out : Literal} {id count : Nat} {marked : Array Bool}

/-- Gates read earlier identifiers. -/
def Layered (c : Circuit) : Prop :=
  ∀ id gate, c.gate? id = some gate → ∀ l ∈ gate.inputs, l ≠ 0 ∧ l.natAbs < id

theorem WellFormed.layered (valid : c.WellFormed) : c.Layered := valid.inputs_lt

theorem getElem?_markAll (place : α → Nat) (entries : List α) (marked : Array Bool) (i : Nat) :
    (entries.foldl (fun marked a => marked.setIfInBounds (place a) true) marked)[i]? = some true ↔
      marked[i]? = some true ∨ i < marked.size ∧ ∃ a ∈ entries, place a = i := by
  induction entries generalizing marked with
  | nil => simp
  | cons a rest ih =>
    rw [List.foldl_cons, ih, Array.getElem?_setIfInBounds, Array.size_setIfInBounds]
    by_cases here : place a = i
    · subst here
      by_cases inside : place a < marked.size <;> simp [inside]
    · simp [here]

theorem size_markAll (place : α → Nat) (entries : List α) (marked : Array Bool) :
    (entries.foldl (fun marked a => marked.setIfInBounds (place a) true) marked).size =
      marked.size := by
  induction entries generalizing marked with
  | nil => rfl
  | cons a rest ih => rw [List.foldl_cons, ih, Array.size_setIfInBounds]

def markGate (c : Circuit) (position : Nat) (marked : Array Bool) : Array Bool :=
  match marked[c.maxVar + position]?, c.gates[position]? with
  | some true, some gate =>
    gate.inputs.foldl (fun marked l => marked.setIfInBounds l.natAbs true) marked
  | _, _ => marked

theorem markInputs_succ (c : Circuit) (count : Nat) (marked : Array Bool) :
    c.markInputs (count + 1) marked = c.markInputs count (c.markGate count marked) := rfl

theorem getElem?_markGate (c : Circuit) (position : Nat) (marked : Array Bool) (i : Nat) :
    (c.markGate position marked)[i]? = some true ↔ marked[i]? = some true ∨
      i < marked.size ∧ marked[c.maxVar + position]? = some true ∧
        ∃ gate, c.gates[position]? = some gate ∧ ∃ l ∈ gate.inputs, l.natAbs = i := by
  unfold markGate
  split
  · rename_i gate here located
    rw [getElem?_markAll Int.natAbs]
    simp [here, located]
  · rename_i other
    constructor
    · exact .inl
    · rintro (old | ⟨_, here, gate, located, _⟩)
      · exact old
      · exact (other gate here located).elim

theorem size_markGate (c : Circuit) (position : Nat) (marked : Array Bool) :
    (c.markGate position marked).size = marked.size := by
  unfold markGate
  split
  · exact size_markAll Int.natAbs _ _
  · rfl

/-- The inputs of all marked gates from a position on are marked. -/
def ClosedFrom (c : Circuit) (count : Nat) (marked : Array Bool) : Prop :=
  ∀ position gate, count ≤ position → c.gates[position]? = some gate →
    marked[c.maxVar + position]? = some true → ∀ l ∈ gate.inputs, marked[l.natAbs]? = some true

theorem ClosedFrom.markGate (closed : c.ClosedFrom (count + 1) marked) (layered : c.Layered)
    (sized : marked.size = c.maxGate) : c.ClosedFrom count (c.markGate count marked) := by
  intro position gate lower located here l member
  have found : c.gate? (c.maxVar + position) = some gate := gate?_of_located located
  have earlier := (layered _ gate found l member).2
  have inside := lt_maxGate_of_gate? found
  rw [getElem?_markGate] at here ⊢
  rcases here with before | ⟨_, _, other, locatedOther, r, read, same⟩
  · by_cases last : position = count
    · subst last
      exact .inr ⟨by omega, before, gate, located, l, member, rfl⟩
    · exact .inl (closed position gate (by omega) located before l member)
  · -- an input of the swept gate lies before all gates from this one on
    have foundOther : c.gate? (c.maxVar + count) = some other := gate?_of_located locatedOther
    have order := (layered _ other foundOther r read).2
    omega

/-- The sweep only adds marks, and leaves the inputs of all marked gates marked. -/
theorem markInputs_spec (layered : c.Layered) (count : Nat) (marked : Array Bool)
    (sized : marked.size = c.maxGate) (closed : c.ClosedFrom count marked) :
    (c.markInputs count marked).size = c.maxGate ∧
      (∀ i : Nat, marked[i]? = some true → (c.markInputs count marked)[i]? = some true) ∧
      c.ClosedFrom 0 (c.markInputs count marked) := by
  induction count generalizing marked with
  | zero => exact ⟨sized, fun _ here => here, closed⟩
  | succ count ih =>
    rw [markInputs_succ]
    obtain ⟨size, kept, all⟩ := ih (c.markGate count marked) (by rw [size_markGate, sized])
      (closed.markGate layered sized)
    exact ⟨size, fun i here => kept i ((c.getElem?_markGate count marked i).mpr (.inl here)), all⟩

/-- A property of the marked identifiers that gates hand on to their inputs holds of all
identifiers that the sweep marks. -/
theorem markInputs_induction (property : Nat → Prop)
    (inputs : ∀ position gate, c.gates[position]? = some gate → property (c.maxVar + position) →
      ∀ l ∈ gate.inputs, property l.natAbs)
    (count : Nat) (marked : Array Bool) (start : ∀ i : Nat, marked[i]? = some true → property i)
    (i : Nat) (here : (c.markInputs count marked)[i]? = some true) : property i := by
  induction count generalizing marked with
  | zero => exact start i here
  | succ count ih =>
    refine ih (c.markGate count marked) (fun i new => ?_) here
    rcases (c.getElem?_markGate count marked i).mp new with
      old | ⟨_, gateMarked, gate, located, l, member, rfl⟩
    · exact start i old
    · exact inputs count gate located (start _ gateMarked) l member

theorem cone_spec (layered : c.Layered) (defined : c.Defines out) :
    (c.cone out).size = c.maxGate ∧ (c.cone out)[out.natAbs]? = some true ∧
      ∀ id gate, c.gate? id = some gate → (c.cone out)[id]? = some true →
        ∀ l ∈ gate.inputs, (c.cone out)[l.natAbs]? = some true := by
  have closed : c.ClosedFrom c.gates.size
      ((Array.replicate c.maxGate false).setIfInBounds out.natAbs true) := by
    intro position gate beyond located
    have inside := (Array.getElem?_eq_some_iff.mp located).1
    omega
  obtain ⟨size, kept, all⟩ := markInputs_spec layered c.gates.size _ (by simp) closed
  refine ⟨size, kept out.natAbs (by simp [defined.2]), fun id gate found here => ?_⟩
  obtain ⟨lower, located⟩ := gate?_eq_some_iff.mp found
  exact all (id - c.maxVar) gate (Nat.zero_le _) located
    (by rwa [show c.maxVar + (id - c.maxVar) = id by omega])

theorem cone_induction (property : Nat → Prop) (start : property out.natAbs)
    (inputs : ∀ position gate, c.gates[position]? = some gate → property (c.maxVar + position) →
      ∀ l ∈ gate.inputs, property l.natAbs)
    (here : (c.cone out)[id]? = some true) : property id := by
  refine markInputs_induction property inputs _ _ (fun i first => ?_) id here
  rw [Array.getElem?_setIfInBounds] at first
  split at first
  · rename_i same
    exact same ▸ start
  · simp [Array.getElem?_replicate] at first

/-- A chain of gate inputs leads from the literal to the identifier. -/
inductive Connected (c : Circuit) (out : Literal) : Nat → Prop where
  | self : Connected c out out.natAbs
  | input {id : Nat} {gate : Gate} {l : Literal} (above : Connected c out id)
      (found : c.gate? id = some gate) (member : l ∈ gate.inputs) : Connected c out l.natAbs

/-- What marks contain from the literal down, they contain of all that is connected to it. -/
theorem marked_of_connected (connected : c.Connected out id)
    (first : marked[out.natAbs]? = some true)
    (inputs : ∀ id gate, c.gate? id = some gate → marked[id]? = some true →
      ∀ l ∈ gate.inputs, marked[l.natAbs]? = some true) : marked[id]? = some true := by
  induction connected with
  | self => exact first
  | input _ found member ih => exact inputs _ _ found ih _ member

theorem getElem?_cone (layered : c.Layered) (defined : c.Defines out) :
    (c.cone out)[id]? = some true ↔ c.Connected out id := by
  constructor
  · refine cone_induction (c.Connected out) .self fun position gate located above l member => ?_
    exact .input above (gate?_of_located located) member
  · intro connected
    obtain ⟨_, first, inputs⟩ := cone_spec layered defined
    exact marked_of_connected connected first inputs

theorem Connected.defined (connected : c.Connected out id) (layered : c.Layered)
    (defined : c.Defines out) : 0 < id ∧ id < c.maxGate := by
  cases connected with
  | self => exact ⟨Int.natAbs_pos.mpr defined.1, defined.2⟩
  | input _ found member =>
    obtain ⟨nonzero, earlier⟩ := layered _ _ found _ member
    exact ⟨Int.natAbs_pos.mpr nonzero, Nat.lt_trans earlier (lt_maxGate_of_gate? found)⟩

/-- The identifier is connected to the literal, or bound by a gate that is. -/
def Live (c : Circuit) (out : Literal) (id : Nat) : Prop :=
  c.Connected out id ∨ ∃ binder gate, c.Connected out binder ∧ c.gate? binder = some gate ∧
    id ∈ gate.bound.map Int.natAbs

/-- What is bound is a variable, so a live gate is connected. -/
theorem Live.connected (live : c.Live out id) (valid : c.WellFormed) (large : c.maxVar ≤ id) :
    c.Connected out id := by
  rcases live with connected | ⟨binder, gate, _, found, binds⟩
  · exact connected
  · obtain ⟨v, member, rfl⟩ := List.mem_map.mp binds
    exact absurd (valid.bound_lt binder gate found v member).2 (Nat.not_lt.mpr large)

theorem Live.defined (live : c.Live out id) (valid : c.WellFormed) (defined : c.Defines out) :
    0 < id ∧ id < c.maxGate := by
  rcases live with connected | ⟨binder, gate, _, found, binds⟩
  · exact connected.defined valid.layered defined
  · obtain ⟨v, member, rfl⟩ := List.mem_map.mp binds
    obtain ⟨positive, small⟩ := valid.bound_lt binder gate found v member
    exact ⟨Int.natAbs_pos.mpr (Int.ne_of_gt positive),
      Nat.lt_of_lt_of_le small (Nat.le_add_right ..)⟩

theorem Live.reads (live : c.Live out id) (valid : c.WellFormed) (found : c.gate? id = some gate) :
    (∀ l ∈ gate.inputs, c.Live out l.natAbs) ∧ ∀ v ∈ gate.bound, c.Live out v.natAbs := by
  have connected := live.connected valid (maxVar_le_of_gate? found)
  exact ⟨fun l member => .inl (connected.input found member),
    fun v member => .inr ⟨id, gate, connected, found, List.mem_map.mpr ⟨v, member, rfl⟩⟩⟩

end QuantCircuit.Circuit
