import QuantCircuit.Circuit.Reduce
import QuantCircuit.Proofs.Circuit.Connecting
import QuantCircuit.Proofs.Circuit.Relocating
import QuantCircuit.Proofs.Ensures

namespace QuantCircuit.Circuit

variable {c m : Circuit} {marked : Array Bool} {id count : Nat} {gate : Gate} {out : Literal}

theorem flatMapM_eq_ok {f : α → Except Error (List β)} {g : α → List β} {entries : List α}
    (each : ∀ a ∈ entries, f a = .ok (g a)) : entries.flatMapM f = .ok (entries.flatMap g) := by
  induction entries with
  | nil => rfl
  | cons a rest ih =>
    rw [List.flatMapM_cons, each a (by simp), ih fun b member => each b (by simp [member])]
    rfl

theorem mem_liveGates : gate ∈ c.liveGates marked ↔
    ∃ position, c.gates[position]? = some gate ∧ marked[c.maxVar + position]? = some true := by
  have entry (position : Nat) : marked.getD (c.maxVar + position) false = true ↔
      marked[c.maxVar + position]? = some true := by
    rw [Array.getD_eq_getD_getElem?]
    cases marked[c.maxVar + position]? <;> simp
  unfold liveGates
  simp only [List.mem_map, List.mem_filter, Prod.exists, List.mem_zipIdx_iff_getElem?,
    Array.getElem?_toList, entry]
  constructor
  · rintro ⟨_, position, ⟨located, here⟩, rfl⟩
    exact ⟨position, located, here⟩
  · rintro ⟨position, located, here⟩
    exact ⟨gate, position, ⟨located, here⟩, rfl⟩

def coneBound (c : Circuit) (out : Literal) : List Nat :=
  (c.liveGates (c.cone out)).flatMap fun gate => gate.bound.map Int.natAbs

theorem liveGates_bound (valid : c.WellFormed) (live : gate ∈ c.liveGates marked) :
    ∀ v ∈ gate.bound, 0 < v ∧ v.natAbs < c.maxVar := by
  obtain ⟨position, located, _⟩ := mem_liveGates.mp live
  have found : c.gate? (c.maxVar + position) = some gate := gate?_of_located located
  exact valid.bound_lt _ gate found

theorem coneBound_lt (valid : c.WellFormed) {v : Nat} (member : v ∈ c.coneBound out) :
    0 < v ∧ v < c.maxVar := by
  obtain ⟨gate, live, listed⟩ := List.mem_flatMap.mp member
  obtain ⟨w, bound, rfl⟩ := List.mem_map.mp listed
  obtain ⟨positive, small⟩ := liveGates_bound valid live w bound
  exact ⟨Int.natAbs_pos.mpr (Int.ne_of_gt positive), small⟩

theorem reachable_eq (valid : c.WellFormed) (output : c.output? = some out) :
    c.reachable = .ok ((c.coneBound out).foldl (fun marked v => marked.setIfInBounds v true)
      (c.cone out)) := by
  have collected : (c.liveGates (c.cone out)).flatMapM Gate.boundVariables =
      .ok (c.coneBound out) :=
    flatMapM_eq_ok fun gate live =>
      boundVariables_eq fun v member => (liveGates_bound valid live v member).1
  simp only [reachable, Circuit.output, output]
  show (do
    let bound ← (c.liveGates (c.cone out)).flatMapM Gate.boundVariables
    pure (bound.foldl (fun (marked : Array Bool) v => marked.setIfInBounds v true)
      (c.cone out))) = _
  rw [collected]
  rfl

theorem mem_coneBound (valid : c.WellFormed) (defined : c.Defines out) : id ∈ c.coneBound out ↔
    ∃ binder gate, c.Connected out binder ∧ c.gate? binder = some gate ∧
      id ∈ gate.bound.map Int.natAbs := by
  simp only [coneBound, List.mem_flatMap, mem_liveGates]
  constructor
  · rintro ⟨gate, ⟨position, located, here⟩, binds⟩
    exact ⟨c.maxVar + position, gate, (getElem?_cone valid.layered defined).mp here,
      gate?_of_located located, binds⟩
  · rintro ⟨binder, gate, connected, found, binds⟩
    obtain ⟨lower, located⟩ := gate?_eq_some_iff.mp found
    refine ⟨gate, ⟨binder - c.maxVar, located, ?_⟩, binds⟩
    rw [Nat.add_sub_cancel' lower]
    exact (getElem?_cone valid.layered defined).mpr connected

/-- The marks are those of the live identifiers. -/
structure Reachable (c : Circuit) (out : Literal) (marked : Array Bool) : Prop where
  size : marked.size = c.maxGate
  iff_live : ∀ id : Nat, marked[id]? = some true ↔ c.Live out id

theorem reachable_spec (valid : c.WellFormed) (output : c.output? = some out) :
    ∃ marked, c.reachable = .ok marked ∧ c.Reachable out marked := by
  have defined := valid.output_lt out output
  have size := (cone_spec valid.layered defined).1
  refine ⟨_, reachable_eq valid output, ?_, fun id => ?_⟩
  · rw [← size]
    exact size_markAll (fun v => v) (c.coneBound out) (c.cone out)
  · rw [getElem?_markAll (fun v => v), size, getElem?_cone valid.layered defined, Live,
      ← mem_coneBound valid defined]
    simp only [exists_eq_right]
    refine or_congr_right ⟨And.right, fun listed => ⟨?_, listed⟩⟩
    exact Nat.lt_of_lt_of_le (coneBound_lt valid listed).2 (Nat.le_add_right ..)

theorem numberMarked_zero {marks : List Bool} (first : marks.head? = some false) :
    numberMarked 1 marks = numberMarked 0 (true :: marks.tail) := by
  cases marks with
  | nil => simp at first
  | cons head rest =>
    obtain rfl : head = false := by simpa using first
    rfl

theorem count_take_zero {marks : List Bool} (first : marks.head? = some false) {k : Nat}
    (positive : 0 < k) :
    1 + (marks.take k).count true = ((true :: marks.tail).take k).count true := by
  obtain ⟨k, rfl⟩ := Nat.exists_eq_succ_of_ne_zero (Nat.ne_of_gt positive)
  cases marks with
  | nil => simp at first
  | cons head rest =>
    obtain rfl : head = false := by simpa using first
    simp [Nat.add_comm]

/-- Whatever keeps all that is live, and no other gates, keeps what the kept gates need. -/
theorem closed_of_live {marks : List Bool} (valid : c.WellFormed) (output : c.output? = some out)
    (size : marks.length = c.maxGate) (zero : marks[0]? = some true)
    (live : ∀ id, c.Live out id → marks[id]? = some true)
    (gates : ∀ id, c.maxVar ≤ id → marks[id]? = some true → c.Live out id) : c.Closed marks where
  size := size
  zero := zero
  inputs := by
    intro id gate found here l member
    have reads := (gates id (maxVar_le_of_gate? found) here).reads valid found
    exact live l.natAbs (reads.1 l member)
  bound := by
    intro id gate found here v member
    have reads := (gates id (maxVar_le_of_gate? found) here).reads valid found
    exact live v.natAbs (reads.2 v member)
  output := by
    intro l given
    obtain rfl := Option.some.inj (output.symm.trans given)
    exact live out.natAbs (.inl .self)

theorem Reachable.numbering_eq (reachable : c.Reachable out marked) (valid : c.WellFormed)
    (output : c.output? = some out) :
    ∃ marks, Numbering.mk (numberMarked 1 marked.toList).toArray
        (1 + (marked.toList.take c.maxVar).count true) = c.keeping marks ∧ c.Closed marks ∧
      ∀ id, 0 < id → (marks[id]? = some true ↔ c.Live out id) := by
  have positive : 0 < marked.size := by
    rw [reachable.size]
    exact Nat.lt_of_lt_of_le valid.maxVar_pos (Nat.le_add_right ..)
  have dead : ¬ c.Live out 0 := fun live =>
    Nat.lt_irrefl 0 (live.defined valid (valid.output_lt out output)).1
  have first : marked.toList.head? = some false := by
    have zero := (reachable.iff_live 0).not.mpr dead
    rw [Array.getElem?_eq_getElem positive] at zero
    rw [List.head?_eq_getElem?, Array.getElem?_toList, Array.getElem?_eq_getElem positive]
    simpa using zero
  let marks := true :: marked.toList.tail
  have iff_live (id : Nat) (nonzero : 0 < id) : marks[id]? = some true ↔ c.Live out id := by
    obtain ⟨i, rfl⟩ := Nat.exists_eq_succ_of_ne_zero (Nat.ne_of_gt nonzero)
    rw [← reachable.iff_live]
    simp [marks, List.getElem?_tail]
  have size : marks.length = c.maxGate := by
    rw [← reachable.size]
    simp [marks]
    omega
  refine ⟨marks, ?_, closed_of_live valid output size rfl (fun id live => ?_)
    fun id large here => ?_, iff_live⟩
  · rw [numberMarked_zero first, count_take_zero first valid.maxVar_pos]
    rfl
  · exact (iff_live id (live.defined valid (valid.output_lt out output)).1).mpr live
  · exact (iff_live id (Nat.lt_of_lt_of_le valid.maxVar_pos large)).mp here

theorem cleanup_eq (valid : c.WellFormed) (output : c.output? = some out)
    (prenex : c.hasQuantifierGates = false) :
    ∃ marks, c.cleanup = .ok (c.renumber (c.keeping marks)) ∧ c.Closed marks ∧
      ∀ id, 0 < id → (marks[id]? = some true ↔ c.Live out id) := by
  obtain ⟨marked, computed, reachable⟩ := reachable_spec valid output
  obtain ⟨marks, numbered, closed, iff_live⟩ := reachable.numbering_eq valid output
  refine ⟨marks, ?_, closed, iff_live⟩
  unfold cleanup
  rw [if_neg (by simp [prenex]), computed, ← numbered]
  rfl

/-- Cleanup, where it succeeds, transports the formula. -/
theorem transports_cleanup (valid : c.WellFormed) (output : c.output? = some out)
    (cleaned : c.cleanup = .ok m) : ∃ r place, Transports c out m r place := by
  cases prenex : c.hasQuantifierGates with
  | true =>
    unfold cleanup at cleaned
    rw [if_pos prenex] at cleaned
    exact absurd cleaned throw_bind_ne_ok
  | false =>
    obtain ⟨marks, computed, closed, _⟩ := cleanup_eq valid output prenex
    obtain rfl := Except.ok.inj (computed.symm.trans cleaned)
    exact ⟨_, _, transports_renumber valid (closed.fits valid) output⟩

theorem Reachable.numbering_gates_eq (reachable : c.Reachable out marked) (valid : c.WellFormed)
    (output : c.output? = some out) :
    ∃ marks, Numbering.mk (List.range c.maxVar ++
          numberMarked c.maxVar (marked.toList.drop c.maxVar)).toArray c.maxVar =
        c.keeping marks ∧ c.Closed marks ∧
      ∀ id, marks[id]? = some true ↔ id < c.maxVar ∨ c.Live out id := by
  let marks := List.replicate c.maxVar true ++ marked.toList.drop c.maxVar
  have iff_live (id : Nat) : marks[id]? = some true ↔ id < c.maxVar ∨ c.Live out id := by
    rcases Nat.lt_or_ge id c.maxVar with below | large
    · simp [marks, List.getElem?_append, below]
    · have notBelow := Nat.not_lt.mpr large
      have entry : marks[id]? = marked[id]? := by
        simp [marks, List.getElem?_append, notBelow, Nat.add_sub_cancel' large]
      rw [entry, reachable.iff_live, or_iff_right notBelow]
  have size : marks.length = c.maxGate := by
    have lower : c.maxVar ≤ c.maxGate := Nat.le_add_right ..
    simp [marks, reachable.size]
    omega
  refine ⟨marks, ?_, closed_of_live valid output size ((iff_live 0).mpr (.inl valid.maxVar_pos))
    (fun id live => (iff_live id).mpr (.inr live)) fun id large here => ?_, iff_live⟩
  · have places : numberMarked 0 marks =
        List.range c.maxVar ++ numberMarked c.maxVar (marked.toList.drop c.maxVar) := by
      rw [numberMarked_append, numberMarked_replicate, ← List.range_eq_range']
      simp
    have variables_ : (marks.take c.maxVar).count true = c.maxVar := by
      simp [marks]
    rw [keeping, places, variables_]
  · exact ((iff_live id).mp here).resolve_left (Nat.not_lt.mpr large)

/-- Cleanup of the gates alone keeps all variables, too. -/
theorem cleanupGates_eq (valid : c.WellFormed) (output : c.output? = some out) :
    ∃ marks, c.cleanupGates = .ok (c.renumber (c.keeping marks)) ∧ c.Closed marks ∧
      ∀ id, marks[id]? = some true ↔ id < c.maxVar ∨ c.Live out id := by
  obtain ⟨marked, computed, reachable⟩ := reachable_spec valid output
  obtain ⟨marks, numbered, closed, iff_live⟩ := reachable.numbering_gates_eq valid output
  refine ⟨marks, ?_, closed, iff_live⟩
  unfold cleanupGates
  rw [computed, ← numbered]
  rfl

end QuantCircuit.Circuit
