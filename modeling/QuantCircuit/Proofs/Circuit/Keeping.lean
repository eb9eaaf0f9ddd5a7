import QuantCircuit.Proofs.Circuit.Renumbering

namespace QuantCircuit

/-- A marked entry has as number how many marked ones come before it. -/
theorem numberMarked_getElem? (next : Nat) (marks : List Bool) (i : Nat) :
    (numberMarked next marks)[i]? =
      marks[i]?.map fun marked => if marked then next + (marks.take i).count true else 0 := by
  induction marks generalizing next i with
  | nil => simp [numberMarked]
  | cons marked rest ih =>
    cases i with
    | zero => cases marked <;> simp [numberMarked]
    | succ i =>
      cases marked with
      | true =>
        have shift : next + 1 + (rest.take i).count true = next + ((rest.take i).count true + 1) := by
          omega
        simp [numberMarked, ih, shift]
      | false => simp [numberMarked, ih]

theorem numberMarked_append (next : Nat) (marks more : List Bool) :
    numberMarked next (marks ++ more) =
      numberMarked next marks ++ numberMarked (next + marks.count true) more := by
  induction marks generalizing next with
  | nil => simp [numberMarked]
  | cons marked rest ih =>
    cases marked with
    | true =>
      have shift : next + 1 + rest.count true = next + (rest.count true + 1) := by omega
      simp [numberMarked, ih, shift]
    | false => simp [numberMarked, ih]

theorem numberMarked_replicate (next count : Nat) :
    numberMarked next (List.replicate count true) = List.range' next count := by
  induction count generalizing next with
  | zero => rfl
  | succ count ih => rw [List.replicate_succ, List.range'_succ, numberMarked, ih]

theorem count_take_lt {marks : List Bool} {i j : Nat} (order : i < j)
    (marked : marks[i]? = some true) :
    (marks.take i).count true < (marks.take j).count true := by
  have next : (marks.take (i + 1)).count true = (marks.take i).count true + 1 := by
    rw [List.take_add_one, marked]
    simp
  have within : (marks.take (i + 1)).count true ≤ (marks.take j).count true :=
    (List.take_sublist_take_left order).count_le true
  omega

theorem count_take_of_all {marks : List Bool} {k : Nat}
    (all : ∀ i, i < k → marks[i]? = some true) : (marks.take k).count true = k := by
  induction k with
  | zero => simp
  | succ k ih =>
    rw [List.take_add_one, List.count_append, ih fun i below => all i (Nat.lt_succ_of_lt below),
      all k (Nat.lt_succ_self k)]
    rfl

theorem exists_marked (marks : List Bool) {k p : Nat} (below : p < (marks.take k).count true) :
    ∃ i, i < k ∧ marks[i]? = some true ∧ (marks.take i).count true = p := by
  induction k with
  | zero => simp at below
  | succ k ih =>
    by_cases earlier : p < (marks.take k).count true
    · obtain ⟨i, small, marked, count⟩ := ih earlier
      exact ⟨i, by omega, marked, count⟩
    · rw [List.take_add_one, List.count_append] at below
      cases entry : marks[k]? with
      | none =>
        simp [entry] at below
        omega
      | some value =>
        cases value with
        | true =>
          simp [entry] at below
          exact ⟨k, by omega, entry, by omega⟩
        | false =>
          simp [entry] at below
          omega

namespace Circuit

variable {c : Circuit} {marks : List Bool} {id : Nat}

/-- Dense numbers for the marked identifiers. Entry zero is marked, and keeps its number. -/
def keeping (c : Circuit) (marks : List Bool) : Numbering where
  places := (numberMarked 0 marks).toArray
  maxVar := (marks.take c.maxVar).count true

/-- The marked identifiers need only marked ones. -/
structure Closed (c : Circuit) (marks : List Bool) : Prop where
  size : marks.length = c.maxGate
  zero : marks[0]? = some true
  inputs : ∀ id gate, c.gate? id = some gate → marks[id]? = some true →
    ∀ l ∈ gate.inputs, marks[l.natAbs]? = some true
  bound : ∀ id gate, c.gate? id = some gate → marks[id]? = some true →
    ∀ v ∈ gate.bound, marks[v.natAbs]? = some true
  output : ∀ l, c.output? = some l → marks[l.natAbs]? = some true

theorem place_keeping (c : Circuit) (marks : List Bool) (id : Nat) : (c.keeping marks).place id =
    if marks[id]? = some true then (marks.take id).count true else 0 := by
  have entry : (c.keeping marks).place id = ((numberMarked 0 marks)[id]?).getD 0 := by
    simp [keeping, Numbering.place, Array.getD_eq_getD_getElem?]
  rw [entry, numberMarked_getElem?]
  cases marks[id]? with
  | none => rfl
  | some marked => cases marked <;> simp

theorem Closed.place_ne_zero_iff (closed : c.Closed marks) (positive : 0 < id) :
    (c.keeping marks).place id ≠ 0 ↔ marks[id]? = some true := by
  have counted := count_take_lt positive closed.zero
  rw [place_keeping]
  split
  · rename_i marked
    exact iff_of_true (by omega) marked
  · rename_i dropped
    exact iff_of_false (by simp) dropped

theorem place_of_marked (marked : marks[id]? = some true) :
    (c.keeping marks).place id = (marks.take id).count true := by
  rw [place_keeping, if_pos marked]

theorem place_of_all_marked (all : ∀ v, v < c.maxVar → marks[v]? = some true) (small : id < c.maxVar) :
    (c.keeping marks).place id = id := by
  rw [place_of_marked (all id small)]
  exact count_take_of_all fun i below => all i (Nat.lt_trans below small)

theorem marked_of_place_ne_zero (kept : (c.keeping marks).place id ≠ 0) :
    marks[id]? = some true := by
  rw [place_keeping] at kept
  split at kept
  · assumption
  · exact absurd rfl kept

theorem Closed.countP_keepsGate (closed : c.Closed marks) (valid : c.WellFormed)
    {position : Nat} (inside : position ≤ c.gates.size) :
    (marks.take (c.maxVar + position)).count true =
      (c.keeping marks).maxVar + (List.range position).countP ((c.keeping marks).keepsGate c) := by
  induction position with
  | zero => simp [keeping]
  | succ position ih =>
    have positive : 0 < c.maxVar + position := Nat.lt_of_lt_of_le valid.maxVar_pos (Nat.le_add_right ..)
    have kept := closed.place_ne_zero_iff positive
    have bound : c.maxVar + position < marks.length := by
      rw [closed.size]
      unfold maxGate
      omega
    rw [← Nat.add_assoc, List.take_add_one, List.count_append, ih (by omega), List.range_succ,
      List.countP_append, Nat.add_assoc]
    congr 2
    have keeps : (c.keeping marks).keepsGate c position =
        decide (marks[c.maxVar + position]? = some true) := by
      simp [Numbering.keepsGate, kept]
    rw [List.getElem?_eq_getElem bound] at keeps ⊢
    cases entry : marks[c.maxVar + position] <;> simp_all

/-- Dropping all but the marked identifiers fits the circuit. -/
theorem Closed.fits (closed : c.Closed marks) (valid : c.WellFormed) :
    (c.keeping marks).Fits c where
  maxVar_pos := Nat.zero_lt_of_lt (count_take_lt valid.maxVar_pos closed.zero)
  zero := by
    rw [place_keeping]
    simp
  injective := by
    intro v w same kept
    have markedV := marked_of_place_ne_zero kept
    have markedW := marked_of_place_ne_zero (same ▸ kept)
    rw [place_of_marked markedV, place_of_marked markedW] at same
    rcases Nat.lt_trichotomy v w with order | equal | order
    · have counted := count_take_lt order markedV
      omega
    · exact equal
    · have counted := count_take_lt order markedW
      omega
  variable_lt := by
    intro v small
    rw [place_keeping]
    split
    · rename_i marked
      exact count_take_lt small marked
    · exact Nat.zero_lt_of_lt (count_take_lt valid.maxVar_pos closed.zero)
  onto := by
    intro p _ below
    obtain ⟨v, small, marked, count⟩ := exists_marked marks below
    exact ⟨v, small, by rw [place_of_marked marked, count]⟩
  gate_eq := by
    intro position inside kept
    rw [place_of_marked (marked_of_place_ne_zero kept)]
    exact closed.countP_keepsGate valid (Nat.le_of_lt inside)
  inputs := by
    intro id gate found kept l member
    have nonzero := Int.natAbs_pos.mpr (valid.inputs_lt id gate found l member).1
    exact (closed.place_ne_zero_iff nonzero).mpr
      (closed.inputs id gate found (marked_of_place_ne_zero kept) l member)
  bound := by
    intro id gate found kept v member
    have nonzero := Int.natAbs_pos.mpr (Int.ne_of_gt (valid.bound_lt id gate found v member).1)
    exact (closed.place_ne_zero_iff nonzero).mpr
      (closed.bound id gate found (marked_of_place_ne_zero kept) v member)
  output := by
    intro l output
    have nonzero := Int.natAbs_pos.mpr (valid.output_lt l output).1
    exact (closed.place_ne_zero_iff nonzero).mpr (closed.output l output)

end Circuit

end QuantCircuit
