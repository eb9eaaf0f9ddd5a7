import QuantCircuit.Edit.Passes
import QuantCircuit.Proofs.Circuit.Cleaning
import QuantCircuit.Proofs.Circuit.Declaring

namespace QuantCircuit

theorem forM_eq_ok {check : α → Except Error Unit} {entries : List α}
    (each : ∀ a ∈ entries, check a = .ok ()) : entries.forM check = .ok () := by
  induction entries with
  | nil => rfl
  | cons a rest ih =>
    show (check a >>= fun _ => rest.forM check) = .ok ()
    rw [each a (by simp)]
    exact ih fun b member => each b (by simp [member])

namespace Circuit

variable {c : Circuit} {n : Numbering} {gate : Gate} {position : Nat}

theorem gate?_of_mem_zipIdx (member : (gate, position) ∈ c.gates.toList.zipIdx) :
    c.gate? (c.maxVar + position) = some gate :=
  gate?_of_located (by simpa using List.mem_zipIdx_iff_getElem?.mp member)

theorem checkKept_eq_ok {l : Literal} (kept : n.place l.natAbs ≠ 0) : n.checkKept l = .ok () := by
  rw [Numbering.checkKept, if_neg kept]

/-- A gate passes, and counts if it is kept. -/
theorem checkGate_eq_ok (fits : n.Fits c) (member : (gate, position) ∈ c.gates.toList.zipIdx) :
    n.checkGate c ((List.range position).countP (n.keepsGate c)) (gate, position) =
      .ok ((List.range (position + 1)).countP (n.keepsGate c)) := by
  have found := gate?_of_mem_zipIdx member
  have inside := lt_size_of_gate? found
  rw [List.range_succ, List.countP_append, List.countP_singleton]
  unfold Numbering.checkGate
  by_cases dropped : n.place (c.maxVar + position) = 0
  · simp [dropped, Numbering.keepsGate]
    rfl
  · have order := fits.gate_eq position inside dropped
    have inputs : gate.inputs.forM n.checkKept = .ok () :=
      forM_eq_ok fun l listed => checkKept_eq_ok (fits.inputs _ gate found dropped l listed)
    have bound : gate.bound.forM n.checkKept = .ok () :=
      forM_eq_ok fun v listed => checkKept_eq_ok (fits.bound _ gate found dropped v listed)
    have counted : n.keepsGate c position = true := by simpa [Numbering.keepsGate] using dropped
    simp only [dropped, if_false, inputs, bound, counted, if_true]
    rw [if_neg (Classical.not_not.mpr order)]
    rfl

theorem foldlM_checkGate (fits : n.Fits c) (position : Nat) (rest : List (Gate × Nat))
    (members : ∀ entry ∈ rest, entry ∈ c.gates.toList.zipIdx)
    (numbered : rest.map Prod.snd = List.range' position rest.length) :
    rest.foldlM (n.checkGate c) ((List.range position).countP (n.keepsGate c)) =
      .ok ((List.range (position + rest.length)).countP (n.keepsGate c)) := by
  induction rest generalizing position with
  | nil => rfl
  | cons entry rest ih =>
    obtain ⟨gate, here⟩ := entry
    rw [List.map_cons, List.length_cons, List.range'_succ] at numbered
    obtain ⟨rfl, later⟩ := List.cons.inj numbered
    rw [List.foldlM_cons, checkGate_eq_ok fits (members _ (by simp))]
    have others := ih (here + 1) (fun other member => members other (by simp [member])) later
    rw [List.length_cons, show here + (rest.length + 1) = here + 1 + rest.length by omega]
    exact others

/-- Renumbering goes through if the new numbers fit. -/
theorem check_eq_ok (fits : n.Fits c) : n.check c = .ok () := by
  have gates := foldlM_checkGate fits 0 c.gates.toList.zipIdx (fun _ member => member)
    (by simp [List.zipIdx_map_snd])
  unfold Numbering.check
  rw [show (List.range 0).countP (n.keepsGate c) = 0 from rfl] at gates
  rw [gates]
  dsimp only [Bind.bind, Except.bind]
  cases output : c.output? with
  | none => rfl
  | some out => exact checkKept_eq_ok (fits.output out output)

theorem checkInputs_eq_ok (valid : c.WellFormed) (arithmetic : Arithmetic) :
    c.checkInputs arithmetic = .ok () := by
  refine forM_eq_ok fun entry member => forM_eq_ok fun l listed => ?_
  have found := gate?_of_mem_zipIdx member
  obtain ⟨nonzero, earlier⟩ := valid.inputs_lt _ _ found l listed
  rw [checkLiteral_eq_ok nonzero (Nat.lt_trans earlier (lt_maxGate_of_gate? found))]
  exact checkLiteral_eq_ok nonzero earlier

end Circuit

end QuantCircuit
