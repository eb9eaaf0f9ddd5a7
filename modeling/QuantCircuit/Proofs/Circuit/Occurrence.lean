import QuantCircuit.Proofs.Circuit.Appending

namespace QuantCircuit

/-- The gate binds the variable. -/
def Gate.Binds (gate : Gate) (v : Nat) : Prop :=
  gate.connective.isQuantifier ∧ v ∈ gate.bound.map Int.natAbs

namespace Circuit

variable {c more : Circuit} {v id : Nat} {gate : Gate}

/-- The variable is below the identifier, and no gate on the way binds it. -/
inductive Occurs (c : Circuit) (v : Nat) : Nat → Prop where
  | leaf (positive : 0 < v) (below : v < c.maxVar) : Occurs c v v
  | input {id : Nat} {gate : Gate} {l : Literal} (found : c.gate? id = some gate)
      (member : l ∈ gate.inputs) (free : ¬ gate.Binds v) (below : Occurs c v l.natAbs) :
      Occurs c v id

theorem Occurs.lt_maxVar (occurs : c.Occurs v id) : v < c.maxVar := by
  induction occurs with
  | leaf _ below => exact below
  | input _ _ _ _ ih => exact ih

theorem Occurs.pos (occurs : c.Occurs v id) : 0 < v := by
  induction occurs with
  | leaf positive _ => exact positive
  | input _ _ _ _ ih => exact ih

theorem Occurs.congr (occurs : c.Occurs v id) (variables_ : more.maxVar = c.maxVar)
    (gates : more.gates = c.gates) : more.Occurs v id := by
  induction occurs with
  | leaf positive below => exact .leaf positive (variables_ ▸ below)
  | input found member free _ ih =>
    refine .input ?_ member free ih
    rwa [gate?, variables_, gates]

theorem occurs_gate_iff (found : c.gate? id = some gate) :
    c.Occurs v id ↔ ¬ gate.Binds v ∧ ∃ l ∈ gate.inputs, c.Occurs v l.natAbs := by
  constructor
  · intro occurs
    cases occurs with
    | leaf positive below =>
      have notBelow := maxVar_le_of_gate? found
      omega
    | input other member free below =>
      obtain rfl := Option.some.inj (found.symm.trans other)
      exact ⟨free, _, member, below⟩
  · rintro ⟨free, l, member, below⟩
    exact .input found member free below

theorem occurs_variable_iff (missing : c.gate? id = none) :
    c.Occurs v id ↔ v = id ∧ 0 < v ∧ v < c.maxVar := by
  constructor
  · intro occurs
    cases occurs with
    | leaf positive below => exact ⟨rfl, positive, below⟩
    | input found => simp [missing] at found
  · rintro ⟨rfl, positive, below⟩
    exact .leaf positive below

/-- A function reads the variables that occur in it only. -/
theorem readsOnly_occurs (valid : c.WellFormed) (positive : 0 < id) (below : id < c.maxGate) :
    ReadsOnly (c.interpretation id) (c.Occurs · id) := by
  induction id using Nat.strongRecOn with
  | _ id ih =>
    cases found : c.gate? id with
    | none =>
      have small := lt_maxVar_of_gate?_eq_none found below
      rw [interpretation_variable found]
      exact fun σ τ agree => agree id (.leaf positive small)
    | some gate =>
      have inputs (l : Literal) (member : l ∈ gate.inputs) :
          ReadsOnly (c.meaning l) fun v => ∃ l ∈ gate.inputs, c.Occurs v l.natAbs := by
        obtain ⟨nonzero, earlier⟩ := valid.inputs_lt id gate found l member
        intro σ τ agree
        have same := ih l.natAbs earlier (Int.natAbs_pos.mpr nonzero)
          (Nat.lt_trans earlier below) σ τ fun v occurs => agree v ⟨l, member, occurs⟩
        simp [meaning, Interpretation.literal, same]
      have arity := valid.one_input id gate found
      rw [interpretation_gate valid found]
      obtain ⟨q, kind | kind⟩ := gate.connective.eq_distributesOver_or_gate
      · refine (Gate.readsOnly_meaning arity inputs).mono fun v occurs => ?_
        exact (occurs_gate_iff found).mpr ⟨by simp [Gate.Binds, kind], occurs⟩
      · have body := inputs gate.body (by simp [Gate.inputs_eq_body kind arity])
        rw [Gate.meaning_quantifier _ kind]
        refine (q.readsOnly_overVars body _).mono fun v facts => ?_
        exact (occurs_gate_iff found).mpr ⟨fun binds => facts.2 binds.2, facts.1⟩

theorem readsOnly_meaning_occurs (valid : c.WellFormed) {l : Literal} (defined : c.Defines l) :
    ReadsOnly (c.meaning l) (c.Occurs · l.natAbs) := by
  have reads := readsOnly_occurs valid (Int.natAbs_pos.mpr defined.1) defined.2
  intro σ τ agree
  simp [meaning, Interpretation.literal, reads σ τ agree]

theorem ignores_meaning (valid : c.WellFormed) {l : Literal} (defined : c.Defines l)
    (absent : ¬ c.Occurs v l.natAbs) : Ignores (c.meaning l) v :=
  (readsOnly_meaning_occurs valid defined).ignores absent

theorem Continues.occurs_iff (continues : c.Continues more) (valid : c.WellFormed)
    (below : id < c.maxGate) : more.Occurs v id ↔ c.Occurs v id := by
  induction id using Nat.strongRecOn with
  | _ id ih =>
    cases found : c.gate? id with
    | none =>
      have missing : more.gate? id = none := (continues.gate?_eq below).trans found
      rw [occurs_variable_iff found, occurs_variable_iff missing, continues.maxVar_eq]
    | some gate =>
      rw [occurs_gate_iff found, occurs_gate_iff (continues.gate? id gate found)]
      refine and_congr_right fun _ => exists_congr fun l => and_congr_right fun member => ?_
      have earlier := (valid.inputs_lt id gate found l member).2
      exact ih l.natAbs earlier (Nat.lt_trans earlier below)

end Circuit

end QuantCircuit
