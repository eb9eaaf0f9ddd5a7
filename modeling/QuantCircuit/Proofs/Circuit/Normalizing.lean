import QuantCircuit.Proofs.Circuit.Miniscoping

namespace QuantCircuit.Circuit

open Descent

variable {c m t : Circuit} {q : Quantifier} {x : Nat} {out : Literal}

/-- Cleanup of the gates leaves no quantifier gate in front of less. -/
theorem Tight.cleanupGates (tight : c.Tight) (valid : c.WellFormed) (output : c.output? = some out)
    (ran : c.cleanupGates = .ok m) : m.Tight := by
  obtain ⟨marks, computed, closed, _⟩ := cleanupGates_eq valid output
  obtain rfl := Except.ok.inj (computed.symm.trans ran)
  exact tight.renumber (closed.fits valid)

theorem Tight.quantifyOutput (tight : c.Tight) (valid : c.WellFormed)
    (output : c.output? = some out) (positive : 0 < x) (below : x < c.maxVar)
    (ran : Circuit.quantifyOutput q c x = .ok m) : m.Tight := by
  obtain ⟨l, s, descends, brings, same⟩ := quantifyOutput_brings valid output positive below q
  rw [same] at ran
  have kept : Tight { s.circuit with output? := some l } := (descends.tight tight).congr rfl rfl
  exact kept.cleanupGates (descends.valid.withOutput brings.defined) rfl ran

/-- A circuit over the variables of another one, with an output and without quantifier gates
that could go further down. -/
structure Settled (c m : Circuit) : Prop where
  valid : m.WellFormed
  maxVar_eq : m.maxVar = c.maxVar
  output : ∃ out, m.output? = some out
  tight : m.Tight

theorem Settled.quantifyOutput (settled : Settled c m) (positive : 0 < x) (below : x < c.maxVar)
    (ran : Circuit.quantifyOutput q m x = .ok t) : Settled c t := by
  obtain ⟨out, given⟩ := settled.output
  rw [← settled.maxVar_eq] at below
  obtain ⟨u, computed, replaces, r, output, _⟩ := quantifyOutput_spec settled.valid given positive
    below q
  obtain rfl := Except.ok.inj (computed.symm.trans ran)
  exact ⟨replaces.valid, replaces.maxVar_eq.trans settled.maxVar_eq, ⟨r, output⟩,
    settled.tight.quantifyOutput settled.valid given positive below ran⟩

/-- A tight circuit stays so when the inner blocks move into its gates. -/
theorem Tight.miniscope (tight : c.Tight) (valid : c.WellFormed) (output : c.output? = some out)
    (ran : c.miniscope = .ok m) : m.Tight := by
  unfold Circuit.miniscope at ran
  split at ran
  · rename_i outermost second more blocks
    obtain ⟨t, folded, ended⟩ := exists_of_bind_eq_ok ran
    obtain rfl := Except.ok.inj ended
    have start : Settled c c := ⟨valid, rfl, ⟨out, output⟩, tight⟩
    have settled : Settled c t := by
      refine foldlM_induction_mem (Settled c) (fun block member b t settled ran => ?_) start folded
      refine foldlM_induction_mem (Settled c) (fun v listed b t settled ran => ?_) settled ran
      obtain ⟨positive, below⟩ := valid.block_lt block
        (by rw [blocks]; exact .tail _ (List.mem_reverse.mp member)) v listed
      exact settled.quantifyOutput positive below ran
    exact settled.tight.congr rfl rfl
  · obtain rfl := Except.ok.inj ran
    exact tight

theorem plain_of_isPrenex (prenex : c.isPrenex = true) : c.hasQuantifierGates = false := by
  simpa using (Bool.and_eq_true_iff.mp prenex).1

/-- Miniscoping a prenex circuit leaves no quantifier that could go further down: each gate
binds some variables, all of them occur in its one input, and that is the gate of the other
quantifier or one that the quantifier cannot be divided over. -/
theorem miniscope_normalizes (valid : c.WellFormed) (prenex : c.isPrenex = true)
    (output : c.output? = some out) :
    ∃ m, c.miniscope = .ok m ∧ m.WellFormed ∧
      ∀ (id : Nat) (gate : Gate) (q : Quantifier), m.gate? id = some gate →
        gate.connective = q.gate → gate.bound ≠ [] ∧ ∃ b body, gate.inputs = [b] ∧
          m.Carries q gate.bound b body ∧
          body.connective ≠ q.distributesOver ∧ body.connective ≠ q.gate := by
  obtain ⟨m, computed, collapses, _⟩ := miniscope_spec valid output
  have tight := (tight_of_plain (plain_of_isPrenex prenex)).miniscope valid output computed
  refine ⟨m, computed, collapses.valid, fun id gate q found kind => ?_⟩
  obtain ⟨binds, b, body, inputs, carries⟩ := tight id gate found q kind
  exact ⟨binds, b, body, inputs, carries, carries.kind_ne⟩

/-- A circuit whose two inner variables have to stay in front of the same gate. -/
def crossing : Circuit where
  name := "crossing"
  maxVar := 4
  blocks := [⟨.ex, [1]⟩, ⟨.all, [2, 3]⟩]
  gates := #[{ connective := .and, inputs := [1, 2, -3] }, { connective := .and, inputs := [-2, 3] },
    { connective := .or, inputs := [4, 5] }]
  output? := some 6
  names := #["", "1", "2", "3", "4", "5", "6"]
  origin := #[0, 1, 2, 3, 4, 5, 6]

theorem crossing_miniscope_normalizes :
    ∃ m body, crossing.miniscope = .ok m ∧ m.gate? 7 = some (.quantify .all [2, 3] 6) ∧
      m.Carries .all [2, 3] 6 body := by
  obtain ⟨m, computed, _, normal⟩ :=
    miniscope_normalizes (by decide : crossing.WellFormed) (by decide +kernel) rfl
  have last : crossing.miniscope.map (·.gate? 7) = .ok (some (.quantify .all [2, 3] 6)) := by
    decide +kernel
  rw [computed] at last
  have found : m.gate? 7 = some (.quantify .all [2, 3] 6) := Except.ok.inj last
  obtain ⟨_, b, body, inputs, carries, _, _⟩ := normal 7 _ .all found rfl
  obtain rfl : 6 = b := (List.cons.inj inputs).1
  exact ⟨m, body, computed, found, carries⟩

end QuantCircuit.Circuit
