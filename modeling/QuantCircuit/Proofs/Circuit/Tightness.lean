import QuantCircuit.Proofs.Circuit.Confining
import QuantCircuit.Proofs.Circuit.Renumbering

/-! Quantifier gates that can go no further down: in front of a gate with the other
quantifier, or of one whose inputs all mention the variables and among which the quantifier
cannot be divided. -/

namespace QuantCircuit

@[simp] theorem Quantifier.gate_inj {p q : Quantifier} : p.gate = q.gate ↔ p = q := by
  cases p <;> cases q <;> simp [gate]

theorem Quantifier.gate_ne_distributesOver (p q : Quantifier) : p.gate ≠ q.distributesOver := by
  cases p <;> cases q <;> simp [gate, distributesOver]

theorem Quantifier.dual_ne (q : Quantifier) : q.dual ≠ q := by
  cases q <;> simp [dual]

theorem Quantifier.dual_distributesOver_ne (q : Quantifier) :
    q.dual.distributesOver ≠ q.distributesOver := by
  cases q <;> simp [dual, distributesOver]

theorem Connective.eq_dual_gate {connective : Connective} {q : Quantifier}
    (quantifier : connective.isQuantifier = true) (other : connective ≠ q.gate) :
    connective = q.dual.gate := by
  cases q <;> cases connective <;> simp_all [isQuantifier, quantifier?, Quantifier.dual,
    Quantifier.gate]

namespace Circuit

variable {c m t more : Circuit} {gate inner body : Gate} {q : Quantifier} {x id : Nat}
variable {b l r : Literal} {bound inside outside : List Literal}

/-- The quantifier over the variables cannot go past the gate: every variable occurs there,
and the gate either has the other quantifier, or does not commute with this one and needs
the variables in each of several inputs. -/
structure Carries (c : Circuit) (q : Quantifier) (bound : List Literal) (b : Literal)
    (body : Gate) : Prop where
  positive : 0 < b
  found : c.gate? b.natAbs = some body
  occurs : ∀ v ∈ bound, c.Occurs v.natAbs b.natAbs
  stops : body.connective = q.dual.gate ∨
    body.connective = q.dual.distributesOver ∧ 2 ≤ body.inputs.length ∧
      ∀ l ∈ body.inputs, ∀ v ∈ bound, c.Occurs v.natAbs l.natAbs

/-- A quantifier gate binds something, and stands where its quantifier has to. -/
def TightAt (c : Circuit) (gate : Gate) : Prop :=
  ∀ q : Quantifier, gate.connective = q.gate → gate.bound ≠ [] ∧
    ∃ b body, gate.inputs = [b] ∧ c.Carries q gate.bound b body

def Tight (c : Circuit) : Prop :=
  ∀ id gate, c.gate? id = some gate → c.TightAt gate

theorem Carries.later (carries : c.Carries q bound b body) (valid : c.WellFormed)
    (continues : c.Continues more) : more.Carries q bound b body where
  positive := carries.positive
  found := continues.gate? _ body carries.found
  occurs := fun v member =>
    (continues.occurs_iff valid (lt_maxGate_of_gate? carries.found)).mpr (carries.occurs v member)
  stops := by
    refine carries.stops.imp_right fun ⟨kind, several, mention⟩ => ⟨kind, several, ?_⟩
    intro l member v listed
    have earlier := (valid.inputs_lt _ body carries.found l member).2
    exact (continues.occurs_iff valid (Nat.lt_trans earlier
      (lt_maxGate_of_gate? carries.found))).mpr (mention l member v listed)

/-- The quantifier neither commutes with the gate nor meets itself there. -/
theorem Carries.kind_ne (carries : c.Carries q bound b body) :
    body.connective ≠ q.distributesOver ∧ body.connective ≠ q.gate := by
  rcases carries.stops with kind | ⟨kind, _⟩ <;> rw [kind]
  · exact ⟨Quantifier.gate_ne_distributesOver _ _, by simp [Quantifier.dual_ne]⟩
  · exact ⟨q.dual_distributesOver_ne, (Quantifier.gate_ne_distributesOver _ _).symm⟩

/-- A quantifier cannot go past the other one. -/
theorem carries_dual (positive : 0 < id) (found : c.gate? id = some gate)
    (kind : gate.connective = q.dual.gate) (occurs : ∀ v ∈ bound, c.Occurs v.natAbs id) :
    c.Carries q bound id gate :=
  ⟨Int.natCast_pos.mpr positive, found, occurs, .inl kind⟩

theorem TightAt.later (tight : c.TightAt gate) (valid : c.WellFormed)
    (continues : c.Continues more) : more.TightAt gate := by
  intro q kind
  obtain ⟨some, b, body, inputs, carries⟩ := tight q kind
  exact ⟨some, b, body, inputs, carries.later valid continues⟩

theorem tightAt_plain (kind : gate.connective = q.distributesOver) : c.TightAt gate :=
  fun p quantifier => absurd (quantifier.symm.trans kind) (Quantifier.gate_ne_distributesOver p q)

theorem tightAt_quantify (some : bound ≠ []) (carries : c.Carries q bound b body) :
    c.TightAt (.quantify q bound b) := by
  intro p kind
  obtain rfl : q = p := Quantifier.gate_inj.mp kind
  exact ⟨some, b, body, rfl, carries⟩

theorem Tight.append (tight : c.Tight) (valid : c.WellFormed) (last : c.TightAt gate)
    (name : String) : (c.append gate name).Tight := by
  have continues := continues_append valid gate name
  intro id other found
  rw [gate?_append] at found
  split at found
  · exact Option.some.inj found ▸ last.later valid continues
  · exact (tight id other found).later valid continues

/-- Blocks, output and names do not matter. -/
theorem Tight.congr (tight : c.Tight) (variables_ : more.maxVar = c.maxVar)
    (gates : more.gates = c.gates) : more.Tight := by
  have same (id : Nat) : more.gate? id = c.gate? id := by rw [gate?, gate?, variables_, gates]
  have kept {v id : Nat} (occurs : c.Occurs v id) : more.Occurs v id :=
    occurs.congr variables_ gates
  intro id gate found q kind
  obtain ⟨some, b, body, inputs, carries⟩ := tight id gate (same id ▸ found) q kind
  refine ⟨some, b, body, inputs, carries.positive, (same _).trans carries.found,
    fun v member => kept (carries.occurs v member), ?_⟩
  rcases carries.stops with dual | ⟨other, several, mention⟩
  · exact .inl dual
  · exact .inr ⟨other, several, fun l member v listed => kept (mention l member v listed)⟩

theorem tight_of_plain (plain : c.hasQuantifierGates = false) : c.Tight := by
  intro id gate found q kind
  have member : gate ∈ c.gates := Array.mem_of_getElem? (gate?_eq_some_iff.mp found).2
  have none := Array.any_eq_false'.mp plain gate member
  simp [kind] at none

theorem Tight.renumber {n : Numbering} (tight : c.Tight) (fits : n.Fits c) :
    (c.renumber n).Tight := by
  intro id gate found q kind
  obtain ⟨before, old, located, rfl, kept, rfl⟩ := (gate?_renumber fits id).mp found
  obtain ⟨some, b, body, inputs, carries⟩ := tight before old located q kind
  have keptBody : n.place b.natAbs ≠ 0 := fits.inputs before old located kept b (by simp [inputs])
  have occurs {v l : Literal} (occurs : c.Occurs v.natAbs l.natAbs) (kept : n.place l.natAbs ≠ 0) :
      (c.renumber n).Occurs (n.literal v).natAbs (n.literal l).natAbs := by
    rw [Numbering.natAbs_literal, Numbering.natAbs_literal]
    exact occurs.renumber fits kept
  refine ⟨by simpa [Numbering.gate] using some, n.literal b, n.gate body,
    by simp [Numbering.gate, inputs], ?_, ?_, ?_, ?_⟩
  · rw [Numbering.literal, if_neg (Int.not_lt.mpr (Int.le_of_lt carries.positive))]
    exact Int.natCast_pos.mpr (Nat.pos_of_ne_zero keptBody)
  · rw [Numbering.natAbs_literal]
    exact renumbered_gate fits carries.found keptBody
  · intro v member
    obtain ⟨w, listed, rfl⟩ := List.mem_map.mp member
    exact occurs (carries.occurs w listed) keptBody
  · rcases carries.stops with dual | ⟨other, several, mention⟩
    · exact .inl dual
    refine .inr ⟨other, by simpa [Numbering.gate] using several, fun l member v bound => ?_⟩
    obtain ⟨k, input, rfl⟩ := List.mem_map.mp member
    obtain ⟨w, listed, rfl⟩ := List.mem_map.mp bound
    exact occurs (mention k input w listed) (fits.inputs _ body carries.found keptBody k input)

end Circuit

end QuantCircuit
