import QuantCircuit.Proofs.Circuit.Miniscoping

namespace QuantCircuit.Circuit

open Descent

variable {c more : Circuit} {d : Dependencies} {s t : Descent} {q : Quantifier} {x : Nat}
variable {l r : Literal}

theorem Continues.gates_prefix (continues : c.Continues more) :
    c.gates.toList <+: more.gates.toList := by
  refine List.prefix_iff_getElem?.mpr fun position inside => ?_
  have located : c.gates[position]? = some c.gates.toList[position] := by
    rw [← Array.getElem?_toList, List.getElem?_eq_getElem inside]
  obtain ⟨_, kept⟩ := gate?_eq_some_iff.mp (continues.gate? _ _ (gate?_of_located located))
  rwa [continues.maxVar_eq, Nat.add_sub_cancel_left, ← Array.getElem?_toList] at kept

namespace Descent

/-- The states in which a call for the variable can start while it is eliminated. Below the
call for a gate the calls for its inputs come one after the other, before the call itself
adds a gate or remembers anything, so from the first start to any other one there are only
finished calls. -/
inductive Reached (c : Circuit) (d : Dependencies) (x : Nat) : Descent → Prop
  | start : Reached c d x { circuit := c }
  | call {s t : Descent} {depth : Nat} {q : Quantifier} {id : Nat} {r : Literal} :
      Reached c d x s → 0 < id ∧ id < c.maxGate → id < c.maxVar + depth →
      (bringDownWithin d x (depth + 1) q id : Descend Literal) s = .ok (r, t) → Reached c d x t

theorem Reached.descends (reached : Reached c d x s) (valid : c.WellFormed)
    (analyses : Dependencies.Analyses c d c.gates.size) (positive : 0 < x) (below : x < c.maxVar) :
    Descends c x s := by
  induction reached with
  | start => exact descends_start valid positive below
  | call _ known enough ran descends =>
    obtain ⟨_, _, again, later, _⟩ :=
      leads_bringDownWithin valid analyses positive below _ _ known enough descends
    obtain ⟨_, rfl⟩ := Prod.mk.inj (Except.ok.inj (ran.symm.trans again))
    exact later

theorem ran_of_map {work : Descend Literal} {change : Literal → Literal}
    (ran : (change <$> work) s = .ok (r, t)) : ∃ a, work s = .ok (a, t) := by
  have bound : (work s >>= fun p => .ok (change p.1, p.2)) = Except.ok (r, t) := ran
  cases first : work s with
  | error _ => exact nomatch first ▸ bound
  | ok p =>
    rw [first] at bound
    obtain ⟨_, rfl⟩ := Prod.mk.inj (Except.ok.inj bound)
    exact ⟨p.1, rfl⟩

/-- The sign of a literal only chooses the quantifier that comes down to its identifier. -/
theorem Reached.bringDown (reached : Reached c d x s) (continues : c.Continues s.circuit)
    (defined : c.Defines l) (ran : (bringDown d q x l : Descend Literal) s = .ok (r, t)) :
    Reached c d x t := by
  have known : 0 < l.natAbs ∧ l.natAbs < c.maxGate := ⟨Int.natAbs_pos.mpr defined.1, defined.2⟩
  have enough := continues.lt_maxVar_add known.2
  have sign : (if l < 0 then
      (- ·) <$> bringDownWithin d x (s.circuit.gates.size + 1) q.dual l.natAbs
      else bringDownWithin d x (s.circuit.gates.size + 1) q l.natAbs : Descend Literal) s =
        .ok (r, t) := ran
  split at sign
  · obtain ⟨_, call⟩ := ran_of_map sign
    exact reached.call known enough call
  · exact reached.call known enough sign

end Descent

/-- Bringing a quantifier down is exact. The dependencies of a well-formed circuit are
found, and with them every call for one variable succeeds, in whichever state the calls
before have left: it only adds gates behind the ones that are there, and these keep their
meaning. Its result has, for every assignment, the value of the literal with the variable
quantified, and the free variables of the literal without that one. All of this holds of
what is remembered, too. -/
theorem bringDown_exact (valid : c.WellFormed) (positive : 0 < x) (below : x < c.maxVar) :
    ∃ d, Dependencies.ofCircuit c = .ok d ∧ ∀ s, Reached c d x s →
      (∀ (p : Quantifier) (id : Nat) (r : Literal), s.found[(p, id)]? = some r →
        Quantifies c s.circuit p x (id : Int) r) ∧
      ∀ q l, c.Defines l → ∃ r t, (bringDown d q x l : Descend Literal) s = .ok (r, t) ∧
        Reached c d x t ∧ t.circuit.WellFormed ∧ s.circuit.Continues t.circuit ∧
        s.circuit.gates.toList <+: t.circuit.gates.toList ∧
        (∀ other, s.circuit.Defines other →
          t.circuit.meaning other = s.circuit.meaning other) ∧
        Quantifies c t.circuit q x l r ∧
        { c with output? := some l }.Computes (c.meaning l) ∧
        { t.circuit with output? := some r }.Computes (q.overVars (c.meaning l) [x]) := by
  obtain ⟨d, analysed, analyses⟩ := Dependencies.ofCircuit_spec valid
  refine ⟨d, analysed, fun s reached => ?_⟩
  have descends := reached.descends valid analyses positive below
  refine ⟨fun p id r found => (descends.found p id r found).toQuantifies, fun q l defined => ?_⟩
  obtain ⟨r, t, ran, later, continues, brings⟩ :=
    leads_bringDown valid analyses positive below q defined descends
  have quantifies := brings.toQuantifies
  refine ⟨r, t, ran, reached.bringDown descends.continues defined ran, later.valid, continues,
    continues.gates_prefix, ?_, quantifies, computes_meaning (valid.withOutput defined) rfl, ?_⟩
  · exact fun other known => continues.meaning_eq descends.valid later.valid known
  · rw [← quantifies.meaning_eq]
    exact computes_meaning (later.valid.withOutput quantifies.defined) rfl

/-- A second call for the same variable starts with what the first one has remembered. -/
theorem rebinding_bringDown_exact :
    ∃ d r s k t, Dependencies.ofCircuit rebinding = .ok d ∧
      (bringDown d .all 2 (-6) : Descend Literal) { circuit := rebinding } = .ok (r, s) ∧
      (bringDown d .ex 2 6 : Descend Literal) s = .ok (k, t) ∧
      Quantifies rebinding t.circuit .ex 2 6 k := by
  have valid : rebinding.WellFormed := by decide
  obtain ⟨d, analysed, exact⟩ := bringDown_exact (x := 2) valid (by decide) (by decide)
  obtain ⟨_, calls⟩ := exact _ .start
  obtain ⟨r, s, first, reached, _⟩ := calls .all (-6) ⟨by decide, by decide⟩
  obtain ⟨_, again⟩ := exact s reached
  obtain ⟨k, t, second, _, _, _, _, _, quantifies, _⟩ := again .ex 6 ⟨by decide, by decide⟩
  exact ⟨d, r, s, k, t, analysed, first, second, quantifies⟩

end QuantCircuit.Circuit
