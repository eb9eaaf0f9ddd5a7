import Mathlib.Algebra.Ring.Parity
import QuantCircuit.Proofs.Circuit.Occurrence

namespace QuantCircuit

variable {f : Assignment → Bool} {v : Nat} {value : Bool} {q : Quantifier}

theorem Ignores.prefers (ignored : Ignores f v) (q : Quantifier) (value : Bool) :
    Prefers q f v value :=
  fun σ reached => (ignored σ value).trans reached

theorem Prefers.not (prefers : Prefers q f v (!value)) : Prefers q (fun σ => !f σ) v value := by
  intro σ reached
  by_cases same : σ v = value
  · rwa [← same, Assignment.set_self]
  · have other : σ.set v (!value) = σ := by
      rw [← Bool.eq_not.mpr same, Assignment.set_self]
    refine Decidable.byContradiction fun settled => ?_
    have turned := prefers (σ.set v value) (by simpa using settled)
    rw [Assignment.set_set, other] at turned
    cases q <;> simp_all [Quantifier.decisive]

theorem increasing_iff_prefers : Increasing f v ↔ Prefers .ex f v true := by
  constructor
  · exact fun increasing => increasing.prefers .ex
  · intro prefers σ reached
    simpa [Quantifier.decisive] using prefers (σ.set v false) reached

theorem decreasing_iff_prefers : Decreasing f v ↔ Prefers .ex f v false := by
  constructor
  · exact fun decreasing => decreasing.prefers .ex
  · intro prefers σ reached
    simpa [Quantifier.decisive] using prefers (σ.set v true) reached

/-- What all inputs of a gate prefer, the gate prefers too, unless it binds the variable. -/
theorem Gate.prefers {gate : Gate} {functions : Interpretation}
    (arity : gate.connective.isQuantifier → gate.inputs.length = 1) (free : ¬ gate.Binds v)
    (inputs : ∀ l ∈ gate.inputs, Prefers .ex (functions.literal l) v value) :
    Prefers .ex (gate.meaning functions) v value := by
  obtain ⟨q, kind | kind⟩ := gate.connective.eq_distributesOver_or_gate
  · intro σ
    have each (l : Literal) (member : l ∈ gate.inputs) := inputs l member σ
    cases q with
    | all =>
      simp only [Gate.meaning, kind, Quantifier.distributesOver, Quantifier.decisive,
        List.all_eq_true] at each ⊢
      exact fun settled l member => each l member (settled l member)
    | ex =>
      simp only [Gate.meaning, kind, Quantifier.distributesOver, Quantifier.decisive,
        List.any_eq_true] at each ⊢
      rintro ⟨l, member, settled⟩
      exact ⟨l, member, each l member settled⟩
  · have body := inputs gate.body (by simp [Gate.inputs_eq_body kind arity])
    rw [Gate.meaning_quantifier functions kind]
    exact body.overVars q fun bound => free ⟨by simp [kind], bound⟩

namespace Circuit

variable {c : Circuit} {id : Nat} {l : Literal} {gate : Gate} {odd : Bool}
variable {path : List Literal}

/-- A path of gate inputs from the literal down to the variable, through no gate that binds
it: the literals on the way, with their signs. -/
inductive Path (c : Circuit) (v : Nat) : Literal → List Literal → Prop where
  | leaf {l : Literal} (same : l.natAbs = v) (positive : 0 < v) (below : v < c.maxVar) :
      Path c v l [l]
  | input {l m : Literal} {gate : Gate} {path : List Literal}
      (found : c.gate? l.natAbs = some gate) (member : m ∈ gate.inputs)
      (free : ¬ gate.Binds v) (rest : Path c v m path) : Path c v l (l :: path)

theorem Path.occurs (below : c.Path v l path) : c.Occurs v l.natAbs := by
  induction below with
  | leaf same positive below =>
    rw [same]
    exact .leaf positive below
  | input found member free _ ih => exact .input found member free ih

theorem Occurs.exists_path (occurs : c.Occurs v id) (same : l.natAbs = id) :
    ∃ path, c.Path v l path := by
  induction occurs generalizing l with
  | leaf positive below => exact ⟨[l], .leaf same positive below⟩
  | input found member free _ ih =>
    obtain ⟨path, rest⟩ := ih rfl
    exact ⟨l :: path, .input (same ▸ found) member free rest⟩

/-- The literal sees the variable through an odd or an even number of negations. -/
def Sees (c : Circuit) (v : Nat) (odd : Bool) (l : Literal) : Prop :=
  ∃ path, c.Path v l path ∧ (Odd (path.countP (· < 0)) ↔ odd = true)

theorem sees_true_iff :
    c.Sees v true l ↔ ∃ path, c.Path v l path ∧ Odd (path.countP (· < 0)) := by
  simp [Sees]

theorem sees_false_iff :
    c.Sees v false l ↔ ∃ path, c.Path v l path ∧ Even (path.countP (· < 0)) := by
  simp [Sees]

theorem occurs_iff_sees : c.Occurs v l.natAbs ↔ c.Sees v false l ∨ c.Sees v true l := by
  constructor
  · intro occurs
    obtain ⟨path, below⟩ := occurs.exists_path rfl
    by_cases crossed : Odd (path.countP (· < 0))
    · exact .inr ⟨path, below, by simpa using crossed⟩
    · exact .inl ⟨path, below, by simpa using crossed⟩
  · rintro (⟨path, below, _⟩ | ⟨path, below, _⟩) <;> exact below.occurs

theorem odd_countP_cons (l : Literal) (path : List Literal) (odd : Bool) :
    (Odd ((l :: path).countP (· < 0)) ↔ odd = true) ↔
      (Odd (path.countP (· < 0)) ↔ (odd ^^ decide (l < 0)) = true) := by
  by_cases negative : l < 0
  · rw [List.countP_cons_of_pos (by simpa using negative), Nat.odd_add_one]
    cases odd <;> simp [negative]
  · rw [List.countP_cons_of_neg (by simpa using negative)]
    simp [negative]

theorem sees_variable_iff (missing : c.gate? l.natAbs = none) :
    c.Sees v odd l ↔ (l.natAbs = v ∧ 0 < v ∧ v < c.maxVar) ∧ odd = decide (l < 0) := by
  have parity : (Odd ([l].countP (· < 0)) ↔ odd = true) ↔ odd = decide (l < 0) := by
    rw [odd_countP_cons]
    cases odd <;> simp
  constructor
  · rintro ⟨path, below, crossed⟩
    cases below with
    | leaf same positive below => exact ⟨⟨same, positive, below⟩, parity.mp crossed⟩
    | input found => simp [missing] at found
  · rintro ⟨⟨same, positive, below⟩, crossed⟩
    exact ⟨[l], .leaf same positive below, parity.mpr crossed⟩

theorem sees_gate_iff (found : c.gate? l.natAbs = some gate) :
    c.Sees v odd l ↔
      ¬ gate.Binds v ∧ ∃ m ∈ gate.inputs, c.Sees v (odd ^^ decide (l < 0)) m := by
  constructor
  · rintro ⟨path, below, crossed⟩
    cases below with
    | leaf same _ small =>
      have notBelow := maxVar_le_of_gate? found
      omega
    | input other member free rest =>
      obtain rfl := Option.some.inj (found.symm.trans other)
      exact ⟨free, _, member, _, rest, (odd_countP_cons ..).mp crossed⟩
  · rintro ⟨free, m, member, path, rest, crossed⟩
    exact ⟨l :: path, .input found member free rest, (odd_countP_cons ..).mpr crossed⟩

theorem sees_natCast_variable_iff (missing : c.gate? id = none) :
    c.Sees v odd (id : Int) ↔ (id = v ∧ 0 < v ∧ v < c.maxVar) ∧ odd = false := by
  rw [sees_variable_iff (by rwa [Int.natAbs_natCast]), Int.natAbs_natCast,
    decide_eq_false (Int.not_ofNat_neg id)]

theorem sees_natCast_gate_iff (found : c.gate? id = some gate) :
    c.Sees v odd (id : Int) ↔ ¬ gate.Binds v ∧ ∃ m ∈ gate.inputs, c.Sees v odd m := by
  rw [sees_gate_iff (by rwa [Int.natAbs_natCast]), decide_eq_false (Int.not_ofNat_neg id),
    Bool.xor_false]

theorem sees_natAbs_iff :
    c.Sees v odd l ↔ c.Sees v (odd ^^ decide (l < 0)) (l.natAbs : Int) := by
  cases found : c.gate? l.natAbs with
  | none =>
    rw [sees_variable_iff found, sees_natCast_variable_iff found]
    refine and_congr_right fun _ => ?_
    cases odd <;> simp
  | some gate => rw [sees_gate_iff found, sees_natCast_gate_iff found]

theorem prefers_literal (hidden : ¬ c.Sees v odd l)
    (below : ∀ odd, ¬ c.Sees v odd (l.natAbs : Int) →
      Prefers .ex (c.interpretation l.natAbs) v odd) : Prefers .ex (c.meaning l) v odd := by
  rw [sees_natAbs_iff] at hidden
  have unsigned := below _ hidden
  by_cases negative : l < 0
  · have flipped : c.meaning l = fun σ => !c.interpretation l.natAbs σ := by
      funext σ
      simp [meaning, Interpretation.literal, negative]
    rw [flipped]
    exact Prefers.not (by simpa [negative] using unsigned)
  · have same : c.meaning l = c.interpretation l.natAbs := by
      funext σ
      simp [meaning, Interpretation.literal, negative]
    rw [same]
    simpa [negative] using unsigned

theorem prefers_interpretation (valid : c.WellFormed) (positive : 0 < id)
    (inside : id < c.maxGate) (hidden : ¬ c.Sees v odd (id : Int)) :
    Prefers .ex (c.interpretation id) v odd := by
  induction id using Nat.strongRecOn generalizing odd with
  | _ id ih =>
    cases found : c.gate? id with
    | none =>
      rw [sees_natCast_variable_iff found] at hidden
      rw [interpretation_variable found]
      intro σ reached
      by_cases same : id = v
      · subst id
        have small := lt_maxVar_of_gate?_eq_none found inside
        have turned : odd = true := by simpa [positive, small] using hidden
        simp [turned, Quantifier.decisive]
      · simpa [same] using reached
    | some gate =>
      rw [sees_natCast_gate_iff found] at hidden
      rw [interpretation_gate valid found]
      by_cases binds : gate.Binds v
      · obtain ⟨q, quantifies⟩ := Option.isSome_iff_exists.mp binds.1
        rw [Gate.meaning_quantifier _ (Connective.gate_of_quantifier? quantifies).symm]
        exact (q.ignores_overVars_of_mem _ binds.2).prefers .ex odd
      · refine Gate.prefers (valid.one_input id gate found) binds fun m member => ?_
        obtain ⟨nonzero, earlier⟩ := valid.inputs_lt id gate found m member
        exact prefers_literal (fun seen => hidden ⟨binds, m, member, seen⟩) fun odd =>
          ih m.natAbs earlier (Int.natAbs_pos.mpr nonzero) (Nat.lt_trans earlier inside)

/-- Turning a variable on (or off) never turns a literal off that sees it through no odd (or
no even) number of negations. -/
theorem prefers_meaning (valid : c.WellFormed) (defined : c.Defines l)
    (hidden : ¬ c.Sees v odd l) : Prefers .ex (c.meaning l) v odd :=
  prefers_literal hidden fun _ =>
    prefers_interpretation valid (Int.natAbs_pos.mpr defined.1) defined.2

end Circuit

end QuantCircuit
