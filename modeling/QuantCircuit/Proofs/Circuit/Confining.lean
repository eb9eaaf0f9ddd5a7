import QuantCircuit.Proofs.Circuit.Occurrence
import QuantCircuit.Proofs.Circuit.Pushing

namespace QuantCircuit.Circuit.Descent

variable {c m t more : Circuit} {gate inner : Gate} {q : Quantifier} {x id : Nat}
variable {b l r : Literal} {inside outside results : List Literal}

/-- In the second circuit `r` means the quantifier over `x` of what `l` means in the first
one. The variable has gone, and the other ones are there as before. -/
structure Quantifies (c m : Circuit) (q : Quantifier) (x : Nat) (l r : Literal) : Prop where
  defined : m.Defines r
  meaning_eq : m.meaning r = q.overVars (c.meaning l) [x]
  occurs_iff : ∀ v, m.Occurs v r.natAbs ↔ v ≠ x ∧ c.Occurs v l.natAbs

theorem Quantifies.occurs (quantifies : Quantifies c m q x l r) (v : Nat)
    (occurs : m.Occurs v r.natAbs) : v ≠ x ∧ c.Occurs v l.natAbs :=
  (quantifies.occurs_iff v).mp occurs

theorem Quantifies.later (quantifies : Quantifies c m q x l r) (continues : m.Continues more)
    (valid : m.WellFormed) (validMore : more.WellFormed) : Quantifies c more q x l r where
  defined := continues.defines quantifies.defined
  meaning_eq := (continues.meaning_eq valid validMore quantifies.defined).trans
    quantifies.meaning_eq
  occurs_iff := fun v =>
    (continues.occurs_iff valid quantifies.defined.2).trans (quantifies.occurs_iff v)

theorem Quantifies.neg (nonzero : l ≠ 0) (quantifies : Quantifies c m q.dual x l r) :
    Quantifies c m q x (-l) (-r) where
  defined := ⟨Int.neg_ne_zero.mpr quantifies.defined.1, by
    rw [Int.natAbs_neg]; exact quantifies.defined.2⟩
  meaning_eq := by
    have before : c.meaning (-l) = fun σ => !c.meaning l σ := funext (c.meaning_neg nonzero)
    have after : m.meaning (-r) = fun σ => !m.meaning r σ :=
      funext (m.meaning_neg quantifies.defined.1)
    rw [before, after, Quantifier.overVars_neg, quantifies.meaning_eq]
  occurs_iff := by simpa only [Int.natAbs_neg] using quantifies.occurs_iff

/-- What does not mention the variable needs no quantifier. -/
theorem quantifies_self (valid : c.WellFormed) (validM : m.WellFormed) (continues : c.Continues m)
    (positive : 0 < id) (below : id < c.maxGate) (absent : ¬ c.Occurs x id) :
    Quantifies c m q x id id where
  defined := continues.defines (defines_natCast positive below)
  meaning_eq := by
    have ignored := (readsOnly_occurs valid positive below).ignores absent
    rw [meaning_natCast, meaning_natCast, continues.interpretation_eq valid validM below,
      q.overVars_of_ignores (by simpa using ignored)]
  occurs_iff := by
    intro v
    refine (continues.occurs_iff valid below).trans ⟨fun before => ⟨?_, before⟩, And.right⟩
    exact fun same => absent (same ▸ before)

/-- In the second circuit the literal means what the gate means over the first one. -/
structure Realizes (t m : Circuit) (gate : Gate) (r : Literal) : Prop where
  defined : m.Defines r
  meaning_eq : m.meaning r = gate.meaning t.interpretation
  occurs_iff : ∀ v, m.Occurs v r.natAbs ↔
    ¬ gate.Binds v ∧ ∃ l ∈ gate.inputs, t.Occurs v l.natAbs

theorem realizes_gate (valid : t.WellFormed) (found : t.gate? id = some gate) :
    Realizes t t gate id where
  defined := by
    have positive := Nat.lt_of_lt_of_le valid.maxVar_pos (maxVar_le_of_gate? found)
    exact defines_natCast positive (lt_maxGate_of_gate? found)
  meaning_eq := by rw [meaning_natCast, interpretation_gate valid found]
  occurs_iff := fun v => occurs_gate_iff found

theorem Realizes.unbound (kind : gate.connective = q.distributesOver)
    (realizes : Realizes t m gate r) :
    Realizes t m { connective := gate.connective, inputs := gate.inputs } r where
  defined := realizes.defined
  meaning_eq := by
    rw [realizes.meaning_eq]
    funext σ
    cases q <;> simp [Gate.meaning, kind, Quantifier.distributesOver]
  occurs_iff := fun v => (realizes.occurs_iff v).trans (by simp [Gate.Binds, kind])

theorem realizes_append (valid : t.WellFormed) (named : 0 < t.names.size)
    (accepts : t.Accepts gate) (name : String) :
    Realizes t (t.append gate name) gate t.maxGate where
  defined := by
    have positive : 0 < t.maxGate := Nat.lt_of_lt_of_le valid.maxVar_pos (Nat.le_add_right ..)
    exact defines_natCast positive (by rw [maxGate_append]; exact Nat.lt_succ_self _)
  meaning_eq := by rw [meaning_natCast, interpretation_append valid named accepts]
  occurs_iff := by
    intro v
    have found : (t.append gate name).gate? t.maxGate = some gate := by rw [gate?_append, if_pos rfl]
    refine (occurs_gate_iff found).trans ?_
    refine and_congr_right fun _ => exists_congr fun l => and_congr_right fun member => ?_
    exact (continues_append valid gate name).occurs_iff valid (accepts.inputs l member).2

theorem quantifies_variable (missing : c.gate? x = none)
    (realizes : Realizes t m { connective := q.dual.distributesOver, inputs := [] } r) :
    Quantifies c m q x x r where
  defined := realizes.defined
  meaning_eq := by
    rw [realizes.meaning_eq, meaning_natCast, interpretation_variable missing]
    funext σ
    cases q <;> simp [Gate.meaning, Quantifier.dual, Quantifier.distributesOver,
      Quantifier.overVars, Quantifier.overBool]
  occurs_iff := by
    intro v
    rw [realizes.occurs_iff, Int.natAbs_natCast, occurs_variable_iff missing]
    constructor
    · rintro ⟨_, _, member, _⟩
      simp at member
    · rintro ⟨different, same, _⟩
      exact absurd same different

theorem exists_of_forall₂ {relation : Literal → Literal → Prop} {inputs : List Literal}
    (all : List.Forall₂ relation inputs results) (member : r ∈ results) :
    ∃ l ∈ inputs, relation l r := by
  induction all with
  | nil => simp at member
  | cons first _ ih =>
    rcases List.mem_cons.mp member with rfl | further
    · exact ⟨_, by simp, first⟩
    · obtain ⟨l, inside, related⟩ := ih further
      exact ⟨l, by simp [inside], related⟩

/-- The literals that stand for the inputs mention what these do, the variable aside. -/
theorem exists_occurs_iff (pushed : List.Forall₂ (Quantifies c t q x) inside results) (v : Nat) :
    (∃ r ∈ results, t.Occurs v r.natAbs) ↔ v ≠ x ∧ ∃ l ∈ inside, c.Occurs v l.natAbs := by
  induction pushed with
  | nil => simp
  | cons first _ ih =>
    simp only [List.exists_mem_cons_iff, ih, first.occurs_iff v, and_or_left]

/-- The quantifier may be pushed to all inputs. -/
theorem quantifies_distributed (valid : c.WellFormed) (found : c.gate? id = some gate)
    (kind : gate.connective = q.distributesOver)
    (pushed : List.Forall₂ (Quantifies c t q x) gate.inputs results)
    (realizes : Realizes t m { connective := gate.connective, inputs := results } r) :
    Quantifies c m q x id r where
  defined := realizes.defined
  meaning_eq := by
    rw [realizes.meaning_eq, meaning_natCast, interpretation_gate valid found]
    exact Gate.meaning_distributed kind (pushed.imp fun _ _ quantifies => quantifies.meaning_eq)
  occurs_iff := by
    intro v
    rw [realizes.occurs_iff, exists_occurs_iff pushed, Int.natAbs_natCast, occurs_gate_iff found]
    simp [Gate.Binds, kind]

theorem quantifies_absorbed (valid : c.WellFormed) (found : c.gate? id = some gate)
    (kind : gate.connective = q.gate) (pushed : Quantifies c t q x gate.body b)
    (realizes : Realizes t m (.quantify q gate.bound b) r) : Quantifies c m q x id r where
  defined := realizes.defined
  meaning_eq := by
    rw [realizes.meaning_eq, meaning_natCast, interpretation_gate valid found]
    exact Gate.meaning_absorbed kind pushed.meaning_eq
  occurs_iff := by
    intro v
    have only := Gate.inputs_eq_body kind (valid.one_input id gate found)
    have binds : (Gate.quantify q gate.bound b).Binds v ↔ gate.Binds v := by
      simp [Gate.Binds, Gate.quantify, kind]
    rw [realizes.occurs_iff, Int.natAbs_natCast, occurs_gate_iff found, binds, only]
    simp only [Gate.quantify, List.mem_singleton, exists_eq_left, pushed.occurs_iff v,
      and_left_comm]

theorem Realizes.of_merged (valid : t.WellFormed) {bound : List Literal}
    (found : t.gateOf? b = some inner) (kind : inner.connective = q.gate)
    (realizes : Realizes t m (.quantify q (mergeBound bound inner.bound) inner.body) r) :
    Realizes t m (.quantify q bound b) r := by
  obtain ⟨notNegative, located⟩ := gateOf?_eq_some_iff.mp found
  have literal : ((b.natAbs : Nat) : Int) = b := Int.natAbs_of_nonneg notNegative
  have only := Gate.inputs_eq_body kind (valid.one_input _ inner located)
  refine ⟨realizes.defined, ?_, fun v => ?_⟩
  · have body : t.interpretation.literal b = inner.meaning t.interpretation := by
      rw [← interpretation_gate valid located, ← meaning_natCast, literal]
      rfl
    rw [realizes.meaning_eq]
    exact Gate.meaning_merged kind body bound
  · rw [realizes.occurs_iff]
    simp only [Gate.Binds, Gate.quantify, Quantifier.isQuantifier_gate, true_and,
      mem_map_mergeBound, List.mem_append, not_or, List.mem_singleton, exists_eq_left,
      occurs_gate_iff located, only, kind, and_assoc]

theorem quantifies_quantify (valid : c.WellFormed) (validT : t.WellFormed)
    (continues : c.Continues t) (defined : c.Defines l)
    (realizes : Realizes t m (.quantify q [(x : Int)] l) r) : Quantifies c m q x l r where
  defined := realizes.defined
  meaning_eq := by
    rw [realizes.meaning_eq, Gate.meaning_quantify, ← continues.meaning_eq valid validT defined]
    rfl
  occurs_iff := by
    intro v
    rw [realizes.occurs_iff]
    simp [Gate.Binds, Gate.quantify, continues.occurs_iff valid defined.2]

/-- The literal means the quantifier over `x` of a gate of the listed inputs. -/
structure Confines (c t : Circuit) (q : Quantifier) (x : Nat) (connective : Connective)
    (inside : List Literal) (b : Literal) : Prop where
  defined : t.Defines b
  meaning_eq : t.meaning b = q.overVars
    (({ connective, inputs := inside } : Gate).meaning c.interpretation) [x]
  occurs_iff : ∀ v, t.Occurs v b.natAbs ↔ v ≠ x ∧ ∃ l ∈ inside, c.Occurs v l.natAbs

theorem confines_single (p : Quantifier) (pushed : Quantifies c t q x l b) :
    Confines c t q x p.distributesOver [l] b where
  defined := pushed.defined
  meaning_eq := by
    rw [Gate.meaning_single]
    exact pushed.meaning_eq
  occurs_iff := by simpa using pushed.occurs_iff

theorem confines_quantified (valid : c.WellFormed) (validT : t.WellFormed)
    (continues : c.Continues t) {p : Quantifier} {body : Literal}
    (inputs : ∀ l ∈ inside, c.Defines l)
    (realizes : Realizes t m { connective := p.distributesOver, inputs := inside } body)
    (quantified : Realizes m more (.quantify q [(x : Int)] body) b) :
    Confines c more q x p.distributesOver inside b where
  defined := quantified.defined
  meaning_eq := by
    have before : ({ connective := p.distributesOver, inputs := inside } : Gate).meaning
        t.interpretation = ({ connective := p.distributesOver, inputs := inside } : Gate).meaning
          c.interpretation :=
      Gate.meaning_congr (by simp) fun l member =>
        continues.meaning_eq valid validT (inputs l member)
    rw [quantified.meaning_eq, Gate.meaning_quantify, ← before, ← realizes.meaning_eq]
    rfl
  occurs_iff := by
    intro v
    have before : (∃ l ∈ inside, t.Occurs v l.natAbs) ↔ ∃ l ∈ inside, c.Occurs v l.natAbs :=
      exists_congr fun l => and_congr_right fun member =>
        continues.occurs_iff valid (inputs l member).2
    rw [quantified.occurs_iff, ← before]
    simp [Gate.Binds, Gate.quantify, realizes.occurs_iff]

theorem realizes_single (defined : t.Defines b) (p : Quantifier) :
    Realizes t t { connective := p.distributesOver, inputs := [b] } b where
  defined := defined
  meaning_eq := (Gate.meaning_single t.interpretation p b).symm
  occurs_iff := by
    intro v
    simp [Gate.Binds]

/-- The quantifier may be confined to the inputs that mention the variable. -/
theorem quantifies_divided (valid : c.WellFormed) (found : c.gate? id = some gate)
    (kind : gate.connective = q.dual.distributesOver)
    (inputs : ∀ l, l ∈ gate.inputs ↔ l ∈ inside ∨ l ∈ outside)
    (stays : ∀ l ∈ outside, ¬ c.Occurs x l.natAbs)
    (validT : t.WellFormed) (continues : c.Continues t)
    (confines : Confines c t q x gate.connective inside b)
    (realizes : Realizes t m { connective := gate.connective, inputs := outside ++ [b] } r) :
    Quantifies c m q x id r := by
  have defined (l : Literal) (member : l ∈ gate.inputs) : c.Defines l := by
    obtain ⟨nonzero, earlier⟩ := valid.inputs_lt id gate found l member
    exact ⟨nonzero, Nat.lt_trans earlier (lt_maxGate_of_gate? found)⟩
  have outer (l : Literal) (member : l ∈ outside) : c.Defines l :=
    defined l ((inputs l).mpr (.inr member))
  have free (v : Nat) : ¬ gate.Binds v := by simp [Gate.Binds, kind]
  refine ⟨realizes.defined, ?_, fun v => ?_⟩
  · rw [realizes.meaning_eq, meaning_natCast, interpretation_gate valid found]
    refine Gate.meaning_divided kind inputs ?_ ?_ confines.meaning_eq
    · intro l member v listed
      obtain rfl := List.mem_singleton.mp listed
      exact ignores_meaning valid (outer l member) (stays l member)
    · exact fun l member => continues.meaning_eq valid validT (outer l member)
  · have stayed : (∃ l ∈ outside, t.Occurs v l.natAbs) ↔
        v ≠ x ∧ ∃ l ∈ outside, c.Occurs v l.natAbs := by
      constructor
      · rintro ⟨l, member, below⟩
        have before := (continues.occurs_iff valid (outer l member).2).mp below
        exact ⟨fun same => stays l member (same ▸ before), l, member, before⟩
      · rintro ⟨_, l, member, before⟩
        exact ⟨l, member, (continues.occurs_iff valid (outer l member).2).mpr before⟩
    have unbound : ¬ ({ connective := gate.connective, inputs := outside ++ [b] } : Gate).Binds v := by
      simp [Gate.Binds, kind]
    rw [realizes.occurs_iff, Int.natAbs_natCast, occurs_gate_iff found]
    simp only [free v, unbound, not_false_eq_true, true_and, inputs, List.mem_append,
      List.mem_singleton, or_and_right, exists_or, exists_eq_left, stayed, confines.occurs_iff v,
      and_or_left]
    exact or_comm

end QuantCircuit.Circuit.Descent
