import QuantCircuit.Proofs.Circuit.Tightness

/-! Where the quantifier over a variable comes to rest below a quantifier that can go no
further: the outer quantifier still cannot, or the two meet and become one gate. -/

namespace QuantCircuit.Circuit.Descent

variable {c m t more : Circuit} {gate inner body : Gate} {q : Quantifier} {x id : Nat}
variable {b l r : Literal} {bound inside outside : List Literal}

/-- The literal is that of a new gate over the first circuit. -/
structure Adds (t m : Circuit) (gate : Gate) (r : Literal) : Prop extends Realizes t m gate r where
  positive : 0 < r
  located : m.gate? r.natAbs = some gate

theorem adds_append (valid : t.WellFormed) (named : 0 < t.names.size) (accepts : t.Accepts gate)
    (name : String) : Adds t (t.append gate name) gate t.maxGate where
  toRealizes := realizes_append valid named accepts name
  positive := Int.natCast_pos.mpr (Nat.lt_of_lt_of_le valid.maxVar_pos (Nat.le_add_right ..))
  located := by rw [Int.natAbs_natCast, gate?_append, if_pos rfl]

theorem Adds.gateOf? (adds : Adds t m gate r) : m.gateOf? r = some gate :=
  gateOf?_eq_some_iff.mpr ⟨Int.le_of_lt adds.positive, adds.located⟩

/-- A quantifier over the listed variables cannot go past the literal, or meets its own kind
there and cannot go further together with it. -/
def Lands (m : Circuit) (q : Quantifier) (x : Nat) (bound : List Literal) (r : Literal) : Prop :=
  (∃ body, m.Carries q bound r body) ∨ ∃ b body, m.gateOf? r = some (.quantify q [(x : Int)] b) ∧
    m.Carries q (bound ++ [(x : Int)]) b body

theorem gateOf?_later (found : m.gateOf? r = some gate) (continues : m.Continues more) :
    more.gateOf? r = some gate := by
  obtain ⟨notNegative, located⟩ := gateOf?_eq_some_iff.mp found
  exact gateOf?_eq_some_iff.mpr ⟨notNegative, continues.gate? _ gate located⟩

theorem Lands.later (lands : Lands m q x bound r) (valid : m.WellFormed)
    (continues : m.Continues more) : Lands more q x bound r := by
  rcases lands with ⟨body, carries⟩ | ⟨b, body, found, carries⟩
  · exact .inl ⟨body, carries.later valid continues⟩
  · exact .inr ⟨b, body, gateOf?_later found continues, carries.later valid continues⟩

/-- The literal means the quantifier over `x`, which has come to rest as far down as a
quantifier in front of it allows. -/
structure Brings (c m : Circuit) (q : Quantifier) (x : Nat) (l r : Literal) : Prop
    extends Quantifies c m q x l r where
  lands : ∀ bound body, c.Carries q bound l body → c.Occurs x l.natAbs →
    x ∉ bound.map Int.natAbs → Lands m q x bound r

theorem Brings.later (brings : Brings c m q x l r) (continues : m.Continues more)
    (valid : m.WellFormed) (validMore : more.WellFormed) : Brings c more q x l r where
  toQuantifies := brings.toQuantifies.later continues valid validMore
  lands := fun bound body carries occurs fresh =>
    (brings.lands bound body carries occurs fresh).later valid continues

theorem Brings.neg (positive : 0 < l) (brings : Brings c m q.dual x l r) :
    Brings c m q x (-l) (-r) where
  toQuantifies := brings.toQuantifies.neg (Int.ne_of_gt positive)
  lands := by
    intro bound body carries
    exact absurd carries.positive
      (Int.not_lt.mpr (Int.neg_nonpos_of_nonneg (Int.le_of_lt positive)))

theorem Quantifies.brings_of_absent (quantifies : Quantifies c m q x l r)
    (absent : ¬ c.Occurs x l.natAbs) : Brings c m q x l r :=
  ⟨quantifies, fun _ _ _ occurs => absurd occurs absent⟩

theorem Quantifies.brings_of_missing (quantifies : Quantifies c m q x l r)
    (missing : c.gate? l.natAbs = none) : Brings c m q x l r :=
  ⟨quantifies, fun _ _ carries => nomatch missing.symm.trans carries.found⟩

/-- Nor in front of a gate that the quantifier goes past. -/
theorem Quantifies.brings_of_kind (quantifies : Quantifies c m q x id r)
    (found : c.gate? id = some gate)
    (kind : gate.connective = q.distributesOver ∨ gate.connective = q.gate) :
    Brings c m q x id r := by
  refine ⟨quantifies, fun bound body carries => ?_⟩
  obtain rfl : gate = body := Option.some.inj (found.symm.trans carries.found)
  exact (kind.elim carries.kind_ne.1 carries.kind_ne.2).elim

theorem Quantifies.brings_of_stays (quantifies : Quantifies c m q x id r) (valid : c.WellFormed)
    (continues : c.Continues m) (found : c.gate? id = some gate) (kind : gate.connective = q.dual.gate)
    (adds : Adds t m (.quantify q [(x : Int)] id) r) : Brings c m q x id r := by
  refine ⟨quantifies, fun bound body carries occurs _ => .inr ⟨id, gate, adds.gateOf?, ?_⟩⟩
  refine carries_dual (Int.natCast_pos.mp carries.positive) (continues.gate? id gate found) kind
    fun v member => (continues.occurs_iff valid (lt_maxGate_of_gate? found)).mpr ?_
  rcases List.mem_append.mp member with before | last
  · exact carries.occurs v before
  · exact List.mem_singleton.mp last ▸ occurs

section Absorbing

/-- What a quantifier gate that the variable occurs in binds, and where the quantifier over
the variable comes to rest behind it. -/
theorem Brings.lands_body (brings : Brings c m q x gate.body b) (tight : c.Tight)
    (found : c.gate? id = some gate) (kind : gate.connective = q.gate) (occurs : c.Occurs x id) :
    gate.bound ≠ [] ∧ x ∉ gate.bound.map Int.natAbs ∧ Lands m q x gate.bound b := by
  obtain ⟨some, k, body, inputs, carries⟩ := tight id gate found q kind
  obtain ⟨free, l, member, below⟩ := (occurs_gate_iff found).mp occurs
  obtain rfl : gate.body = k := by simp [Gate.body, inputs]
  obtain rfl : l = gate.body := by simpa [inputs] using member
  have fresh : x ∉ gate.bound.map Int.natAbs := fun listed => free ⟨by simp [kind], listed⟩
  exact ⟨some, fresh, brings.lands gate.bound body carries below fresh⟩

theorem Lands.tightAt_absorbed (lands : Lands t q x bound b) (nonempty : bound ≠ [])
    (none : ∀ inner, t.gateOf? b = some inner → inner.connective ≠ q.gate) :
    t.TightAt (.quantify q bound b) := by
  rcases lands with ⟨body, carries⟩ | ⟨k, body, found, _⟩
  · exact tightAt_quantify nonempty carries
  · exact absurd rfl (none _ found)

theorem Lands.tightAt_merged (lands : Lands t q x bound b) (fresh : x ∉ bound.map Int.natAbs)
    (located : t.gateOf? b = some inner) (kind : inner.connective = q.gate) :
    t.TightAt (.quantify q (mergeBound bound inner.bound) inner.body) := by
  rcases lands with ⟨body, carries⟩ | ⟨k, body, found, carries⟩
  · obtain ⟨_, gate⟩ := gateOf?_eq_some_iff.mp located
    obtain rfl : body = inner := Option.some.inj (carries.found.symm.trans gate)
    exact absurd kind carries.kind_ne.2
  · obtain rfl := Option.some.inj (found.symm.trans located)
    have new : (x : Int) ∉ bound := fun listed => fresh (List.mem_map.mpr ⟨x, listed, rfl⟩)
    have merged : mergeBound bound [(x : Int)] = bound ++ [(x : Int)] := by
      simp [mergeBound, new]
    show t.TightAt (.quantify q (mergeBound bound [(x : Int)]) k)
    rw [merged]
    exact tightAt_quantify (by simp) carries

end Absorbing

section Dividing

/-- A quantifier over variables that all of several inputs mention cannot go past them. -/
theorem carries_inside (valid : c.WellFormed) (continues : c.Continues m)
    (defined : ∀ l ∈ inside, c.Defines l) (several : 2 ≤ inside.length)
    (mention : ∀ l ∈ inside, ∀ v ∈ bound, c.Occurs v.natAbs l.natAbs)
    (adds : Adds t m { connective := q.dual.distributesOver, inputs := inside } b) :
    m.Carries q bound b { connective := q.dual.distributesOver, inputs := inside } := by
  have kept (l : Literal) (member : l ∈ inside) (v : Literal) (listed : v ∈ bound) :
      m.Occurs v.natAbs l.natAbs :=
    (continues.occurs_iff valid (defined l member).2).mpr (mention l member v listed)
  refine ⟨adds.positive, adds.located, fun v listed => ?_, .inr ⟨rfl, several, kept⟩⟩
  obtain ⟨l, member⟩ := List.exists_mem_of_length_pos (Nat.lt_of_lt_of_le Nat.two_pos several)
  exact (occurs_gate_iff adds.located).mpr ⟨by simp [Gate.Binds], l, member, kept l member v listed⟩

/-- If several inputs all mention some variables, a quantifier over these lands there. -/
def Gathers (c m : Circuit) (q : Quantifier) (x : Nat) (inside : List Literal) (b : Literal) :
    Prop :=
  2 ≤ inside.length → ∀ bound, (∀ l ∈ inside, ∀ v ∈ bound, c.Occurs v.natAbs l.natAbs) →
    Lands m q x bound b

theorem Carries.mention (carries : c.Carries q bound (id : Int) body)
    (found : c.gate? id = some gate) (kind : gate.connective = q.dual.distributesOver) :
    2 ≤ gate.inputs.length ∧ ∀ l ∈ gate.inputs, ∀ v ∈ bound, c.Occurs v.natAbs l.natAbs := by
  obtain rfl : gate = body := Option.some.inj (found.symm.trans carries.found)
  rcases carries.stops with other | ⟨_, facts⟩
  · exact absurd (other.symm.trans kind) (Quantifier.gate_ne_distributesOver _ _)
  · exact facts

/-- All inputs mention the variable, so the quantifier stays in front of all of them. -/
theorem Quantifies.brings_of_gathers (quantifies : Quantifies c m q x id r)
    (found : c.gate? id = some gate) (kind : gate.connective = q.dual.distributesOver)
    (same : gate.inputs.Perm inside) (gathers : Gathers c m q x inside r) :
    Brings c m q x id r := by
  refine ⟨quantifies, fun bound body carries _ _ => ?_⟩
  obtain ⟨several, mention⟩ := Carries.mention carries found kind
  exact gathers (same.length_eq ▸ several) bound fun l member => mention l (same.mem_iff.mpr member)

/-- Some inputs do not mention the variable, and stay beside its quantifier. -/
theorem Quantifies.brings_of_rejoins (quantifies : Quantifies c m q x id r) (valid : c.WellFormed)
    (continues : c.Continues m) (found : c.gate? id = some gate)
    (kind : gate.connective = q.dual.distributesOver)
    (inputs : ∀ l, l ∈ gate.inputs ↔ l ∈ inside ∨ l ∈ outside) (moves : inside ≠ [])
    (stays : outside ≠ [])
    (occurs : ∀ v, m.Occurs v b.natAbs ↔ v ≠ x ∧ ∃ l ∈ inside, c.Occurs v l.natAbs)
    (adds : Adds t m { connective := gate.connective, inputs := outside ++ [b] } r) :
    Brings c m q x id r := by
  refine ⟨quantifies, fun bound body carries _ fresh => .inl ⟨_, adds.positive, adds.located,
    fun v listed => ?_, .inr ⟨kind, ?_, fun l member v listed => ?_⟩⟩⟩
  all_goals
    have different {v : Literal} (listed : v ∈ bound) : v.natAbs ≠ x := fun same =>
      fresh (List.mem_map.mpr ⟨v, listed, same⟩)
    obtain ⟨_, mention⟩ := Carries.mention carries found kind
  · exact (quantifies.occurs_iff _).mpr ⟨different listed, carries.occurs v listed⟩
  · have one := List.length_pos_iff.mpr stays
    simp only [List.length_append, List.length_singleton]
    omega
  · rcases List.mem_append.mp member with early | last
    · have input := (inputs l).mpr (.inr early)
      obtain ⟨_, earlier⟩ := valid.inputs_lt id gate found l input
      exact (continues.occurs_iff valid (Nat.lt_trans earlier (lt_maxGate_of_gate? found))).mpr
        (mention l input v listed)
    · obtain rfl := List.mem_singleton.mp last
      obtain ⟨k, inner⟩ := List.exists_mem_of_ne_nil inside moves
      exact (occurs _).mpr ⟨different listed, k, inner, mention k ((inputs k).mpr (.inl inner)) v listed⟩

end Dividing

end QuantCircuit.Circuit.Descent
