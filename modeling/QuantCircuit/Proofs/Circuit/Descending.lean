import QuantCircuit.Proofs.Circuit.Analysing
import QuantCircuit.Proofs.Circuit.Landing

/-! Bringing the quantifier of a variable down to where the variable occurs. Gates are
only added, so what was found for an identifier stays right, and quantifiers that could go
no further still cannot. -/

namespace QuantCircuit.Circuit.Descent

variable {c m t : Circuit} {gate inner : Gate} {q : Quantifier} {x id : Nat}
variable {b l r : Literal} {inside outside results : List Literal}

/-- What holds while a quantifier is brought down: the gates of the circuit are still
there, tight if they were, and what has been remembered is right. -/
structure Descends (c : Circuit) (x : Nat) (s : Descent) : Prop where
  valid : s.circuit.WellFormed
  named : 0 < s.circuit.names.size
  continues : c.Continues s.circuit
  tight : c.Tight → s.circuit.Tight
  found : ∀ (q : Quantifier) (id : Nat) (r : Literal), s.found[(q, id)]? = some r →
    Brings c s.circuit q x (id : Int) r

/-- The work succeeds, only adds gates, and ends in a result with the property. -/
def Leads (c : Circuit) (x : Nat) (work : Descend α) (s : Descent)
    (post : α → Circuit → Prop) : Prop :=
  ∃ a t, work s = .ok (a, t) ∧ Descends c x t ∧ s.circuit.Continues t.circuit ∧ post a t.circuit

variable {s : Descent} {α β : Type} {work : Descend α} {post : α → Circuit → Prop}
variable {goal : β → Circuit → Prop}

theorem leads_pure {a : α} (descends : Descends c x s) (reached : post a s.circuit) :
    Leads c x (pure a) s post :=
  ⟨a, s, rfl, descends, .refl _, reached⟩

theorem Leads.bind {next : α → Descend β} (first : Leads c x work s post)
    (rest : ∀ a t, Descends c x t → s.circuit.Continues t.circuit → post a t.circuit →
      Leads c x (next a) t goal) : Leads c x (work >>= next) s goal := by
  obtain ⟨a, t, ran, descends, continues, reached⟩ := first
  obtain ⟨b, u, again, last, further, ended⟩ := rest a t descends continues reached
  refine ⟨b, u, ?_, last, continues.trans further, ended⟩
  show (work s >>= fun p => next p.1 p.2) = .ok (b, u)
  rw [ran]
  exact again

theorem Leads.map {change : α → β} (leads : Leads c x work s fun a m => goal (change a) m) :
    Leads c x (change <$> work) s goal := by
  rw [map_eq_pure_bind]
  exact leads.bind fun _ _ descends _ reached => leads_pure descends reached

theorem leads_get {next : Descent → Descend β} (rest : Leads c x (next s) s goal) :
    Leads c x (get >>= next) s goal :=
  rest

theorem leads_lift {check : Except Error α} {a : α} {next : α → Descend β} (passes : check = .ok a)
    (rest : Leads c x (next a) s goal) :
    Leads c x ((liftM check : Descend α) >>= next) s goal := by
  subst check
  exact rest

theorem Leads.mono {better : α → Circuit → Prop} (leads : Leads c x work s post)
    (implied : ∀ a m, c.Continues m → s.circuit.Continues m → post a m → better a m) :
    Leads c x work s better := by
  obtain ⟨a, t, ran, descends, continues, reached⟩ := leads
  exact ⟨a, t, ran, descends, continues, implied a _ descends.continues continues reached⟩

theorem leads_addGate (descends : Descends c x s) (accepts : s.circuit.Accepts gate)
    (tight : c.Tight → s.circuit.TightAt gate) :
    Leads c x (addGate gate) s fun r m => Adds s.circuit m gate r := by
  have added := continues_append descends.valid gate s.circuit.freshName
  have valid := descends.valid.append descends.named accepts s.circuit.freshName
  refine leads_get ?_
  rw [addGate_eq accepts]
  refine ⟨_, _, rfl, ⟨valid, ?_, descends.continues.trans added, fun before => ?_, ?_⟩, added,
    adds_append descends.valid descends.named accepts _⟩
  · simp [append]
  · exact (descends.tight before).append descends.valid (tight before) _
  · intro q id r found
    exact (descends.found q id r found).later added descends.valid valid

theorem eq_of_compare_keys {key other : Quantifier × Nat}
    (same : compareLex (compareOn Prod.fst) (compareOn Prod.snd) key other = .eq) :
    key = other := by
  rw [compareLex_eq_eq] at same
  exact Prod.ext (Std.LawfulEqOrd.eq_of_compare same.1) (Std.LawfulEqOrd.eq_of_compare same.2)

theorem leads_remember (descends : Descends c x s) (literal : Literal)
    (brings : Brings c s.circuit q x (id : Int) literal) :
    Leads c x (remember q id literal) s fun _ m => m = s.circuit := by
  refine ⟨(), _, rfl, ⟨descends.valid, descends.named, descends.continues, descends.tight, ?_⟩,
    .refl _, rfl⟩
  intro p other r found
  rw [Std.TreeMap.getElem?_insert] at found
  split at found
  · rename_i same
    obtain ⟨rfl, rfl⟩ := Prod.mk.inj (eq_of_compare_keys same)
    exact Option.some.inj found ▸ brings
  · exact descends.found p other r found

/-- Quantifiers that come down to all inputs of a gate. -/
theorem leads_mapM {down : Literal → Descend Literal} (inputs : List Literal)
    (pushes : ∀ l ∈ inputs, ∀ s, Descends c x s →
      Leads c x (down l) s fun r m => Brings c m q x l r) (descends : Descends c x s) :
    Leads c x (inputs.mapM down) s fun rs m => List.Forall₂ (Brings c m q x) inputs rs := by
  induction inputs generalizing s with
  | nil => exact leads_pure descends .nil
  | cons l rest ih =>
    rw [List.mapM_cons]
    refine (pushes l (by simp) s descends).bind fun r t first _ brings => ?_
    refine (ih (fun l member => pushes l (by simp [member])) first).bind
      fun rs u last continues all => ?_
    exact leads_pure last (.cons (brings.later continues first.valid last.valid) all)

theorem accepts_plain (p : Quantifier) {inputs : List Literal}
    (defined : ∀ l ∈ inputs, t.Defines l) :
    t.Accepts { connective := p.distributesOver, inputs } where
  inputs := defined
  bound := by simp
  arity := by simp

theorem accepts_quantify (q : Quantifier) (defined : t.Defines b)
    {bound : List Literal} (inside : ∀ v ∈ bound, 0 < v ∧ v.natAbs < t.maxVar) :
    t.Accepts (.quantify q bound b) where
  inputs := by simpa [Gate.quantify] using defined
  bound := inside
  arity := by simp [Gate.quantify]

theorem accepts_merged (valid : t.WellFormed) {bound : List Literal}
    (found : t.gateOf? b = some inner) (kind : inner.connective = q.gate)
    (outer : ∀ v ∈ bound, 0 < v ∧ v.natAbs < t.maxVar) :
    t.Accepts (.quantify q (mergeBound bound inner.bound) inner.body) := by
  obtain ⟨_, located⟩ := gateOf?_eq_some_iff.mp found
  have only := Gate.inputs_eq_body kind (valid.one_input _ inner located)
  obtain ⟨nonzero, earlier⟩ := valid.inputs_lt _ inner located inner.body (by simp [only])
  refine accepts_quantify q ⟨nonzero, Nat.lt_trans earlier (lt_maxGate_of_gate? located)⟩ ?_
  intro v member
  rcases mem_mergeBound.mp member with old | new
  · exact outer v old
  · exact valid.bound_lt _ inner located v new

section

variable {down : Literal → Descend Literal}

theorem leads_distribute (valid : c.WellFormed) (found : c.gate? id = some gate)
    (kind : gate.connective = q.distributesOver)
    (pushes : ∀ l ∈ gate.inputs, ∀ s, Descends c x s →
      Leads c x (down l) s fun r m => Brings c m q x l r) (descends : Descends c x s) :
    Leads c x (distribute down id gate) s fun r m => Brings c m q x (id : Int) r := by
  refine (leads_mapM gate.inputs pushes descends).bind fun rs t later _ brought => ?_
  have pushed : List.Forall₂ (Quantifies c t.circuit q x) gate.inputs rs :=
    brought.imp fun _ _ brings => brings.toQuantifies
  split
  · rename_i same
    have realizes := realizes_gate later.valid (later.continues.gate? id gate found)
    have quantifies := quantifies_distributed valid found kind pushed
      (same ▸ realizes.unbound kind)
    exact leads_pure later (quantifies.brings_of_kind found (.inl kind))
  · have defined (r : Literal) (member : r ∈ rs) : t.circuit.Defines r := by
      obtain ⟨_, _, quantifies⟩ := exists_of_forall₂ pushed member
      exact quantifies.defined
    have accepts : t.circuit.Accepts { connective := gate.connective, inputs := rs } :=
      kind ▸ accepts_plain q defined
    refine (leads_addGate later accepts fun _ => tightAt_plain kind).mono
      fun r m _ _ adds => ?_
    exact (quantifies_distributed valid found kind pushed adds.toRealizes).brings_of_kind found
      (.inl kind)

/-- Two gates of one kind that meet become one. -/
theorem leads_merge (valid : c.WellFormed) (found : c.gate? id = some gate)
    (kind : gate.connective = q.gate) (occurs : c.Occurs x id)
    (bound : ∀ v ∈ gate.bound, 0 < v ∧ v.natAbs < s.circuit.maxVar)
    (brings : Brings c s.circuit q x gate.body b) (located : s.circuit.gateOf? b = some inner)
    (innerKind : inner.connective = q.gate) (descends : Descends c x s) :
    Leads c x (addGate (.quantify q (mergeBound gate.bound inner.bound) inner.body)) s
      fun r m => Brings c m q x (id : Int) r := by
  have accepts := accepts_merged descends.valid located innerKind bound
  refine (leads_addGate descends accepts fun tight => ?_).mono fun r m _ _ adds => ?_
  · obtain ⟨_, fresh, lands⟩ := brings.lands_body tight found kind occurs
    exact lands.tightAt_merged fresh located innerKind
  · have realizes := adds.toRealizes.of_merged descends.valid located innerKind
    exact (quantifies_absorbed valid found kind brings.toQuantifies realizes).brings_of_kind found
      (.inr kind)

theorem leads_absorb (valid : c.WellFormed) (found : c.gate? id = some gate)
    (kind : gate.connective = q.gate) (occurs : c.Occurs x id)
    (pushes : ∀ s, Descends c x s →
      Leads c x (down gate.body) s fun r m => Brings c m q x gate.body r)
    (descends : Descends c x s) :
    Leads c x (absorb down q id gate) s fun r m => Brings c m q x (id : Int) r := by
  have first : gate.firstInput = .ok gate.body := by
    rw [Gate.firstInput_eq]
    simp [Gate.inputs_eq_body kind (valid.one_input id gate found)]
  refine leads_lift first ((pushes s descends).bind fun b t later _ brings => ?_)
  have pushed := brings.toQuantifies
  split
  · rename_i same
    have realizes := realizes_gate later.valid (later.continues.gate? id gate found)
    rw [Gate.eq_quantify kind (valid.one_input id gate found), ← same] at realizes
    exact leads_pure later
      ((quantifies_absorbed valid found kind pushed realizes).brings_of_kind found (.inr kind))
  · refine leads_get ?_
    have bound : ∀ v ∈ gate.bound, 0 < v ∧ v.natAbs < t.circuit.maxVar := by
      rw [later.continues.maxVar_eq]
      exact valid.bound_lt id gate found
    -- no gate of this kind is met, and the gate keeps what it binds
    have keeps (none : ∀ inner, t.circuit.gateOf? b = some inner → inner.connective ≠ q.gate) :
        Leads c x (addGate (.quantify q gate.bound b)) t
          fun r m => Brings c m q x (id : Int) r := by
      refine (leads_addGate later (accepts_quantify q pushed.defined bound) fun tight => ?_).mono
        fun r m _ _ adds => ?_
      · obtain ⟨some, _, lands⟩ := brings.lands_body tight found kind occurs
        exact lands.tightAt_absorbed some none
      · exact (quantifies_absorbed valid found kind pushed adds.toRealizes).brings_of_kind found
          (.inr kind)
    dsimp only
    split
    · rename_i isGate
      obtain ⟨inner, gateFound⟩ := isGate_iff.mp isGate.2
      have located : t.circuit.gateOf? b = some inner :=
        gateOf?_eq_some_iff.mpr ⟨Int.le_of_lt isGate.1, gateFound⟩
      refine leads_lift (getGate_eq located) ?_
      split
      · rename_i innerKind
        have only := Gate.inputs_eq_body innerKind (later.valid.one_input _ inner gateFound)
        refine leads_lift (Gate.firstInput_eq (by simp [only])) ?_
        exact leads_merge valid found kind occurs bound brings located innerKind later
      · rename_i other
        exact keeps fun again same => Option.some.inj (located.symm.trans same) ▸ other
    · rename_i noGate
      refine keeps fun inner located => absurd (gateOf?_eq_some_iff.mp located) ?_
      rintro ⟨notNegative, gateFound⟩
      have positive : 0 < b := Int.lt_iff_le_and_ne.mpr ⟨notNegative, Ne.symm pushed.defined.1⟩
      exact noGate ⟨positive, isGate_iff.mpr ⟨inner, gateFound⟩⟩

theorem defines_input (valid : c.WellFormed) (found : c.gate? id = some gate)
    (member : l ∈ gate.inputs) : c.Defines l := by
  obtain ⟨nonzero, earlier⟩ := valid.inputs_lt id gate found l member
  exact ⟨nonzero, Nat.lt_trans earlier (lt_maxGate_of_gate? found)⟩

/-- What came down to the inputs with the variable joins the inputs without it. -/
theorem leads_rejoin (valid : c.WellFormed) (found : c.gate? id = some gate)
    (kind : gate.connective = q.dual.distributesOver)
    (parts : gate.inputs.Perm (inside ++ outside)) (moves : inside ≠ [])
    (stays : ∀ l ∈ outside, ¬ c.Occurs x l.natAbs) (descends : Descends c x s)
    (confines : Confines c s.circuit q x gate.connective inside b)
    (gathers : Gathers c s.circuit q x inside b) :
    Leads c x (if outside.isEmpty then pure b
      else addGate { connective := gate.connective, inputs := outside ++ [b] }) s
      fun r m => Brings c m q x (id : Int) r := by
  have inputs (l : Literal) : l ∈ gate.inputs ↔ l ∈ inside ∨ l ∈ outside :=
    parts.mem_iff.trans List.mem_append
  split
  · rename_i empty
    obtain rfl := List.isEmpty_iff.mp empty
    have realizes := realizes_single confines.defined q.dual
    rw [← kind] at realizes
    have quantifies := quantifies_divided valid found kind inputs stays descends.valid
      descends.continues confines realizes
    exact leads_pure descends (quantifies.brings_of_gathers found kind (by simpa using parts) gathers)
  · rename_i some
    have defined (l : Literal) (member : l ∈ outside ++ [b]) : s.circuit.Defines l := by
      rcases List.mem_append.mp member with early | last
      · exact descends.continues.defines
          (defines_input valid found ((inputs l).mpr (.inr early)))
      · exact List.mem_singleton.mp last ▸ confines.defined
    have accepts : s.circuit.Accepts { connective := gate.connective, inputs := outside ++ [b] } :=
      kind ▸ accepts_plain q.dual defined
    refine (leads_addGate descends accepts fun _ => tightAt_plain kind).mono
      fun r m continues further adds => ?_
    have quantifies := quantifies_divided valid found kind inputs stays descends.valid
      descends.continues confines adds.toRealizes
    exact quantifies.brings_of_rejoins valid continues found kind inputs moves (by simpa using some)
      (fun v => (further.occurs_iff descends.valid confines.defined.2).trans (confines.occurs_iff v))
      adds

theorem inside_singleton (descends : Descends c x s) (positive : 0 < x) (below : x < c.maxVar) :
    ∀ v ∈ [(x : Int)], 0 < v ∧ v.natAbs < s.circuit.maxVar := by
  intro v member
  obtain rfl := List.mem_singleton.mp member
  rw [descends.continues.maxVar_eq, Int.natAbs_natCast]
  exact ⟨Int.natCast_pos.mpr positive, below⟩

/-- Several inputs that all mention the variable become one gate, and its quantifier stays
in front of that. -/
theorem leads_gather {connective : Connective} (valid : c.WellFormed)
    (kind : connective = q.dual.distributesOver) (defined : ∀ l ∈ inside, c.Defines l)
    (several : 2 ≤ inside.length) (mention : ∀ l ∈ inside, c.Occurs x l.natAbs)
    (positive : 0 < x) (below : x < c.maxVar) (descends : Descends c x s) :
    Leads c x (addGate { connective, inputs := inside } >>= fun body =>
        addGate (.quantify q [(x : Int)] body)) s
      fun b m => Confines c m q x connective inside b ∧ Gathers c m q x inside b := by
  subst kind
  have accepts := accepts_plain q.dual fun l member =>
    descends.continues.defines (defined l member)
  refine (leads_addGate descends accepts fun _ => tightAt_plain rfl).bind
    fun body t first _ adds => ?_
  have carries (bound : List Literal)
      (others : ∀ l ∈ inside, ∀ v ∈ bound, c.Occurs v.natAbs l.natAbs) :
      t.circuit.Carries q (bound ++ [(x : Int)]) body
        { connective := q.dual.distributesOver, inputs := inside } := by
    refine carries_inside valid first.continues defined several (fun l member v listed => ?_) adds
    rcases List.mem_append.mp listed with before | last
    · exact others l member v before
    · exact List.mem_singleton.mp last ▸ mention l member
  have stays := accepts_quantify q adds.defined (inside_singleton first positive below)
  refine (leads_addGate first stays fun _ => tightAt_quantify (by simp) (carries [] (by simp))).mono
    fun b m _ further quantified => ⟨?_, fun _ bound others => ?_⟩
  · exact confines_quantified valid descends.valid descends.continues defined adds.toRealizes
      quantified.toRealizes
  · exact .inr ⟨body, _, quantified.gateOf?, (carries bound others).later first.valid further⟩

theorem leads_divide (valid : c.WellFormed) (found : c.gate? id = some gate)
    (kind : gate.connective = q.dual.distributesOver) (dependent : Literal → Bool)
    (agrees : ∀ l ∈ gate.inputs, dependent l = true ↔ c.Occurs x l.natAbs)
    (occurs : c.Occurs x id) (positive : 0 < x) (below : x < c.maxVar)
    (pushes : ∀ l ∈ gate.inputs, ∀ s, Descends c x s →
      Leads c x (down l) s fun r m => Brings c m q x l r) (descends : Descends c x s) :
    Leads c x (divide down dependent q x gate) s fun r m => Brings c m q x (id : Int) r := by
  have parts : gate.inputs.Perm
      (gate.inputs.filter dependent ++ gate.inputs.filter (not ∘ dependent)) :=
    (List.filter_append_perm dependent gate.inputs).symm
  have stays : ∀ l ∈ gate.inputs.filter (not ∘ dependent), ¬ c.Occurs x l.natAbs := by
    intro l member occurs
    obtain ⟨listed, independent⟩ := List.mem_filter.mp member
    simp [(agrees l listed).mpr occurs] at independent
  have moved (l : Literal) (member : l ∈ gate.inputs.filter dependent) :
      l ∈ gate.inputs ∧ c.Occurs x l.natAbs := by
    obtain ⟨listed, depends⟩ := List.mem_filter.mp member
    exact ⟨listed, (agrees l listed).mp depends⟩
  have moves : gate.inputs.filter dependent ≠ [] := by
    obtain ⟨_, l, member, lower⟩ := (occurs_gate_iff found).mp occurs
    exact List.ne_nil_of_mem (List.mem_filter.mpr ⟨member, (agrees l member).mpr lower⟩)
  unfold divide
  rw [List.partition_eq_filter_filter]
  dsimp only
  generalize gate.inputs.filter dependent = inside at *
  split
  · rename_i single
    refine (pushes single (moved single (by simp)).1 s descends).bind fun b t later _ brings => ?_
    refine leads_rejoin valid found kind parts moves stays later ?_
      fun several => absurd several (by simp)
    rw [kind]
    exact confines_single q.dual brings.toQuantifies
  · rename_i several
    have two : 2 ≤ inside.length := by
      rcases inside with _ | ⟨first, _ | ⟨second, rest⟩⟩
      · exact absurd rfl moves
      · exact absurd rfl (several first)
      · simp
    have gathered := leads_gather valid kind
      (fun l member => defines_input valid found (moved l member).1) two
      (fun l member => (moved l member).2) positive below descends
    rw [← bind_assoc]
    exact gathered.bind fun b t later _ ⟨confines, gathers⟩ =>
      leads_rejoin valid found kind parts moves stays later confines gathers

end

theorem leads_absent (valid : c.WellFormed) (known : 0 < id ∧ id < c.maxGate)
    (absent : ¬ c.Occurs x id) (descends : Descends c x s) :
    Leads c x (pure (id : Int)) s fun r m => Brings c m q x (id : Int) r :=
  leads_pure descends ((quantifies_self valid descends.valid descends.continues known.1 known.2
    absent).brings_of_absent absent)

theorem leads_stay (valid : c.WellFormed) (found : c.gate? id = some gate)
    (kind : gate.connective = q.dual.gate) (occurs : c.Occurs x id) (known : 0 < id)
    (positive : 0 < x) (below : x < c.maxVar) (descends : Descends c x s) :
    Leads c x (addGate (.quantify q [(x : Int)] id)) s
      fun r m => Brings c m q x (id : Int) r := by
  have last := lt_maxGate_of_gate? found
  have defined := defines_natCast known last
  have accepts := accepts_quantify q (descends.continues.defines defined)
    (inside_singleton descends positive below)
  have carries : s.circuit.Carries q [(x : Int)] (id : Int) gate :=
    carries_dual known (descends.continues.gate? id gate found) kind
      (by simpa using (descends.continues.occurs_iff valid last).mpr occurs)
  refine (leads_addGate descends accepts fun _ => tightAt_quantify (by simp) carries).mono
    fun r m continues _ adds => ?_
  exact (quantifies_quantify valid descends.valid descends.continues defined
    adds.toRealizes).brings_of_stays valid continues found kind adds

/-- What has come down to an identifier is remembered for it. -/
theorem leads_keep {work : Descend Literal}
    (leads : Leads c x work s fun r m => Brings c m q x (id : Int) r) :
    Leads c x (work >>= fun r => remember q id r >>= fun _ => pure r) s
      fun r m => Brings c m q x (id : Int) r := by
  refine leads.bind fun r t descends _ brings => ?_
  refine (leads_remember descends r brings).bind fun _ u descends _ same => ?_
  exact leads_pure descends (same ▸ brings)

theorem leads_sign {d : Dependencies} {depth : Nat} (nonzero : l ≠ 0)
    (leads : ∀ p, Leads c x (bringDownWithin d x depth p l.natAbs) s
      fun r m => Brings c m p x (l.natAbs : Int) r) :
    Leads c x (if l < 0 then (- ·) <$> bringDownWithin d x depth q.dual l.natAbs
      else bringDownWithin d x depth q l.natAbs) s fun r m => Brings c m q x l r := by
  split
  · rename_i negative
    have opposite : -((l.natAbs : Nat) : Int) = l := by
      rw [Int.ofNat_natAbs_of_nonpos (Int.le_of_lt negative), Int.neg_neg]
    refine ((leads q.dual).mono fun r m _ _ brings => ?_).map
    have positive : 0 < ((l.natAbs : Nat) : Int) :=
      Int.natCast_pos.mpr (Int.natAbs_pos.mpr nonzero)
    exact opposite ▸ brings.neg positive
  · rename_i notNegative
    have same : ((l.natAbs : Nat) : Int) = l := Int.natAbs_of_nonneg (Int.not_lt.mp notNegative)
    have leads := leads q
    rwa [same] at leads

/-- A gate that depends on the variable, if the descent goes well for its inputs. -/
theorem leads_gate (valid : c.WellFormed) {d : Dependencies} {down : Literal → Descend Literal}
    (found : c.gate? id = some gate)
    (depends : ∀ l ∈ gate.inputs, d.depends l (x : Int) = true ↔ c.Occurs x l.natAbs)
    (occurs : c.Occurs x id) (known : 0 < id) (positive : 0 < x) (below : x < c.maxVar)
    (pushed : ∀ l ∈ gate.inputs, ∀ s, Descends c x s →
      Leads c x (down l) s fun r m => Brings c m q x l r) (descends : Descends c x s) :
    Leads c x (bringGateDown down d x q id gate) s fun r m => Brings c m q x (id : Int) r := by
  obtain ⟨_, input, listed, _⟩ := (occurs_gate_iff found).mp occurs
  have some : ¬ gate.isConstant = true := by
    rw [Gate.isConstant, List.isEmpty_iff]
    exact List.ne_nil_of_mem listed
  unfold bringGateDown
  rw [if_neg some]
  by_cases distributes : gate.connective = q.distributesOver
  · rw [if_pos distributes]
    exact leads_distribute valid found distributes pushed descends
  rw [if_neg distributes]
  by_cases absorbs : gate.connective = q.gate
  · rw [if_pos absorbs]
    have only := Gate.inputs_eq_body absorbs (valid.one_input id gate found)
    exact leads_absorb valid found absorbs occurs (pushed gate.body (by simp [only])) descends
  rw [if_neg absorbs]
  by_cases quantifier : gate.connective.isQuantifier = true
  · rw [if_pos quantifier]
    have kind := Connective.eq_dual_gate quantifier absorbs
    exact leads_stay valid found kind occurs known positive below descends
  · rw [if_neg quantifier]
    have divides := Connective.eq_dual_distributesOver quantifier distributes
    exact leads_divide valid found divides (d.depends · x) depends occurs positive below pushed
      descends

/-- A variable becomes a constant, or the quantifier binds nothing in it. -/
theorem leads_variable (valid : c.WellFormed) (known : 0 < id ∧ id < c.maxGate)
    (isVariable : id < c.maxVar) (descends : Descends c x s) :
    Leads c x (if id ≠ x then pure (id : Int)
      else addGate { connective := q.dual.distributesOver, inputs := [] }) s
      fun r m => Brings c m q x (id : Int) r := by
  have found := gate?_eq_none_of_lt isVariable
  split
  · rename_i different
    have absent : ¬ c.Occurs x id := fun occurs =>
      different ((occurs_variable_iff found).mp occurs).1.symm
    exact leads_absent valid known absent descends
  · rename_i same
    obtain rfl := Classical.not_not.mp same
    exact (leads_addGate descends (accepts_plain q.dual (by simp)) fun _ => tightAt_plain rfl).mono
      fun r m _ _ adds => (quantifies_variable found adds.toRealizes).brings_of_missing found

theorem leads_level (valid : c.WellFormed) {d : Dependencies}
    (analyses : Dependencies.Analyses c d c.gates.size) (positive : 0 < x) (below : x < c.maxVar)
    (depth : Nat) (q : Quantifier) (known : 0 < id ∧ id < c.maxGate)
    (pushes : ∀ gate, c.gate? id = some gate → ∀ p, ∀ l ∈ gate.inputs, ∀ s, Descends c x s →
      Leads c x (bringDownWithin d x depth p l.natAbs) s
        fun r m => Brings c m p x (l.natAbs : Int) r) (descends : Descends c x s) :
    Leads c x (bringDownWithin d x (depth + 1) q id) s
      fun r m => Brings c m q x (id : Int) r := by
  have depends (l : Literal) (defined : c.Defines l) :
      d.depends l (x : Int) = true ↔ c.Occurs x l.natAbs := analyses.depends_iff defined.1 defined.2 x
  have defined : c.Defines (id : Int) := defines_natCast known.1 known.2
  rw [bringDownWithin]
  refine leads_get ?_
  dsimp only
  rw [descends.continues.maxVar_eq]
  split
  · rename_i isVariable
    have inside : ((id : Int)).natAbs < c.maxVar := by simpa using isVariable
    exact leads_lift (checkLiteral_eq_ok defined.1 inside)
      (leads_variable valid known isVariable descends)
  · rename_i isGate
    obtain ⟨gate, found⟩ := gate?_of_lt_maxGate (Nat.le_of_not_lt isGate) known.2
    split
    · rename_i independent
      have absent : ¬ c.Occurs x id := fun occurs => by
        simp [(depends id defined).mpr occurs] at independent
      exact leads_absent valid known absent descends
    · rename_i dependent
      have occurs : c.Occurs x id := (depends id defined).mp (by simpa using dependent)
      refine leads_get ?_
      split
      · rename_i literal remembered
        exact leads_pure descends (descends.found q id literal remembered)
      · have later := descends.continues.gate? id gate found
        have located : s.circuit.gateOf? (id : Int) = some gate :=
          gateOf?_eq_some_iff.mpr ⟨Int.natCast_nonneg id, later⟩
        refine leads_lift (getGate_eq located) (leads_keep ?_)
        refine leads_gate valid found ?_ occurs known.1 positive below (fun l member s descends => ?_)
          descends
        · exact fun l member => depends l (defines_input valid found member)
        · exact leads_sign (valid.inputs_lt id gate found l member).1
            fun p => pushes gate found p l member s descends

/-- The quantifier over a variable comes down to an identifier. -/
theorem leads_bringDownWithin (valid : c.WellFormed) {d : Dependencies}
    (analyses : Dependencies.Analyses c d c.gates.size) (positive : 0 < x) (below : x < c.maxVar)
    (depth : Nat) (q : Quantifier) (known : 0 < id ∧ id < c.maxGate)
    (enough : id < c.maxVar + depth) (descends : Descends c x s) :
    Leads c x (bringDownWithin d x (depth + 1) q id) s
      fun r m => Brings c m q x (id : Int) r := by
  induction depth generalizing q id s with
  | zero =>
    refine leads_level valid analyses positive below 0 q known (fun gate found => ?_) descends
    have lower := maxVar_le_of_gate? found
    omega
  | succ depth ih =>
    refine leads_level valid analyses positive below _ q known
      (fun gate found p l member s descends => ?_) descends
    obtain ⟨nonzero, earlier⟩ := valid.inputs_lt id gate found l member
    exact ih p ⟨Int.natAbs_pos.mpr nonzero, Nat.lt_trans earlier known.2⟩ (by omega) descends

theorem descends_start (valid : c.WellFormed) (positive : 0 < x) (below : x < c.maxVar) :
    Descends c x { circuit := c } := by
  have named := valid.names_pos
    (defines_natCast positive (Nat.lt_of_lt_of_le below (Nat.le_add_right ..)))
  exact ⟨valid, named, .refl c, id, fun _ _ _ found => by simp at found⟩

theorem leads_bringDown (valid : c.WellFormed) {d : Dependencies}
    (analyses : Dependencies.Analyses c d c.gates.size) (positive : 0 < x) (below : x < c.maxVar)
    (q : Quantifier) (defined : c.Defines l) (descends : Descends c x s) :
    Leads c x (bringDown d q x l) s fun r m => Brings c m q x l r := by
  have known : 0 < l.natAbs ∧ l.natAbs < c.maxGate := ⟨Int.natAbs_pos.mpr defined.1, defined.2⟩
  unfold bringDown
  refine leads_get (leads_sign defined.1 fun p => ?_)
  exact leads_bringDownWithin valid analyses positive below _ p known
    (descends.continues.lt_maxVar_add known.2) descends

end QuantCircuit.Circuit.Descent
