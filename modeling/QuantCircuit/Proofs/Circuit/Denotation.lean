import QuantCircuit.Proofs.Circuit.Evaluation

namespace QuantCircuit

/-- Sets the variables to the values in turn. The last value of a variable is the one that
counts if it is listed more than once. -/
def Assignment.setAll (σ : Assignment) : List Nat → List Bool → Assignment
  | v :: vars, value :: values => (σ.set v value).setAll vars values
  | _, _ => σ

namespace Quantifier

/-- A quantifier is settled iff one of the settings of its variables settles it. -/
theorem overVars_eq_decisive_iff_setAll (q : Quantifier) (p : Assignment → Bool)
    (vars : List Nat) (σ : Assignment) :
    q.overVars p vars σ = q.decisive ↔ ∃ values : List Bool, values.length = vars.length ∧
      p (σ.setAll vars values) = q.decisive := by
  induction vars generalizing σ with
  | nil =>
    constructor
    · exact fun settled => ⟨[], rfl, settled⟩
    · rintro ⟨values, none, settled⟩
      obtain rfl := List.length_eq_zero_iff.mp none
      exact settled
  | cons v rest ih =>
    rw [overVars, overBool_eq_decisive]
    constructor
    · rintro ⟨value, settled⟩
      obtain ⟨values, count, reached⟩ := (ih _).mp settled
      exact ⟨value :: values, by simpa using count, reached⟩
    · rintro ⟨values, count, reached⟩
      obtain ⟨value, others, rfl⟩ := List.exists_cons_of_length_eq_add_one count
      exact ⟨value, (ih _).mpr ⟨others, by simpa using count, reached⟩⟩

theorem overVars_ex_iff_setAll (p : Assignment → Bool) (vars : List Nat) (σ : Assignment) :
    ex.overVars p vars σ = true ↔ ∃ values : List Bool, values.length = vars.length ∧
      p (σ.setAll vars values) = true :=
  overVars_eq_decisive_iff_setAll ex p vars σ

theorem overVars_all_iff_setAll (p : Assignment → Bool) (vars : List Nat) (σ : Assignment) :
    all.overVars p vars σ = true ↔ ∀ values : List Bool, values.length = vars.length →
      p (σ.setAll vars values) = true := by
  have refuted := not_congr (overVars_eq_decisive_iff_setAll all p vars σ)
  simpa [decisive] using refuted

end Quantifier

namespace Circuit

variable {c : Circuit} {f g : Literal → Assignment → Bool} {l out : Literal}

/-- The functions solve the equations of the circuit. -/
structure Denotes (c : Circuit) (f : Literal → Assignment → Bool) : Prop where
  leaf : ∀ v : Nat, 0 < v → v < c.maxVar → ∀ σ, f v σ = σ v
  negation : ∀ l, c.Defines l → ∀ σ, f (-l) σ = !f l σ
  conjunction : ∀ (id : Nat) (gate : Gate), c.gate? id = some gate → gate.connective = .and →
    ∀ σ, f id σ = true ↔ ∀ l ∈ gate.inputs, f l σ = true
  disjunction : ∀ (id : Nat) (gate : Gate), c.gate? id = some gate → gate.connective = .or →
    ∀ σ, f id σ = true ↔ ∃ l ∈ gate.inputs, f l σ = true
  universal : ∀ (id : Nat) (gate : Gate), c.gate? id = some gate → gate.connective = .all →
    ∀ σ, f id σ = true ↔ ∀ values : List Bool, values.length = gate.bound.length →
      f gate.body (σ.setAll (gate.bound.map Int.natAbs) values) = true
  existential : ∀ (id : Nat) (gate : Gate), c.gate? id = some gate → gate.connective = .ex →
    ∀ σ, f id σ = true ↔ ∃ values : List Bool, values.length = gate.bound.length ∧
      f gate.body (σ.setAll (gate.bound.map Int.natAbs) values) = true

theorem denotes_meaning (valid : c.WellFormed) : c.Denotes c.meaning where
  leaf := fun v _ below σ => by
    rw [meaning_natCast, interpretation_variable (gate?_eq_none_of_lt below)]
  negation := fun l defined σ => c.meaning_neg defined.1 σ
  conjunction := fun id gate found kind σ => by
    rw [meaning_natCast, interpretation_gate valid found, Gate.meaning, kind]
    exact List.all_eq_true
  disjunction := fun id gate found kind σ => by
    rw [meaning_natCast, interpretation_gate valid found, Gate.meaning, kind]
    exact List.any_eq_true
  universal := fun id gate found kind σ => by
    rw [meaning_natCast, interpretation_gate valid found, Gate.meaning, kind,
      ← List.length_map Int.natAbs]
    exact Quantifier.overVars_all_iff_setAll _ _ σ
  existential := fun id gate found kind σ => by
    rw [meaning_natCast, interpretation_gate valid found, Gate.meaning, kind,
      ← List.length_map Int.natAbs]
    exact Quantifier.overVars_ex_iff_setAll _ _ σ

theorem Denotes.literal_eq (first : c.Denotes f) (second : c.Denotes g) (defined : c.Defines l)
    (same : f (l.natAbs : Int) = g (l.natAbs : Int)) : f l = g l := by
  have unsigned : c.Defines (l.natAbs : Int) :=
    defines_natCast (Int.natAbs_pos.mpr defined.1) defined.2
  rcases Int.natAbs_eq l with positive | negative
  · rw [positive]
    exact same
  · rw [negative]
    funext σ
    rw [first.negation _ unsigned, second.negation _ unsigned, same]

/-- The equations have one solution. -/
theorem Denotes.unique (first : c.Denotes f) (second : c.Denotes g) (valid : c.WellFormed)
    (defined : c.Defines l) : f l = g l := by
  refine first.literal_eq second defined ?_
  obtain ⟨nonzero, inside⟩ := defined
  have positive := Int.natAbs_pos.mpr nonzero
  generalize l.natAbs = id at positive inside
  induction id using Nat.strongRecOn with
  | _ id ih =>
    cases found : c.gate? id with
    | none =>
      have small := lt_maxVar_of_gate?_eq_none found inside
      funext σ
      rw [first.leaf id positive small, second.leaf id positive small]
    | some gate =>
      have inputs (l : Literal) (member : l ∈ gate.inputs) : f l = g l := by
        obtain ⟨nonzero, earlier⟩ := valid.inputs_lt id gate found l member
        have below := Nat.lt_trans earlier inside
        exact first.literal_eq second ⟨nonzero, below⟩
          (ih l.natAbs earlier (Int.natAbs_pos.mpr nonzero) below)
      have body (kind : gate.connective.isQuantifier = true) : f gate.body = g gate.body := by
        obtain ⟨m, only⟩ := List.length_eq_one_iff.mp (valid.one_input id gate found kind)
        exact inputs gate.body (by simp [Gate.body, only])
      funext σ
      rw [Bool.eq_iff_iff]
      cases kind : gate.connective with
      | and =>
        rw [first.conjunction id gate found kind, second.conjunction id gate found kind]
        exact forall₂_congr fun l member => by rw [inputs l member]
      | or =>
        rw [first.disjunction id gate found kind, second.disjunction id gate found kind]
        exact exists_congr fun l => and_congr_right fun member => by rw [inputs l member]
      | all =>
        rw [first.universal id gate found kind, second.universal id gate found kind,
          body (by rw [kind]; rfl)]
      | ex =>
        rw [first.existential id gate found kind, second.existential id gate found kind,
          body (by rw [kind]; rfl)]

/-- Evaluation computes what the circuit denotes, whatever entries there are. Every call for a
literal that has fuel for the gates below it, and values of its scope that are right, returns
the literal's value, keeps right values only, and leaves the assignment as it found it; only
a literal that the circuit does not have fails. -/
theorem evaluate_denotes (valid : c.WellFormed) (output : c.output? = some out) :
    c.Denotes c.meaning ∧
      (∀ f, c.Denotes f → ∀ l, c.Defines l → f l = c.meaning l) ∧
      (∀ entries : List Bool,
        c.evaluate entries = .ok (c.meaning out (.ofEntries entries))) ∧
      ∀ (depth : Nat) (l : Literal) (values : Values) (assignment : Array Bool),
        l.natAbs < c.maxVar + depth → assignment.size = c.maxVar →
        c.Knows (assigned assignment) values →
        (l.natAbs < c.maxGate → ∃ later, c.evaluateWithin depth l values assignment =
            .ok ((c.meaning l (assigned assignment), later), assignment) ∧
          c.Knows (assigned assignment) later) ∧
        (c.maxGate ≤ l.natAbs →
          c.evaluateWithin depth l values assignment = .error (.outOfRange l.natAbs)) := by
  have denotes := denotes_meaning valid
  refine ⟨denotes, fun f other l defined => other.unique denotes valid defined,
    computes_meaning valid output, ?_⟩
  intro depth l values assignment enough sized knows
  exact ⟨fun below => evaluateWithin_yields valid depth sized below enough values knows,
    fun outside => evaluateWithin_outside sized outside depth values⟩

/-- A circuit that lists a bound variable twice, binds it again inside, and shares a gate
between the scopes. -/
def overlapping : Circuit where
  name := "overlapping"
  maxVar := 3
  gates := #[{ connective := .or, inputs := [1, -2] }, .quantify .ex [2, 2] 3,
    { connective := .and, inputs := [4, 3] }, .quantify .all [2] 5,
    { connective := .or, inputs := [6, -3] }]
  output? := some (-7)
  names := #["", "1", "2", "3", "4", "5", "6", "7"]
  origin := #[0, 1, 2, 3, 4, 5, 6, 7]

theorem overlapping_evaluate_denotes :
    overlapping.evaluate [false, true] = .ok false ∧ overlapping.evaluate [] = .ok true ∧
      ∃ later, overlapping.evaluateWithin 5 6 ∅ #[false, false, true] =
        .ok ((false, later), #[false, false, true]) := by
  obtain ⟨_, _, computes, calls⟩ := evaluate_denotes (by decide : overlapping.WellFormed) rfl
  refine ⟨computes [false, true], computes [], ?_⟩
  obtain ⟨later, ran, _⟩ :=
    (calls 5 6 ∅ #[false, false, true] (by decide) rfl (knows_empty _ _)).1 (by decide)
  exact ⟨later, ran⟩

end Circuit

end QuantCircuit
