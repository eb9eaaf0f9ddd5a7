import QuantCircuit.Proofs.Circuit.Fixing
import QuantCircuit.Proofs.Solver.Forcing

/-! Simplification goes in rounds until one of them fixes nothing. Every other round takes
variables out of the function's support, so there are never too few rounds, and the last
round shows that nothing is left to fix. -/

namespace QuantCircuit.Solver

open Diagram

variable {c : Circuit} {d : Diagram} {s₀ s t u : Solver} {f₀ f r : Handle} {v : Nat} {value : Bool}
variable {q : Quantifier} {made : List (Nat × Bool)}

/-- The fixed values, with some more on top of them, the latest first. -/
def record (forced : Std.TreeMap Nat Bool) (made : List (Nat × Bool)) : Std.TreeMap Nat Bool :=
  made.foldr (fun entry forced => forced.insert entry.1 entry.2) forced

theorem record_cons (forced : Std.TreeMap Nat Bool) (entry : Nat × Bool) :
    record forced (entry :: made) = (record forced made).insert entry.1 entry.2 := rfl

theorem getElem?_record (forced : Std.TreeMap Nat Bool) (made : List (Nat × Bool)) (v : Nat) :
    (record forced made)[v]? = (Choices.ofList made v).or forced[v]? := by
  induction made with
  | nil => rfl
  | cons entry earlier ih =>
    rw [record_cons, Std.TreeMap.getElem?_insert, ih, Choices.ofList, Choices.insert]
    simp only [Std.LawfulEqCmp.compare_eq_iff_eq, eq_comm (a := entry.1)]
    split <;> rfl

section Reaching

/-- Simplification has come from one function to another, with the values it has fixed. -/
structure Reaches (f₀ : Handle) (s₀ : Solver) (made : List (Nat × Bool)) (f : Handle) (s : Solver) :
    Prop where
  circuit_eq : s.circuit = s₀.circuit
  options_eq : s.options = s₀.options
  progress_eq : s.progress = s₀.progress
  outer_eq : s.outerAbstracted = s₀.outerAbstracted
  forced_eq : s.forced = record s₀.forced made
  counted : s.statistics.units + s.statistics.pures =
    s₀.statistics.units + s₀.statistics.pures + made.length
  valid : s.diagram.Valid
  grows : s₀.diagram.Grows s.diagram
  holds : s.diagram.Holds f
  fixes : s₀.circuit.Fixes (s₀.diagram.value · f₀) made (s.diagram.value · f)

/-- Simplification has failed on the way. -/
def Stops (f₀ : Handle) (s₀ : Solver) (error : Error) (s : Solver) : Prop :=
  (∃ made f, Reaches f₀ s₀ made f s) ∧ error = .tableExhausted s₀.diagram.limit

namespace Reaches

theorem refl (valid : s.diagram.Valid) (holds : s.diagram.Holds f) : Reaches f s [] f s :=
  ⟨rfl, rfl, rfl, rfl, rfl, rfl, valid, .refl _, holds, .start⟩

theorem of_built (built : Built s t) (valid : s.diagram.Valid) (holds : s.diagram.Holds f) :
    Reaches f s [] f t where
  circuit_eq := built.circuit_eq
  options_eq := built.options_eq
  progress_eq := built.progress_eq
  outer_eq := built.outer_eq
  forced_eq := built.forced_eq
  counted := by
    rw [built.statistics_eq]
    rfl
  valid := built.valid
  grows := built.grows
  holds := built.grows.holds holds
  fixes := Circuit.Fixes.start.congr (built.grows.value_eq valid holds)

theorem forces (reaches : Reaches f₀ s₀ made f s)
    (found : s₀.circuit.quantifierOf? (v : Literal) = some q)
    (prefers : Prefers q (s.diagram.value · f) v value)
    (looks : ¬ Ignores (s₀.diagram.value · f₀) v) (fresh : v ∉ made.map (·.1))
    (forces : Forces f s v value r t) : Reaches f₀ s₀ ((v, value) :: made) r t where
  circuit_eq := forces.circuit_eq.trans reaches.circuit_eq
  options_eq := forces.options_eq.trans reaches.options_eq
  progress_eq := forces.progress_eq.trans reaches.progress_eq
  outer_eq := forces.outer_eq.trans reaches.outer_eq
  forced_eq := by
    rw [forces.forced_eq, reaches.forced_eq]
    rfl
  counted := by
    rw [forces.counted, reaches.counted]
    rfl
  valid := forces.valid
  grows := reaches.grows.trans forces.grows
  holds := forces.holds
  fixes := (reaches.fixes.fix found prefers looks fresh).congr forces.value_eq

theorem trans {more : List (Nat × Bool)} (first : Reaches f₀ s₀ made f s)
    (second : Reaches f s more r t) : Reaches f₀ s₀ (more ++ made) r t where
  circuit_eq := second.circuit_eq.trans first.circuit_eq
  options_eq := second.options_eq.trans first.options_eq
  progress_eq := second.progress_eq.trans first.progress_eq
  outer_eq := second.outer_eq.trans first.outer_eq
  forced_eq := by
    rw [second.forced_eq, first.forced_eq, record, record, record, List.foldr_append]
  counted := by
    rw [second.counted, first.counted, List.length_append]
    omega
  valid := second.valid
  grows := first.grows.trans second.grows
  holds := second.holds
  fixes := first.fixes.trans (first.circuit_eq ▸ second.fixes)

theorem stops (reaches : Reaches f₀ s₀ made f s) {error : Error} (stops : Stops f s error t) :
    Stops f₀ s₀ error t := by
  obtain ⟨⟨more, r, further⟩, exhausted⟩ := stops
  exact ⟨⟨more ++ made, r, reaches.trans further⟩, by rw [exhausted, reaches.grows.limit_eq]⟩

theorem support_subset (reaches : Reaches f₀ s₀ made f s) (valid : s₀.diagram.Valid)
    (holds : s₀.diagram.Holds f₀) : s.diagram.support f ⊆ s₀.diagram.support f₀ := by
  intro v member
  rw [mem_support_iff reaches.valid reaches.holds] at member
  rw [mem_support_iff valid holds]
  exact fun ignored => member (reaches.fixes.ignores ignored)

theorem support_length_lt (reaches : Reaches f₀ s₀ made f s) (valid : s₀.diagram.Valid)
    (holds : s₀.diagram.Holds f₀) (some : made ≠ []) :
    (s.diagram.support f).length < (s₀.diagram.support f₀).length := by
  obtain ⟨entry, listed⟩ := List.exists_mem_of_ne_nil made some
  have fixed : entry.1 ∈ made.map (·.1) := List.mem_map_of_mem listed
  have before : entry.1 ∈ s₀.diagram.support f₀ :=
    (mem_support_iff valid holds).mpr (reaches.fixes.looks fixed)
  have after : entry.1 ∉ s.diagram.support f := fun member =>
    (mem_support_iff reaches.valid reaches.holds).mp member (reaches.fixes.blind fixed)
  have distinct : (entry.1 :: s.diagram.support f).Nodup :=
    List.nodup_cons.mpr ⟨after, s.diagram.support_nodup f⟩
  have included := List.subperm_of_subset distinct
    (List.cons_subset.mpr ⟨before, reaches.support_subset valid holds⟩)
  exact included.length_le

end Reaches

theorem Exhausts.stops {error : Error} (exhausts : Exhausts s error t) (valid : s.diagram.Valid)
    (holds : s.diagram.Holds f) : Stops f s error t :=
  ⟨⟨[], f, .of_built exhausts.1 valid holds⟩, exhausts.2⟩

theorem positive_of_quantifierOf? (wellFormed : c.WellFormed)
    (found : c.quantifierOf? (v : Literal) = some q) : 0 < v := by
  obtain ⟨before, block, after, split, _, member, _⟩ := Circuit.exists_block wellFormed found
  exact (wellFormed.block_lt block (by simp [split]) v member).1

end Reaching

section Units

/-- An existential variable and a value that the function prefers for it. -/
def IsUnit (c : Circuit) (g : Assignment → Bool) (unit : Nat × Bool) : Prop :=
  c.quantifierOf? (unit.1 : Literal) = some .ex ∧ Prefers .ex g unit.1 unit.2

theorem unitLiterals_spec (valid : d.Valid) (holds : d.Holds f) :
    ((unitLiterals c d f).map (·.1)).Nodup ∧ ∀ unit ∈ unitLiterals c d f,
      IsUnit c (d.value · f) unit ∧ ¬ Ignores (d.value · f) unit.1 := by
  have listed (unit : Nat × Bool) (member : unit ∈ unitLiterals c d f) :
      unit.1 ∈ d.support f ∧ c.quantifierOf? (unit.1 : Literal) = some .ex ∧
        forcedAt? (d.decisions f) unit.1 = some unit.2 := by
    obtain ⟨v, supported, found⟩ := List.mem_filterMap.mp member
    split at found
    · rename_i existential
      obtain ⟨value, forced, rfl⟩ := Option.map_eq_some_iff.mp found
      exact ⟨supported, existential, forced⟩
    · simp at found
  constructor
  · rw [List.Nodup, List.pairwise_map, unitLiterals, List.pairwise_filterMap]
    refine (d.support_nodup f).imp fun {v w} different unit found other foundOther => ?_
    have key {v : Nat} {unit : Nat × Bool}
        (found : (if c.quantifierOf? (v : Literal) = some .ex then
          (forcedAt? (d.decisions f) v).map (v, ·) else none) = some unit) : unit.1 = v := by
      split at found
      · obtain ⟨value, _, rfl⟩ := Option.map_eq_some_iff.mp found
        rfl
      · simp at found
    rwa [key found, key foundOther]
  · intro unit member
    obtain ⟨supported, existential, forced⟩ := listed unit member
    exact ⟨⟨existential, valid.prefers_of_forcedAt? holds forced⟩,
      (mem_support_iff valid holds).mp supported⟩

/-- A unit stays one, perhaps of no use any more, while others are fixed. -/
theorem ensures_fixUnits (wellFormed : s₀.circuit.WellFormed) {units : List (Nat × Bool)}
    (reaches : Reaches f₀ s₀ made f s) (distinct : (units.map (·.1)).Nodup)
    (areUnits : ∀ unit ∈ units, IsUnit s₀.circuit (s.diagram.value · f) unit ∧
      ¬ Ignores (s₀.diagram.value · f₀) unit.1 ∧ unit.1 ∉ made.map (·.1)) :
    Ensures (units.foldlM fixUnit f) s (fun r t => Reaches f₀ s₀ (units.reverse ++ made) r t)
      (Stops f₀ s₀) := by
  induction units generalizing s f made with
  | nil => exact reaches
  | cons unit rest ih =>
    obtain ⟨v, value⟩ := unit
    obtain ⟨⟨found, prefers⟩, looks, fresh⟩ := areUnits (v, value) (by simp)
    rw [List.map_cons, List.nodup_cons] at distinct
    rw [List.foldlM_cons, List.reverse_cons, List.append_assoc]
    have positive : 0 < (v, value).1 := positive_of_quantifierOf? wellFormed found
    refine Ensures.bind (Ensures.mono_fail (ensures_fixUnit reaches.valid reaches.holds positive)
      fun _ _ exhausts => reaches.stops (exhausts.stops reaches.valid reaches.holds)) ?_
    intro r t forces
    refine ih (reaches.forces found prefers looks fresh forces) distinct.2 fun other member => ?_
    obtain ⟨⟨foundOther, prefersOther⟩, looksOther, freshOther⟩ := areUnits other (by simp [member])
    have different : other.1 ≠ v := fun same =>
      distinct.1 (List.mem_map.mpr ⟨other, member, same⟩)
    refine ⟨⟨foundOther, ?_⟩, looksOther, ?_⟩
    · simpa only [forces.value_eq] using prefersOther.comp_set different value
    · simpa [different] using freshOther

/-- No existential variable has all its decisions lead to false on the same side. -/
def Unforced (f : Handle) (s : Solver) : Prop :=
  ∀ v ∈ s.diagram.support f, s.circuit.quantifierOf? (v : Literal) = some .ex →
    ¬ OneSided s.diagram f v

theorem unforced_of_unitLiterals (valid : s.diagram.Valid)
    (none : unitLiterals s.circuit s.diagram f = []) : Unforced f s := by
  intro v member found oneSided
  have absent := List.filterMap_eq_nil_iff.mp none v member
  rw [if_pos found, Option.map_eq_none_iff] at absent
  have forced := valid.forcedAt?_of_oneSided member oneSided
  simp [absent] at forced

end Units

section Pures

/-- The function goes in one direction in no variable of a block that it looks at. -/
def Unbiased (f : Handle) (s : Solver) : Prop :=
  ∀ v ∈ s.diagram.support f, (s.circuit.quantifierOf? (v : Literal)).isSome →
    ¬ Increasing (s.diagram.value · f) v ∧ ¬ Decreasing (s.diagram.value · f) v

/-- If nothing is fixed, there was nothing to fix. -/
theorem ensures_fixPures (wellFormed : s.circuit.WellFormed) (vars : List Nat)
    {current : Handle × Bool} (valid : s.diagram.Valid) (holds : s.diagram.Holds current.1) :
    Ensures (vars.foldlM fixPure current) s
      (fun next t => ∃ made, Reaches current.1 s made next.1 t ∧
        next.2 = (current.2 || !made.isEmpty) ∧ (made = [] → next.1 = current.1 ∧
          ∀ v ∈ vars, (s.circuit.quantifierOf? (v : Literal)).isSome →
            Mixed (s.diagram.value · current.1) v))
      (Stops current.1 s) := by
  induction vars generalizing s current with
  | nil => exact ⟨[], .refl valid holds, by simp, fun _ => ⟨rfl, by simp⟩⟩
  | cons v rest ih =>
    rw [List.foldlM_cons]
    refine Ensures.bind (Ensures.mono_fail (ensures_fixPure (v := v) valid holds ?_)
      fun _ _ exhausts => exhausts.stops valid holds) ?_
    · intro quantified
      obtain ⟨q, found⟩ := Option.isSome_iff_exists.mp quantified
      exact positive_of_quantifierOf? wellFormed found
    intro next t tries
    cases tries with
    | stays same built mixed =>
      subst next
      have reaches := Reaches.of_built built valid holds
      have values : (t.diagram.value · current.1) = (s.diagram.value · current.1) :=
        funext (built.grows.value_eq valid holds)
      refine Ensures.mono (ih (reaches.circuit_eq ▸ wellFormed) reaches.valid reaches.holds) ?_
        fun _ _ stops => reaches.stops stops
      rintro last u ⟨more, further, changed, none⟩
      refine ⟨more, by simpa using reaches.trans further, changed, fun empty =>
        ⟨(none empty).1, List.forall_mem_cons.mpr ⟨mixed, ?_⟩⟩⟩
      rw [← values, ← built.circuit_eq]
      exact (none empty).2
    | @fixes q value found looks prefers changed forces =>
      have reaches := (Reaches.refl valid holds).forces found prefers looks (by simp) forces
      refine Ensures.mono (ih (reaches.circuit_eq ▸ wellFormed) reaches.valid reaches.holds) ?_
        fun _ _ stops => reaches.stops stops
      rintro last u ⟨more, further, kept, _⟩
      exact ⟨more ++ [(v, value)], reaches.trans further, by simp [kept, changed], by simp⟩

end Pures

section Rounds

variable {settled : Handle → Solver → Prop} {round : Handle → Solve (Handle × Bool)}

/-- One round of fixing forced variables, and whether there were any. -/
def unitRound (f : Handle) : Solve (Handle × Bool) := do
  let units := unitLiterals (← get).circuit (← get).diagram f
  if units.isEmpty then return (f, false)
  return (← units.foldlM fixUnit f, true)

def pureRound (f : Handle) : Solve (Handle × Bool) := do
  ((← get).diagram.support f).foldlM fixPure (f, false)

/-- A round fixes something and says so, or else its function is as it should be. -/
def Settling (settled : Handle → Solver → Prop) (round : Handle → Solve (Handle × Bool)) : Prop :=
  ∀ f s, s.circuit.WellFormed → s.diagram.Valid → s.diagram.Holds f →
    Ensures (round f) s
      (fun next t => ∃ made, Reaches f s made next.1 t ∧ next.2 = !made.isEmpty ∧
        (made = [] → settled next.1 t))
      (Stops f s)

theorem settling_unitRound : Settling Unforced unitRound := by
  intro f s wellFormed valid holds
  unfold unitRound
  refine Ensures.get (Ensures.get ?_)
  dsimp only
  split
  · rename_i empty
    rw [List.isEmpty_iff] at empty
    exact ⟨[], .refl valid holds, rfl, fun _ => unforced_of_unitLiterals valid empty⟩
  · rename_i some
    obtain ⟨distinct, areUnits⟩ := unitLiterals_spec (c := s.circuit) valid holds
    refine Ensures.bind (ensures_fixUnits wellFormed (.refl valid holds) distinct
      fun unit member => ⟨(areUnits unit member).1, (areUnits unit member).2, by simp⟩) ?_
    intro r t reaches
    rw [List.append_nil] at reaches
    exact ⟨_, reaches, by simpa using some, fun none => absurd none (by simpa using some)⟩

theorem settling_pureRound : Settling Unbiased pureRound := by
  intro f s wellFormed valid holds
  unfold pureRound
  have started : s.diagram.Holds (f, false).1 := holds
  refine Ensures.get (Ensures.mono (ensures_fixPures wellFormed _ valid started) ?_
    fun _ _ stops => stops)
  rintro next t ⟨made, reaches, changed, none⟩
  refine ⟨made, reaches, by simpa using changed, fun empty v member quantified => ?_⟩
  obtain ⟨same, mixed⟩ := none empty
  have values : (t.diagram.value · next.1) = (s.diagram.value · f) := by
    rw [same]
    exact funext (reaches.grows.value_eq valid holds)
  have before : v ∈ s.diagram.support f := reaches.support_subset valid holds member
  have looks := (mem_support_iff valid holds).mp before
  rw [reaches.circuit_eq] at quantified
  rw [values]
  exact ⟨fun up => looks (mixed v before quantified (.inl up)),
    fun down => looks (mixed v before quantified (.inr down))⟩

/-- Round after round until one changes nothing. All rounds before that one take variables
out of the function's support. -/
inductive Repeats (round : Handle → Solve (Handle × Bool)) :
    Handle → Solver → Except Error Handle × Solver → Prop where
  | last {f r : Handle} {s t : Solver} (done : round f s = (.ok (r, false), t)) :
      Repeats round f s (.ok r, t)
  | again {f r : Handle} {s t : Solver} {result : Except Error Handle × Solver}
      (changed : round f s = (.ok (r, true), t))
      (subset : t.diagram.support r ⊆ s.diagram.support f)
      (fewer : (t.diagram.support r).length < (s.diagram.support f).length)
      (rest : Repeats round r t result) : Repeats round f s result
  | fails {f : Handle} {s t : Solver} {error : Error} (failed : round f s = (.error error, t)) :
      Repeats round f s (.error error, t)

def roundsWithin (round : Handle → Solve (Handle × Bool)) : Nat → Handle → Solve Handle
  | 0, f => pure f
  | rounds + 1, f => do
    let (r, changed) ← round f
    if changed then roundsWithin round rounds r else return r

/-- More rounds than variables in the support. -/
def rounds (round : Handle → Solve (Handle × Bool)) (f : Handle) : Solve Handle := do
  roundsWithin round (((← get).diagram.support f).length + 1) f

theorem propagateUnitsWithin_eq (rounds : Nat) (f : Handle) :
    propagateUnitsWithin rounds f = roundsWithin unitRound rounds f := by
  induction rounds generalizing f with
  | zero => rfl
  | succ rounds ih =>
    rw [propagateUnitsWithin, roundsWithin, unitRound]
    simp only [bind_assoc]
    congr 1
    funext s
    congr 1
    funext t
    split
    · simp
    · simp [ih]

theorem eliminatePureWithin_eq (rounds : Nat) (f : Handle) :
    eliminatePureWithin rounds f = roundsWithin pureRound rounds f := by
  induction rounds generalizing f with
  | zero => rfl
  | succ rounds ih =>
    rw [eliminatePureWithin, roundsWithin, pureRound]
    simp only [bind_assoc, ih]

theorem propagateUnits_eq (f : Handle) : propagateUnits f = rounds unitRound f := by
  simp only [propagateUnits, rounds, propagateUnitsWithin_eq]

theorem eliminatePure_eq (f : Handle) : eliminatePure f = rounds pureRound f := by
  simp only [eliminatePure, rounds, eliminatePureWithin_eq]

theorem Settling.ensures_roundsWithin (settling : Settling settled round) (count : Nat)
    (wellFormed : s.circuit.WellFormed) (valid : s.diagram.Valid) (holds : s.diagram.Holds f)
    (enough : (s.diagram.support f).length < count) :
    Ensures (roundsWithin round count f) s
      (fun r t => (∃ made, Reaches f s made r t) ∧ settled r t) (Stops f s) := by
  induction count generalizing s f with
  | zero => omega
  | succ count ih =>
    refine Ensures.bind (settling f s wellFormed valid holds) ?_
    rintro ⟨r, changed⟩ t ⟨made, reaches, some, none⟩
    cases changed with
    | false => exact ⟨⟨made, reaches⟩, none (by simpa using some.symm)⟩
    | true =>
      have fewer : (t.diagram.support r).length < (s.diagram.support f).length :=
        reaches.support_length_lt valid holds (by simpa using some.symm)
      refine Ensures.mono (ih (reaches.circuit_eq ▸ wellFormed) reaches.valid reaches.holds
        (by omega)) ?_ fun _ _ stops => reaches.stops stops
      rintro last u ⟨⟨more, further⟩, done⟩
      exact ⟨⟨more ++ made, reaches.trans further⟩, done⟩

theorem Settling.repeats_roundsWithin (settling : Settling settled round) (count : Nat)
    (wellFormed : s.circuit.WellFormed) (valid : s.diagram.Valid) (holds : s.diagram.Holds f)
    (enough : (s.diagram.support f).length < count) :
    Repeats round f s (roundsWithin round count f s) := by
  induction count generalizing s f with
  | zero => exact absurd enough (Nat.not_lt_zero _)
  | succ count ih =>
    rw [roundsWithin]
    rcases ran : round f s with ⟨result, t⟩
    cases result with
    | error error =>
      rw [run_bind_of_error ran]
      exact .fails ran
    | ok next =>
      obtain ⟨r, changed⟩ := next
      rw [run_bind_of_ok ran]
      obtain ⟨made, reaches, some, _⟩ := (settling f s wellFormed valid holds).of_ok ran
      cases changed with
      | false => exact .last ran
      | true =>
        have fewer : (t.diagram.support r).length < (s.diagram.support f).length :=
          reaches.support_length_lt valid holds (by simpa using some.symm)
        exact .again ran (reaches.support_subset valid holds) fewer
          (ih (reaches.circuit_eq ▸ wellFormed) reaches.valid reaches.holds (by omega))

/-- The rounds do not end before nothing is left to fix. -/
theorem Settling.ensures (settling : Settling settled round) (wellFormed : s.circuit.WellFormed)
    (valid : s.diagram.Valid) (holds : s.diagram.Holds f) :
    Ensures (rounds round f) s (fun r t => (∃ made, Reaches f s made r t) ∧ settled r t)
      (Stops f s) :=
  Ensures.get (settling.ensures_roundsWithin _ wellFormed valid holds (Nat.lt_succ_self _))

theorem Settling.repeats (settling : Settling settled round) (wellFormed : s.circuit.WellFormed)
    (valid : s.diagram.Valid) (holds : s.diagram.Holds f) :
    Repeats round f s (rounds round f s) :=
  settling.repeats_roundsWithin _ wellFormed valid holds (Nat.lt_succ_self _)

end Rounds

end QuantCircuit.Solver
