import QuantCircuit.Proofs.Circuit.Interpretation

/-! Evaluation returns the value of what the output denotes, and leaves the assignment as it
was: the values it keeps for one scope are those of the gates, stopping a quantifier early
changes nothing, and the variables a gate binds have their old values afterwards. -/

namespace QuantCircuit

def Assignment.ofEntries (entries : List Bool) : Assignment :=
  fun v => entries.getD v false

namespace Circuit

variable {c : Circuit} {σ : Assignment}

/-- Evaluation of the output always succeeds, with the values of a function. -/
def Computes (c : Circuit) (f : Assignment → Bool) : Prop :=
  ∀ entries : List Bool, c.evaluate entries = .ok (f (.ofEntries entries))

/-- The assignment that an array of values stands for. -/
def assigned (assignment : Array Bool) : Assignment :=
  fun v => assignment.getD v false

theorem assigned_setIfInBounds {assignment : Array Bool} {v : Nat}
    (inside : v < assignment.size) (value : Bool) :
    assigned (assignment.setIfInBounds v value) = (assigned assignment).set v value := by
  funext w
  by_cases same : w = v
  · subst w
    simp [assigned, inside]
  · simp [assigned, Assignment.set, same, Ne.symm same]

/-- Every value that is kept is the value of its identifier. -/
def Knows (c : Circuit) (σ : Assignment) (values : Values) : Prop :=
  ∀ id value, values[id]? = some value → value = c.interpretation id σ

theorem knows_empty (c : Circuit) (σ : Assignment) : c.Knows σ ∅ := by
  intro id value found
  simp at found

theorem Knows.insert {values : Values} (knows : c.Knows σ values) (id : Nat) :
    c.Knows σ (values.insert id (c.interpretation id σ)) := by
  intro other value found
  simp only [Std.TreeMap.getElem?_insert, Std.LawfulEqCmp.compare_eq_iff_eq] at found
  split at found
  · subst other
    exact (Option.some.inj found).symm
  · exact knows other value found

/-- The work returns the value, keeps right values only and leaves the assignment alone. -/
def Yields (c : Circuit) (assignment : Array Bool) (work : StateT Values Assigning Bool)
    (value : Bool) : Prop :=
  ∀ values, c.Knows (assigned assignment) values → ∃ later,
    work values assignment = .ok ((value, later), assignment) ∧
      c.Knows (assigned assignment) later

variable {assignment after : Array Bool} {value : Bool} {work : StateT Values Assigning Bool}

theorem assigning_bind {work : Assigning α} {a : α} {next : α → Assigning β}
    (ran : work assignment = .ok (a, after)) : (work >>= next) assignment = next a after := by
  simp only [Bind.bind, StateT.bind, ran, Except.bind]

theorem scope_bind {work : StateT Values Assigning α} {values later : Values} {a : α}
    {next : α → StateT Values Assigning β}
    (ran : work values assignment = .ok ((a, later), after)) :
    (work >>= next) values assignment = next a later after := by
  simp only [Bind.bind, StateT.bind, ran, Except.bind]

theorem yields_pure (c : Circuit) (assignment : Array Bool) (value : Bool) :
    c.Yields assignment (pure value) value :=
  fun values knows => ⟨values, rfl, knows⟩

theorem Yields.bind {next : Bool → StateT Values Assigning Bool}
    (first : c.Yields assignment work value) (rest : c.Yields assignment (next value) result) :
    c.Yields assignment (work >>= next) result := by
  intro values knows
  obtain ⟨later, ran, knowsLater⟩ := first values knows
  obtain ⟨last, ranRest, knowsLast⟩ := rest later knowsLater
  exact ⟨last, (scope_bind ran).trans ranRest, knowsLast⟩

theorem Yields.map (yields : c.Yields assignment work value) (change : Bool → Bool) :
    c.Yields assignment (change <$> work) (change value) := by
  rw [map_eq_pure_bind]
  exact yields.bind (yields_pure c assignment _)

theorem Yields.remember {id : Nat}
    (yields : c.Yields assignment work (c.interpretation id (assigned assignment))) :
    c.Yields assignment (Circuit.remember id work) (c.interpretation id (assigned assignment)) := by
  intro values knows
  have looked : (get : StateT Values Assigning Values) values assignment =
      .ok ((values, values), assignment) := rfl
  unfold Circuit.remember
  rw [scope_bind looked]
  cases known : values[id]? with
  | some value => exact ⟨values, by rw [knows id value known]; rfl, knows⟩
  | none =>
    obtain ⟨later, ran, knowsLater⟩ := yields values knows
    exact ⟨_, scope_bind ran, knowsLater.insert id⟩

theorem Yields.run' (yields : c.Yields assignment work value) :
    work.run' ∅ assignment = .ok (value, assignment) := by
  obtain ⟨later, ran, _⟩ := yields ∅ (knows_empty c _)
  simp [StateT.run', ran, Functor.map, StateT.map, Except.bind, pure, Except.pure, Bind.bind]

theorem yields_lift {work : Assigning Bool} (ran : work assignment = .ok (value, assignment)) :
    c.Yields assignment (liftM work) value := by
  intro values knows
  have lifted : (liftM work : StateT Values Assigning Bool) values assignment =
      (work >>= fun value => pure (value, values)) assignment := rfl
  exact ⟨values, lifted.trans (assigning_bind ran), knows⟩

theorem valueOf_eq {v : Nat} (inside : v < assignment.size) :
    valueOf v assignment = .ok (assigned assignment v, assignment) := by
  have looked : (get : Assigning (Array Bool)) assignment = .ok (assignment, assignment) := rfl
  have found : assignment[v]? = some (assigned assignment v) := by
    simp [assigned, inside]
  unfold valueOf
  rw [assigning_bind looked, found]
  rfl

theorem assign_eq {v : Nat} (inside : v < assignment.size) (value : Bool) :
    assign v value assignment = .ok ((), assignment.setIfInBounds v value) := by
  have looked : (get : Assigning (Array Bool)) assignment = .ok (assignment, assignment) := rfl
  unfold assign
  rw [assigning_bind looked, if_pos inside]
  rfl

theorem yields_valueOf (c : Circuit) {v : Nat} (inside : v < assignment.size) :
    c.Yields assignment (valueOf v) (assigned assignment v) :=
  yields_lift (valueOf_eq inside)

theorem yields_allM {input : Literal → StateT Values Assigning Bool}
    {value : Literal → Bool} (literals : List Literal)
    (each : ∀ l ∈ literals, c.Yields assignment (input l) (value l)) :
    c.Yields assignment (literals.allM input) (literals.all value) := by
  induction literals with
  | nil => exact yields_pure c assignment true
  | cons l rest ih =>
    have later := ih fun other member => each other (by simp [member])
    refine (each l (by simp)).bind ?_
    cases here : value l with
    | true => simpa [here] using later
    | false => simpa [here] using yields_pure c assignment false

theorem yields_anyM {input : Literal → StateT Values Assigning Bool}
    {value : Literal → Bool} (literals : List Literal)
    (each : ∀ l ∈ literals, c.Yields assignment (input l) (value l)) :
    c.Yields assignment (literals.anyM input) (literals.any value) := by
  induction literals with
  | nil => exact yields_pure c assignment false
  | cons l rest ih =>
    have later := ih fun other member => each other (by simp [member])
    refine (each l (by simp)).bind ?_
    cases here : value l with
    | true => simpa [here] using yields_pure c assignment true
    | false => simpa [here] using later

/-- The body returns the function's value and leaves assignments of this size alone. -/
def Reads (body : Assigning Bool) (f : Assignment → Bool) (size : Nat) : Prop :=
  ∀ assignment : Array Bool, assignment.size = size →
    body assignment = .ok (f (assigned assignment), assignment)

variable {body : Assigning Bool} {f : Assignment → Bool} {size : Nat} {vars : List Nat}

/-- The second value is tried on what trying the first one has left. -/
theorem quantifyOver_cons {q : Quantifier} {v : Nat} {rest : List Nat}
    (inside : v < assignment.size) (insideAfter : v < after.size)
    (ran : quantifyOver q body rest (assignment.setIfInBounds v false) = .ok (value, after)) :
    quantifyOver q body (v :: rest) assignment =
      if value = q.decisive then .ok (value, after)
      else quantifyOver q body rest (after.setIfInBounds v true) := by
  rw [quantifyOver, assigning_bind (assign_eq inside false), assigning_bind ran]
  split
  · rfl
  · rw [assigning_bind (assign_eq insideAfter true)]

/-- Setting the variables in turn, and stopping early, is quantification. Only the variables
are left with other values. -/
theorem quantifyOver_spec (q : Quantifier) (reads : Reads body f size)
    (inside : ∀ v ∈ vars, v < size) (sized : assignment.size = size) :
    ∃ after, quantifyOver q body vars assignment =
        .ok (q.overVars f vars (assigned assignment), after) ∧
      after.size = size ∧ (assigned assignment).AgreeOff vars (assigned after) := by
  induction vars generalizing assignment with
  | nil => exact ⟨assignment, reads assignment sized, sized, .refl _ _⟩
  | cons v rest ih =>
    have setting (assignment : Array Bool) (sized : assignment.size = size) (value : Bool) :
        assigned (assignment.setIfInBounds v value) = (assigned assignment).set v value :=
      assigned_setIfInBounds (sized ▸ inside v (by simp)) value
    have insideRest : ∀ w ∈ rest, w < size := fun w member => inside w (by simp [member])
    have setFalse : (assignment.setIfInBounds v false).size = size := by simpa using sized
    obtain ⟨first, ran, sizedFirst, agreeFirst⟩ := ih insideRest setFalse
    have setTrue : (first.setIfInBounds v true).size = size := by simpa using sizedFirst
    obtain ⟨second, again, sizedSecond, agreeSecond⟩ := ih insideRest setTrue
    rw [setting assignment sized] at ran agreeFirst
    rw [setting first sizedFirst] at again agreeSecond
    have kept : (assigned assignment).AgreeOff (v :: rest) (assigned first) :=
      (Assignment.agreeOff_set (by simp) _ false).trans
        (agreeFirst.mono fun _ => List.mem_cons_of_mem v)
    rw [quantifyOver_cons (sized ▸ inside v (by simp)) (sizedFirst ▸ inside v (by simp)) ran,
      Quantifier.overVars]
    split
    · rename_i settled
      refine ⟨first, ?_, sizedFirst, kept⟩
      rw [settled, (q.overBool_eq_decisive _).mpr ⟨false, settled⟩]
    · rename_i unsettled
      -- the variables that the first half has left changed are quantified in the second one
      have agree := agreeFirst.set v true
      rw [Assignment.set_set] at agree
      have same := eq_of_agreeOff (fun w member => q.ignores_overVars_of_mem f member) agree
      refine ⟨second, ?_, sizedSecond, ?_⟩
      · rw [again, ← same, q.overBool_of_unsettled unsettled]
      · exact kept.trans ((Assignment.agreeOff_set (by simp) _ true).trans
          (agreeSecond.mono fun _ => List.mem_cons_of_mem v))

theorem assigned_injective {other : Array Bool} (sized : other.size = assignment.size)
    (same : assigned other = assigned assignment) : other = assignment := by
  refine Array.ext sized fun v inside insideToo => ?_
  have value := congrFun same v
  simpa [assigned, inside, insideToo] using value

theorem saved_eq (inside : ∀ v ∈ vars, v < assignment.size) :
    saved vars assignment = .ok (vars.map fun v => (v, assigned assignment v), assignment) := by
  induction vars with
  | nil => rfl
  | cons v rest ih =>
    have first := valueOf_eq (inside v (by simp))
    have others := ih fun w member => inside w (by simp [member])
    have opened : saved (v :: rest) = do
        let value ← valueOf v
        let values ← saved rest
        return (v, value) :: values := by
      simp [saved]
    rw [opened, assigning_bind first, assigning_bind others]
    rfl

/-- Saved values are restored, whatever the variables have been set to. -/
theorem restore_saved {after : Array Bool} (inside : ∀ v ∈ vars, v < assignment.size)
    (sized : after.size = assignment.size)
    (agree : (assigned assignment).AgreeOff vars (assigned after)) :
    restore (vars.map fun v => (v, assigned assignment v)) after = .ok ((), assignment) := by
  induction vars generalizing after with
  | nil =>
    obtain rfl := assigned_injective sized (funext fun v => (agree v (by simp)).symm)
    rfl
  | cons v rest ih =>
    have insideAfter : v < after.size := sized ▸ inside v (by simp)
    refine (assigning_bind (assign_eq insideAfter _)).trans ?_
    refine ih (fun w member => inside w (by simp [member])) (by simpa using sized) fun w outside => ?_
    rw [assigned_setIfInBounds insideAfter]
    by_cases same : w = v
    · subst w
      simp [assigned]
    · rw [Assignment.set_other _ _ same]
      exact agree w (by simp [same, outside])

/-- The variables are quantified and have their old values afterwards. -/
theorem quantifyInPlace_eq (q : Quantifier) (reads : Reads body f size)
    (inside : ∀ v ∈ vars, v < size) :
    Reads (quantifyInPlace q vars body) (q.overVars f vars) size := by
  intro assignment sized
  obtain ⟨after, ran, sizedAfter, agree⟩ := quantifyOver_spec q reads inside sized
  have insideToo : ∀ v ∈ vars, v < assignment.size := fun v member => sized ▸ inside v member
  have back := restore_saved insideToo (sizedAfter.trans sized.symm) agree
  unfold quantifyInPlace
  rw [assigning_bind (saved_eq insideToo), assigning_bind ran, assigning_bind back]
  rfl

/-- A literal has the value of its identifier, or the other one. -/
theorem Yields.literal {l : Literal}
    (yields : c.Yields assignment work (c.interpretation l.natAbs (assigned assignment))) :
    c.Yields assignment ((· ^^ decide (l < 0)) <$> work) (c.meaning l (assigned assignment)) :=
  yields.map _

theorem yields_variable {l : Literal} (isVariable : l.natAbs < c.maxVar) (depth : Nat)
    (sized : assignment.size = c.maxVar) :
    c.Yields assignment (c.evaluateWithin depth l) (c.meaning l (assigned assignment)) := by
  have missing := gate?_eq_none_of_lt isVariable
  have looked := yields_valueOf c (sized ▸ isVariable)
  rw [← congrFun (interpretation_variable missing) (assigned assignment)] at looked
  unfold evaluateWithin
  rw [missing]
  cases depth <;> exact looked.literal

theorem yields_gate (valid : c.WellFormed) {l : Literal} (found : c.gate? l.natAbs = some gate)
    (sized : assignment.size = c.maxVar)
    (inputs : ∀ assignment : Array Bool, assignment.size = c.maxVar → ∀ m ∈ gate.inputs,
      c.Yields assignment (c.evaluateWithin depth m) (c.meaning m (assigned assignment))) :
    c.Yields assignment (c.evaluateWithin (depth + 1) l) (c.meaning l (assigned assignment)) := by
  have value := congrFun (interpretation_gate valid found) (assigned assignment)
  unfold evaluateWithin
  rw [found]
  refine (Yields.remember ?_).literal
  obtain ⟨q, kind | kind⟩ := gate.connective.eq_distributesOver_or_gate
  · cases q with
    | all =>
      have all := yields_allM gate.inputs (inputs assignment sized)
      rw [value, Gate.meaning, kind]
      simp only [Quantifier.distributesOver, Connective.quantifier?, ↓reduceIte]
      exact all
    | ex =>
      have any := yields_anyM gate.inputs (inputs assignment sized)
      rw [value, Gate.meaning, kind]
      simp only [Quantifier.distributesOver, Connective.quantifier?, reduceCtorEq, ↓reduceIte]
      exact any
  · have only : gate.body ∈ gate.inputs := by
      simp [Gate.inputs_eq_body kind (valid.one_input _ gate found)]
    have bound := valid.bound_lt _ gate found
    have first : gate.firstInput = .ok gate.body := Gate.firstInput_eq (List.ne_nil_of_mem only)
    have reads : Reads (do
        let body ← gate.firstInput
        (c.evaluateWithin depth body).run' ∅) (c.meaning gate.body) c.maxVar := by
      intro assignment sized
      rw [first]
      exact (inputs assignment sized gate.body only).run'
    have inside : ∀ v ∈ gate.bound.map Int.natAbs, v < c.maxVar := by
      simpa using fun v member => (bound v member).2
    have quantified := quantifyInPlace_eq q reads inside assignment sized
    rw [value, Gate.meaning_quantifier c.interpretation kind]
    simp only [kind, Quantifier.quantifier?_gate, boundVariables_eq fun v member => (bound v member).1]
    exact yields_lift quantified

theorem evaluateWithin_yields (valid : c.WellFormed) (depth : Nat) {l : Literal}
    (sized : assignment.size = c.maxVar) (below : l.natAbs < c.maxGate)
    (enough : l.natAbs < c.maxVar + depth) :
    c.Yields assignment (c.evaluateWithin depth l) (c.meaning l (assigned assignment)) := by
  induction depth generalizing assignment l with
  | zero => exact yields_variable enough 0 sized
  | succ depth ih =>
    cases found : c.gate? l.natAbs with
    | none => exact yields_variable (lt_maxVar_of_gate?_eq_none found below) _ sized
    | some gate =>
      refine yields_gate valid found sized fun assignment sized m member => ?_
      have earlier := (valid.inputs_lt _ gate found m member).2
      exact ih sized (Nat.lt_trans earlier below) (by omega)

theorem evaluateWithin_outside {l : Literal} (sized : assignment.size = c.maxVar)
    (outside : c.maxGate ≤ l.natAbs) (depth : Nat) (values : Values) :
    c.evaluateWithin depth l values assignment = .error (.outOfRange l.natAbs) := by
  have missing : c.gate? l.natAbs = none := gate?_eq_none_iff.mpr (.inr outside)
  have absent : assignment[l.natAbs]? = none := by
    rw [Array.getElem?_eq_none_iff, sized]
    exact Nat.le_trans (Nat.le_add_right ..) outside
  have looked : valueOf l.natAbs assignment = .error (.outOfRange l.natAbs) := by
    have read : (get : Assigning (Array Bool)) assignment = .ok (assignment, assignment) := rfl
    unfold valueOf
    rw [assigning_bind read, absent]
    rfl
  have failed : ((· ^^ decide (l < 0)) <$> (liftM (valueOf l.natAbs) : StateT Values Assigning Bool))
      values assignment = .error (.outOfRange l.natAbs) := by
    simp [Functor.map, StateT.map, liftM, monadLift, MonadLift.monadLift, StateT.lift, looked,
      Bind.bind, StateT.bind, Except.bind]
  unfold evaluateWithin
  rw [missing]
  cases depth <;> exact failed

theorem assigned_range (entries : List Bool) {v : Nat} (inside : v < size) :
    assigned ((Array.range size).map fun v => entries.getD v false) v =
      Assignment.ofEntries entries v := by
  simp [assigned, Assignment.ofEntries, inside]

/-- Evaluation computes what the output denotes. -/
theorem computes_meaning (valid : c.WellFormed) (output : c.output? = some out) :
    c.Computes (c.meaning out) := by
  intro entries
  have defined := valid.output_lt out output
  let start := (Array.range c.maxVar).map fun v => entries.getD v false
  have depth : out.natAbs < c.maxVar + (c.gates.size + 1) := by
    have inside := defined.2
    unfold maxGate at inside
    omega
  have yields : c.Yields start (c.evaluateWithin (c.gates.size + 1) out)
      (c.meaning out (assigned start)) := evaluateWithin_yields valid _ (by simp [start]) defined.2
        depth
  have agree := readsOnly_meaning valid defined (assigned start) (.ofEntries entries)
    fun v relevant => assigned_range entries relevant.2
  have ran : c.evaluate entries =
      Prod.fst <$> (c.evaluateWithin (c.gates.size + 1) out).run' ∅ start := by
    rw [evaluate, Circuit.output, output]
    rfl
  rw [ran, yields.run', agree]
  rfl

end Circuit

end QuantCircuit
