import QuantCircuit.Proofs.Diagram.Inspecting
import QuantCircuit.Proofs.Diagram.Quantifying
import QuantCircuit.Proofs.Solver.Working
import QuantCircuit.Solver.Simplify

namespace QuantCircuit

variable {d e : Diagram} {f below above both : Handle} {g : Assignment → Bool} {v : Nat}
variable {value : Bool} {q : Quantifier}

section Forced

theorem forcedValue?_of_forcedAt? {decisions : List Node}
    (forced : forcedAt? decisions v = some value) {n : Node} (member : n ∈ decisions)
    (label : n.label = v) : n.forcedValue? = some value := by
  have listed : n.forcedValue? ∈ (decisions.filter (·.label = v)).map Node.forcedValue? :=
    List.mem_map.mpr ⟨n, List.mem_filter.mpr ⟨member, by simpa using label⟩, rfl⟩
  unfold forcedAt? at forced
  split at forced
  · rename_i first rest found
    rw [found] at listed
    split at forced
    · rename_i agree
      obtain rfl := Option.some.inj forced
      rcases List.mem_cons.mp listed with same | later
      · exact same
      · simpa using List.all_eq_true.mp agree _ later
    · simp at forced
  · simp at forced

/-- The decisions on a variable force it iff there are any and each of them does. -/
theorem forcedAt?_eq_some_iff {decisions : List Node} {v : Nat} {value : Bool} :
    forcedAt? decisions v = some value ↔ (∃ n ∈ decisions, n.label = v) ∧
      ∀ n ∈ decisions, n.label = v → n.forcedValue? = some value := by
  constructor
  · intro forced
    refine ⟨Classical.byContradiction fun none => ?_, fun n member label =>
      forcedValue?_of_forcedAt? forced member label⟩
    have empty : decisions.filter (·.label = v) = [] := by
      apply List.filter_eq_nil_iff.mpr
      intro n member label
      exact none ⟨n, member, by simpa using label⟩
    simp [forcedAt?, empty] at forced
  · intro facts
    obtain ⟨⟨n, member, label⟩, all⟩ := facts
    have listed : n ∈ decisions.filter (·.label = v) :=
      List.mem_filter.mpr ⟨member, by simpa using label⟩
    have agree : ∀ m ∈ decisions.filter (·.label = v), m.forcedValue? = some value := by
      intro m found
      obtain ⟨inside, same⟩ := List.mem_filter.mp found
      exact all m inside (by simpa using same)
    unfold forcedAt?
    cases split : decisions.filter (·.label = v) with
    | nil => simp [split] at listed
    | cons first rest =>
      rw [split] at agree
      rw [List.map_cons, agree first (by simp)]
      apply if_pos
      rw [List.all_map, List.all_eq_true]
      intro m later
      simp [agree m (by simp [later])]

/-- All decisions on the variable lead to false on the same side. -/
def OneSided (d : Diagram) (f : Handle) (v : Nat) : Prop :=
  ∃ value : Bool, ∀ n ∈ d.decisions f, n.label = v →
    (if value then n.low else n.high) = .const false

/-- No decision leads to false on both sides, so decisions on one side agree. -/
theorem Diagram.Valid.forcedAt?_of_oneSided (valid : d.Valid) (member : v ∈ d.support f)
    (oneSided : OneSided d f v) : (forcedAt? (d.decisions f) v).isSome := by
  obtain ⟨value, side⟩ := oneSided
  have forced : forcedAt? (d.decisions f) v = some value := by
    refine forcedAt?_eq_some_iff.mpr ⟨mem_support_iff_decision.mp member, fun n listed label => ?_⟩
    obtain ⟨index, found, _⟩ := mem_decisions_iff.mp listed
    have different := valid.reduced index n found
    have own := side n listed label
    cases value with
    | true => exact if_pos own
    | false =>
      have high : n.high = .const false := own
      rw [Node.forcedValue?, if_neg (high ▸ different), if_pos high]
  rw [forced]
  rfl

/-- If all decisions on a variable force it, the function prefers the value. -/
theorem Diagram.Valid.prefers_of_forcedAt? (valid : d.Valid) (holds : d.Holds f)
    (forced : forcedAt? (d.decisions f) v = some value) : Prefers .ex (d.value · f) v value := by
  obtain ⟨_, closed, roots⟩ := Diagram.reachable_spec valid [f]
  refine valid.marked_induction closed (motive := fun g => Prefers .ex (d.value · g) v value)
    ?_ ?_ holds (roots f (by simp) holds)
  · intro other σ reached
    simpa using reached
  · intro index n marked found low high σ reached
    have ignored := valid.ignores_root_label found
    simp only [valid.value_node found] at reached ⊢
    by_cases label : n.label = v
    · have only := forcedValue?_of_forcedAt? forced
        (Diagram.mem_decisions_iff.mpr ⟨index, found, marked⟩) label
      subst v
      have lows : d.value (σ.set n.label value) n.low = d.value σ n.low := ignored.1 σ value
      have highs : d.value (σ.set n.label value) n.high = d.value σ n.high := ignored.2 σ value
      rw [Assignment.set_same, lows, highs]
      unfold Node.forcedValue? at only
      split at only
      · rename_i lowFalse
        obtain rfl := Option.some.inj only
        cases decision : σ n.label with
        | true => simpa [decision] using reached
        | false => simp [decision, lowFalse, Quantifier.decisive] at reached
      · split at only
        · rename_i highFalse
          obtain rfl := Option.some.inj only
          cases decision : σ n.label with
          | false => simpa [decision] using reached
          | true => simp [decision, highFalse, Quantifier.decisive] at reached
        · simp at only
    · rw [Assignment.set_other _ _ label]
      cases decision : σ n.label with
      | true => exact high σ (by simpa [decision] using reached)
      | false => exact low σ (by simpa [decision] using reached)

end Forced

section Monotone

/-- If the function goes in one direction in the variable, it goes in both. -/
def Mixed (g : Assignment → Bool) (v : Nat) : Prop :=
  Increasing g v ∨ Decreasing g v → Ignores g v

/-- The two halves of a function, without the variable. -/
structure Halves (d : Diagram) (f : Handle) (v : Nat) (below above : Handle) : Prop where
  holdsBelow : d.Holds below
  holdsAbove : d.Holds above
  valueBelow : ∀ σ : Assignment, d.value σ below = d.value (σ.set v false) f
  valueAbove : ∀ σ : Assignment, d.value σ above = d.value (σ.set v true) f

namespace Halves

theorem grows (halves : Halves d f v below above) (valid : d.Valid) (holds : d.Holds f)
    (grows : d.Grows e) : Halves e f v below above where
  holdsBelow := grows.holds halves.holdsBelow
  holdsAbove := grows.holds halves.holdsAbove
  valueBelow := by
    intro σ
    rw [grows.value_eq valid halves.holdsBelow, grows.value_eq valid holds, halves.valueBelow]
  valueAbove := by
    intro σ
    rw [grows.value_eq valid halves.holdsAbove, grows.value_eq valid holds, halves.valueAbove]

theorem ignores_iff (halves : Halves d f v below above) (valid : d.Valid) :
    Ignores (d.value · f) v ↔ below = above := by
  constructor
  · intro ignored
    apply valid.eq_of_value_eq halves.holdsBelow halves.holdsAbove
    intro σ
    rw [halves.valueBelow, halves.valueAbove]
    exact (ignored σ false).trans (ignored σ true).symm
  · rintro rfl
    have half (σ : Assignment) (value : Bool) :
        d.value (σ.set v value) f = d.value σ below := by
      cases value
      · exact (halves.valueBelow σ).symm
      · exact (halves.valueAbove σ).symm
    intro σ value
    have own := half σ (σ v)
    rw [Assignment.set_self] at own
    exact (half σ value).trans own.symm

theorem conjoins (halves : Halves d f v below above)
    (quantified : ∀ σ : Assignment, e.value σ both = Quantifier.all.overVars (d.value · f) [v] σ)
    (valid : d.Valid) (grows : d.Grows e) (σ : Assignment) :
    e.value σ both = (e.value σ below && e.value σ above) := by
  rw [quantified, grows.value_eq valid halves.holdsBelow, grows.value_eq valid halves.holdsAbove,
    halves.valueBelow, halves.valueAbove]
  rfl

/-- A function is increasing iff its half below is the conjunction of both. -/
theorem increasing_iff (halves : Halves d f v below above) (valid : d.Valid)
    (holds : d.Holds both) (conjoins : ∀ σ : Assignment,
      d.value σ both = (d.value σ below && d.value σ above)) :
    below = both ↔ Increasing (d.value · f) v := by
  unfold Increasing
  simp only [← halves.valueBelow, ← halves.valueAbove]
  constructor
  · intro same σ reached
    have value := conjoins σ
    rw [← same, reached] at value
    simpa using value.symm
  · intro increasing
    apply valid.eq_of_value_eq halves.holdsBelow holds
    intro σ
    rw [conjoins]
    cases reached : d.value σ below with
    | true => rw [increasing σ reached, Bool.and_self]
    | false => rw [Bool.false_and]

theorem decreasing_iff (halves : Halves d f v below above) (valid : d.Valid)
    (holds : d.Holds both) (conjoins : ∀ σ : Assignment,
      d.value σ both = (d.value σ below && d.value σ above)) :
    above = both ↔ Decreasing (d.value · f) v := by
  unfold Decreasing
  simp only [← halves.valueBelow, ← halves.valueAbove]
  constructor
  · intro same σ reached
    have value := conjoins σ
    rw [← same, reached] at value
    simpa using value.symm
  · intro decreasing
    apply valid.eq_of_value_eq halves.holdsAbove holds
    intro σ
    rw [conjoins]
    cases reached : d.value σ above with
    | true => rw [decreasing σ reached, Bool.and_self]
    | false => rw [Bool.and_false]

end Halves

theorem prefers_of_preferred? {up down : Bool} (increasing : up = true → Increasing g v)
    (decreasing : down = true → Decreasing g v)
    (preferred : Solver.preferred? q up down = some value) : Prefers q g v value := by
  unfold Solver.preferred? at preferred
  split at preferred
  · rename_i upward
    exact Option.some.inj preferred ▸ (increasing upward).prefers q
  · split at preferred
    · rename_i downward
      exact Option.some.inj preferred ▸ (decreasing downward).prefers q
    · simp at preferred

theorem mixed_of_preferred? {up down : Bool} (increasing : Increasing g v → up = true)
    (decreasing : Decreasing g v → down = true)
    (preferred : Solver.preferred? q up down = none) : Mixed g v := by
  unfold Solver.preferred? at preferred
  split at preferred
  · simp at preferred
  · rename_i upward
    split at preferred
    · simp at preferred
    · rename_i downward
      rintro (goesUp | goesDown)
      · exact absurd (increasing goesUp) upward
      · exact absurd (decreasing goesDown) downward

end Monotone

namespace Solver

open Diagram

variable {s t u : Solver}

/-- The variable is fixed, the value remembered and the step counted. -/
structure Forces (f : Handle) (s : Solver) (v : Nat) (value : Bool) (r : Handle) (t : Solver) :
    Prop where
  circuit_eq : t.circuit = s.circuit
  options_eq : t.options = s.options
  progress_eq : t.progress = s.progress
  outer_eq : t.outerAbstracted = s.outerAbstracted
  forced_eq : t.forced = s.forced.insert v value
  counted : t.statistics.units + t.statistics.pures = s.statistics.units + s.statistics.pures + 1
  valid : t.diagram.Valid
  grows : s.diagram.Grows t.diagram
  holds : t.diagram.Holds r
  value_eq : ∀ σ : Assignment, t.diagram.value σ r = s.diagram.value (σ.set v value) f

/-- The step has failed, and only the diagram has changed. -/
def Exhausts (s : Solver) (error : Error) (t : Solver) : Prop :=
  Built s t ∧ error = .tableExhausted s.diagram.limit

theorem Exhausts.of_built {error : Error} (built : Built s t) (exhausts : Exhausts t error u) :
    Exhausts s error u :=
  ⟨built.trans exhausts.1, built.limit_eq ▸ exhausts.2⟩

theorem ensures_onDiagram {α β : Type} {work : Build α} {next : α → Solve β}
    {mid : α → Diagram → Prop} {post : β → Solver → Prop} (builds : Builds work s.diagram mid)
    (rest : ∀ a t, Built s t → mid a t.diagram → Ensures (next a) t post (Exhausts t)) :
    Ensures (onDiagram work >>= next) s post (Exhausts s) :=
  Ensures.bind (built_onDiagram builds) fun a t ⟨built, reached⟩ =>
    Ensures.mono_fail (rest a t built reached) fun _ _ exhausts => exhausts.of_built built

theorem ensures_fixUnit (valid : s.diagram.Valid) (holds : s.diagram.Holds f)
    {unit : Nat × Bool} (positive : 0 < unit.1) :
    Ensures (fixUnit f unit) s (Forces f s unit.1 unit.2) (Exhausts s) := by
  unfold fixUnit
  refine ensures_onDiagram (builds_restrict valid holds positive unit.2) ?_
  rintro r t built ⟨holdsR, fixed⟩
  have counted : t.statistics.units + 1 + t.statistics.pures =
      s.statistics.units + s.statistics.pures + 1 := by
    rw [built.statistics_eq]
    omega
  exact ⟨built.circuit_eq, built.options_eq, built.progress_eq, built.outer_eq,
    congrArg (·.insert unit.1 unit.2) built.forced_eq, counted, built.valid, built.grows, holdsR,
    fixed⟩

theorem ensures_halves {β : Type} {next : Handle → Handle → Solve β} {post : β → Solver → Prop}
    (valid : s.diagram.Valid) (holds : s.diagram.Holds f) (positive : 0 < v)
    (rest : ∀ below above t, Built s t → Halves t.diagram f v below above →
      Ensures (next below above) t post (Exhausts t)) :
    Ensures (onDiagram (restrict f (Literal.ofVariable v false)) >>= fun below =>
      onDiagram (restrict f (Literal.ofVariable v true)) >>= next below) s post (Exhausts s) := by
  refine ensures_onDiagram (builds_restrict valid holds positive false) ?_
  rintro below t first ⟨holdsBelow, valueBelow⟩
  have holdsT := first.grows.holds holds
  refine ensures_onDiagram (builds_restrict first.valid holdsT positive true) ?_
  rintro above u second ⟨holdsAbove, valueAbove⟩
  have same (σ : Assignment) : u.diagram.value σ f = s.diagram.value σ f :=
    (second.grows.value_eq first.valid holdsT σ).trans (first.grows.value_eq valid holds σ)
  refine rest below above u (first.trans second)
    ⟨second.grows.holds holdsBelow, holdsAbove, fun σ => ?_, fun σ => ?_⟩
  · rw [second.grows.value_eq first.valid holdsBelow, valueBelow, same]
  · rw [valueAbove, second.grows.value_eq first.valid holdsT]

/-- What comes of trying to fix a variable that the function may be monotone in. -/
inductive Tries (current : Handle × Bool) (v : Nat) (s : Solver) (next : Handle × Bool)
    (t : Solver) : Prop where
  | stays (same : next = current) (built : Built s t)
      (mixed : (s.circuit.quantifierOf? (v : Literal)).isSome →
        Mixed (s.diagram.value · current.1) v)
  | fixes {q : Quantifier} {value : Bool} (found : s.circuit.quantifierOf? (v : Literal) = some q)
      (looks : ¬ Ignores (s.diagram.value · current.1) v)
      (prefers : Prefers q (s.diagram.value · current.1) v value) (changed : next.2 = true)
      (forces : Forces current.1 s v value next.1 t)

theorem ensures_fixPure (valid : s.diagram.Valid) {current : Handle × Bool}
    (holds : s.diagram.Holds current.1)
    (positive : (s.circuit.quantifierOf? (v : Literal)).isSome → 0 < v) :
    Ensures (fixPure current v) s (Tries current v s) (Exhausts s) := by
  obtain ⟨f, changed⟩ := current
  unfold fixPure
  refine Ensures.get ?_
  cases found : s.circuit.quantifierOf? (v : Literal) with
  | none => exact Tries.stays rfl (.refl valid) (by simp [found])
  | some q =>
    refine ensures_halves valid holds (positive (by simp [found])) fun below above t first halves => ?_
    have same : (s.diagram.value · f) = (t.diagram.value · f) :=
      funext fun σ => (first.grows.value_eq valid holds σ).symm
    have ignores := halves.ignores_iff first.valid
    rw [← same] at ignores
    split
    · rename_i equal
      exact Tries.stays rfl first fun _ _ => ignores.mpr equal
    rename_i different
    have holdsT := first.grows.holds holds
    refine ensures_onDiagram (builds_abstract first.valid holdsT .all [(v : Literal)]) ?_
    rintro both u second ⟨holdsBoth, valueBoth⟩
    have built := first.trans second
    have later := halves.grows first.valid holdsT second.grows
    have conjoins := halves.conjoins valueBoth first.valid second.grows
    have increasing := later.increasing_iff second.valid holdsBoth conjoins
    have decreasing := later.decreasing_iff second.valid holdsBoth conjoins
    rw [funext (built.grows.value_eq valid holds)] at increasing decreasing
    split
    · rename_i preferred
      exact Tries.stays rfl built fun _ => mixed_of_preferred? (by simpa using increasing.mpr)
        (by simpa using decreasing.mpr) preferred
    · rename_i value preferred
      have prefers : Prefers q (s.diagram.value · f) v value :=
        prefers_of_preferred? (by simpa using increasing.mp) (by simpa using decreasing.mp)
          preferred
      have counted : u.statistics.units + (u.statistics.pures + 1) =
          s.statistics.units + s.statistics.pures + 1 := by
        rw [built.statistics_eq]
        omega
      refine Tries.fixes found (fun ignored => different (ignores.mp ignored)) prefers rfl
        ⟨built.circuit_eq, built.options_eq, built.progress_eq, built.outer_eq,
          congrArg (·.insert v value) built.forced_eq, counted, built.valid, built.grows, ?_,
          fun σ => ?_⟩
      · cases value
        · exact later.holdsBelow
        · exact later.holdsAbove
      · rw [← built.grows.value_eq valid holds]
        cases value
        · exact later.valueBelow σ
        · exact later.valueAbove σ

end Solver

end QuantCircuit
