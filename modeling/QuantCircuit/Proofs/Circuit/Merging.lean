import Mathlib.Data.List.Basic
import QuantCircuit.Proofs.Circuit.Connecting
import QuantCircuit.Proofs.Circuit.Flattening

namespace QuantCircuit.Circuit

variable {c m : Circuit} {gate child : Gate} {connective : Connective} {id limit position : Nat}
variable {l r out : Literal} {marked : Array Bool}

/-- The literal is a gate with the connective, or the negation of one with the dual connective,
so that its inputs may take its place in a gate with the connective. -/
def Mergeable (c : Circuit) (connective : Connective) (l : Literal) : Prop :=
  ∃ child, c.gate? l.natAbs = some child ∧
    (0 < l ∧ child.connective = connective ∨ l < 0 ∧ child.connective = connective.dual)

/-- A conjunction or disjunction reads no literal that could be merged into it. -/
def Merged (c : Circuit) (gate : Gate) : Prop :=
  gate.connective.isQuantifier = false → ∀ l ∈ gate.inputs, ¬ c.Mergeable gate.connective l

/-- Nothing below the literal is left to be merged. -/
def Flat (c : Circuit) (out : Literal) : Prop :=
  ∀ id gate, c.Connected out id → c.gate? id = some gate → c.Merged gate

theorem mergeable_neg : c.Mergeable connective (-l) ↔ c.Mergeable connective.dual l := by
  simp only [Mergeable, Int.natAbs_neg, Connective.dual_dual, Int.neg_pos, Int.neg_neg_iff_pos]
  exact exists_congr fun child => and_congr_right fun _ => or_comm

theorem mergedInput_eq_self (final : ¬ c.Mergeable connective l) :
    c.mergedInput connective l = [l] := by
  unfold mergedInput
  cases found : c.gate? l.natAbs with
  | none => rfl
  | some child =>
    dsimp only
    rw [if_neg fun same => final ⟨child, found, .inl same⟩,
      if_neg fun dual => final ⟨child, found, .inr dual⟩]

theorem Merged.mergedGate_eq (merged : c.Merged gate)
    (plain : gate.connective.isQuantifier = false) : c.mergedGate gate = gate := by
  have single : ∀ l ∈ gate.inputs, c.mergedInput gate.connective l = [l] :=
    fun l member => mergedInput_eq_self (merged plain l member)
  have inputs : gate.inputs.flatMap (c.mergedInput gate.connective) = gate.inputs := by
    rw [List.flatMap_congr single]
    exact List.flatMap_singleton' gate.inputs
  rw [mergedGate, inputs]

theorem mem_mergedInput (member : l ∈ c.mergedInput connective r) :
    l = r ∧ ¬ c.Mergeable connective r ∨ ∃ child, c.gate? r.natAbs = some child ∧
      (child.connective = connective ∧ l ∈ child.inputs ∨
        child.connective = connective.dual ∧ -l ∈ child.inputs) := by
  by_cases mergeable : c.Mergeable connective r
  · obtain ⟨child, found, ⟨positive, same⟩ | ⟨negative, dual⟩⟩ := mergeable
    · rw [mergedInput, found] at member
      exact .inr ⟨child, found, .inl ⟨same, by simpa [positive, same] using member⟩⟩
    · have notPositive : ¬ 0 < r := Int.not_lt.mpr (Int.le_of_lt negative)
      rw [mergedInput, found] at member
      simp only [notPositive, false_and, if_false, negative, dual, and_self, if_true] at member
      obtain ⟨s, listed, rfl⟩ := List.mem_map.mp member
      exact .inr ⟨child, found, .inr ⟨dual, by rwa [Int.neg_neg]⟩⟩
  · rw [mergedInput_eq_self mergeable] at member
    exact .inl ⟨List.mem_singleton.mp member, mergeable⟩

theorem Connective.isQuantifier_dual (connective : Connective) :
    connective.dual.isQuantifier = connective.isQuantifier := by
  cases connective <;> rfl

/-- If the gates that are merged into a gate are merged already, nothing is left to be merged
into it, either. Negating inputs exchanges the two ways of merging. -/
theorem merged_mergedGate (children : ∀ r ∈ gate.inputs, ∀ child, c.gate? r.natAbs = some child →
    c.Merged child) : c.Merged (c.mergedGate gate) := by
  intro plain l member
  obtain ⟨r, listed, replaced⟩ := List.mem_flatMap.mp member
  have kind : (c.mergedGate gate).connective = gate.connective := rfl
  rw [kind] at plain ⊢
  rcases mem_mergedInput replaced with ⟨rfl, final⟩ | ⟨child, found, ⟨same, input⟩ | ⟨dual, input⟩⟩
  · exact final
  · rw [← same] at plain ⊢
    exact children r listed child found plain l input
  · have plainChild : child.connective.isQuantifier = false := by
      rw [dual, Connective.isQuantifier_dual, plain]
    have final := children r listed child found plainChild (-l) input
    rwa [dual, mergeable_neg, Connective.dual_dual] at final

theorem Remakes.mergeable_iff (remakes : Remakes c m) :
    m.Mergeable connective l ↔ c.Mergeable connective l := by
  have maxVar_eq : m.maxVar = c.maxVar := by rw [remakes.rest_eq]
  have maxGate_eq : m.maxGate = c.maxGate := by
    rw [maxGate, maxGate, maxVar_eq, remakes.size_eq]
  constructor
  · rintro ⟨made, found, mergeable⟩
    obtain ⟨gate, before⟩ := gate?_of_lt_maxGate (maxVar_eq ▸ maxVar_le_of_gate? found)
      (maxGate_eq ▸ lt_maxGate_of_gate? found)
    obtain ⟨other, located, kind, _⟩ := remakes.gate? _ gate before
    obtain rfl := Option.some.inj (located.symm.trans found)
    exact ⟨gate, before, kind ▸ mergeable⟩
  · rintro ⟨gate, before, mergeable⟩
    obtain ⟨made, found, kind, _⟩ := remakes.gate? _ gate before
    exact ⟨made, found, kind ▸ mergeable⟩

/-- While gates are flattened in turn: marked gates read marked identifiers, and those before
the limit are merged. -/
structure FlatBelow (marked : Array Bool) (limit : Nat) (c : Circuit) : Prop where
  inputs : ∀ id gate, c.gate? id = some gate → marked[id]? = some true →
    ∀ l ∈ gate.inputs, marked[l.natAbs]? = some true
  merged : ∀ id gate, id < limit → c.gate? id = some gate → marked[id]? = some true →
    c.Merged gate

/-- A gate after a step is the gate before it, or has merged inputs. The gate at the position
is the former only if it is not marked, or a quantifier gate. -/
theorem gate?_flattenGate (found : (flattenGate marked c position).gate? id = some gate) :
    (c.gate? id = some gate ∧ (id = c.maxVar + position → marked[id]? = some true →
      gate.connective.isQuantifier = true)) ∨
    ∃ old, c.gate? id = some old ∧ gate = c.mergedGate old ∧ id = c.maxVar + position := by
  unfold flattenGate at found
  split at found
  · rename_i old here located
    have own : c.gate? (c.maxVar + position) = some old := gate?_of_located located
    split at found
    · rename_i quantifies
      refine .inl ⟨found, fun same _ => ?_⟩
      obtain rfl := Option.some.inj (own.symm.trans (same ▸ found))
      exact quantifies
    · rcases gate?_of_withGate own found with ⟨rfl, rfl⟩ | ⟨elsewhere, before⟩
      · exact .inr ⟨old, own, rfl, rfl⟩
      · exact .inl ⟨before, fun same => absurd same elsewhere⟩
  · rename_i other
    refine .inl ⟨found, fun same marks => ?_⟩
    obtain ⟨_, located⟩ := gate?_eq_some_iff.mp found
    refine (other gate (same ▸ marks) ?_).elim
    rwa [same, Nat.add_sub_cancel_left] at located

theorem FlatBelow.flattenGate (flat : FlatBelow marked (c.maxVar + position) c)
    (valid : c.WellFormed) :
    FlatBelow marked (c.maxVar + (position + 1)) (flattenGate marked c position) := by
  have remakes := remakes_flattenGate marked c position
  have same (gate : Gate) (merged : c.Merged gate) :
      (Circuit.flattenGate marked c position).Merged gate :=
    fun plain l member mergeable => merged plain l member (remakes.mergeable_iff.mp mergeable)
  refine ⟨fun id gate found marks l member => ?_, fun id gate below found marks => same gate ?_⟩
  · rcases gate?_flattenGate found with ⟨before, _⟩ | ⟨old, before, rfl, _⟩
    · exact flat.inputs id gate before marks l member
    · obtain ⟨r, listed, replaced⟩ := List.mem_flatMap.mp member
      have markedInput := flat.inputs id old before marks r listed
      rcases mem_mergedInput replaced with ⟨rfl, _⟩ | ⟨child, inside, ⟨_, input⟩ | ⟨_, input⟩⟩
      · exact markedInput
      · exact flat.inputs _ child inside markedInput l input
      · have negated := flat.inputs _ child inside markedInput (-l) input
        rwa [Int.natAbs_neg] at negated
  · rcases gate?_flattenGate found with ⟨before, here⟩ | ⟨old, before, rfl, here⟩
    · rcases Nat.lt_or_ge id (c.maxVar + position) with earlier | later
      · exact flat.merged id gate earlier before marks
      · -- the swept gate itself is left alone only if it quantifies
        have quantifies := here (by omega) marks
        exact fun plain => absurd quantifies (by simp [plain])
    · refine merged_mergedGate fun r listed child inside => ?_
      have earlier := (valid.inputs_lt id old before r listed).2
      exact flat.merged _ child (here ▸ earlier) inside (flat.inputs id old before marks r listed)

theorem flatBelow_flattenGates (valid : c.WellFormed)
    (start : ∀ id gate, c.gate? id = some gate → marked[id]? = some true →
      ∀ l ∈ gate.inputs, marked[l.natAbs]? = some true) (count : Nat) :
    FlatBelow marked (c.maxVar + count) ((List.range count).foldl (flattenGate marked) c) := by
  induction count with
  | zero =>
    refine ⟨start, fun id gate below found => ?_⟩
    exact absurd (maxVar_le_of_gate? found) (Nat.not_le_of_lt below)
  | succ count ih =>
    have rewrites := rewrites_flattenGates marked (List.range count) valid
    rw [List.range_succ, List.foldl_append, List.foldl_cons, List.foldl_nil, ← rewrites.maxVar_eq]
    exact FlatBelow.flattenGate (rewrites.maxVar_eq ▸ ih) rewrites.valid

theorem withGate_self (located : c.gates[position]? = some gate) :
    c.withGate position gate = c := by
  have gates : c.gates.setIfInBounds position gate = c.gates := by
    refine Array.ext_getElem? fun i => ?_
    rw [Array.getElem?_setIfInBounds]
    split
    · rename_i same
      subst same
      rw [if_pos (Array.getElem?_eq_some_iff.mp located).1, located]
    · rfl
  rw [withGate, gates]

/-- A flat circuit is left as it is. -/
theorem Flat.flatten_eq (flat : c.Flat out) (valid : c.WellFormed) (output : c.output? = some out) :
    c.flatten = .ok c := by
  rw [Circuit.flatten_eq output]
  refine congrArg Except.ok (List.foldl_fixed' (fun position => ?_) _)
  unfold flattenGate
  split
  · rename_i gate here located
    have found : c.gate? (c.maxVar + position) = some gate := gate?_of_located located
    have connected := (getElem?_cone valid.layered (valid.output_lt out output)).mp here
    split
    · rfl
    · rename_i plain
      have same := (flat _ gate connected found).mergedGate_eq (by simpa using plain)
      show c.withGate position (c.mergedGate gate) = c
      rw [same, withGate_self located]
  · rfl

/-- One flattening merges all that can be merged below the output, and leaves nothing to do to
a second one, also not in the gates that the output does not depend on. -/
theorem flatten_completes (valid : c.WellFormed) (output : c.output? = some out) :
    ∃ m, c.flatten = .ok m ∧ m.output? = some out ∧ m.Flat out ∧ m.flatten = .ok m := by
  let m := (List.range c.gates.size).foldl (flattenGate (c.cone out)) c
  obtain ⟨_, first, inputs⟩ := cone_spec valid.layered (valid.output_lt out output)
  have rewrites : Rewrites c m := rewrites_flattenGates (c.cone out) (List.range c.gates.size) valid
  have flatBelow := flatBelow_flattenGates valid inputs c.gates.size
  have outputLater : m.output? = some out := rewrites.output_eq.trans output
  have flat : m.Flat out := by
    intro id gate connected found
    have below : id < c.maxGate := rewrites.maxGate_eq ▸ lt_maxGate_of_gate? found
    have marks := marked_of_connected connected first flatBelow.inputs
    exact flatBelow.merged id gate below found marks
  exact ⟨m, flatten_eq output, outputLater, flat, flat.flatten_eq rewrites.valid outputLater⟩

theorem nested_flatten_completes :
    ∃ m, nested.flatten = .ok m ∧
      m.gate? 9 = some { connective := .and, inputs := [1, 2, -3, 1, 2, 8, 1, 2] } ∧
      (∀ l ∈ [1, 2, -3, 1, 2, 8, 1, 2], ¬ m.Mergeable .and l) ∧ m.flatten = .ok m := by
  obtain ⟨m, computed, _, flat, again⟩ :=
    flatten_completes (by decide : nested.WellFormed) (rfl : nested.output? = some (-9))
  have last : nested.flatten.map (·.gate? 9) =
      .ok (some { connective := .and, inputs := [1, 2, -3, 1, 2, 8, 1, 2] }) := by decide
  rw [computed] at last
  have found := Except.ok.inj last
  exact ⟨m, computed, found, flat 9 _ .self found rfl, again⟩

end QuantCircuit.Circuit
