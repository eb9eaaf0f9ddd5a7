import QuantCircuit.Proofs.Circuit.Naming
import QuantCircuit.Proofs.Edit.Operating
import QuantCircuit.Proofs.Qcir.Recognizing

namespace QuantCircuit

namespace Qcir

variable {text name : List Char} {known : List (List Char)} {lines : List Line}

theorem isName_iff : isName text = true ↔ text ≠ [] ∧ ∀ c ∈ text, isNameChar c = true := by
  simp [isName]

theorem isNameChar_of_isDigit {c : Char} (digit : c.isDigit = true) : isNameChar c = true := by
  have word : Text.isWord c = true :=
    Text.isWord_of_isAlphanum (by simp [Char.isAlphanum, digit])
  simp [isNameChar, word]

theorem isName_toString (n : Nat) : isName (toString n).toList = true := by
  rw [Nat.toString_eq_ofList_toDigits, String.toList_ofList]
  refine isName_iff.mpr ⟨Nat.toDigits_ne_nil, fun c member => ?_⟩
  exact isNameChar_of_isDigit (Nat.isDigit_of_mem_toDigits (by decide) (by decide) member)

theorem isName_nameVariant {base : String} (named : isName base.toList = true) (k : Nat) :
    isName (Circuit.nameVariant base k).toList = true := by
  cases k with
  | zero => exact named
  | succ k =>
    obtain ⟨_, front⟩ := isName_iff.mp named
    obtain ⟨_, digits⟩ := isName_iff.mp (isName_toString (k + 1))
    rw [Circuit.toList_nameVariant_succ]
    refine isName_iff.mpr ⟨by simp, fun c member => ?_⟩
    rcases List.mem_append.mp member with early | late
    · exact front c early
    · rcases List.mem_cons.mp late with rfl | digit
      · decide
      · exact digits c digit

theorem isName_freshName (c : Circuit) : isName c.freshName.toList = true := by
  obtain ⟨k, same⟩ := Circuit.untakenFrom_eq_nameVariant c.names s!"g{c.names.size}" c.names.size 0
  have base : isName (s!"g{c.names.size}").toList = true := by
    obtain ⟨_, digits⟩ := isName_iff.mp (isName_toString c.names.size)
    have text : (s!"g{c.names.size}").toList = 'g' :: (toString c.names.size).toList := by
      simp [toString]
    rw [text]
    refine isName_iff.mpr ⟨by simp, fun c member => ?_⟩
    rcases List.mem_cons.mp member with rfl | digit
    · decide
    · exact digits c digit
  rw [Circuit.freshName, same]
  exact isName_nameVariant base k

end Qcir

namespace Circuit

variable {c m : Circuit} {gate : Gate} {out : Literal}

/-- Behind an empty name the names differ from each other, and all of them can be read. -/
def Labelled (names : Array String) : Prop :=
  ∃ labels, names.toList = "" :: labels ∧ labels.Nodup ∧
    ∀ label ∈ labels, Qcir.isName label.toList = true

theorem labelled_push (labelled : Labelled c.names) : Labelled (c.names.push c.freshName) := by
  obtain ⟨labels, names, distinct, tokens⟩ := labelled
  refine ⟨labels ++ [c.freshName], by simp [names], ?_, fun label member => ?_⟩
  · rw [List.nodup_append]
    refine ⟨distinct, by simp, fun label old fresh new same => ?_⟩
    have member : c.freshName ∈ c.names.toList := by
      rw [names, ← List.mem_singleton.mp new, ← same]
      exact List.mem_cons_of_mem _ old
    exact c.freshName_not_mem (Array.mem_toList_iff.mp member)
  · rcases List.mem_append.mp member with old | new
    · exact tokens label old
    · exact List.mem_singleton.mp new ▸ Qcir.isName_freshName c

/-- Each identifier has an entry of its own in the names, and the entries differ. -/
theorem Labelled.exists_label {labels : List String} (names : c.names.toList = "" :: labels)
    (valid : c.WellFormed) {id : Nat} (positive : 0 < id) (below : id < c.maxGate) :
    ∃ entry, c.origin[id]? = some (entry + 1) ∧ labels[entry]? = some (c.nameOf id) := by
  obtain ⟨entry, located, named⟩ := valid.exists_name positive below
  obtain ⟨entry, rfl⟩ := Nat.exists_eq_succ_of_ne_zero
    (Nat.ne_of_gt (valid.of_origin positive located).1)
  refine ⟨entry, located, ?_⟩
  rw [← Array.getElem?_toList, names] at named
  exact named

theorem Labelled.isName_nameOf (labelled : Labelled c.names) (valid : c.WellFormed) {id : Nat}
    (positive : 0 < id) (below : id < c.maxGate) : Qcir.isName (c.nameOf id).toList = true := by
  obtain ⟨_, names, _, tokens⟩ := labelled
  obtain ⟨_, _, named⟩ := Labelled.exists_label names valid positive below
  exact tokens _ (List.mem_of_getElem? named)

theorem Labelled.nameOf_injective (labelled : Labelled c.names) (valid : c.WellFormed) {i j : Nat}
    (positiveI : 0 < i) (belowI : i < c.maxGate) (positiveJ : 0 < j) (belowJ : j < c.maxGate)
    (same : c.nameOf i = c.nameOf j) : i = j := by
  obtain ⟨labels, names, distinct, _⟩ := labelled
  obtain ⟨entryI, originI, nameI⟩ := Labelled.exists_label names valid positiveI belowI
  obtain ⟨entryJ, originJ, nameJ⟩ := Labelled.exists_label names valid positiveJ belowJ
  rw [← same, ← nameI] at nameJ
  have inside := (List.getElem?_eq_some_iff.mp nameI).1
  obtain rfl := (List.getElem?_inj inside distinct).mp nameJ.symm
  exact nodup_tail_iff.mp valid.origin_nodup i j _ positiveI positiveJ originI originJ

/-- Everything in the circuit can be written so that it is read as the same. -/
structure Legible (c : Circuit) : Prop where
  output : ∃ out, c.output? = some out
  names : ∃ labels, c.names.toList = "" :: labels ∧ labels.Nodup ∧
    ∀ label ∈ labels, Qcir.isName label.toList = true
  tidy : ∀ gate ∈ c.gates.toList, gate.Tidy

theorem Legible.withBlocks (legible : c.Legible) (blocks : List Block) :
    (c.withBlocks blocks).Legible :=
  ⟨legible.output, legible.names, legible.tidy⟩

theorem Legible.withOutput (legible : c.Legible) (out : Literal) :
    Legible { c with output? := some out } :=
  ⟨⟨out, rfl⟩, legible.names, legible.tidy⟩

theorem Legible.append (legible : c.Legible) (tidy : gate.Tidy) :
    (c.append gate c.freshName).Legible := by
  refine ⟨legible.output, labelled_push legible.names, fun other member => ?_⟩
  rw [Circuit.append, Array.toList_push] at member
  rcases List.mem_append.mp member with old | new
  · exact legible.tidy other old
  · exact List.mem_singleton.mp new ▸ tidy

theorem Legible.grows (grows : c.Grows m) (legible : c.Legible) : m.Legible := by
  induction grows with
  | refl => exact legible
  | append _ tidy ih => exact ih.append tidy

theorem Legible.renumber (legible : c.Legible) (n : Numbering) : (c.renumber n).Legible := by
  obtain ⟨out, output⟩ := legible.output
  refine ⟨⟨n.literal out, output_renumber n output⟩, legible.names, fun gate member plain => ?_⟩
  rw [gates_renumber] at member
  obtain ⟨⟨old, position⟩, listed, rfl⟩ := List.mem_map.mp member
  have present : old ∈ c.gates.toList := by
    have inside := (List.mem_filter.mp listed).1
    exact List.fst_mem_of_mem_zipIdx inside
  have bound := legible.tidy old present plain
  show old.bound.map n.literal = []
  rw [bound]
  rfl

theorem Legible.reorderVariables (legible : c.Legible) (first : List Nat) :
    (c.reorderVariables first).Legible :=
  (legible.renumber _).withBlocks _

theorem Legible.flattenGate (legible : c.Legible) (marked : Array Bool) (position : Nat) :
    (Circuit.flattenGate marked c position).Legible := by
  rcases flattenGate_eq marked c position with same | ⟨gate, located, _, changed⟩
  · rw [same]
    exact legible
  · rw [changed]
    refine ⟨legible.output, legible.names, fun other member => ?_⟩
    rw [withGate, Array.toList_setIfInBounds] at member
    rcases List.mem_or_eq_of_mem_set member with old | rfl
    · exact legible.tidy other old
    · exact legible.tidy gate (Array.mem_toList_iff.mpr (Array.mem_of_getElem? located))

theorem Legible.flattenGates (legible : c.Legible) (marked : Array Bool) (positions : List Nat) :
    (positions.foldl (Circuit.flattenGate marked) c).Legible := by
  induction positions generalizing c with
  | nil => exact legible
  | cons position rest ih => exact ih (legible.flattenGate marked position)

theorem Legible.cleanupGates (legible : c.Legible) (cleaned : c.cleanupGates = .ok m) :
    m.Legible := by
  obtain ⟨marked, _, cleaned⟩ := exists_of_bind_eq_ok cleaned
  exact Except.ok.inj cleaned ▸ legible.renumber _

theorem Legible.wrapOutput {block : Block} (legible : c.Legible)
    (wrapped : c.wrapOutput block = .ok m) : m.Legible := by
  obtain ⟨out, _, wrapped⟩ := exists_of_bind_eq_ok wrapped
  obtain ⟨⟨id, n⟩, added, wrapped⟩ := exists_of_bind_eq_ok wrapped
  obtain ⟨_, rfl, _⟩ := of_addGate added
  have tidy := Descent.tidy_quantify block.quantifier (block.vars.map Int.ofNat) out
  exact Except.ok.inj wrapped ▸ (legible.append tidy).withOutput _

theorem Legible.quantifyOutput {q : Quantifier} {x : Nat} (legible : c.Legible)
    (quantified : Circuit.quantifyOutput q c x = .ok m) : m.Legible := by
  obtain ⟨d, _, quantified⟩ := exists_of_bind_eq_ok quantified
  obtain ⟨out, _, quantified⟩ := exists_of_bind_eq_ok quantified
  obtain ⟨⟨l, s⟩, ran, quantified⟩ := exists_of_bind_eq_ok quantified
  have grown := legible.grows (Descent.retraces_bringDown d q x out _ _ _ ran).1
  dsimp only at quantified
  split at quantified
  · exact grown.cleanupGates quantified
  · obtain ⟨n, set, cleaned⟩ := exists_of_bind_eq_ok quantified
    obtain ⟨_, rfl⟩ := of_setOutput set
    exact (grown.withOutput l).cleanupGates cleaned

theorem Legible.apply (legible : c.Legible) {pass : Pass} (applied : pass.apply c = .ok m) :
    m.Legible := by
  cases pass with
  | splitBlocks => exact Except.ok.inj applied ▸ legible.withBlocks _
  | combineBlocks => exact Except.ok.inj applied ▸ legible.withBlocks _
  | flatten =>
    obtain ⟨out, _, applied⟩ := exists_of_bind_eq_ok applied
    exact Except.ok.inj applied ▸ legible.flattenGates _ _
  | cleanup =>
    have unfolded : c.cleanup = .ok m := applied
    unfold cleanup at unfolded
    split at unfolded
    · exact absurd unfolded throw_bind_ne_ok
    · obtain ⟨marked, _, renumbered⟩ := exists_of_bind_eq_ok unfolded
      exact Except.ok.inj renumbered ▸ legible.renumber _
  | cleanupGates => exact legible.cleanupGates applied
  | reorderByTraversal =>
    obtain ⟨out, _, applied⟩ := exists_of_bind_eq_ok applied
    exact Except.ok.inj applied ▸ legible.reorderVariables _
  | reorderByAppearance => exact Except.ok.inj applied ▸ legible.reorderVariables _
  | blocksToGates =>
    have unfolded : c.blocksToGates = .ok m := applied
    unfold blocksToGates at unfolded
    split at unfolded
    · obtain ⟨n, moved, last⟩ := exists_of_bind_eq_ok unfolded
      have kept := foldlM_induction Legible (fun _ _ _ kept => kept.wrapOutput) _ legible moved
      exact Except.ok.inj last ▸ kept.withBlocks _
    · exact Except.ok.inj unfolded ▸ legible
  | miniscope =>
    have unfolded : c.miniscope = .ok m := applied
    unfold miniscope at unfolded
    split at unfolded
    · obtain ⟨n, moved, last⟩ := exists_of_bind_eq_ok unfolded
      have kept := foldlM_induction Legible (fun _ _ _ start =>
        foldlM_induction Legible (fun _ _ _ kept => kept.quantifyOutput) _ start) _ legible moved
      exact Except.ok.inj last ▸ kept.withBlocks _
    · exact Except.ok.inj unfolded ▸ legible

end Circuit

namespace Qcir

open Circuit

variable {text name : List Char} {known texts : List (List Char)} {lines : List Line}

theorem nodup_variableNames (proper : Proper lines) : (variableNames lines).Nodup := by
  refine List.nodup_append.mpr ⟨proper.items_nodup, nodup_eraseDups _, ?_⟩
  intro item declared other bound same
  have outside := (List.mem_filter.mp (List.mem_eraseDups.mp bound)).2
  simp [← same, declared] at outside

/-- No gate has the name of a variable or of another gate. -/
theorem nodup_gateNames (distinct : known.Nodup) (gates : ProperGates known lines) :
    (known ++ gateNames lines).Nodup := by
  induction lines generalizing known with
  | nil => simpa [gateNames] using distinct
  | cons line rest ih =>
    obtain ⟨first, others⟩ := properGates_cons.mp gates
    rw [gateNames_cons, ← List.append_assoc]
    refine ih ?_ others
    cases line with
    | block => simpa [gateNames] using distinct
    | output => simpa [gateNames] using distinct
    | gate name connective arguments =>
      have fresh := (first name connective arguments rfl).1
      refine List.nodup_append.mpr ⟨distinct, by simp [gateNames], ?_⟩
      intro item old other new same
      obtain rfl : other = name := by simpa [gateNames] using new
      exact fresh (same ▸ old)

theorem isName_variableNames (proper : Proper lines) :
    ∀ item ∈ variableNames lines, isName item = true := by
  intro item member
  rcases List.mem_append.mp member with declared | bound
  · exact proper.items_names item declared
  · exact boundItems_names proper.gates item (List.mem_filter.mp (List.mem_eraseDups.mp bound)).1

theorem isName_gateNames (shaped : List.Forall₂ Shape texts lines) :
    ∀ item ∈ gateNames lines, isName item = true := by
  induction shaped with
  | nil => simp [gateNames]
  | cons shape _ ih =>
    rw [gateNames_cons, List.forall_mem_append]
    refine ⟨?_, ih⟩
    cases shape with
    | block => simp [gateNames]
    | output => simp [gateNames]
    | gate named => simpa [gateNames] using named

theorem tidy_gateOf (known : List (List Char)) (kind : Connective) (arguments : List Char) :
    (gateOf known kind arguments).Tidy := by
  unfold gateOf
  split
  · exact Descent.tidy_quantify _ _ _
  · exact Descent.tidy_plain _ _

theorem legible_withOutput {c : Circuit} (names : ∃ labels, c.names.toList = "" :: labels ∧
      labels.Nodup ∧ ∀ label ∈ labels, isName label.toList = true)
    (tidy : ∀ gate ∈ c.gates.toList, gate.Tidy) (out : Literal) : (withOutput c out).Legible := by
  have given : Legible { c with output? := some out } := ⟨⟨out, rfl⟩, names, tidy⟩
  unfold withOutput
  split
  · rename_i empty
    have none : ({ c with output? := some out } : Circuit).gates = #[] := Array.isEmpty_iff.mp empty
    -- the one gate has its name as if it had been added to the circuit without gates
    have added := (given.append (Descent.tidy_plain .and [out])).withOutput (c.maxVar : Int)
    rw [Circuit.append, none] at added
    exact added
  · exact given

theorem legible_describe (name : String) (shaped : List.Forall₂ Shape texts lines)
    (proper : Proper lines) : (describe name lines).Legible := by
  have named : ∀ item ∈ variableNames lines ++ gateNames lines, isName item = true :=
    List.forall_mem_append.mpr ⟨isName_variableNames proper, isName_gateNames shaped⟩
  have distinct := nodup_gateNames (nodup_variableNames proper) proper.gates
  refine legible_withOutput ⟨_, rfl, ?_, ?_⟩ ?_ _
  · exact List.Nodup.map (fun _ _ => String.ofList_injective) distinct
  · intro label member
    obtain ⟨item, listed, rfl⟩ := List.mem_map.mp member
    rw [String.toList_ofList]
    exact named item listed
  · intro gate member
    obtain ⟨line, _, defined⟩ := List.mem_filterMap.mp member
    cases line with
    | block => simp [definedGate] at defined
    | output => simp [definedGate] at defined
    | gate name connective arguments =>
      obtain ⟨kind, _, rfl⟩ := Option.map_eq_some_iff.mp defined
      exact tidy_gateOf _ kind arguments

/-- What is read, and then rewritten, can be written and read again. -/
theorem stands_and_legible {text name : String} {c₀ c : Circuit} {passes : List Pass}
    (accepted : read text name = .ok c₀)
    (passed : passes.foldlM (fun c pass => pass.apply c) c₀ = .ok c) : c.Stands ∧ c.Legible := by
  obtain ⟨lines, shaped, proper, same⟩ := shapes_of_read accepted
  have start : c₀.Stands ∧ c₀.Legible :=
    ⟨(Initial.read accepted).stands, same ▸ legible_describe name shaped proper⟩
  refine foldlM_induction (fun d => d.Stands ∧ d.Legible) ?_ passes start passed
  intro d pass m both applied
  have fits : (Operation.rewrite pass).Fits .checked := .inl rfl
  refine ⟨Operation.stands_apply (.rewrite pass) both.1 ?_ fits applied, both.2.apply applied⟩
  intro gate given
  simp [Operation.gate?] at given

end Qcir

end QuantCircuit
