import Mathlib.Data.List.Nodup
import QuantCircuit.Proofs.Qcir.Ordering
import QuantCircuit.Proofs.Qcir.Recognizing

namespace QuantCircuit.Qcir

open Circuit

variable {c : Circuit} {spell : Nat → List Char} {out l : Literal} {gate : Gate} {v id k : Nat}
variable {front rest : List Line} {line : Line} {known : List (List Char)}

section Names

variable (valid : c.WellFormed) (spells : Spells c spell)
include valid spells

theorem nodup_spelled (fits : k ≤ c.gates.size) : ((writtenIds c k).map spell).Nodup := by
  refine List.Nodup.map_on (fun i first j second same => ?_) (nodup_writtenIds valid k)
  obtain ⟨positiveI, belowI⟩ := (mem_writtenIds valid).mp first
  obtain ⟨positiveJ, belowJ⟩ := (mem_writtenIds valid).mp second
  exact spells.injective i j positiveI (by unfold maxGate; omega) positiveJ
    (by unfold maxGate; omega) same

theorem numberOf_spelled (positive : 0 < id) (below : id < c.maxGate) :
    numberOf ((writtenIds c c.gates.size).map spell) (spell id) = (readNumbering c).place id := by
  obtain ⟨located, counted⟩ := writtenIds_place valid positive below
  have position : ((writtenIds c c.gates.size).map spell)[(readNumbering c).place id - 1]? =
      some (spell id) := by
    rw [List.getElem?_map, readNumbering, located]
    rfl
  obtain ⟨inside, same⟩ := List.getElem?_eq_some_iff.mp position
  have first := (nodup_spelled valid spells (Nat.le_refl _)).idxOf_getElem _ inside
  rw [same] at first
  rw [numberOf, first]
  exact Nat.sub_add_cancel counted

theorem literalOf_spelled (defined : c.Defines l) :
    literalOf ((writtenIds c c.gates.size).map spell) (signed spell l) =
      (readNumbering c).literal l := by
  rw [literalOf_signed _ (spells.literal defined),
    numberOf_spelled valid spells (Int.natAbs_pos.mpr defined.1) defined.2]
  rfl

theorem names_spelled (fits : k ≤ c.gates.size) (nonzero : l ≠ 0)
    (below : l.natAbs < c.maxVar + k) :
    Names ((writtenIds c k).map spell) (signed spell l) := by
  have named : isName (spell l.natAbs) = true :=
    spells.literal ⟨nonzero, by unfold maxGate; omega⟩
  refine ⟨isLiteral_signed named, ?_⟩
  rw [unsigned_signed named]
  exact List.mem_map_of_mem ((mem_writtenIds valid).mpr ⟨Int.natAbs_pos.mpr nonzero, below⟩)

end Names

theorem quantified?_written (inputs : ∀ l ∈ gate.inputs, isName (spell l.natAbs) = true)
    (bound : ∀ l ∈ gate.bound, isName (spell l.natAbs) = true)
    (kindly : gate.connective.isQuantifier = true) :
    Line.quantified? (writtenArguments spell gate) =
      some (listed spell gate.bound, listed spell gate.inputs) := by
  rw [writtenArguments, if_pos kindly]
  exact quantified?_append (not_mem_listed bound (by decide) (by decide))
    (not_mem_listed inputs (by decide) (by decide))

theorem connective?_name (kind : Connective) : connective? kind.name.toList = some kind := by
  cases kind <;> decide

theorem boundItems_written (inputs : ∀ l ∈ gate.inputs, isName (spell l.natAbs) = true)
    (bound : ∀ l ∈ gate.bound, isName (spell l.natAbs) = true) :
    (writtenGate spell (gate, id)).boundItems =
      if gate.connective.isQuantifier then gate.bound.map (signed spell) else [] := by
  split
  · rename_i kindly
    rw [writtenGate, Reader.boundItems_gate _ (connective?_name _) kindly
      (quantified?_written inputs bound kindly), listItems_listed bound]
  · rename_i plain
    have none := Connective.not_isQuantifier_iff.mp plain
    simp [writtenGate, Line.boundItems, connective?_name, none]

theorem gateNames_append (lines more : List Line) :
    gateNames (lines ++ more) = gateNames lines ++ gateNames more :=
  List.filterMap_append ..

theorem block_of_mem_front (member : line ∈ writtenFree spell (freeVariables c) ++
    c.blocks.map (writtenBlock spell)) :
    ∃ quantifier arguments, line = .block quantifier arguments := by
  rcases List.mem_append.mp member with free | block
  · unfold writtenFree at free
    split at free
    · simp at free
    · exact ⟨_, _, List.mem_singleton.mp free⟩
  · obtain ⟨block, _, rfl⟩ := List.mem_map.mp block
    exact ⟨_, _, rfl⟩

theorem gateNames_front (c : Circuit) (spell : Nat → List Char) :
    gateNames (writtenFree spell (freeVariables c) ++ c.blocks.map (writtenBlock spell)) = [] := by
  refine List.filterMap_eq_nil_iff.mpr fun line member => ?_
  obtain ⟨_, _, rfl⟩ := block_of_mem_front member
  rfl

theorem gateNames_gates (spell : Nat → List Char) (entries : List (Gate × Nat)) :
    gateNames (entries.map (writtenGate spell)) = (entries.map Prod.snd).map spell := by
  rw [gateNames, List.filterMap_map, List.map_map]
  exact congrFun List.filterMap_eq_map entries

theorem gateNames_written (c : Circuit) (spell : Nat → List Char) (out : Literal) :
    gateNames (writtenLines c spell out) = (List.range' c.maxVar c.gates.size).map spell := by
  rw [writtenLines, gateNames_append, gateNames_front, List.nil_append, gateNames_cons,
    gateNames_gates, List.zipIdx_map_snd, Array.length_toList]
  rfl

theorem lastOutput?_written (c : Circuit) (spell : Nat → List Char) (out : Literal) :
    lastOutput? (writtenLines c spell out) = some (signed spell out) := by
  have front : outputArguments (writtenFree spell (freeVariables c) ++
      c.blocks.map (writtenBlock spell)) = [] := by
    refine List.filterMap_eq_nil_iff.mpr fun line member => ?_
    obtain ⟨_, _, rfl⟩ := block_of_mem_front member
    rfl
  have gates : outputArguments ((c.gates.toList.zipIdx c.maxVar).map (writtenGate spell)) = [] := by
    refine List.filterMap_eq_nil_iff.mpr fun line member => ?_
    obtain ⟨_, _, rfl⟩ := List.mem_map.mp member
    rfl
  unfold outputArguments at front gates
  rw [lastOutput?, outputArguments, writtenLines, List.filterMap_append, front, List.nil_append,
    filterMap_cons_append, gates]
  rfl

theorem known_eq (c : Circuit) (spell : Nat → List Char) (k : Nat) :
    (writtenOrder c).map spell ++ (List.range' c.maxVar k).map spell =
      (writtenIds c k).map spell := by
  rw [writtenIds, List.map_append]

theorem properGates_front (none : gateNames front = [])
    (gates : ProperGates known rest) : ProperGates known (front ++ rest) := by
  induction front with
  | nil => exact gates
  | cons line front ih =>
    rw [gateNames_cons, List.append_eq_nil_iff] at none
    refine properGates_cons.mpr ⟨fun name connective arguments same => ?_, ?_⟩
    · simp [same, gateNames] at none
    · rw [none.1, List.append_nil]
      exact ih none.2

theorem blockItems_free (spells : Spells c spell) :
    blockItems (writtenFree spell (freeVariables c)) =
      ((freeVariables c).map Int.natAbs).map spell := by
  have positive : (freeVariables c).map (signed spell) =
      ((freeVariables c).map Int.natAbs).map spell := by
    rw [List.map_map]
    refine List.map_congr_left fun l member => ?_
    exact signed_of_pos (mem_freeVariables member).1
  rw [← positive, ← listItems_listed (spells.named_free), writtenFree]
  split
  · rename_i none
    rw [none]
    rfl
  · simp [blockItems]

section Lines

variable (valid : c.WellFormed) (spells : Spells c spell)
include valid spells

theorem blockItems_blocks : blockItems (c.blocks.map (writtenBlock spell)) =
    (c.blocks.flatMap (·.vars)).map spell := by
  rw [blockItems, List.flatMap_map, List.map_flatMap]
  refine List.flatMap_congr fun block present => ?_
  refine (listItems_listed (spells.named_vars valid present)).trans ?_
  rw [List.map_map]
  rfl

theorem blockItems_written (out : Literal) :
    blockItems (writtenLines c spell out) = (writtenOrder c).map spell := by
  have others : blockItems (.output (signed spell out) ::
      (c.gates.toList.zipIdx c.maxVar).map (writtenGate spell)) = [] := by
    rw [blockItems, List.flatMap_cons, List.nil_append, List.flatMap_map]
    exact List.flatMap_eq_nil_iff.mpr fun _ _ => rfl
  rw [writtenLines, blockItems_append, blockItems_append, blockItems_free spells,
    blockItems_blocks valid spells, others, List.append_nil, writtenOrder, List.map_append]

theorem boundItems_declared (found : c.gate? id = some gate) :
    ∀ item ∈ (writtenGate spell (gate, id)).boundItems, item ∈ (writtenOrder c).map spell := by
  intro item member
  obtain ⟨inputs, bound⟩ := spells.named_gate valid found
  rw [boundItems_written inputs bound] at member
  split at member
  · obtain ⟨v, listed, rfl⟩ := List.mem_map.mp member
    obtain ⟨positive, small⟩ := valid.bound_lt _ _ found v listed
    rw [signed_of_pos positive]
    exact List.mem_map_of_mem ((mem_writtenOrder valid).mpr
      ⟨Int.natAbs_pos.mpr (Int.ne_of_gt positive), small⟩)
  · simp at member

theorem variableNames_written (out : Literal) :
    variableNames (writtenLines c spell out) = (writtenOrder c).map spell := by
  have declared : ∀ item ∈ (writtenLines c spell out).flatMap Line.boundItems,
      item ∈ (writtenOrder c).map spell := by
    intro item member
    obtain ⟨line, present, bound⟩ := List.mem_flatMap.mp member
    rcases List.mem_append.mp present with front | back
    · obtain ⟨_, _, rfl⟩ := block_of_mem_front front
      simp [Line.boundItems] at bound
    · rcases List.mem_cons.mp back with rfl | gates
      · simp [Line.boundItems] at bound
      · obtain ⟨⟨gate, id⟩, listed, rfl⟩ := List.mem_map.mp gates
        exact boundItems_declared valid spells (gate?_of_mem_zipIdx_maxVar listed) item bound
  have none : ((writtenLines c spell out).flatMap Line.boundItems).filter
      (· ∉ (writtenOrder c).map spell) = [] := by
    refine List.filter_eq_nil_iff.mpr fun item member => ?_
    simpa using declared item member
  rw [variableNames, blockItems_written valid spells, none, List.eraseDups_nil, List.append_nil]

theorem properArguments_written (found : c.gate? id = some gate) (fits : id = c.maxVar + k) :
    ProperArguments ((writtenIds c k).map spell) gate.connective (writtenArguments spell gate) := by
  obtain ⟨inputs, bound⟩ := spells.named_gate valid found
  have few : k ≤ c.gates.size := Nat.le_of_lt (lt_size_of_gate? (fits ▸ found))
  have known : ∀ l ∈ gate.inputs, Names ((writtenIds c k).map spell) (signed spell l) := by
    intro l listed
    obtain ⟨nonzero, earlier⟩ := valid.inputs_lt _ _ found l listed
    exact names_spelled valid spells few nonzero (fits ▸ earlier)
  unfold ProperArguments
  split
  · rename_i kindly
    obtain ⟨body, single⟩ := List.length_eq_one_iff.mp (valid.one_input _ _ found kindly)
    refine ⟨_, _, quantified?_written inputs bound kindly, ?_, ?_⟩
    · rw [listItems_listed bound]
      intro item member
      obtain ⟨v, listed, rfl⟩ := List.mem_map.mp member
      rw [signed_of_pos (valid.bound_lt _ _ found v listed).1]
      exact bound v listed
    · rw [single, listed, List.map_singleton, List.intercalate_singleton]
      exact known body (by simp [single])
  · rename_i plain
    rw [writtenArguments, if_neg plain, listItems_listed inputs]
    intro item member
    obtain ⟨l, listed, rfl⟩ := List.mem_map.mp member
    exact known l listed

theorem properGate_written (found : c.gate? id = some gate) (fits : id = c.maxVar + k) :
    ProperGate ((writtenIds c k).map spell) (spell id) gate.connective.name.toList
      (writtenArguments spell gate) := by
  have below := lt_maxGate_of_gate? found
  have positive := valid.maxVar_pos
  refine ⟨fun member => ?_, gate.connective, connective?_name _,
    properArguments_written valid spells found fits⟩
  obtain ⟨other, listed, same⟩ := List.mem_map.mp member
  obtain ⟨positiveOther, earlier⟩ := (mem_writtenIds valid).mp listed
  have equal := spells.injective other id positiveOther (by omega) (by omega) below same
  omega

theorem properGates_gates (gates : List Gate) (k : Nat)
    (found : ∀ entry ∈ gates.zipIdx (c.maxVar + k), c.gate? entry.2 = some entry.1) :
    ProperGates ((writtenIds c k).map spell)
      ((gates.zipIdx (c.maxVar + k)).map (writtenGate spell)) := by
  -- the names of the variables and of the first `k` gates are known
  induction gates generalizing k with
  | nil => simp [ProperGates]
  | cons gate rest ih =>
    rw [List.zipIdx_cons] at found ⊢
    obtain ⟨first, others⟩ := List.forall_mem_cons.mp found
    refine properGates_cons.mpr ⟨fun name connective arguments same => ?_, ?_⟩
    · obtain ⟨rfl, rfl, rfl⟩ := Line.gate.inj same
      exact properGate_written valid spells first rfl
    · have next := ih (k + 1) others
      rw [writtenIds, List.range'_1_concat, ← List.append_assoc, List.map_append] at next
      exact next

/-- What is written is proper. -/
theorem proper_written (output : c.output? = some out) : Proper (writtenLines c spell out) where
  items_names := by
    rw [blockItems_written valid spells]
    intro item member
    obtain ⟨v, listed, rfl⟩ := List.mem_map.mp member
    obtain ⟨positive, below⟩ := (mem_writtenOrder valid).mp listed
    exact spells.named_variable positive below
  items_nodup := by
    rw [blockItems_written valid spells]
    have distinct := nodup_spelled valid spells (Nat.zero_le _)
    rwa [writtenIds, List.range'_zero, List.append_nil] at distinct
  gates := by
    rw [variableNames_written valid spells]
    have gates := properGates_gates valid spells c.gates.toList 0 fun entry member =>
      gate?_of_mem_zipIdx_maxVar member
    rw [writtenIds, List.range'_zero, List.append_nil] at gates
    refine properGates_front (gateNames_front c spell) (properGates_cons.mpr ⟨?_, ?_⟩)
    · intro name connective arguments same
      simp at same
    · rwa [show gateNames [.output (signed spell out)] = [] from rfl, List.append_nil]
  output := by
    refine ⟨_, lastOutput?_written c spell out, ?_⟩
    obtain ⟨nonzero, below⟩ := valid.output_lt out output
    rw [variableNames_written valid spells, gateNames_written, known_eq]
    exact names_spelled valid spells (Nat.le_refl _) nonzero below

end Lines

end QuantCircuit.Qcir
