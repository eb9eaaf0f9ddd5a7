import QuantCircuit.Proofs.Qcir.Labelling
import QuantCircuit.Proofs.Qcir.Returning

namespace QuantCircuit.Qcir

open Circuit

variable {c : Circuit} {spell : Nat → List Char} {out : Literal} {gate : Gate} {id : Nat}
variable {known : List (List Char)} {maxVar : Nat} {blocks : List Block} {gates : List Gate}

/-- A circuit that can be read has names that can be written, and so do its numbers. -/
theorem spells_of_legible (valid : c.WellFormed) (legible : c.Legible) (keepNames : Bool) :
    Spells c (spelling c keepNames) := by
  cases keepNames with
  | false =>
    refine ⟨fun id _ _ => isName_toString id, fun i j _ _ _ _ same => ?_⟩
    exact toString_nat_injective (String.toList_inj.mp same)
  | true =>
    have labelled : Labelled c.names := legible.names
    exact ⟨fun _ => labelled.isName_nameOf valid, fun i j positiveI belowI positiveJ belowJ same =>
      labelled.nameOf_injective valid positiveI belowI positiveJ belowJ (String.toList_inj.mp same)⟩

theorem filterMap_map_of_some {write : α → β} {read : β → Option γ} {value : α → γ}
    {entries : List α} (each : ∀ a ∈ entries, read (write a) = some (value a)) :
    (entries.map write).filterMap read = entries.map value := by
  calc
    _ = entries.filterMap (read ∘ write) := List.filterMap_map ..
    _ = entries.filterMap (some ∘ value) := List.filterMap_congr each
    _ = entries.map value := congrFun List.filterMap_eq_map entries

def renumbered (n : Numbering) (block : Block) : Block :=
  { block with vars := block.vars.map n.place }

section Reading

variable (valid : c.WellFormed) (spells : Spells c spell)
include valid spells

theorem blockOf_written {block : Block} (present : block ∈ c.blocks) :
    blockOf ((writtenIds c c.gates.size).map spell) (writtenBlock spell block) =
      some (renumbered (readNumbering c) block) := by
  have items := listItems_listed (spells.named_vars valid present)
  have spelled : (block.vars.map Int.ofNat).map (signed spell) = block.vars.map spell := by
    rw [List.map_map]
    rfl
  have nonempty : ¬ (block.vars.map spell).isEmpty = true := by
    simpa using valid.block_nonempty block present
  rw [writtenBlock, blockOf, items, spelled, if_neg nonempty, renumbered, List.map_map]
  refine congrArg (fun vars => some (Block.mk block.quantifier vars)) ?_
  refine List.map_congr_left fun v member => ?_
  obtain ⟨positive, below⟩ := valid.block_lt block present v member
  exact numberOf_spelled valid spells positive (Nat.lt_of_lt_of_le below (Nat.le_add_right ..))

theorem definedGate_written (tidy : gate.Tidy) (found : c.gate? id = some gate) :
    definedGate ((writtenIds c c.gates.size).map spell) (writtenGate spell (gate, id)) =
      some ((readNumbering c).gate gate) := by
  obtain ⟨inputs, bound⟩ := spells.named_gate valid found
  have readInputs : (gate.inputs.map (signed spell)).map
      (literalOf ((writtenIds c c.gates.size).map spell)) =
        gate.inputs.map (readNumbering c).literal := by
    rw [List.map_map]
    refine List.map_congr_left fun l listed => ?_
    obtain ⟨nonzero, earlier⟩ := valid.inputs_lt _ _ found l listed
    exact literalOf_spelled valid spells ⟨nonzero, Nat.lt_trans earlier (lt_maxGate_of_gate? found)⟩
  have readBound : (gate.bound.map (signed spell)).map
      (literalOf ((writtenIds c c.gates.size).map spell)) =
        gate.bound.map (readNumbering c).literal := by
    rw [List.map_map]
    refine List.map_congr_left fun v listed => ?_
    obtain ⟨positive, small⟩ := valid.bound_lt _ _ found v listed
    exact literalOf_spelled valid spells
      ⟨Int.ne_of_gt positive, Nat.lt_of_lt_of_le small (Nat.le_add_right ..)⟩
  rw [writtenGate, definedGate, connective?_name, Option.map_some, gateOf]
  cases quantifies : gate.connective.quantifier? with
  | none =>
    have plain := Connective.not_isQuantifier_iff.mpr quantifies
    dsimp only
    rw [writtenArguments, if_neg plain, listItems_listed inputs, readInputs, Numbering.gate,
      tidy (Bool.eq_false_iff.mpr plain)]
    rfl
  | some q =>
    have kindly := Connective.isQuantifier_of_quantifier? quantifies
    obtain ⟨body, single⟩ := List.length_eq_one_iff.mp (valid.one_input _ _ found kindly)
    have same : q.gate = gate.connective := Connective.gate_of_quantifier? quantifies
    rw [quantified?_written inputs bound kindly]
    dsimp only
    rw [listItems_listed bound, readBound, single, listed, List.map_singleton,
      List.intercalate_singleton, Gate.quantify, Numbering.gate, same, ← readInputs, single]
    rfl

theorem blocks_written :
    (writtenLines c spell out).filterMap (blockOf ((writtenIds c c.gates.size).map spell)) =
      c.blocks.map (renumbered (readNumbering c)) := by
  have free : (writtenFree spell (freeVariables c)).filterMap
      (blockOf ((writtenIds c c.gates.size).map spell)) = [] := by
    unfold writtenFree
    split <;> simp [blockOf]
  have others : ((.output (signed spell out) ::
      (c.gates.toList.zipIdx c.maxVar).map (writtenGate spell)).filterMap
        (blockOf ((writtenIds c c.gates.size).map spell))) = [] := by
    refine List.filterMap_eq_nil_iff.mpr fun line member => ?_
    rcases List.mem_cons.mp member with rfl | gates
    · rfl
    · obtain ⟨_, _, rfl⟩ := List.mem_map.mp gates
      rfl
  rw [writtenLines, List.filterMap_append, List.filterMap_append, free, others, List.nil_append,
    List.append_nil]
  exact filterMap_map_of_some fun block present => blockOf_written valid spells present

theorem gates_written (tidy : ∀ gate ∈ c.gates.toList, gate.Tidy) :
    (writtenLines c spell out).filterMap (definedGate ((writtenIds c c.gates.size).map spell)) =
      c.gates.toList.map (readNumbering c).gate := by
  have front : (writtenFree spell (freeVariables c) ++ c.blocks.map (writtenBlock spell)).filterMap
      (definedGate ((writtenIds c c.gates.size).map spell)) = [] := by
    refine List.filterMap_eq_nil_iff.mpr fun line member => ?_
    obtain ⟨_, _, rfl⟩ := block_of_mem_front member
    rfl
  have gates : ((c.gates.toList.zipIdx c.maxVar).map (writtenGate spell)).filterMap
      (definedGate ((writtenIds c c.gates.size).map spell)) =
        (c.gates.toList.zipIdx c.maxVar).map fun entry => (readNumbering c).gate entry.1 := by
    refine filterMap_map_of_some fun entry member => ?_
    have present := List.fst_mem_of_mem_zipIdx member
    exact definedGate_written valid spells (tidy _ present) (gate?_of_mem_zipIdx_maxVar member)
  have entries : (c.gates.toList.zipIdx c.maxVar).map
      (fun entry => (readNumbering c).gate entry.1) =
        c.gates.toList.map (readNumbering c).gate := by
    rw [← Function.comp_def, ← List.map_map, List.zipIdx_map_fst]
  rw [writtenLines, List.filterMap_append, front, List.nil_append, filterMap_cons_append, gates,
    entries]
  rfl

theorem describe_written (tidy : ∀ gate ∈ c.gates.toList, gate.Tidy)
    (output : c.output? = some out) (name : String) :
    describe name (writtenLines c spell out) =
      withOutput (layOut name ((writtenIds c c.gates.size).map spell) c.maxVar
        (c.blocks.map (renumbered (readNumbering c)))
        (c.gates.toList.map (readNumbering c).gate)) ((readNumbering c).literal out) := by
  have variables_ := variableNames_written valid spells out
  have known := known_eq c spell c.gates.size
  unfold describe
  dsimp only
  rw [lastOutput?_written, variables_, gateNames_written, known, List.length_map,
    length_writtenOrder valid, blocks_written valid spells, gates_written valid spells tidy,
    Option.map_some, Option.getD_some, literalOf_spelled valid spells (valid.output_lt out output)]

end Reading

/-- The circuit has been read from a text that was written for `c`, with or without the names. -/
structure Restores (c : Circuit) (keepNames : Bool) (d : Circuit) : Prop where
  maxVar_eq : d.maxVar = c.maxVar
  blocks_eq : d.blocks = c.blocks.map (renumbered (readNumbering c))
  gates_eq : c.gates ≠ #[] → d.gates = c.gates.map (readNumbering c).gate ∧
    d.output? = c.output?.map (readNumbering c).literal
  /-- Without gates there is one that repeats the output. -/
  single_gate : c.gates = #[] → d.output? = some (c.maxVar : Int) ∧
    ∃ out, c.output? = some out ∧
      d.gates = #[{ connective := .and, inputs := [(readNumbering c).literal out] }]
  nameOf_eq : ∀ id : Nat, 0 < id → id < c.maxGate →
    d.nameOf ((readNumbering c).place id) = if keepNames then c.nameOf id else toString id

theorem getElem?_push_of_some {entries : Array α} {a : α} {position : Nat}
    (located : entries[position]? = some a) (last : α) :
    (entries.push last)[position]? = some a := by
  have inside := (Array.getElem?_eq_some_iff.mp located).1
  rw [Array.getElem?_push, if_neg (Nat.ne_of_lt inside), located]

theorem nameOf_of_getElem? {entry : Nat} {label : String} (origin : c.origin[id]? = some entry)
    (names : c.names[entry]? = some label) : c.nameOf id = label := by
  rw [nameOf, Int.natAbs_natCast, origin, Option.bind_some, names]
  rfl

theorem nameOf_withOutput (name : String) {text : List Char} {number : Nat}
    (counted : 0 < number) (located : known[number - 1]? = some text) :
    (withOutput (layOut name known maxVar blocks gates) out).nameOf number =
      String.ofList text := by
  obtain ⟨position, rfl⟩ := Nat.exists_eq_succ_of_ne_zero (Nat.ne_of_gt counted)
  rw [Nat.succ_sub_one] at located
  have inside := (List.getElem?_eq_some_iff.mp located).1
  have origin : (layOut name known maxVar blocks gates).origin[position + 1]? =
      some (position + 1) := by
    simp [layOut, inside]
  have names : (layOut name known maxVar blocks gates).names[position + 1]? =
      some (String.ofList text) := by
    simp [layOut, located]
  unfold withOutput
  split
  · exact nameOf_of_getElem? (getElem?_push_of_some origin _) (getElem?_push_of_some names _)
  · exact nameOf_of_getElem? origin names

/-- What the written lines describe is the circuit itself, under new numbers. -/
theorem restores_describe (valid : c.WellFormed) (legible : c.Legible) (keepNames : Bool)
    (output : c.output? = some out) (name : String) :
    Restores c keepNames (describe name (writtenLines c (spelling c keepNames) out)) := by
  have spells := spells_of_legible valid legible keepNames
  rw [describe_written valid spells legible.tidy output]
  constructor
  · unfold withOutput
    split <;> rfl
  · unfold withOutput
    split <;> rfl
  · intro several
    unfold withOutput
    split
    · rename_i empty
      exact absurd (by simpa [layOut] using empty) several
    · rw [output]
      exact ⟨Array.toList_inj.mp (by simp [layOut]), rfl⟩
  · intro none
    unfold withOutput
    split
    · exact ⟨rfl, out, output, rfl⟩
    · rename_i several
      exact absurd (by simp [layOut, none]) several
  · intro id positive below
    obtain ⟨located, counted⟩ := writtenIds_place valid positive below
    have spelled : ((writtenIds c c.gates.size).map (spelling c keepNames))[
        (readNumbering c).place id - 1]? = some (spelling c keepNames id) := by
      rw [List.getElem?_map, readNumbering, located]
      rfl
    exact (nameOf_withOutput name counted spelled).trans String.ofList_toList

/-- What is read, and then rewritten by passes, can be written, with or without its names, and
read again. The result is the same circuit, in which the variables are numbered in the order of
the text. -/
theorem written_reads_back {text name : String} {c₀ c : Circuit} {passes : List Pass}
    (accepted : read text name = .ok c₀)
    (passed : passes.foldlM (fun c pass => pass.apply c) c₀ = .ok c) (keepNames : Bool)
    (again : String) :
    ∃ written d, write c keepNames = .ok written ∧ read written again = .ok d ∧
      Restores c keepNames d ∧
      (writtenOrder c).map (readNumbering c).place = List.range' 1 (c.maxVar - 1) ∧
      ∀ id, c.maxVar ≤ id → id < c.maxGate → (readNumbering c).place id = id := by
  obtain ⟨⟨valid, _⟩, legible⟩ := stands_and_legible accepted passed
  obtain ⟨out, output⟩ := legible.output
  have spells := spells_of_legible valid legible keepNames
  obtain ⟨written, wrote, holds⟩ := write_holds valid output spells
  have proper := proper_written valid spells output
  refine ⟨written, _, wrote, read_of_shapes again holds.shapes proper,
    restores_describe valid legible keepNames output again, readNumbering_variables valid,
    fun id low below => readNumbering_gate valid low below⟩

/-- A circuit with a variable in no block, which is not the first one. -/
def loose : Circuit where
  name := "loose"
  maxVar := 5
  blocks := [⟨.ex, [1]⟩, ⟨.all, [3, 4]⟩]
  gates := #[{ connective := .and, inputs := [1, -2, 3] }]
  output? := some (-5)
  names := #["", "x", "w", "y", "z", "g"]
  origin := #[0, 1, 2, 3, 4, 5]

theorem loose_reads_back : ∃ c written d,
    [Pass.cleanup, .splitBlocks].foldlM (fun c pass => pass.apply c) loose = .ok c ∧
      write c true = .ok written ∧ read written "again" = .ok d ∧ d.maxVar = 4 ∧
      d.blocks = [⟨.ex, [2]⟩, ⟨.all, [3]⟩] ∧
      d.gates = #[{ connective := .and, inputs := [2, -1, 3] }] ∧ d.output? = some (-4) ∧
      d.nameOf 1 = "w" := by
  have accepted : read "exists(x)\nfree(w)\nforall(y, z)\noutput(-g)\ng = and(x, -w, y)\n" "loose" =
      .ok loose := by decide +kernel
  have passed : [Pass.cleanup, .splitBlocks].foldlM (fun c pass => pass.apply c) loose =
      .ok { loose with maxVar := 4, blocks := [⟨.ex, [1]⟩, ⟨.all, [3]⟩], output? := some (-4)
                       origin := #[0, 1, 2, 3, 5] } := by decide +kernel
  obtain ⟨written, d, wrote, reads, restores, _⟩ := written_reads_back accepted passed true "again"
  obtain ⟨gates, output⟩ := restores.gates_eq (by decide)
  refine ⟨_, written, d, passed, wrote, reads, restores.maxVar_eq,
    restores.blocks_eq.trans (by decide +kernel), gates.trans (by decide +kernel),
    output.trans (by decide +kernel), ?_⟩
  exact (restores.nameOf_eq 2 (by decide) (by decide)).trans (by decide +kernel)

end QuantCircuit.Qcir
