import Mathlib.Data.List.Forall2
import QuantCircuit.Proofs.Circuit.Gates
import QuantCircuit.Proofs.Qcir.Spelling

namespace QuantCircuit.Qcir

variable {text front rest word arguments : List Char} {lines more : List Line} {line : Line}
variable {c : Circuit} {spell : Nat → List Char} {gate : Gate} {id : Nat} {out : Literal}

def writtenArguments (spell : Nat → List Char) (gate : Gate) : List Char :=
  if gate.connective.isQuantifier then listed spell gate.bound ++ ';' :: listed spell gate.inputs
  else listed spell gate.inputs

def writtenGate (spell : Nat → List Char) (entry : Gate × Nat) : Line :=
  .gate (spell entry.2) entry.1.connective.name.toList (writtenArguments spell entry.1)

def writtenBlock (spell : Nat → List Char) (block : Block) : Line :=
  .block (some block.quantifier) (listed spell (block.vars.map Int.ofNat))

def writtenFree (spell : Nat → List Char) (free : List Literal) : List Line :=
  if free = [] then [] else [.block none (listed spell free)]

/-- The lines that describe a circuit if its identifiers are spelled this way. -/
def writtenLines (c : Circuit) (spell : Nat → List Char) (out : Literal) : List Line :=
  writtenFree spell (freeVariables c) ++ c.blocks.map (writtenBlock spell) ++
    .output (signed spell out) :: (c.gates.toList.zipIdx c.maxVar).map (writtenGate spell)

/-- The text consists of whole lines, and they read as these. -/
def Holds (text : List Char) (lines : List Line) : Prop :=
  ∀ rest, ∃ texts, content (text ++ rest) = texts ++ content rest ∧
    List.Forall₂ Shape texts lines

theorem Holds.nil : Holds [] [] :=
  fun _ => ⟨[], rfl, .nil⟩

theorem Holds.append (first : Holds text lines) (second : Holds rest more) :
    Holds (text ++ rest) (lines ++ more) := by
  intro tail
  obtain ⟨later, separated, shaped⟩ := second tail
  obtain ⟨texts, whole, shapes⟩ := first (rest ++ tail)
  refine ⟨texts ++ later, ?_, List.rel_append shapes shaped⟩
  rw [List.append_assoc, whole, separated, List.append_assoc]

theorem Holds.join {α : Type} {write : α → String} {read : α → Line} {entries : List α}
    (each : ∀ entry ∈ entries, Holds (write entry).toList [read entry]) :
    Holds (String.join (entries.map write)).toList (entries.map read) := by
  induction entries with
  | nil => exact Holds.nil
  | cons entry rest ih =>
    obtain ⟨first, others⟩ := List.forall_mem_cons.mp each
    rw [List.map_cons, String.join_cons, String.toList_append]
    exact first.append (ih others)

theorem Holds.shapes (holds : Holds text lines) : List.Forall₂ Shape (content text) lines := by
  obtain ⟨texts, whole, shaped⟩ := holds []
  have nothing : content [] = [] := rfl
  rw [nothing, List.append_nil, List.append_nil] at whole
  rwa [whole]

theorem content_line (clean : '\n' ∉ front) (rest : List Char) :
    content (front ++ '\n' :: rest) =
      [strip front].filter (!·.isEmpty) ++ content rest := by
  rw [content, separate_append clean, List.map_cons, ← List.singleton_append,
    List.filter_append]
  rfl

/-- Neither the end of a line nor the beginning of a comment. -/
def Quiet (text : List Char) : Prop :=
  '\n' ∉ text ∧ '#' ∉ text

instance (text : List Char) : Decidable (Quiet text) :=
  inferInstanceAs (Decidable (_ ∧ _))

theorem Quiet.append (first : Quiet front) (second : Quiet rest) : Quiet (front ++ rest) := by
  refine ⟨fun member => ?_, fun member => ?_⟩
  · exact (List.mem_append.mp member).elim first.1 second.1
  · exact (List.mem_append.mp member).elim first.2 second.2

theorem Plain.quiet (plain : Plain text) : Quiet text :=
  ⟨plain.not_mem (by decide), plain.not_mem (by decide)⟩

theorem strip_of_quiet (quiet : Quiet text) : strip text = bare text := by
  have inside : ∀ c ∈ text, decide (c ≠ '#') = true := fun c member =>
    decide_eq_true fun same => quiet.2 (same ▸ member)
  have whole : (text ++ []).takeWhile (· ≠ '#') = text := by
    rw [List.takeWhile_append_of_pos inside, List.takeWhile_nil, List.append_nil]
  rw [List.append_nil] at whole
  rw [strip, whole]
  rfl

theorem holds_call (quietWord : Quiet word) (quietArguments : Quiet arguments)
    (shape : Shape (bare word ++ '(' :: bare arguments ++ [')']) line) :
    Holds (word ++ '(' :: arguments ++ [')', '\n']) [line] := by
  intro rest
  have quiet : Quiet (word ++ ['('] ++ arguments ++ [')']) :=
    ((quietWord.append (by simp [Quiet])).append quietArguments).append (by simp [Quiet])
  have stripped : strip (word ++ ['('] ++ arguments ++ [')']) =
      bare word ++ '(' :: bare arguments ++ [')'] := by
    rw [strip_of_quiet quiet, bare_append, bare_append, bare_append]
    simp [bare, Text.isBlank, Text.blanks]
  have whole : word ++ '(' :: arguments ++ [')', '\n'] ++ rest =
      (word ++ ['('] ++ arguments ++ [')']) ++ '\n' :: rest := by simp
  refine ⟨[bare word ++ '(' :: bare arguments ++ [')']], ?_, .cons shape .nil⟩
  rw [whole, content_line quiet.1, stripped, List.filter_cons_of_pos, List.filter_nil]
  simp

/-- The identifiers of a circuit are spelled as names, each of them differently. -/
structure Spells (c : Circuit) (spell : Nat → List Char) : Prop where
  named : ∀ id, 0 < id → id < c.maxGate → isName (spell id) = true
  injective : ∀ i j, 0 < i → i < c.maxGate → 0 < j → j < c.maxGate → spell i = spell j → i = j

theorem Spells.named_variable (spells : Spells c spell) {v : Nat} (positive : 0 < v)
    (below : v < c.maxVar) : isName (spell v) = true :=
  spells.named v positive (Nat.lt_of_lt_of_le below (Nat.le_add_right ..))

theorem Spells.literal (spells : Spells c spell) {l : Literal} (defined : c.Defines l) :
    isName (spell l.natAbs) = true :=
  spells.named l.natAbs (Int.natAbs_pos.mpr defined.1) defined.2

theorem Quiet.intercalate {between : List Char} {items : List (List Char)} (sign : Quiet between)
    (quiet : ∀ item ∈ items, Quiet item) : Quiet (between.intercalate items) := by
  refine ⟨fun member => ?_, fun member => ?_⟩
  · rcases mem_intercalate member with here | ⟨item, present, inside⟩
    · exact sign.1 here
    · exact (quiet item present).1 inside
  · rcases mem_intercalate member with here | ⟨item, present, inside⟩
    · exact sign.2 here
    · exact (quiet item present).2 inside

theorem bare_listText {keepNames : Bool} {literals : List Literal}
    (named : ∀ l ∈ literals, isName (spelling c keepNames l.natAbs) = true) :
    Quiet (listText c keepNames literals).toList ∧
      bare (listText c keepNames literals).toList = listed (spelling c keepNames) literals := by
  rw [toList_listText]
  have plain := plain_items named
  have quiet : Quiet ([',', ' '].intercalate (literals.map (signed (spelling c keepNames)))) :=
    .intercalate (by decide) fun item present => (plain item present).quiet
  exact ⟨quiet, bare_intercalate plain⟩

section Rows

variable {keepNames : Bool}

theorem holds_freeLine
    (named : ∀ l ∈ freeVariables c, isName (spelling c keepNames l.natAbs) = true) :
    Holds (freeLine c keepNames).toList
      (writtenFree (spelling c keepNames) (freeVariables c)) := by
  unfold freeLine
  cases free : freeVariables c with
  | nil => exact Holds.nil
  | cons l rest =>
    rw [free] at named
    obtain ⟨quiet, compact⟩ := bare_listText named
    have row : ("free(" ++ listText c keepNames (l :: rest) ++ ")\n").toList =
        "free".toList ++ '(' :: (listText c keepNames (l :: rest)).toList ++ [')', '\n'] := by
      simp
    rw [writtenFree, if_neg (by simp)]
    dsimp only
    rw [row]
    refine holds_call (by decide) quiet ?_
    rw [compact]
    exact .block rfl (flat_listed named)

theorem holds_blockLine {block : Block}
    (named : ∀ l ∈ block.vars.map Int.ofNat, isName (spelling c keepNames l.natAbs) = true) :
    Holds (blockLine c keepNames block).toList [writtenBlock (spelling c keepNames) block] := by
  obtain ⟨quiet, compact⟩ := bare_listText named
  have row : (blockLine c keepNames block).toList = block.quantifier.name.toList ++
      '(' :: (listText c keepNames (block.vars.map Int.ofNat)).toList ++ [')', '\n'] := by
    simp [blockLine]
  have keyword : Quiet block.quantifier.name.toList ∧
      bare block.quantifier.name.toList = block.quantifier.name.toList ∧
        Line.blockKind? block.quantifier.name.toList = some (some block.quantifier) := by
    cases block.quantifier <;> decide
  obtain ⟨quietKeyword, plain, opens⟩ := keyword
  rw [row]
  refine holds_call quietKeyword quiet ?_
  rw [plain, compact]
  exact .block opens (flat_listed named)

theorem holds_outputLine (named : isName (spelling c keepNames out.natAbs) = true) :
    Holds ("output(" ++ literalText c keepNames out ++ ")\n").toList
      [.output (signed (spelling c keepNames) out)] := by
  have plain := plain_signed named
  have row : ("output(" ++ literalText c keepNames out ++ ")\n").toList =
      "output".toList ++ '(' :: signed (spelling c keepNames) out ++ [')', '\n'] := by
    rw [← toList_literalText]
    simp
  rw [row]
  refine holds_call (by decide) plain.quiet ?_
  rw [bare_of_plain plain]
  refine .output (by decide) fun d member => ⟨fun same => ?_, fun same => ?_⟩
  · exact plain.not_mem (by decide) (same ▸ member)
  · exact plain.not_mem (by decide) (same ▸ member)

theorem flat_writtenArguments (inputs : ∀ l ∈ gate.inputs, isName (spell l.natAbs) = true)
    (bound : ∀ l ∈ gate.bound, isName (spell l.natAbs) = true) :
    Flat (writtenArguments spell gate) := by
  unfold writtenArguments
  split
  · intro d member
    rcases List.mem_append.mp member with early | late
    · exact flat_listed bound d early
    · rcases List.mem_cons.mp late with rfl | inside
      · decide
      · exact flat_listed inputs d inside
  · exact flat_listed inputs

theorem bare_arguments (inputs : ∀ l ∈ gate.inputs, isName (spelling c keepNames l.natAbs) = true)
    (bound : ∀ l ∈ gate.bound, isName (spelling c keepNames l.natAbs) = true) :
    ∃ text, ((if gate.connective.isQuantifier then listText c keepNames gate.bound ++ "; "
        else "") ++ listText c keepNames gate.inputs).toList = text ∧
      Quiet text ∧ bare text = writtenArguments (spelling c keepNames) gate := by
  obtain ⟨quietInputs, compactInputs⟩ := bare_listText inputs
  obtain ⟨quietBound, compactBound⟩ := bare_listText bound
  have sign : Quiet "; ".toList ∧ bare "; ".toList = [';'] := by decide
  refine ⟨_, rfl, ?_⟩
  rw [writtenArguments, String.toList_append]
  split
  · rw [String.toList_append, bare_append, bare_append, compactBound, compactInputs, sign.2,
      List.append_assoc]
    refine ⟨quietBound.append (sign.1.append quietInputs), ?_⟩
    rw [List.append_assoc, List.singleton_append]
  · exact ⟨quietInputs, compactInputs⟩

theorem holds_gateLine (defined : isName (spelling c keepNames id) = true)
    (inputs : ∀ l ∈ gate.inputs, isName (spelling c keepNames l.natAbs) = true)
    (bound : ∀ l ∈ gate.bound, isName (spelling c keepNames l.natAbs) = true) :
    Holds (gateLine c keepNames gate id).toList
      [writtenGate (spelling c keepNames) (gate, id)] := by
  have plain := plain_of_isName defined
  have name : (literalText c keepNames id).toList = spelling c keepNames id := by
    rw [toList_literalText, signed, if_neg (Int.not_lt.mpr (Int.natCast_nonneg id)),
      Int.natAbs_natCast]
  have keyword : Quiet (" = " ++ gate.connective.name).toList ∧
      bare (" = " ++ gate.connective.name).toList = '=' :: gate.connective.name.toList ∧
        gate.connective.name.toList ≠ [] ∧
          gate.connective.name.toList.all Char.isAlpha = true := by
    cases gate.connective <;> decide
  obtain ⟨quietKeyword, compactKeyword, nonempty, letters⟩ := keyword
  obtain ⟨text, written, quiet, compact⟩ := bare_arguments inputs bound
  have row : (gateLine c keepNames gate id).toList =
      (spelling c keepNames id ++ (" = " ++ gate.connective.name).toList) ++ '(' :: text ++
        [')', '\n'] := by
    rw [← name, ← written]
    simp [gateLine, toString]
  rw [row]
  refine holds_call (plain.quiet.append quietKeyword) quiet ?_
  rw [bare_append, bare_of_plain plain, compactKeyword, compact]
  exact .gate defined nonempty (List.all_eq_true.mp letters) (flat_writtenArguments inputs bound)

end Rows

theorem mem_freeVariables {l : Literal} (member : l ∈ freeVariables c) :
    0 < l ∧ l.natAbs < c.maxVar := by
  obtain ⟨listed, _⟩ := List.mem_filter.mp member
  obtain ⟨v, inside, rfl⟩ := List.mem_map.mp listed
  obtain ⟨positive, below⟩ := List.mem_range'_1.mp inside
  exact ⟨Int.natCast_pos.mpr positive, by rw [Int.ofNat_eq_natCast, Int.natAbs_natCast]; omega⟩

theorem gate?_of_mem_zipIdx_maxVar (member : (gate, id) ∈ c.gates.toList.zipIdx c.maxVar) :
    c.gate? id = some gate := by
  obtain ⟨low, located⟩ := List.mem_zipIdx_iff_le_and_getElem?_sub.mp member
  exact Circuit.gate?_eq_some_iff.mpr ⟨low, by simpa using located⟩

theorem Spells.named_free (spells : Spells c spell) :
    ∀ l ∈ freeVariables c, isName (spell l.natAbs) = true := by
  intro l member
  obtain ⟨positive, below⟩ := mem_freeVariables member
  exact spells.named_variable (Int.natAbs_pos.mpr (Int.ne_of_gt positive)) below

theorem Spells.named_vars (spells : Spells c spell) (valid : c.WellFormed) {block : Block}
    (present : block ∈ c.blocks) :
    ∀ l ∈ block.vars.map Int.ofNat, isName (spell l.natAbs) = true := by
  intro l member
  obtain ⟨v, listed, rfl⟩ := List.mem_map.mp member
  obtain ⟨positive, below⟩ := valid.block_lt block present v listed
  exact spells.named_variable positive below

theorem Spells.named_gate (spells : Spells c spell) (valid : c.WellFormed)
    (found : c.gate? id = some gate) : (∀ l ∈ gate.inputs, isName (spell l.natAbs) = true) ∧
      ∀ v ∈ gate.bound, isName (spell v.natAbs) = true := by
  refine ⟨fun l listed => ?_, fun v listed => ?_⟩
  · obtain ⟨nonzero, earlier⟩ := valid.inputs_lt _ _ found l listed
    exact spells.literal ⟨nonzero, Nat.lt_trans earlier (Circuit.lt_maxGate_of_gate? found)⟩
  · obtain ⟨positive, small⟩ := valid.bound_lt _ _ found v listed
    exact spells.named_variable (Int.natAbs_pos.mpr (Int.ne_of_gt positive)) small

theorem holds_header : Holds "#QCIR-G14\n".toList [] := by
  have clean : '\n' ∉ "#QCIR-G14".toList := by decide
  exact fun rest => ⟨[], content_line clean rest, .nil⟩

/-- A well-formed circuit with an output can be written, and the text has these lines. -/
theorem write_holds {keepNames : Bool} (valid : c.WellFormed) (output : c.output? = some out)
    (spells : Spells c (spelling c keepNames)) :
    ∃ written, write c keepNames = .ok written ∧
      Holds written.toList (writtenLines c (spelling c keepNames) out) := by
  have given : c.output = .ok out := by rw [Circuit.output, output]
  have blocks : ∀ block ∈ c.blocks, Holds (blockLine c keepNames block).toList
      [writtenBlock (spelling c keepNames) block] :=
    fun block present => holds_blockLine (spells.named_vars valid present)
  have gates : ∀ entry ∈ c.gates.toList.zipIdx c.maxVar,
      Holds (gateLine c keepNames entry.1 entry.2).toList
        [writtenGate (spelling c keepNames) entry] := by
    intro entry member
    have found := gate?_of_mem_zipIdx_maxVar member
    have positive := Nat.lt_of_lt_of_le valid.maxVar_pos (Circuit.maxVar_le_of_gate? found)
    obtain ⟨inputs, bound⟩ := spells.named_gate valid found
    exact holds_gateLine (spells.named _ positive (Circuit.lt_maxGate_of_gate? found)) inputs bound
  have named := spells.literal (valid.output_lt out output)
  refine ⟨_, by rw [write, given]; rfl, ?_⟩
  have front := (holds_header.append (holds_freeLine spells.named_free)).append (Holds.join blocks)
  have whole := front.append ((holds_outputLine named).append (Holds.join gates))
  rw [List.nil_append] at whole
  rw [writtenLines]
  simpa only [String.toList_append, List.append_assoc, List.singleton_append] using whole

end QuantCircuit.Qcir
