import QuantCircuit.Proofs.Qcir.Parsing
import QuantCircuit.Qcir.Writer

namespace QuantCircuit.Qcir

variable {text front rest : List Char} {items : List (List Char)} {c sign : Char}

/-- The characters of literals. -/
def Plain (text : List Char) : Prop :=
  ∀ c ∈ text, c = '-' ∨ isNameChar c = true

/-- Text without its white space. -/
def bare (text : List Char) : List Char :=
  text.filter (!Text.isBlank ·)

theorem isNameChar_of_isBlank (blank : Text.isBlank c = true) : isNameChar c = false := by
  have none : Text.blanks.all (!isNameChar ·) = true := by decide +kernel
  simpa using List.all_eq_true.mp none c (List.contains_iff_mem.mp blank)

theorem Plain.not_mem (plain : Plain text) (other : c ≠ '-' ∧ isNameChar c = false) :
    c ∉ text := by
  intro member
  rcases plain c member with minus | inside
  · exact other.1 minus
  · simp [other.2] at inside

theorem bare_of_plain (plain : Plain text) : bare text = text := by
  refine List.filter_eq_self.mpr fun c member => ?_
  cases blank : Text.isBlank c with
  | false => rfl
  | true =>
    rcases plain c member with rfl | inside
    · exact absurd blank (by decide)
    · simp [isNameChar_of_isBlank blank] at inside

theorem plain_of_isName (named : isName text = true) : Plain text :=
  fun c member => .inr (List.all_eq_true.mp (Bool.and_eq_true_iff.mp named).2 c member)

theorem bare_append (front rest : List Char) : bare (front ++ rest) = bare front ++ bare rest :=
  List.filter_append ..

section Separating

theorem separate_cons_sign (sign : Char) (rest : List Char) :
    separate sign (sign :: rest) = [] :: separate sign rest := by
  simp [separate]

theorem separate_cons (other : c ≠ sign) {first : List Char} {pieces : List (List Char)}
    (separated : separate sign rest = first :: pieces) :
    separate sign (c :: rest) = (c :: first) :: pieces := by
  unfold separate at separated ⊢
  rw [List.foldr_cons, if_neg other, separated]

/-- The first piece ends with the first separator. -/
theorem separate_append (clean : sign ∉ front) (rest : List Char) :
    separate sign (front ++ sign :: rest) = front :: separate sign rest := by
  induction front with
  | nil => exact separate_cons_sign sign rest
  | cons c front ih =>
    obtain ⟨other, clean⟩ := List.ne_and_not_mem_of_not_mem_cons clean
    exact separate_cons (Ne.symm other) (ih clean)

theorem separate_of_not_mem (clean : sign ∉ text) : separate sign text = [text] := by
  induction text with
  | nil => rfl
  | cons c rest ih =>
    obtain ⟨other, clean⟩ := List.ne_and_not_mem_of_not_mem_cons clean
    exact separate_cons (Ne.symm other) (ih clean)

theorem separate_intercalate (clean : ∀ item ∈ items, sign ∉ item) (some_ : items ≠ []) :
    separate sign ([sign].intercalate items) = items := by
  induction items with
  | nil => exact absurd rfl some_
  | cons item rest ih =>
    obtain ⟨first, others⟩ := List.forall_mem_cons.mp clean
    cases rest with
    | nil => rw [List.intercalate_singleton, separate_of_not_mem first]
    | cons next more =>
      rw [List.intercalate_cons_cons, List.append_assoc, List.singleton_append,
        separate_append first, ih others (by simp)]

theorem listItems_intercalate (clean : ∀ item ∈ items, item ≠ [] ∧ ',' ∉ item) :
    listItems ([','].intercalate items) = items := by
  cases items with
  | nil => rfl
  | cons item rest =>
    rw [listItems, separate_intercalate (fun item member => (clean item member).2) (by simp)]
    refine List.filter_eq_self.mpr fun item member => ?_
    simpa using (clean item member).1

theorem quantified?_append (clean : ';' ∉ front) (only : ';' ∉ rest) :
    Line.quantified? (front ++ ';' :: rest) = some (front, rest) := by
  rw [Line.quantified?, separate_append clean, separate_of_not_mem only]

theorem mem_intercalate {between : List Char} (member : c ∈ between.intercalate items) :
    c ∈ between ∨ ∃ item ∈ items, c ∈ item := by
  induction items with
  | nil => simp [List.intercalate_nil] at member
  | cons item rest ih =>
    cases rest with
    | nil => exact .inr ⟨item, by simp, by simpa [List.intercalate_singleton] using member⟩
    | cons next more =>
      rw [List.intercalate_cons_cons, List.append_assoc] at member
      rcases List.mem_append.mp member with here | later
      · exact .inr ⟨item, by simp, here⟩
      · rcases List.mem_append.mp later with sign | there
        · exact .inl sign
        · rcases ih there with sign | ⟨other, listed, inside⟩
          · exact .inl sign
          · exact .inr ⟨other, List.mem_cons_of_mem _ listed, inside⟩

/-- White space is written behind commas only. -/
theorem bare_intercalate (plain : ∀ item ∈ items, Plain item) :
    bare ([',', ' '].intercalate items) = [','].intercalate items := by
  induction items with
  | nil => rfl
  | cons item rest ih =>
    obtain ⟨first, others⟩ := List.forall_mem_cons.mp plain
    cases rest with
    | nil => rw [List.intercalate_singleton, List.intercalate_singleton, bare_of_plain first]
    | cons next more =>
      rw [List.intercalate_cons_cons, List.intercalate_cons_cons, bare_append, bare_append,
        bare_of_plain first, ih others]
      rfl

end Separating

/-- The text of a literal whose identifier is spelled this way. -/
def signed (spell : Nat → List Char) (l : Literal) : List Char :=
  if l < 0 then '-' :: spell l.natAbs else spell l.natAbs

/-- The text of several literals, without white space. -/
def listed (spell : Nat → List Char) (literals : List Literal) : List Char :=
  [','].intercalate (literals.map (signed spell))

/-- How the identifiers of a circuit are spelled. -/
def spelling (c : Circuit) (keepNames : Bool) (id : Nat) : List Char :=
  (if keepNames then c.nameOf id else toString id).toList

theorem toList_literalText (c : Circuit) (keepNames : Bool) (l : Literal) :
    (literalText c keepNames l).toList = signed (spelling c keepNames) l := by
  cases keepNames with
  | true =>
    have same : c.nameOf l = c.nameOf (l.natAbs : Int) := rfl
    unfold literalText Circuit.literalName signed spelling
    rw [if_pos rfl, if_pos rfl, same]
    split <;> simp
  | false =>
    unfold literalText signed spelling
    cases l with
    | ofNat n => rfl
    | negSucc n =>
      have text : toString (Int.negSucc n) = "-" ++ toString (n + 1) := rfl
      rw [if_pos (Int.negSucc_lt_zero n)]
      show (toString (Int.negSucc n)).toList = '-' :: (toString (n + 1)).toList
      rw [text]
      simp

section Signs

variable {spell : Nat → List Char} {l : Literal} {literals : List Literal}
variable {known : List (List Char)}

theorem signed_of_pos (positive : 0 < l) : signed spell l = spell l.natAbs :=
  if_neg (Int.not_lt.mpr (Int.le_of_lt positive))

theorem plain_signed (named : isName (spell l.natAbs) = true) : Plain (signed spell l) := by
  unfold signed
  split
  · intro c member
    rcases List.mem_cons.mp member with minus | inside
    · exact .inl minus
    · exact plain_of_isName named c inside
  · exact plain_of_isName named

theorem signed_ne_nil (named : isName (spell l.natAbs) = true) : signed spell l ≠ [] := by
  unfold signed
  split
  · simp
  · intro empty
    simp [empty, isName] at named

theorem head?_signed (named : isName (spell l.natAbs) = true) :
    (signed spell l).head? = some '-' ↔ l < 0 := by
  unfold signed
  split
  · rename_i negative
    exact iff_of_true rfl negative
  · rename_i positive
    exact iff_of_false (head?_of_isName named) positive

theorem unsigned_signed (named : isName (spell l.natAbs) = true) :
    unsigned (signed spell l) = spell l.natAbs := by
  unfold signed
  split
  · rfl
  · exact unsigned_of_plus (head?_of_isName named)

theorem isLiteral_signed (named : isName (spell l.natAbs) = true) :
    isLiteral (signed spell l) = true := by
  unfold signed
  split
  · exact named
  · exact isLiteral_of_isName named

/-- A literal is read as the one whose identifier has the number of the name. -/
theorem literalOf_signed (known : List (List Char)) (named : isName (spell l.natAbs) = true) :
    literalOf known (signed spell l) =
      if l < 0 then - (numberOf known (spell l.natAbs) : Int)
      else numberOf known (spell l.natAbs) := by
  rw [literalOf, unsigned_signed named]
  simp only [head?_signed named]

variable (named : ∀ l ∈ literals, isName (spell l.natAbs) = true)
include named

theorem plain_items : ∀ item ∈ literals.map (signed spell), Plain item := by
  intro item member
  obtain ⟨l, present, rfl⟩ := List.mem_map.mp member
  exact plain_signed (named l present)

theorem listItems_listed : listItems (listed spell literals) = literals.map (signed spell) := by
  refine listItems_intercalate fun item member => ?_
  have plain := plain_items named item member
  obtain ⟨l, present, rfl⟩ := List.mem_map.mp member
  exact ⟨signed_ne_nil (named l present), plain.not_mem (by decide)⟩

theorem not_mem_listed (other : c ≠ '-' ∧ isNameChar c = false) (comma : c ≠ ',') :
    c ∉ listed spell literals := by
  intro member
  rcases mem_intercalate member with sign | ⟨item, present, inside⟩
  · exact comma (List.mem_singleton.mp sign)
  · exact (plain_items named item present).not_mem other inside

theorem flat_listed : Flat (listed spell literals) := by
  intro c member
  constructor
  · intro same
    exact not_mem_listed named (by decide) (by decide) (same ▸ member)
  · intro same
    exact not_mem_listed named (by decide) (by decide) (same ▸ member)

end Signs

theorem toList_listText (c : Circuit) (keepNames : Bool) (literals : List Literal) :
    (listText c keepNames literals).toList =
      [',', ' '].intercalate (literals.map (signed (spelling c keepNames))) := by
  rw [listText, String.toList_intercalate, List.map_map]
  exact congrArg _ (List.map_congr_left fun l _ => toList_literalText c keepNames l)

end QuantCircuit.Qcir
