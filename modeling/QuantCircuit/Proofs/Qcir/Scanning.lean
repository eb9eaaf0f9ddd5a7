import QuantCircuit.Proofs.Qcir.Spelling

namespace QuantCircuit.Qcir

variable {text line left word front back : List Char} {items lines : List (List Char)} {c : Char}

section Characters

theorem toNat_toLower (c : Char) : c.toLower.toNat =
    if 65 ≤ c.toNat ∧ c.toNat ≤ 90 then c.toNat + 32 else c.toNat := by
  unfold Char.toLower
  split
  · rename_i upper
    have lower : 65 ≤ c.val.toNat ∧ c.val.toNat ≤ 90 := upper
    show (c.val + (97 - 65)).toNat =
      if 65 ≤ c.val.toNat ∧ c.val.toNat ≤ 90 then c.val.toNat + 32 else c.val.toNat
    rw [if_pos lower, UInt32.toNat_add]
    exact Nat.mod_eq_of_lt (show c.val.toNat + 32 < 4294967296 by omega)
  · rename_i other
    exact (if_neg other).symm

theorem toNat_toUpper (c : Char) (lower : 97 ≤ c.toNat ∧ c.toNat ≤ 122) :
    c.toUpper.toNat = c.toNat - 32 := by
  unfold Char.toUpper
  rw [dif_pos (show 'a'.val ≤ c.val ∧ c.val ≤ 'z'.val from lower)]
  show (c.val + (65 - 97)).toNat = c.val.toNat - 32
  have bound : 97 ≤ c.val.toNat ∧ c.val.toNat ≤ 122 := lower
  rw [UInt32.toNat_add]
  show (c.val.toNat + 4294967264) % 4294967296 = _
  omega

theorem toLower_eq_iff {letter : Char} (lower : 97 ≤ letter.toNat ∧ letter.toNat ≤ 122) :
    c.toLower = letter ↔ c = letter ∨ c = letter.toUpper := by
  rw [← Char.toNat_inj, ← Char.toNat_inj, ← Char.toNat_inj, toNat_toLower, toNat_toUpper _ lower]
  split <;> omega

theorem isBlank_iff : Text.isBlank c = true ↔ Blank c := by
  unfold Text.isBlank Blank
  rw [List.contains_iff_mem]
  simp only [Text.blanks, List.mem_cons, List.not_mem_nil, or_false, ← Char.toNat_inj,
    Char.reduceToNat]
  omega

theorem isNameChar_iff : isNameChar c = true ↔ NameChar c := by
  simp only [isNameChar, Text.isWord, NameChar, Bool.or_eq_true, Bool.and_eq_true, beq_iff_eq,
    decide_eq_true_eq, List.any_eq_true, or_assoc]

theorem isName_eq_true_iff : isName text = true ↔ IsName text := by
  simp [isName, IsName, isNameChar_iff]

theorem bare_iff : Bare line left ↔ strip line = left := by
  constructor
  · intro bare
    induction bare with
    | nil => rfl
    | comment rest => rfl
    | @blank c line left blank bare ih =>
      have other : c ≠ '#' := by
        rintro rfl
        simp [Blank] at blank
      simpa [strip, other, isBlank_iff.mpr blank] using ih
    | @char c line left shown other bare ih =>
      have shown : Text.isBlank c = false := by simpa [← isBlank_iff] using shown
      simpa [strip, other, shown] using ih
  · rintro rfl
    induction line with
    | nil => exact .nil
    | cons c line ih =>
      by_cases comment : c = '#'
      · subst comment
        exact .comment line
      · by_cases blank : Text.isBlank c = true
        · have same : strip (c :: line) = strip line := by simp [strip, comment, blank]
          rw [same]
          exact .blank (isBlank_iff.mp blank) ih
        · have same : strip (c :: line) = c :: strip line := by simp [strip, comment, blank]
          rw [same]
          exact .char (fun shown => blank (isBlank_iff.mpr shown)) comment ih

end Characters

section Lists

theorem splits_iff {separator : Char} {pieces : List (List Char)} :
    Splits separator text pieces ↔ separate separator text = pieces := by
  constructor
  · intro splits
    rw [splits.whole, separate_intercalate splits.clean splits.nonempty]
  · rintro rfl
    induction text with
    | nil => exact ⟨by simp [separate], by simp [separate], rfl⟩
    | cons c rest ih =>
      by_cases sign : c = separator
      · subst sign
        rw [separate_cons_sign]
        refine ⟨by simp, by simpa using ih.clean, ?_⟩
        obtain ⟨piece, more, pieces⟩ := List.exists_cons_of_ne_nil ih.nonempty
        rw [pieces, List.intercalate_cons_cons, ← pieces, ← ih.whole]
        rfl
      · obtain ⟨piece, more, pieces⟩ := List.exists_cons_of_ne_nil ih.nonempty
        rw [separate_cons sign pieces]
        have clean := ih.clean
        have whole := ih.whole
        rw [pieces] at clean whole
        obtain ⟨first, others⟩ := List.forall_mem_cons.mp clean
        refine ⟨by simp, List.forall_mem_cons.mpr ⟨?_, others⟩, ?_⟩
        · simp [first, Ne.symm sign]
        · cases more with
          | nil => simpa [List.intercalate_singleton] using whole
          | cons next last =>
            rw [List.intercalate_cons_cons] at whole ⊢
            rw [whole]
            rfl

theorem filter_nonempty (pieces : List (List Char)) :
    pieces.filter (· ≠ []) = pieces.filter (!·.isEmpty) :=
  List.filter_congr fun piece _ => by cases piece <;> rfl

theorem lists_iff : Lists text items ↔ listItems text = items := by
  unfold Lists listItems
  rw [← filter_nonempty]
  constructor
  · rintro ⟨pieces, splits, rfl⟩
    rw [splits_iff.mp splits]
  · intro same
    exact ⟨_, splits_iff.mpr rfl, same.symm⟩

theorem forall₂_bare_iff {raw left : List (List Char)} :
    List.Forall₂ Bare raw left ↔ raw.map strip = left := by
  have same : Bare = fun line left => strip line = left := by
    funext line left
    exact propext bare_iff
  rw [same, ← List.forall₂_map_left_iff, List.forall₂_eq_eq_eq]

theorem contains_iff : Contains text lines ↔ content text = lines := by
  unfold Contains content
  rw [← filter_nonempty]
  constructor
  · rintro ⟨raw, left, splits, bare, rfl⟩
    rw [splits_iff.mp splits, forall₂_bare_iff.mp bare]
  · intro same
    exact ⟨_, _, splits_iff.mpr rfl, forall₂_bare_iff.mpr rfl, same.symm⟩

theorem quantified?_eq_some_iff {arguments : List Char} :
    Line.quantified? arguments = some (front, back) ↔
      arguments = front ++ ';' :: back ∧ ';' ∉ front ∧ ';' ∉ back := by
  constructor
  · intro quantified
    unfold Line.quantified? at quantified
    split at quantified
    · rename_i bound body pieces
      obtain ⟨rfl, rfl⟩ := Prod.mk.inj (Option.some.inj quantified)
      have splits := splits_iff.mpr pieces
      exact ⟨splits.whole.trans (by simp), splits.clean bound (by simp), splits.clean body (by simp)⟩
    · simp at quantified
  · rintro ⟨rfl, clean, only⟩
    exact quantified?_append clean only

end Lists

section Words

theorem anyCase_iff {word : String}
    (lower : ∀ letter ∈ word.toList, 97 ≤ letter.toNat ∧ letter.toNat ≤ 122) :
    AnyCase text word ↔ lowercase text = word.toList := by
  unfold AnyCase lowercase
  generalize word.toList = letters at lower
  induction letters generalizing text with
  | nil => cases text <;> simp
  | cons letter rest ih =>
    obtain ⟨first, others⟩ := List.forall_mem_cons.mp lower
    cases text with
    | nil => simp
    | cons c text =>
      rw [List.forall₂_cons, List.map_cons, List.cons.injEq, toLower_eq_iff first, ih others]

theorem lower_name (kind : Connective) :
    ∀ letter ∈ kind.name.toList, 97 ≤ letter.toNat ∧ letter.toNat ≤ 122 := by
  cases kind <;> simp [Connective.name]

theorem connective?_eq_some_iff {kind : Connective} :
    connective? word = some kind ↔ AnyCase word kind.name := by
  rw [anyCase_iff (lower_name kind)]
  unfold connective?
  constructor
  · intro found
    have named := List.find?_some found
    exact (of_decide_eq_true named).symm
  · intro same
    rw [same]
    cases kind <;> rfl

theorem connects_iff {kind : Connective} : Connects word kind ↔ connective? word = some kind := by
  rw [connective?_eq_some_iff]
  constructor
  · intro connects
    cases connects <;> assumption
  · intro spells
    cases kind with
    | and => exact .and spells
    | or => exact .or spells
    | all => exact .all spells
    | ex => exact .ex spells

theorem letters_of_connective? {kind : Connective} (connects : connective? word = some kind) :
    word ≠ [] ∧ ∀ c ∈ word, c.isAlpha = true := by
  have spelled := (anyCase_iff (lower_name kind)).mp (connective?_eq_some_iff.mp connects)
  refine ⟨?_, fun c member => ?_⟩
  · rintro rfl
    cases kind <;> simp [lowercase, Connective.name] at spelled
  · have lower : 97 ≤ c.toLower.toNat ∧ c.toLower.toNat ≤ 122 :=
      lower_name kind _ (spelled ▸ List.mem_map_of_mem member)
    have alpha : c.isAlpha = true ↔
        (65 ≤ c.toNat ∧ c.toNat ≤ 90) ∨ (97 ≤ c.toNat ∧ c.toNat ≤ 122) := by
      have cases : c.isAlpha = (decide (65 ≤ c.val ∧ c.val ≤ 90) ||
          decide (97 ≤ c.val) && decide (c.val ≤ 122)) := rfl
      simp only [cases, Bool.or_eq_true, Bool.and_eq_true, decide_eq_true_eq]
      exact Iff.rfl
    rw [toNat_toLower] at lower
    rw [alpha]
    split at lower <;> omega

theorem lowercase_long (word : List Char) :
    lowercase (word.map fun c => if c = 'ſ' then 's' else c) =
      (lowercase word).map fun c => if c = 'ſ' then 's' else c := by
  unfold lowercase
  rw [List.map_map, List.map_map]
  refine List.map_congr_left fun c _ => ?_
  have long : c.toLower = 'ſ' ↔ c = 'ſ' := by
    have code : 'ſ'.toNat = 383 := rfl
    rw [← Char.toNat_inj, ← Char.toNat_inj, toNat_toLower, code]
    split <;> omega
  simp only [Function.comp_apply, long]
  split <;> rfl

theorem mem_lowercase_long (long : 'ſ' ∈ word) : 'ſ' ∈ lowercase word :=
  List.mem_map.mpr ⟨'ſ', long, by decide⟩

theorem mem_long_of_folded {keyword : String}
    (folded : AnyCase (word.map fun c => if c = 'ſ' then 's' else c) keyword)
    (plain : ¬ AnyCase word keyword) : 'ſ' ∈ word := by
  by_contra absent
  have same : word.map (fun c => if c = 'ſ' then 's' else c) = word.map id :=
    List.map_congr_left fun c member => if_neg fun equal : c = 'ſ' => absent (equal ▸ member)
  rw [same, List.map_id] at folded
  exact plain folded

theorem opens_iff {quantifier : Option Quantifier} :
    Opens word quantifier ↔ Line.blockKind? word = some quantifier := by
  have all : AnyCase word "forall" ↔ lowercase word = "forall".toList := anyCase_iff (by simp)
  have ex : AnyCase word "exists" ↔ lowercase word = "exists".toList := anyCase_iff (by simp)
  have free : AnyCase word "free" ↔ lowercase word = "free".toList := anyCase_iff (by simp)
  have folded : AnyCase (word.map fun c => if c = 'ſ' then 's' else c) "exists" ↔
      ((lowercase word).map fun c => if c = 'ſ' then 's' else c) = "exists".toList := by
    rw [anyCase_iff (by simp), lowercase_long]
  unfold Line.blockKind?
  dsimp only
  constructor
  · intro opens
    cases opens with
    | all spells => rw [if_pos (all.mp spells)]
    | ex spells =>
      rw [ex.mp spells]
      decide
    | free spells =>
      rw [free.mp spells]
      decide
    | long long spells =>
      have inside := mem_lowercase_long long
      have other {keyword : List Char} (absent : 'ſ' ∉ keyword) : lowercase word ≠ keyword :=
        fun same => absent (same ▸ inside)
      rw [if_neg (other (by decide)), if_neg (other (by decide)), if_pos (.inr (folded.mp spells))]
  · intro kind
    split at kind
    · rename_i lower
      exact Option.some.inj kind ▸ .all (all.mpr lower)
    · split at kind
      · rename_i lower
        exact Option.some.inj kind ▸ .ex (ex.mpr lower)
      · rename_i short
        split at kind
        · rename_i lower
          rw [← Option.some.inj kind]
          rcases lower with lower | lower
          · exact .free (free.mpr lower)
          · have spells := folded.mpr lower
            exact .long (mem_long_of_folded spells fun plain => short (ex.mp plain)) spells
        · simp at kind

/-- What a literal stands for. -/
def termOf (text : List Char) : Term :=
  ⟨decide (text.head? = some '-'), unsigned text⟩

theorem denotes_iff {term : Term} :
    Denotes text term ↔ isLiteral text = true ∧ term = termOf text := by
  constructor
  · intro denotes
    cases denotes with
    | plain named =>
      have named := isName_eq_true_iff.mpr named
      have plus := head?_of_isName named
      refine ⟨isLiteral_of_isName named, ?_⟩
      rw [termOf, unsigned_of_plus plus, decide_eq_false plus]
    | minus named => exact ⟨isName_eq_true_iff.mpr named, rfl⟩
  · rintro ⟨shaped, rfl⟩
    by_cases plus : text.head? = some '-'
    · obtain ⟨rest, rfl⟩ := List.head?_eq_some_iff.mp plus
      exact .minus (isName_eq_true_iff.mp shaped)
    · rw [termOf, unsigned_of_plus plus, decide_eq_false plus]
      exact .plain (isName_eq_true_iff.mp (isName_of_plus shaped plus))

theorem literal_termOf (known : List (List Char)) (text : List Char) :
    (termOf text).literal known = literalOf known text := by
  simp [termOf, Term.literal, literalOf]

theorem forall₂_denotes_iff {terms : List Term} : List.Forall₂ Denotes items terms ↔
    (∀ item ∈ items, isLiteral item = true) ∧ terms = items.map termOf := by
  induction items generalizing terms with
  | nil => simp
  | cons item rest ih =>
    rw [List.forall₂_cons_left_iff, List.forall_mem_cons, List.map_cons]
    constructor
    · rintro ⟨term, others, denotes, more, rfl⟩
      obtain ⟨shaped, rfl⟩ := denotes_iff.mp denotes
      obtain ⟨all, rfl⟩ := ih.mp more
      exact ⟨⟨shaped, all⟩, rfl⟩
    · rintro ⟨⟨shaped, all⟩, rfl⟩
      exact ⟨_, _, denotes_iff.mpr ⟨shaped, rfl⟩, ih.mpr ⟨all, rfl⟩, rfl⟩

end Words

end QuantCircuit.Qcir
