import QuantCircuit.Proofs.Qcir.Resolving

namespace QuantCircuit.Qcir

variable {text word name connective arguments : List Char}

theorem takeWhile_append_of_mem {p : Char → Bool} {front rest : List Char} {c : Char}
    (inside : ∀ d ∈ front, p d = true) (stop : p c = false) :
    (front ++ c :: rest).takeWhile p = front := by
  rw [List.takeWhile_append_of_pos inside, List.takeWhile_cons_of_neg (by simp [stop]),
    List.append_nil]

/-- A call is a word and arguments without parentheses. -/
theorem call?_eq_some_iff : call? text = some (word, arguments) ↔
    text = word ++ '(' :: arguments ++ [')'] ∧ '(' ∉ word ∧ Flat arguments := by
  unfold call?
  dsimp only
  constructor
  · intro called
    split at called
    · rename_i whole
      obtain ⟨rfl, rfl⟩ := Prod.mk.inj (Option.some.inj called)
      refine ⟨whole, fun member => ?_, fun c member => ?_⟩
      · simpa using List.all_eq_true.mp List.all_takeWhile _ member
      · simpa using List.all_eq_true.mp List.all_takeWhile _ member
    · simp at called
  · intro ⟨whole, closed, flat⟩
    have first : text.takeWhile (· ≠ '(') = word := by
      rw [whole, List.append_assoc]
      refine takeWhile_append_of_mem (fun d member => ?_) (by simp)
      simpa using fun same : d = '(' => closed (same ▸ member)
    have second : (text.drop (word.length + 1)).takeWhile (fun c => c ≠ '(' && c ≠ ')') =
        arguments := by
      have rest : text.drop (word.length + 1) = arguments ++ ')' :: [] := by
        rw [whole, List.append_assoc, ← List.drop_drop, List.drop_left]
        rfl
      rw [rest]
      exact takeWhile_append_of_mem (fun d member => by simpa using flat d member) (by simp)
    rw [first, second, if_pos whole]

theorem not_mem_of_isName {c : Char} (named : isName name = true) (other : isNameChar c = false) :
    c ∉ name := by
  intro member
  have inside := List.all_eq_true.mp (Bool.and_eq_true_iff.mp named).2 c member
  simp [other] at inside

theorem head?_of_isName (named : isName text = true) : text.head? ≠ some '-' := by
  intro minus
  exact not_mem_of_isName named (by decide) (List.mem_of_head? minus)

theorem unsigned_of_plus (plus : text.head? ≠ some '-') : unsigned text = text := by
  unfold unsigned
  split
  · exact absurd rfl plus
  · rfl

theorem isLiteral_of_isName (named : isName text = true) : isLiteral text = true := by
  unfold isLiteral
  split
  · exact absurd rfl (head?_of_isName named)
  · exact named

theorem isName_of_plus (shaped : isLiteral text = true) (plus : text.head? ≠ some '-') :
    isName text = true := by
  unfold isLiteral at shaped
  split at shaped
  · exact absurd rfl plus
  · exact shaped

/-- A definition is a name and a word of letters. -/
theorem definition?_eq_some_iff : Line.definition? text = some (name, connective) ↔
    text = name ++ '=' :: connective ∧ isName name = true ∧ connective ≠ [] ∧
      ∀ c ∈ connective, c.isAlpha = true := by
  unfold Line.definition?
  dsimp only
  constructor
  · intro defined
    split at defined
    · rename_i whole
      obtain ⟨rfl, rfl⟩ := Prod.mk.inj (Option.some.inj defined)
      obtain ⟨same, named, nonempty, letters⟩ := whole
      exact ⟨same, named, nonempty, List.all_eq_true.mp letters⟩
    · simp at defined
  · intro ⟨whole, named, nonempty, letters⟩
    have first : text.takeWhile (· ≠ '=') = name := by
      rw [whole]
      refine takeWhile_append_of_mem (fun d member => ?_) (by simp)
      simpa using fun same : d = '=' =>
        not_mem_of_isName named (by decide : isNameChar '=' = false) (same ▸ member)
    have second : text.drop (name.length + 1) = connective := by
      rw [whole, ← List.drop_drop, List.drop_left]
      rfl
    rw [first, second, if_pos ⟨whole, named, nonempty, List.all_eq_true.mpr letters⟩]

/-- A word with one of the signs of a line in it is no keyword. -/
theorem not_keyword {c : Char} (sign : c = '=' ∨ c = '(') (member : c ∈ word) :
    Line.blockKind? word = none ∧ lowercase word ≠ "output".toList := by
  have same : c.toLower = c ∧ c ≠ 'ſ' := by
    rcases sign with rfl | rfl <;> decide
  have inside : c ∈ lowercase word := same.1 ▸ List.mem_map_of_mem member
  have other {keyword : List Char} (absent : '=' ∉ keyword ∧ '(' ∉ keyword) :
      lowercase word ≠ keyword := by
    intro equal
    rw [equal] at inside
    rcases sign with rfl | rfl
    · exact absent.1 inside
    · exact absent.2 inside
  have folded : (lowercase word).map (fun c => if c = 'ſ' then 's' else c) ≠ "exists".toList := by
    intro equal
    have mapped : c ∈ (lowercase word).map fun c => if c = 'ſ' then 's' else c :=
      List.mem_map.mpr ⟨c, inside, if_neg same.2⟩
    rw [equal] at mapped
    rcases sign with rfl | rfl
    · exact absurd mapped (by decide)
    · exact absurd mapped (by decide)
  refine ⟨?_, other (by decide)⟩
  unfold Line.blockKind?
  dsimp only
  rw [if_neg (other (by decide)), if_neg (other (by decide)), if_neg]
  exact fun either => either.elim (other (by decide)) folded

theorem blockKind?_output (names : lowercase word = "output".toList) :
    Line.blockKind? word = none := by
  unfold Line.blockKind?
  rw [names]
  decide

theorem shape_of_parse? {line : Line} (parsed : Line.parse? text = some line) :
    Shape text line := by
  obtain ⟨⟨word, arguments⟩, called, rest⟩ := Option.bind_eq_some_iff.mp parsed
  obtain ⟨rfl, closed, flat⟩ := call?_eq_some_iff.mp called
  dsimp only at rest
  split at rest
  · rename_i quantifier opens
    obtain rfl := Option.some.inj rest
    exact .block opens flat
  · split at rest
    · rename_i names
      obtain rfl := Option.some.inj rest
      exact .output names flat
    · obtain ⟨⟨name, connective⟩, defined, last⟩ := Option.bind_eq_some_iff.mp rest
      obtain ⟨rfl, named, nonempty, letters⟩ := definition?_eq_some_iff.mp defined
      obtain rfl := Option.some.inj last
      exact .gate named nonempty letters flat

theorem closed_definition (named : isName name = true)
    (letters : ∀ c ∈ connective, c.isAlpha = true) : '(' ∉ name ++ '=' :: connective := by
  intro member
  rcases List.mem_append.mp member with early | late
  · exact not_mem_of_isName named (by decide) early
  · rcases List.mem_cons.mp late with sign | letter
    · exact absurd sign (by decide)
    · exact absurd (letters _ letter) (by decide)

theorem parse?_of_shape {line : Line} (shape : Shape text line) :
    Line.parse? text = some line := by
  unfold Line.parse?
  cases shape with
  | @block keyword arguments quantifier opens flat =>
    have closed : '(' ∉ keyword := by
      intro member
      simp [(not_keyword (.inr rfl) member).1] at opens
    rw [call?_eq_some_iff.mpr ⟨rfl, closed, flat⟩]
    simp only [Option.bind_eq_bind, Option.bind_some, opens]
    rfl
  | @output keyword arguments names flat =>
    have closed : '(' ∉ keyword := fun member => (not_keyword (.inr rfl) member).2 names
    rw [call?_eq_some_iff.mpr ⟨rfl, closed, flat⟩]
    simp only [Option.bind_eq_bind, Option.bind_some, blockKind?_output names, if_pos names]
    rfl
  | @gate name connective arguments named nonempty letters flat =>
    obtain ⟨kind, other⟩ := @not_keyword (name ++ '=' :: connective) '=' (.inl rfl) (by simp)
    rw [call?_eq_some_iff.mpr ⟨rfl, closed_definition named letters, flat⟩]
    simp only [Option.bind_eq_bind, Option.bind_some, kind, if_neg other,
      definition?_eq_some_iff.mpr ⟨rfl, named, nonempty, letters⟩]
    rfl

/-- Reading a line is recognising its shape. -/
theorem parse?_eq_some_iff {line : Line} : Line.parse? text = some line ↔ Shape text line :=
  ⟨shape_of_parse?, parse?_of_shape⟩

end QuantCircuit.Qcir
