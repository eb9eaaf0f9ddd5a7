import QuantCircuit.Proofs.Circuit.Declaring
import QuantCircuit.Proofs.Qcir.Parsing
import QuantCircuit.Qcir.Reader

namespace QuantCircuit

/-- The computation succeeds iff the condition holds, and then with a result that has the
property. -/
inductive Decides (computed : Except Error α) (condition : Prop) (post : α → Prop) : Prop
  | accepts (a : α) (ended : computed = .ok a) (holds : condition) (reached : post a)
  | rejects (e : Error) (failed : computed = .error e) (fails : ¬ condition)

namespace Decides

variable {computed : Except Error α} {condition other : Prop} {mid post : α → Prop}

theorem congr (decides : Decides computed condition post) (same : condition ↔ other) :
    Decides computed other post := by
  cases decides with
  | accepts a ended holds reached => exact .accepts a ended (same.mp holds) reached
  | rejects e failed fails => exact .rejects e failed fun holds => fails (same.mpr holds)

theorem mono (decides : Decides computed condition mid)
    (implied : ∀ a, condition → mid a → post a) : Decides computed condition post := by
  cases decides with
  | accepts a ended holds reached => exact .accepts a ended holds (implied a holds reached)
  | rejects e failed fails => exact .rejects e failed fails

theorem bind {next : α → Except Error β} {goal : β → Prop}
    (first : Decides computed condition mid)
    (rest : ∀ a, condition → mid a → Decides (next a) other goal) :
    Decides (computed >>= next) (condition ∧ other) goal := by
  cases first with
  | accepts a ended holds reached =>
    rw [ended]
    cases rest a holds reached with
    | accepts b again more last => exact .accepts b again ⟨holds, more⟩ last
    | rejects e failed fails => exact .rejects e failed fun both => fails both.2
  | rejects e failed fails =>
    rw [failed]
    exact .rejects e rfl fun both => fails both.1

theorem bind_ok {next : α → Except Error β} {goal : β → Prop}
    (first : Decides computed condition mid)
    (rest : ∀ a, condition → mid a → ∃ b, next a = .ok b ∧ goal b) :
    Decides (computed >>= next) condition goal := by
  refine (first.bind fun a holds here => ?_).congr (and_iff_left trivial)
  obtain ⟨b, ended, reached⟩ := rest a holds here
  exact .accepts b ended trivial reached

theorem bind_pure {change : α → β} {goal : β → Prop} (first : Decides computed condition mid)
    (reached : ∀ a, condition → mid a → goal (change a)) :
    Decides (computed >>= fun a => Pure.pure (change a)) condition goal :=
  first.bind_ok fun a holds here => ⟨change a, rfl, reached a holds here⟩

theorem eq_ok_iff {a b : α} (decides : Decides computed condition (· = a)) :
    computed = .ok b ↔ condition ∧ b = a := by
  cases decides with
  | accepts c ended holds same =>
    rw [ended, ← same, Except.ok.injEq]
    exact ⟨fun equal => ⟨holds, equal.symm⟩, fun both => both.2.symm⟩
  | rejects e failed fails =>
    rw [failed]
    exact iff_of_false (by simp) fun both => fails both.1

theorem mapM {work : α → Except Error β} {proper : α → Prop} {value : α → β}
    (each : ∀ a, Decides (work a) (proper a) (· = value a)) (items : List α) :
    Decides (items.mapM work) (∀ a ∈ items, proper a) (· = items.map value) := by
  induction items with
  | nil => exact .accepts [] rfl (by simp) rfl
  | cons a rest ih =>
    rw [List.mapM_cons, List.map_cons]
    refine ((each a).bind fun b _ same => ?_).congr List.forall_mem_cons.symm
    exact ih.bind_pure fun bs _ all => by rw [same, all]

end Decides

namespace Qcir

open Circuit

variable {name : String} {known items : List (List Char)} {text item : List Char} {line : Nat}
variable {maxVar : Nat} {blocks : List Block} {gates : List Gate}

theorem numberOf_append (member : text ∈ known) (more : List (List Char)) :
    numberOf (known ++ more) text = numberOf known text := by
  rw [numberOf, numberOf, List.idxOf_append, if_pos member]

theorem numberOf_last (fresh : item ∉ known) :
    numberOf (known ++ [item]) item = known.length + 1 := by
  rw [numberOf, List.idxOf_append, if_neg fresh, List.idxOf_cons_self, Nat.zero_add]

theorem numberOf_le (member : text ∈ known) : numberOf known text ≤ known.length :=
  List.idxOf_lt_length_iff.mpr member

/-- Names are added one by one, each of them new. -/
theorem nodup_append_cons (distinct : (known ++ item :: items).Nodup) :
    item ∉ known ∧ (known ++ [item] ++ items).Nodup := by
  refine ⟨fun member => ?_, ?_⟩
  · exact (List.nodup_append.mp distinct).2.2 item member item (by simp) rfl
  · rwa [List.append_assoc, List.singleton_append]

theorem map_numberOf_new (distinct : (known ++ items).Nodup) :
    items.map (numberOf (known ++ items)) = List.range' (known.length + 1) items.length := by
  induction items generalizing known with
  | nil => rfl
  | cons item rest ih =>
    obtain ⟨fresh, distinct⟩ := nodup_append_cons distinct
    have later := ih distinct
    rw [List.length_append] at later
    rw [List.append_cons, List.map_cons, later, numberOf_append (by simp), numberOf_last fresh]
    rfl

namespace Reader

/-- The names that are known are numbered in their order. -/
def Knows (ids : Std.TreeMap String Nat) (known : List (List Char)) : Prop :=
  ∀ text, ids[String.ofList text]? = if text ∈ known then some (numberOf known text) else none

/-- The reader has laid a circuit out. -/
structure Lays (r : Reader) (name : String) (known : List (List Char)) (maxVar : Nat)
    (blocks : List Block) (gates : List Gate) : Prop where
  circuit_eq : r.circuit = layOut name known maxVar blocks gates
  knows : Knows r.ids known

theorem Knows.contains_iff {ids : Std.TreeMap String Nat} (knows : Knows ids known) :
    ids.contains (String.ofList item) = true ↔ item ∈ known := by
  rw [Std.TreeMap.contains_eq_isSome_getElem?, knows item]
  by_cases member : item ∈ known <;> simp [member]

theorem Knows.insert {ids : Std.TreeMap String Nat} (knows : Knows ids known)
    (fresh : item ∉ known) :
    Knows (ids.insert (String.ofList item) (known.length + 1)) (known ++ [item]) := by
  intro text
  rw [Std.TreeMap.getElem?_insert]
  by_cases same : item = text
  · subst same
    rw [if_pos Std.ReflCmp.compare_self, if_pos (by simp), numberOf_last fresh]
  · have different : compare (String.ofList item) (String.ofList text) ≠ .eq := fun equal =>
      same (String.ofList_injective (Std.LawfulEqOrd.eq_of_compare equal))
    rw [if_neg different, knows text]
    by_cases member : text ∈ known
    · rw [if_pos member, if_pos (by simp [member]), numberOf_append member]
    · rw [if_neg member, if_neg (by simp [member, Ne.symm same])]

theorem Knows.learn {r : Reader} (knows : Knows r.ids known) (distinct : (known ++ items).Nodup) :
    Knows (r.learn (items.map String.ofList)
      (List.range' (known.length + 1) items.length)).ids (known ++ items) := by
  induction items generalizing r known with
  | nil => simpa [Reader.learn] using knows
  | cons item rest ih =>
    obtain ⟨fresh, distinct⟩ := nodup_append_cons distinct
    rw [List.append_cons]
    have next := ih (r := r.learn [String.ofList item] [known.length + 1]) (knows.insert fresh)
      distinct
    rw [List.length_append] at next
    exact next

theorem literal_eq {r : Reader} (shaped : isLiteral text = true) :
    r.literal line text = r.ids[String.ofList (unsigned text)]?.elim
      (.error (.undefinedName line (String.ofList (unsigned text))))
      fun id => .ok (if text.head? = some '-' then - (id : Int) else id) := by
  unfold literal
  rw [if_neg (by simp [shaped])]
  cases text with
  | nil => simp [isLiteral, isName] at shaped
  | cons c rest =>
    by_cases minus : c = '-'
    · subst minus
      cases found : r.ids[String.ofList rest]? with
      | none => simp only [unsigned, found, Option.elim_none]
      | some id =>
        simp only [unsigned, found, Option.elim_some, List.head?_cons, if_true, Int.neg_one_mul]
    · have plus : (c :: rest).head? ≠ some '-' := fun same => minus (Option.some.inj same)
      -- the second case of the match, which `simp` takes from here
      have other : ∀ name, c :: rest = '-' :: name → False := fun _ same =>
        minus (List.cons.inj same).1
      rw [unsigned_of_plus plus]
      cases found : r.ids[String.ofList (c :: rest)]? with
      | none => simp only [found, Option.elim_none]
      | some id => simp only [found, Option.elim_some, if_neg plus, Int.one_mul]

theorem decides_literal {r : Reader} (knows : Knows r.ids known) (line : Nat) (text : List Char) :
    Decides (r.literal line text) (Names known text) (· = literalOf known text) := by
  by_cases shaped : isLiteral text = true
  · rw [literal_eq shaped, knows (unsigned text)]
    by_cases member : unsigned text ∈ known
    · rw [if_pos member]
      exact .accepts _ rfl ⟨shaped, member⟩ rfl
    · rw [if_neg member]
      exact .rejects _ rfl fun names => member names.2
  · unfold literal
    rw [if_pos (by simpa using shaped)]
    exact .rejects _ rfl fun names => shaped names.1

/-- The items of a block are names, new and different from each other. -/
theorem decides_checkItems {r : Reader} (knows : Knows r.ids known) (line : Nat)
    (earlier items : List (List Char)) :
    Decides (r.checkItems line earlier items)
      ((∀ item ∈ items, isName item = true) ∧ items.Nodup ∧
        ∀ item ∈ items, item ∉ known ∧ item ∉ earlier) fun _ => True := by
  induction items generalizing earlier with
  | nil => exact .accepts () rfl (by simp) trivial
  | cons item rest ih =>
    have taken : (r.ids.contains (String.ofList item) ∨ item ∈ earlier) ↔
        item ∈ known ∨ item ∈ earlier := or_congr_left knows.contains_iff
    unfold checkItems
    by_cases named : isName item = true
    · rw [if_neg (by simp [named])]
      by_cases old : item ∈ known ∨ item ∈ earlier
      · rw [if_pos (taken.mpr old)]
        refine .rejects _ rfl fun proper => ?_
        obtain ⟨_, _, new⟩ := proper
        exact old.elim (new item (by simp)).1 (new item (by simp)).2
      · rw [if_neg fun known => old (taken.mp known)]
        refine (ih (item :: earlier)).congr ?_
        obtain ⟨unknown, other⟩ := not_or.mp old
        rw [List.forall_mem_cons, List.forall_mem_cons, List.nodup_cons]
        simp only [List.mem_cons, not_or]
        constructor
        · intro ⟨names, distinct, new⟩
          exact ⟨⟨named, names⟩, ⟨fun again => (new item again).2.1 rfl, distinct⟩,
            ⟨unknown, other⟩, fun next member => ⟨(new next member).1, (new next member).2.2⟩⟩
        · intro ⟨⟨_, names⟩, ⟨apart, distinct⟩, _, new⟩
          exact ⟨names, distinct, fun next member =>
            ⟨(new next member).1, fun same => apart (same ▸ member), (new next member).2⟩⟩
    · rw [if_pos (by simpa using named)]
      exact .rejects _ rfl fun proper => named (proper.1 item (by simp))

theorem declare_layOut (name : String) (known : List (List Char)) (blocks : List Block)
    (item : List Char) :
    (layOut name known (known.length + 1) blocks []).declare (String.ofList item) =
      layOut name (known ++ [item]) ((known ++ [item]).length + 1) blocks [] := by
  simp [Circuit.declare, layOut, List.range_succ]

theorem foldl_declare_layOut (name : String) (known : List (List Char)) (blocks : List Block)
    (items : List (List Char)) :
    (items.map String.ofList).foldl declare (layOut name known (known.length + 1) blocks []) =
      layOut name (known ++ items) ((known ++ items).length + 1) blocks [] := by
  induction items generalizing known with
  | nil => simp
  | cons item rest ih =>
    rw [List.map_cons, List.foldl_cons, declare_layOut, ih, List.append_assoc,
      List.singleton_append]

theorem addUnboundVariables_layOut (name : String) (known : List (List Char))
    (blocks : List Block) (items : List (List Char)) :
    (layOut name known (known.length + 1) blocks []).addUnboundVariables
        (items.map String.ofList) =
      .ok (List.range' (known.length + 1) items.length,
        layOut name (known ++ items) ((known ++ items).length + 1) blocks []) := by
  rw [addUnboundVariables_eq rfl, foldl_declare_layOut, List.length_map]
  rfl

theorem nodup_append_iff (distinct : known.Nodup) :
    (items.Nodup ∧ ∀ item ∈ items, item ∉ known ∧ item ∉ []) ↔ (known ++ items).Nodup := by
  rw [List.nodup_append]
  constructor
  · intro ⟨apart, new⟩
    exact ⟨distinct, apart, fun a old b late same => (new b late).1 (same ▸ old)⟩
  · intro ⟨_, apart, new⟩
    exact ⟨apart, fun item member => ⟨fun old => new item old item member rfl, by simp⟩⟩

theorem decides_declareBlock {r : Reader} (lays : r.Lays name known (known.length + 1) blocks [])
    (distinct : known.Nodup) (line : Nat) (quantifier : Option Quantifier)
    (arguments : List Char) :
    Decides (r.declareBlock line quantifier arguments)
      ((∀ item ∈ listItems arguments, isName item = true) ∧
        (known ++ listItems arguments).Nodup)
      fun s => s.Lays name (known ++ listItems arguments)
        ((known ++ listItems arguments).length + 1)
        (blocks ++ (blockOf (known ++ listItems arguments) (.block quantifier arguments)).toList)
        [] := by
  obtain ⟨items, same⟩ : ∃ items, listItems arguments = items := ⟨_, rfl⟩
  have checked := decides_checkItems lays.knows line [] items
  have declared := addUnboundVariables_layOut name known blocks items
  rw [← lays.circuit_eq] at declared
  unfold declareBlock
  rw [same]
  refine (checked.bind_ok fun _ holds _ => ?_).congr
    (and_congr_right fun _ => nodup_append_iff distinct)
  have proper := (nodup_append_iff distinct).mp holds.2
  have knows := lays.knows.learn proper
  cases quantifier with
  | none =>
    dsimp only
    rw [declared]
    refine ⟨_, rfl, ?_, knows⟩
    rw [show blockOf (known ++ items) (.block none arguments) = none from rfl, Option.toList_none,
      List.append_nil]
    rfl
  | some q =>
    have opened : blockOf (known ++ items) (.block (some q) arguments) =
        if items.isEmpty then none else some ⟨q, items.map (numberOf (known ++ items))⟩ := by
      rw [← same]
      rfl
    dsimp only
    unfold addBlock
    rw [declared, opened, map_numberOf_new proper]
    cases items with
    | nil =>
      rw [List.append_nil] at knows ⊢
      exact ⟨_, rfl, by simp [Reader.learn], knows⟩
    | cons item rest => exact ⟨_, rfl, rfl, knows⟩

def noteName (known : List (List Char)) (item : List Char) : List (List Char) :=
  if item ∈ known then known else known ++ [item]

theorem decides_declareBound {r : Reader} (lays : r.Lays name known (known.length + 1) blocks [])
    (names : ∀ item ∈ known, isName item = true) (line : Nat) (item : List Char) :
    Decides (r.declareBound (line, item)) (isName item = true)
      fun s => s.Lays name (noteName known item) ((noteName known item).length + 1) blocks [] := by
  unfold declareBound noteName
  dsimp only
  by_cases member : item ∈ known
  · rw [if_pos (lays.knows.contains_iff.mpr member), if_pos member]
    exact .accepts r rfl (names item member) lays
  · rw [if_neg fun known => member (lays.knows.contains_iff.mp known), if_neg member]
    by_cases named : isName item = true
    · have declared := addUnboundVariable_eq
        (c := layOut name known (known.length + 1) blocks []) rfl (String.ofList item)
      rw [if_neg (by simp [named]), lays.circuit_eq, declared, declare_layOut]
      exact .accepts _ rfl named ⟨rfl, lays.knows.insert member⟩
    · rw [if_pos (by simpa using named)]
      exact .rejects _ rfl named

theorem literalOf_neg_iff (known : List (List Char)) (text : List Char) :
    literalOf known text < 0 ↔ text.head? = some '-' := by
  unfold literalOf
  split
  · rename_i minus
    exact iff_of_true (Int.neg_neg_of_pos (Int.natCast_pos.mpr (Nat.succ_pos _))) minus
  · rename_i plus
    exact iff_of_false (Int.not_lt.mpr (Int.natCast_nonneg _)) plus

@[simp] theorem natAbs_literalOf (known : List (List Char)) (text : List Char) :
    (literalOf known text).natAbs = numberOf known (unsigned text) := by
  unfold literalOf
  split <;> simp

theorem names_of_isName (named : isName text = true) (member : text ∈ known) : Names known text :=
  ⟨isLiteral_of_isName named, by rwa [unsigned_of_plus (head?_of_isName named)]⟩

/-- The literals that a gate binds are names, and not negated. -/
theorem names_positive_iff (inside : ∀ item ∈ items, isName item = true → item ∈ known) :
    ((∀ item ∈ items, Names known item) ∧
        ¬ (items.map (literalOf known)).any (· < 0) = true) ↔
      ∀ item ∈ items, isName item = true := by
  constructor
  · intro ⟨names, positive⟩ item member
    refine isName_of_plus (names item member).1 fun minus => positive ?_
    exact List.any_eq_true.mpr ⟨_, List.mem_map_of_mem member,
      decide_eq_true ((literalOf_neg_iff known item).mpr minus)⟩
  · intro named
    refine ⟨fun item member => names_of_isName (named item member)
      (inside item member (named item member)), fun some_ => ?_⟩
    obtain ⟨l, listed, negative⟩ := List.any_eq_true.mp some_
    obtain ⟨item, member, rfl⟩ := List.mem_map.mp listed
    exact head?_of_isName (named item member)
      ((literalOf_neg_iff known item).mp (of_decide_eq_true negative))

theorem decides_readGate {r : Reader} (knows : Knows r.ids known) (line : Nat)
    (kind : Connective) (arguments : List Char)
    (inside : ∀ bound body, kind.isQuantifier = true →
      Line.quantified? arguments = some (bound, body) → ∀ item ∈ listItems bound, item ∈ known) :
    Decides (r.readGate line kind arguments) (ProperArguments known kind arguments)
      (· = gateOf known kind arguments) := by
  unfold readGate ProperArguments gateOf
  cases quantifies : kind.quantifier? with
  | none =>
    have plain := Connective.not_isQuantifier_iff.mpr quantifies
    rw [if_neg plain]
    exact (Decides.mapM (decides_literal knows line) _).bind_pure fun inputs _ same => by rw [same]
  | some q =>
    have kindly := Connective.isQuantifier_of_quantifier? quantifies
    rw [if_pos kindly]
    cases quantified : Line.quantified? arguments with
    | none => exact .rejects _ rfl (by simp)
    | some parts =>
      obtain ⟨bound, body⟩ := parts
      have positive := names_positive_iff fun item member _ =>
        inside bound body kindly quantified item member
      have read := Decides.mapM (decides_literal knows line) (listItems bound)
      refine (read.bind fun ls _ same => (?_ : Decides _ (¬ ((listItems bound).map
        (literalOf known)).any (· < 0) = true ∧ Names known body) _)).congr ?_
      · subst same
        by_cases negated : ((listItems bound).map (literalOf known)).any (· < 0) = true
        · rw [if_pos negated]
          exact .rejects _ rfl fun proper => proper.1 negated
        · rw [if_neg negated]
          refine ((decides_literal knows line body).bind_pure fun l _ same => ?_).congr
            (and_iff_right negated).symm
          rw [same]
      · rw [← and_assoc, positive]
        constructor
        · exact fun proper => ⟨bound, body, rfl, proper⟩
        · intro ⟨_, _, same, proper⟩
          obtain ⟨rfl, rfl⟩ := Prod.mk.inj (Option.some.inj same)
          exact proper

theorem append_layOut (name : String) (known : List (List Char)) (maxVar : Nat)
    (blocks : List Block) (gates : List Gate) (gate : Gate) (item : List Char) :
    (layOut name known maxVar blocks gates).append gate (String.ofList item) =
      layOut name (known ++ [item]) maxVar blocks (gates ++ [gate]) := by
  simp [Circuit.append, layOut, List.range_succ]

/-- The names that a line binds are those before the semicolon of a quantifier gate. -/
theorem boundItems_gate {connective arguments bound body : List Char} {kind : Connective}
    (gateName : List Char) (known : connective? connective = some kind)
    (kindly : kind.isQuantifier = true)
    (quantified : Line.quantified? arguments = some (bound, body)) :
    (Line.gate gateName connective arguments).boundItems = listItems bound := by
  obtain ⟨q, quantifies⟩ := Option.isSome_iff_exists.mp kindly
  simp [Line.boundItems, known, quantifies, quantified]

section

variable (counted : known.length + 1 = maxVar + gates.length)
include counted

theorem maxGate_layOut : (layOut name known maxVar blocks gates).maxGate = known.length + 1 := by
  rw [counted]
  simp [maxGate, layOut]

theorem defines_literalOf (names : Names known text) :
    (layOut name known maxVar blocks gates).Defines (literalOf known text) := by
  refine ⟨Int.natAbs_ne_zero.mp ?_, ?_⟩
  · rw [natAbs_literalOf]
    exact Nat.succ_ne_zero _
  · rw [natAbs_literalOf, maxGate_layOut counted]
    exact Nat.lt_succ_of_le (numberOf_le names.2)

/-- Proper arguments make a gate that may be added. -/
theorem accepts_gateOf {kind : Connective} {arguments : List Char}
    (proper : ProperArguments known kind arguments)
    (small : ∀ bound body, kind.isQuantifier = true →
      Line.quantified? arguments = some (bound, body) →
        ∀ item ∈ listItems bound, numberOf known item < maxVar) :
    (layOut name known maxVar blocks gates).Accepts (gateOf known kind arguments) := by
  unfold ProperArguments at proper
  unfold gateOf
  cases quantifies : kind.quantifier? with
  | none =>
    have plain := Connective.not_isQuantifier_iff.mpr quantifies
    rw [if_neg plain] at proper
    refine ⟨fun l member => ?_, by simp, fun kindly => absurd kindly plain⟩
    obtain ⟨item, listed, rfl⟩ := List.mem_map.mp member
    exact defines_literalOf counted (proper item listed)
  | some q =>
    have kindly := Connective.isQuantifier_of_quantifier? quantifies
    rw [if_pos kindly] at proper
    obtain ⟨bound, body, quantified, named, names⟩ := proper
    rw [quantified]
    refine ⟨fun l member => ?_, fun v member => ?_, fun _ => rfl⟩
    · exact List.mem_singleton.mp member ▸ defines_literalOf counted names
    · obtain ⟨item, listed, rfl⟩ := List.mem_map.mp member
      have plus := head?_of_isName (named item listed)
      have positive : literalOf known item = (numberOf known item : Int) := by
        rw [literalOf, if_neg plus, unsigned_of_plus plus]
      rw [positive, Int.natAbs_natCast]
      exact ⟨Int.natCast_pos.mpr (Nat.succ_pos _), small bound body kindly quantified item listed⟩

theorem addNamedGate_layOut {gate : Gate}
    (accepts : (layOut name known maxVar blocks gates).Accepts gate) (item : List Char) :
    (layOut name known maxVar blocks gates).addNamedGate gate (String.ofList item) =
      .ok (known.length + 1, layOut name (known ++ [item]) maxVar blocks (gates ++ [gate])) := by
  have appended := append_layOut name known maxVar blocks gates gate item
  rw [addNamedGate, accepts.check, ← appended, ← maxGate_layOut counted]
  rfl

theorem decides_defineGate {r : Reader} (lays : r.Lays name known maxVar blocks gates) (line : Nat)
    (gateName word arguments : List Char)
    (small : ∀ item ∈ (Line.gate gateName word arguments).boundItems,
      item ∈ known ∧ numberOf known item < maxVar) :
    Decides (r.defineGate line gateName word arguments) (ProperGate known gateName word arguments)
      fun s => s.Lays name (known ++ [gateName]) maxVar blocks
        (gates ++ (definedGate known (.gate gateName word arguments)).toList) := by
  unfold defineGate ProperGate
  dsimp only
  by_cases taken : gateName ∈ known
  · rw [if_pos (lays.knows.contains_iff.mpr taken)]
    exact .rejects _ rfl fun proper => proper.1 taken
  rw [if_neg fun known => taken (lays.knows.contains_iff.mp known)]
  cases kind : connective? word with
  | none => exact .rejects _ rfl (by simp)
  | some connective =>
    have inside (bound body : List Char) (kindly : connective.isQuantifier = true)
        (quantified : Line.quantified? arguments = some (bound, body)) :
        ∀ item ∈ listItems bound, item ∈ known ∧ numberOf known item < maxVar := by
      rw [← boundItems_gate gateName kind kindly quantified]
      exact small
    have only : ProperArguments known connective arguments ↔
        ∃ other, some connective = some other ∧ ProperArguments known other arguments := by
      simp
    have read := decides_readGate lays.knows line connective arguments
      fun bound body kindly quantified item member =>
        (inside bound body kindly quantified item member).1
    refine (read.bind_ok fun gate proper same => ?_).congr
      (only.trans (and_iff_right taken).symm)
    have accepts : Accepts (layOut name known maxVar blocks gates)
        (gateOf known connective arguments) :=
      accepts_gateOf counted proper fun bound body kindly quantified item member =>
        (inside bound body kindly quantified item member).2
    have defined : definedGate known (.gate gateName word arguments) =
        some (gateOf known connective arguments) := by
      rw [definedGate, kind]
      rfl
    rw [defined, lays.circuit_eq, same, addNamedGate_layOut counted accepts]
    exact ⟨_, rfl, rfl, lays.knows.insert taken⟩

end

end Reader

end Qcir

end QuantCircuit
