import QuantCircuit.Proofs.Qcir.Recognizing
import QuantCircuit.Proofs.Qcir.Scanning

namespace QuantCircuit.Qcir

variable {text : List Char} {lines : List Line} {line : Line} {known : List (List Char)}

/-- What a line says, if it is sound. -/
def Line.statement : Line → Statement
  | block quantifier arguments => .block quantifier (listItems arguments)
  | output argument => .output argument
  | gate name word arguments =>
    let connective := (connective? word).getD .and
    match connective.quantifier?, quantified? arguments with
    | some q, some (bound, body) => .quantify name q (listItems bound) (termOf body)
    | _, _ => .join name connective ((listItems arguments).map termOf)

/-- The names and literals in a line have their form, and its connective is known. -/
def Line.Sound : Line → Prop
  | block _ arguments => ∀ item ∈ listItems arguments, isName item = true
  | output _ => True
  | gate _ word arguments => ∃ kind, connective? word = some kind ∧
      if kind.isQuantifier then
        ∃ bound body, quantified? arguments = some (bound, body) ∧
          (∀ item ∈ listItems bound, isName item = true) ∧ isLiteral body = true
      else ∀ item ∈ listItems arguments, isLiteral item = true

section Lines

variable {name word arguments bound body : List Char} {kind : Connective} {q : Quantifier}

theorem statement_join (connects : connective? word = some kind) (plain : ¬ kind.isQuantifier) :
    (Line.gate name word arguments).statement =
      .join name kind ((listItems arguments).map termOf) := by
  rw [Line.statement, connects, Option.getD_some, Connective.not_isQuantifier_iff.mp plain]

theorem statement_quantify (connects : connective? word = some kind)
    (quantifies : kind.quantifier? = some q)
    (quantified : Line.quantified? arguments = some (bound, body)) :
    (Line.gate name word arguments).statement =
      .quantify name q (listItems bound) (termOf body) := by
  rw [Line.statement, connects, Option.getD_some, quantifies, quantified]

theorem statement_gate (name word arguments : List Char) :
    (∃ connective inputs,
        (Line.gate name word arguments).statement = .join name connective inputs) ∨
      ∃ q bound body, (Line.gate name word arguments).statement = .quantify name q bound body := by
  unfold Line.statement
  dsimp only
  split
  · exact .inr ⟨_, _, _, rfl⟩
  · exact .inl ⟨_, _, rfl⟩

theorem Says.exists_line {statement : Statement} (told : Says text statement) :
    ∃ line, Shape text line ∧ line.Sound ∧ statement = line.statement := by
  cases told with
  | @block keyword arguments quantifier names opens flat lists named =>
    obtain rfl := lists_iff.mp lists
    exact ⟨_, .block (opens_iff.mp opens) flat,
      fun item member => isName_eq_true_iff.mpr (named item member), rfl⟩
  | output spells flat =>
    exact ⟨_, .output ((anyCase_iff (by simp)).mp spells) flat, trivial, rfl⟩
  | @join name word arguments connective items inputs named connects plain flat lists denote =>
    obtain rfl := lists_iff.mp lists
    obtain ⟨shaped, rfl⟩ := forall₂_denotes_iff.mp denote
    have connects := connects_iff.mp connects
    have simple : ¬ connective.isQuantifier := by rcases plain with rfl | rfl <;> decide
    obtain ⟨nonempty, letters⟩ := letters_of_connective? connects
    refine ⟨_, .gate (isName_eq_true_iff.mpr named) nonempty letters flat,
      ⟨connective, connects, ?_⟩, (statement_join connects simple).symm⟩
    rwa [if_neg simple]
  | @quantify name word front back q bound body named connects flat once lists names denotes =>
    obtain rfl := lists_iff.mp lists
    obtain ⟨shaped, rfl⟩ := denotes_iff.mp denotes
    have connects := connects_iff.mp connects
    have quantified := quantified?_eq_some_iff.mpr ⟨rfl, once.1, once.2⟩
    obtain ⟨nonempty, letters⟩ := letters_of_connective? connects
    refine ⟨_, .gate (isName_eq_true_iff.mpr named) nonempty letters flat,
      ⟨q.gate, connects, ?_⟩,
      (statement_quantify connects (Quantifier.quantifier?_gate q) quantified).symm⟩
    rw [if_pos (by cases q <;> rfl)]
    exact ⟨front, back, quantified,
      fun item member => isName_eq_true_iff.mpr (names item member), shaped⟩

theorem Shape.tells (shape : Shape text line) (sound : line.Sound) : Says text line.statement := by
  cases shape with
  | block opens flat =>
    exact .block (opens_iff.mpr opens) flat (lists_iff.mpr rfl)
      fun item member => isName_eq_true_iff.mp (sound item member)
  | output names flat => exact .output ((anyCase_iff (by simp)).mpr names) flat
  | @gate name word arguments named nonempty letters flat =>
    obtain ⟨kind, connects, fits⟩ := sound
    have named := isName_eq_true_iff.mp named
    cases quantifies : kind.quantifier? with
    | none =>
      have simple := Connective.not_isQuantifier_iff.mpr quantifies
      rw [if_neg simple] at fits
      rw [statement_join connects simple]
      refine .join named (connects_iff.mpr connects) ?_ flat (lists_iff.mpr rfl)
        (forall₂_denotes_iff.mpr ⟨fits, rfl⟩)
      cases kind <;> simp_all [Connective.quantifier?]
    | some q =>
      rw [if_pos (Connective.isQuantifier_of_quantifier? quantifies)] at fits
      obtain ⟨bound, body, quantified, names, shaped⟩ := fits
      obtain ⟨rfl, clean, only⟩ := quantified?_eq_some_iff.mp quantified
      rw [statement_quantify connects quantifies quantified]
      have gate := connects_iff.mpr connects
      rw [← Connective.gate_of_quantifier? quantifies] at gate
      exact .quantify named gate flat ⟨clean, only⟩ (lists_iff.mpr rfl)
        (fun item member => isName_eq_true_iff.mp (names item member))
        (denotes_iff.mpr ⟨shaped, rfl⟩)

theorem says_iff {statement : Statement} :
    Says text statement ↔ ∃ line, Shape text line ∧ line.Sound ∧ statement = line.statement :=
  ⟨Says.exists_line, fun ⟨_, shape, sound, same⟩ => same ▸ shape.tells sound⟩

/-- A gate line is proper if it is sound and what it says resolves. -/
theorem properGate_iff : ProperGate known name word arguments ↔
    (Line.gate name word arguments).Sound ∧
      Script.Resolves known (Line.gate name word arguments).statement := by
  unfold ProperGate Line.Sound ProperArguments
  dsimp only
  cases connects : connective? word with
  | none => simp
  | some kind =>
    simp only [Option.some.injEq, exists_eq_left']
    cases quantifies : kind.quantifier? with
    | none =>
      have simple := Connective.not_isQuantifier_iff.mpr quantifies
      rw [if_neg simple, if_neg simple, statement_join connects simple]
      simp only [Script.Resolves, Names, List.forall_mem_map, termOf]
      constructor
      · rintro ⟨fresh, proper⟩
        exact ⟨fun item member => (proper item member).1, fresh,
          fun item member => (proper item member).2⟩
      · rintro ⟨shaped, fresh, resolved⟩
        exact ⟨fresh, fun item member => ⟨shaped item member, resolved item member⟩⟩
    | some q =>
      have kindly := Connective.isQuantifier_of_quantifier? quantifies
      rw [if_pos kindly, if_pos kindly]
      constructor
      · rintro ⟨fresh, bound, body, quantified, named, shaped, resolved⟩
        rw [statement_quantify connects quantifies quantified]
        exact ⟨⟨bound, body, quantified, named, shaped⟩, fresh, resolved⟩
      · rintro ⟨⟨bound, body, quantified, named, shaped⟩, resolves⟩
        rw [statement_quantify connects quantifies quantified] at resolves
        exact ⟨resolves.1, bound, body, quantified, named, shaped, resolves.2⟩

end Lines

section Scripts

theorem forall₂_says_iff {bare : List (List Char)} {script : List Statement} :
    List.Forall₂ Says bare script ↔ ∃ lines, List.Forall₂ Shape bare lines ∧
      (∀ line ∈ lines, line.Sound) ∧ script = lines.map Line.statement := by
  induction bare generalizing script with
  | nil =>
    constructor
    · intro told
      cases told
      exact ⟨[], .nil, by simp, rfl⟩
    · rintro ⟨lines, shapes, _, rfl⟩
      cases shapes
      exact .nil
  | cons text rest ih =>
    constructor
    · intro told
      cases told with | cons first others =>
      obtain ⟨line, shape, sound, rfl⟩ := says_iff.mp first
      obtain ⟨lines, shapes, all, rfl⟩ := ih.mp others
      exact ⟨line :: lines, .cons shape shapes, List.forall_mem_cons.mpr ⟨sound, all⟩, rfl⟩
    · rintro ⟨lines, shapes, all, rfl⟩
      cases shapes with | cons shape shapes =>
      obtain ⟨sound, all⟩ := List.forall_mem_cons.mp all
      exact .cons (says_iff.mpr ⟨_, shape, sound, rfl⟩) (ih.mpr ⟨_, shapes, all, rfl⟩)

/-- A bare line says one thing only. -/
theorem Says.eq_statement {statement : Statement} (told : Says text statement) :
    (Line.parse? text).map Line.statement = some statement := by
  obtain ⟨line, shape, _, rfl⟩ := says_iff.mp told
  rw [parse?_of_shape shape]
  rfl

theorem map_statement_of_told {bare : List (List Char)} {script : List Statement}
    (told : List.Forall₂ Says bare script) :
    bare.map (fun text => (Line.parse? text).map Line.statement) = script.map some := by
  induction told with
  | nil => rfl
  | cons first _ ih => rw [List.map_cons, List.map_cons, first.eq_statement, ih]

theorem blockNames_statements (lines : List Line) :
    Script.blockNames (lines.map Line.statement) = blockItems lines := by
  unfold Script.blockNames blockItems
  rw [List.flatMap_map]
  refine List.flatMap_congr fun line _ => ?_
  cases line with
  | block => rfl
  | output => rfl
  | gate name word arguments =>
    rcases statement_gate name word arguments with ⟨_, _, same⟩ | ⟨_, _, _, same⟩ <;> rw [same]

theorem boundNames_statements (lines : List Line) :
    Script.boundNames (lines.map Line.statement) = lines.flatMap Line.boundItems := by
  unfold Script.boundNames
  rw [List.flatMap_map]
  refine List.flatMap_congr fun line _ => ?_
  cases line with
  | block => rfl
  | output => rfl
  | gate name word arguments =>
    unfold Line.statement Line.boundItems
    dsimp only
    cases connective? word with
    | none => rfl
    | some kind =>
      dsimp only [Option.getD_some, Option.bind_some]
      cases kind.quantifier? with
      | none => rfl
      | some q => cases Line.quantified? arguments <;> rfl

theorem vars_statements (lines : List Line) :
    Script.vars (lines.map Line.statement) = variableNames lines := by
  rw [Script.vars, blockNames_statements, boundNames_statements, variableNames]

theorem gateNames_statements (lines : List Line) :
    Script.gateNames (lines.map Line.statement) = gateNames lines := by
  unfold Script.gateNames gateNames
  rw [List.filterMap_map]
  refine List.filterMap_congr fun line _ => ?_
  cases line with
  | block => rfl
  | output => rfl
  | gate name word arguments =>
    rw [Function.comp_apply]
    rcases statement_gate name word arguments with ⟨_, _, same⟩ | ⟨_, _, _, same⟩ <;> rw [same]

theorem lastOutput?_statements (lines : List Line) :
    Script.lastOutput? (lines.map Line.statement) = lastOutput? lines := by
  unfold Script.lastOutput? lastOutput? outputArguments
  rw [List.filterMap_map]
  congr 1
  refine List.filterMap_congr fun line _ => ?_
  cases line with
  | block => rfl
  | output => rfl
  | gate name word arguments =>
    rw [Function.comp_apply]
    rcases statement_gate name word arguments with ⟨_, _, same⟩ | ⟨_, _, _, same⟩ <;> rw [same]

theorem Proper.sound (proper : Proper lines) (present : line ∈ lines) : line.Sound := by
  cases line with
  | block quantifier arguments =>
    exact fun item member => proper.items_names item (List.mem_flatMap.mpr ⟨_, present, member⟩)
  | output => trivial
  | gate name word arguments =>
    obtain ⟨before, after, same⟩ := List.append_of_mem present
    exact (properGate_iff.mp (proper.gates before name word arguments after same)).1

/-- The script of proper lines is proper, and its output is what the last output line names. -/
theorem Proper.statements (proper : Proper lines) {argument : List Char}
    (last : lastOutput? lines = some argument) :
    Script.Proper (lines.map Line.statement) (termOf argument) := by
  obtain ⟨other, again, shaped, defined⟩ := proper.output
  obtain rfl := Option.some.inj (last.symm.trans again)
  refine ⟨?_, fun before statement after same => ?_,
    ⟨argument, lastOutput?_statements lines ▸ last, denotes_iff.mpr ⟨shaped, rfl⟩⟩, ?_⟩
  · rw [blockNames_statements]
    exact proper.items_nodup
  · obtain ⟨front, back, rfl, rfl, rest⟩ := List.map_eq_append_iff.mp same
    obtain ⟨line, later, rfl, rfl, rfl⟩ := List.map_eq_cons_iff.mp rest
    rw [vars_statements, gateNames_statements]
    cases line with
    | block => trivial
    | output => trivial
    | gate name word arguments =>
      exact (properGate_iff.mp (proper.gates front name word arguments later rfl)).2
  · rw [vars_statements, gateNames_statements]
    exact defined

/-- Sound lines whose script is proper are proper. -/
theorem proper_of_statements {out : Term} (sound : ∀ line ∈ lines, line.Sound)
    (proper : Script.Proper (lines.map Line.statement) out) :
    Proper lines ∧ ∃ argument, lastOutput? lines = some argument ∧ out = termOf argument := by
  obtain ⟨blocks, gates, ⟨argument, last, denotes⟩, defined⟩ := proper
  rw [blockNames_statements] at blocks
  rw [vars_statements] at gates defined
  rw [gateNames_statements] at defined
  rw [lastOutput?_statements] at last
  obtain ⟨shaped, rfl⟩ := denotes_iff.mp denotes
  refine ⟨⟨fun item member => ?_, blocks, fun before name word arguments after same => ?_,
    argument, last, shaped, defined⟩, argument, last, rfl⟩
  · obtain ⟨line, present, listed⟩ := List.mem_flatMap.mp member
    cases line with
    | block quantifier arguments => exact sound _ present item listed
    | output => simp at listed
    | gate => simp at listed
  · refine properGate_iff.mpr ⟨sound _ (by simp [same]), ?_⟩
    have resolves := gates (before.map Line.statement) _ (after.map Line.statement)
      (by rw [same, List.map_append, List.map_cons])
    rwa [gateNames_statements] at resolves

theorem block?_statement (known : List (List Char)) (line : Line) :
    line.statement.block? known = blockOf known line := by
  cases line with
  | block quantifier arguments =>
    cases quantifier with
    | none => rfl
    | some q => simp [Line.statement, Statement.block?, blockOf]
  | output => rfl
  | gate name word arguments =>
    rcases statement_gate name word arguments with ⟨_, _, same⟩ | ⟨_, _, _, same⟩ <;>
      rw [same] <;> rfl

theorem gate?_statement (known : List (List Char)) (sound : line.Sound) :
    line.statement.gate? known = definedGate known line := by
  cases line with
  | block => rfl
  | output => rfl
  | gate name word arguments =>
    obtain ⟨kind, connects, fits⟩ := sound
    unfold definedGate gateOf
    dsimp only
    rw [connects, Option.map_some]
    cases quantifies : kind.quantifier? with
    | none =>
      rw [statement_join connects (Connective.not_isQuantifier_iff.mpr quantifies)]
      simp [Statement.gate?, Function.comp_def, literal_termOf]
    | some q =>
      rw [if_pos (Connective.isQuantifier_of_quantifier? quantifies)] at fits
      obtain ⟨bound, body, quantified, named, _⟩ := fits
      have plain : (listItems bound).map (literalOf known) =
          (listItems bound).map fun v => (numberOf known v : Int) := by
        refine List.map_congr_left fun item member => ?_
        have plus := head?_of_isName (named item member)
        rw [literalOf, if_neg plus, unsigned_of_plus plus]
      rw [statement_quantify connects quantifies quantified, quantified]
      simp only [Statement.gate?, literal_termOf, plain]

theorem describe_statements (name : String) (sound : ∀ line ∈ lines, line.Sound)
    {argument : List Char} (last : lastOutput? lines = some argument) :
    Script.describe name (lines.map Line.statement) (termOf argument) = describe name lines := by
  unfold Script.describe describe
  dsimp only
  have gates (known : List (List Char)) :
      (lines.map Line.statement).filterMap (Statement.gate? known) =
        lines.filterMap (definedGate known) := by
    rw [List.filterMap_map]
    exact List.filterMap_congr fun line present => gate?_statement known (sound line present)
  have blocks (known : List (List Char)) :
      (lines.map Line.statement).filterMap (Statement.block? known) =
        lines.filterMap (blockOf known) := by
    rw [List.filterMap_map]
    exact List.filterMap_congr fun line _ => block?_statement known line
  rw [vars_statements, gateNames_statements, gates, blocks, literal_termOf, last]
  rfl

end Scripts

/-- The reader accepts the texts whose bare lines are a proper script, and no others. It reads the
circuit that the script describes. -/
theorem read_eq_ok_iff (text name : String) (c : Circuit) :
    read text name = .ok c ↔
      ∃ lines script out, Contains text.toList lines ∧ List.Forall₂ Says lines script ∧
        Script.Proper script out ∧ c = Script.describe name script out := by
  constructor
  · intro accepted
    obtain ⟨lines, shapes, proper, rfl⟩ := shapes_of_read accepted
    obtain ⟨argument, last, _⟩ := proper.output
    have sound : ∀ line ∈ lines, line.Sound := fun line => proper.sound
    exact ⟨_, _, _, contains_iff.mpr rfl, forall₂_says_iff.mpr ⟨lines, shapes, sound, rfl⟩,
      proper.statements last, (describe_statements name sound last).symm⟩
  · rintro ⟨bare, script, out, contains, told, proper, rfl⟩
    obtain rfl := contains_iff.mp contains
    obtain ⟨lines, shapes, sound, rfl⟩ := forall₂_says_iff.mp told
    obtain ⟨properLines, argument, last, rfl⟩ := proper_of_statements sound proper
    rw [describe_statements name sound last]
    exact read_of_shapes name shapes properLines

/-- Comments, white space, empty items, and letters in either case. -/
def shouted : String :=
  "#QCIR-G14\nForALL ( x ) # outermost\n\n\teXists(y , )\r\nOutput(-h)\ng = OR(x, -y)\nh=FORALL(z;-g)"

/-- What the lines say. -/
def shoutedScript : List Statement :=
  [.block (some .all) [['x']], .block (some .ex) [['y']], .output ['-', 'h'],
    .join ['g'] .or [⟨false, ['x']⟩, ⟨true, ['y']⟩], .quantify ['h'] .all [['z']] ⟨true, ['g']⟩]

theorem shouted_read :
    let bare := ["ForALL(x)", "eXists(y,)", "Output(-h)", "g=OR(x,-y)", "h=FORALL(z;-g)"]
    let c : Circuit :=
      { name := "shouted", maxVar := 4, blocks := [⟨.all, [1]⟩, ⟨.ex, [2]⟩]
        gates := #[{ connective := .or, inputs := [1, -2] }, .quantify .all [3] (-4)]
        output? := some (-5), names := #["", "x", "y", "z", "g", "h"]
        origin := #[0, 1, 2, 3, 4, 5] }
    read shouted "shouted" = .ok c ∧ Contains shouted.toList (bare.map String.toList) ∧
      List.Forall₂ Says (bare.map String.toList) shoutedScript ∧
      ∃ out, Script.Proper shoutedScript out ∧ c = Script.describe "shouted" shoutedScript out := by
  intro bare c
  have accepted : read shouted "shouted" = .ok c := by decide +kernel
  obtain ⟨lines, script, out, contains, told, proper, same⟩ :=
    (read_eq_ok_iff shouted "shouted" c).mp accepted
  obtain rfl : lines = bare.map String.toList :=
    (contains_iff.mp contains).symm.trans (by decide +kernel)
  obtain rfl : script = shoutedScript := by
    refine List.map_injective_iff.mpr (fun _ _ => Option.some.inj) ?_
    rw [← map_statement_of_told told]
    decide +kernel
  exact ⟨accepted, contains, told, out, proper, same⟩

end QuantCircuit.Qcir
