import Mathlib.Data.List.Forall2
import QuantCircuit.Proofs.Qcir.Accepting

namespace QuantCircuit.Qcir

open Circuit

variable {name : String} {known items : List (List Char)} {text item : List Char}
variable {maxVar : Nat} {blocks : List Block} {gates : List Gate} {line : Line}
variable {lines : List Line} {entries : List (Nat × List Char)}

def parsed (entries : List (Nat × List Char)) : List Line :=
  entries.filterMap fun entry => Line.parse? entry.2

theorem content_eq (text : String) : content text.toList = (contentLines text).map Prod.snd := by
  have numbered (pieces : List (List Char)) (first : Nat) :
      pieces.filter (!·.isEmpty) = ((pieces.zipIdx first).filterMap fun piece =>
        if piece.1.isEmpty then none else some (piece.2, piece.1)).map Prod.snd := by
    induction pieces generalizing first with
    | nil => rfl
    | cons piece rest ih =>
      rw [List.zipIdx_cons, List.filterMap_cons, List.filter_cons, ih (first + 1)]
      by_cases empty : piece.isEmpty = true <;> simp [empty]
  exact numbered _ 1

/-- The lines have shapes if all of them say something. -/
theorem shapes_iff : List.Forall₂ Shape (entries.map Prod.snd) lines ↔
    (∀ entry ∈ entries, Line.parse? entry.2 ≠ none) ∧ lines = parsed entries := by
  induction entries generalizing lines with
  | nil => simp [parsed]
  | cons entry rest ih =>
    unfold parsed
    rw [List.map_cons, List.forall₂_cons_left_iff, List.forall_mem_cons, List.filterMap_cons]
    cases read : Line.parse? entry.2 with
    | none => simp [← parse?_eq_some_iff, read]
    | some line =>
      simp only [← parse?_eq_some_iff, read, Option.some.injEq, ih]
      constructor
      · intro ⟨_, _, rfl, ⟨all, rfl⟩, same⟩
        exact ⟨⟨by simp, all⟩, same⟩
      · intro ⟨⟨_, all⟩, same⟩
        exact ⟨line, parsed rest, rfl, ⟨all, rfl⟩, same⟩

theorem filterMap_singleton (f : α → Option β) (a : α) : [a].filterMap f = (f a).toList := by
  cases read : f a <;> simp [read]

theorem filterMap_cons_append (f : α → Option β) (a : α) (rest : List α) :
    (a :: rest).filterMap f = (f a).toList ++ rest.filterMap f := by
  rw [← filterMap_singleton, ← List.filterMap_append, List.singleton_append]

theorem parsed_singleton (entry : Nat × List Char) :
    parsed [entry] = (Line.parse? entry.2).toList :=
  filterMap_singleton _ entry

theorem parsed_cons (entry : Nat × List Char) (entries : List (Nat × List Char)) :
    parsed (entry :: entries) = parsed [entry] ++ parsed entries :=
  List.filterMap_append (l := [entry])

theorem blockItems_append (lines more : List Line) :
    blockItems (lines ++ more) = blockItems lines ++ blockItems more :=
  List.flatMap_append

theorem gateNames_cons (line : Line) (lines : List Line) :
    gateNames (line :: lines) = gateNames [line] ++ gateNames lines :=
  List.filterMap_append (l := [line])

theorem lastOutput?_cons (line : Line) (lines : List Line) :
    lastOutput? (line :: lines) = (lastOutput? lines).or (lastOutput? [line]) := by
  unfold lastOutput? outputArguments
  rw [← List.singleton_append, List.filterMap_append, List.getLast?_append]

theorem literalOf_append (member : unsigned text ∈ known) (more : List (List Char)) :
    literalOf (known ++ more) text = literalOf known text := by
  rw [literalOf, literalOf, numberOf_append member]

theorem blockOf_append (inside : ∀ item ∈ blockItems [line], item ∈ known)
    (more : List (List Char)) : blockOf (known ++ more) line = blockOf known line := by
  unfold blockOf
  split
  · rename_i q arguments
    have same : (listItems arguments).map (numberOf (known ++ more)) =
        (listItems arguments).map (numberOf known) :=
      List.map_congr_left fun item member => numberOf_append (inside item (by simpa [blockItems])) more
    rw [same]
  · rfl

theorem filterMap_blockOf_append (inside : ∀ item ∈ blockItems lines, item ∈ known)
    (more : List (List Char)) :
    lines.filterMap (blockOf (known ++ more)) = lines.filterMap (blockOf known) := by
  refine List.filterMap_congr fun line present => blockOf_append (fun item member => ?_) more
  rw [blockItems, List.flatMap_singleton] at member
  exact inside item (List.mem_flatMap.mpr ⟨line, present, member⟩)

theorem gateOf_append {kind : Connective} {arguments : List Char}
    (proper : ProperArguments known kind arguments)
    (inside : ∀ bound body, kind.isQuantifier = true →
      Line.quantified? arguments = some (bound, body) → ∀ item ∈ listItems bound, item ∈ known)
    (more : List (List Char)) :
    gateOf (known ++ more) kind arguments = gateOf known kind arguments := by
  unfold ProperArguments at proper
  unfold gateOf
  cases quantifies : kind.quantifier? with
  | none =>
    rw [if_neg (Connective.not_isQuantifier_iff.mpr quantifies)] at proper
    dsimp only
    congr 1
    exact List.map_congr_left fun item member => literalOf_append (proper item member).2 more
  | some q =>
    have kindly := Connective.isQuantifier_of_quantifier? quantifies
    rw [if_pos kindly] at proper
    obtain ⟨bound, body, quantified, named, names⟩ := proper
    have same : (listItems bound).map (literalOf (known ++ more)) =
        (listItems bound).map (literalOf known) := by
      refine List.map_congr_left fun item member => literalOf_append ?_ more
      rw [unsigned_of_plus (head?_of_isName (named item member))]
      exact inside bound body kindly quantified item member
    rw [quantified]
    dsimp only
    rw [same, literalOf_append names.2]

theorem definedGate_append (inside : ∀ item ∈ line.boundItems, item ∈ known)
    (proper : ∀ name connective arguments, line = .gate name connective arguments →
      ProperGate known name connective arguments) (more : List (List Char)) :
    definedGate (known ++ more) line = definedGate known line := by
  unfold definedGate
  split
  · rename_i gateName word arguments
    obtain ⟨_, kind, connects, fits⟩ := proper _ _ _ rfl
    rw [connects, Option.map_some, Option.map_some, gateOf_append fits]
    intro bound body kindly quantified item member
    exact inside item (Reader.boundItems_gate gateName connects kindly quantified ▸ member)
  · rfl

theorem length_definedGate (proper : ∀ name connective arguments,
    line = .gate name connective arguments → ProperGate known name connective arguments)
    (all : List (List Char)) :
    (definedGate all line).toList.length = (gateNames [line]).length := by
  cases line with
  | block => rfl
  | output => rfl
  | gate gateName word arguments =>
    obtain ⟨_, kind, connects, _⟩ := proper _ _ _ rfl
    simp [definedGate, gateNames, connects]

/-- The first line, and then the others, with its name known. -/
theorem properGates_cons : ProperGates known (line :: lines) ↔
    (∀ name connective arguments, line = .gate name connective arguments →
      ProperGate known name connective arguments) ∧
        ProperGates (known ++ gateNames [line]) lines := by
  unfold ProperGates
  constructor
  · intro gates
    refine ⟨fun name connective arguments same => ?_, fun before name connective arguments after
      same => ?_⟩
    · simpa [gateNames] using gates [] name connective arguments lines (by rw [same]; rfl)
    · have later := gates (line :: before) name connective arguments after (by rw [same]; rfl)
      rwa [gateNames_cons, ← List.append_assoc] at later
  · intro ⟨first, others⟩ before name connective arguments after same
    cases before with
    | nil =>
      obtain ⟨rfl, rfl⟩ := List.cons.inj same
      simpa [gateNames] using first name connective arguments rfl
    | cons other before =>
      obtain ⟨rfl, rest⟩ := List.cons.inj same
      rw [gateNames_cons, ← List.append_assoc]
      exact others before name connective arguments after rest

theorem foldl_noteName (known items : List (List Char)) :
    items.foldl Reader.noteName known = known ++ (items.filter (· ∉ known)).eraseDups := by
  induction items generalizing known with
  | nil => simp
  | cons item rest ih =>
    rw [List.foldl_cons, ih, Reader.noteName]
    by_cases member : item ∈ known
    · rw [if_pos member, List.filter_cons_of_neg (by simpa using member)]
    · rw [if_neg member, List.filter_cons_of_pos (by simpa using member), List.eraseDups_cons,
        List.filter_filter, List.append_assoc, List.singleton_append]
      simp [and_comm, Bool.beq_eq_decide_eq]

section Sweeps

variable {r : Reader}

theorem decides_readBlock (lays : r.Lays name known (known.length + 1) blocks [])
    (distinct : known.Nodup) (entry : Nat × List Char) :
    Decides (readBlocks r entry)
      ((∀ item ∈ blockItems (parsed [entry]), isName item = true) ∧
        (known ++ blockItems (parsed [entry])).Nodup)
      fun s => s.Lays name (known ++ blockItems (parsed [entry]))
        ((known ++ blockItems (parsed [entry])).length + 1)
        (blocks ++ (parsed [entry]).filterMap (blockOf (known ++ blockItems (parsed [entry]))))
        [] := by
  rw [parsed_singleton]
  unfold readBlocks
  cases read : Line.parse? entry.2 with
  | none => exact .accepts r rfl (by simpa [blockItems]) (by simpa [blockItems])
  | some line =>
    cases line with
    | block quantifier arguments =>
      have declared := Reader.decides_declareBlock lays distinct entry.1 quantifier arguments
      simpa [blockItems, filterMap_singleton] using declared
    | output =>
      exact .accepts r rfl (by simpa [blockItems])
        (by simpa [blockItems, blockOf, filterMap_singleton])
    | gate =>
      exact .accepts r rfl (by simpa [blockItems])
        (by simpa [blockItems, blockOf, filterMap_singleton])

/-- The first sweep accepts if the items of all blocks are names, and different. -/
theorem decides_readBlocks (lays : r.Lays name known (known.length + 1) blocks [])
    (distinct : known.Nodup) (entries : List (Nat × List Char)) :
    Decides (entries.foldlM readBlocks r)
      ((∀ item ∈ blockItems (parsed entries), isName item = true) ∧
        (known ++ blockItems (parsed entries)).Nodup)
      fun s => s.Lays name (known ++ blockItems (parsed entries))
        ((known ++ blockItems (parsed entries)).length + 1)
        (blocks ++ (parsed entries).filterMap (blockOf (known ++ blockItems (parsed entries))))
        [] := by
  -- a block names only what has been declared up to it, so later lines do not change it
  induction entries generalizing r known blocks with
  | nil => exact .accepts r rfl (by simpa [parsed, blockItems]) (by simpa [parsed, blockItems])
  | cons entry rest ih =>
    rw [List.foldlM_cons, parsed_cons, blockItems_append, ← List.append_assoc,
      List.filterMap_append, ← List.append_assoc]
    refine ((decides_readBlock lays distinct entry).bind fun s first next =>
      (ih next first.2).mono fun t others last => ?_).congr ?_
    · rwa [filterMap_blockOf_append fun item member => List.mem_append_right known member]
    · rw [List.forall_mem_append]
      constructor
      · intro ⟨⟨here, _⟩, there, apart⟩
        exact ⟨⟨here, there⟩, apart⟩
      · intro ⟨⟨here, there⟩, apart⟩
        exact ⟨⟨here, (List.nodup_append.mp apart).1⟩, there, apart⟩

/-- The second sweep accepts if everything that gates bind is a name. -/
theorem decides_declareBounds (lays : r.Lays name known (known.length + 1) blocks [])
    (names : ∀ item ∈ known, isName item = true) (items : List (Nat × List Char)) :
    Decides (items.foldlM Reader.declareBound r) (∀ item ∈ items.map Prod.snd, isName item = true)
      fun s => s.Lays name ((items.map Prod.snd).foldl Reader.noteName known)
        (((items.map Prod.snd).foldl Reader.noteName known).length + 1) blocks [] := by
  induction items generalizing r known with
  | nil => exact .accepts r rfl (by simp) lays
  | cons item rest ih =>
    rw [List.foldlM_cons, List.map_cons, List.foldl_cons, List.forall_mem_cons]
    refine (Reader.decides_declareBound lays names item.1 item.2).bind fun s named next =>
      ih next fun other member => ?_
    unfold Reader.noteName at member
    split at member
    · exact names other member
    · rcases List.mem_append.mp member with old | new
      · exact names other old
      · exact List.mem_singleton.mp new ▸ named

theorem map_boundNames (entries : List (Nat × List Char)) :
    (entries.flatMap boundNames).map Prod.snd = (parsed entries).flatMap Line.boundItems := by
  induction entries with
  | nil => rfl
  | cons entry rest ih =>
    rw [List.flatMap_cons, List.map_append, ih, parsed_cons, parsed_singleton, List.flatMap_append]
    unfold boundNames
    cases Line.parse? entry.2 <;> simp [Function.comp_def]

theorem decides_readLine (lays : r.Lays name known maxVar blocks gates)
    (counted : known.length + 1 = maxVar + gates.length) (number : Nat)
    (reads : Line.parse? text = some line)
    (small : ∀ item ∈ line.boundItems, item ∈ known ∧ numberOf known item < maxVar)
    (output : Option (Nat × List Char)) :
    Decides (readGates (r, output) (number, text))
      (∀ name connective arguments, line = .gate name connective arguments →
        ProperGate known name connective arguments)
      fun s => s.1.Lays name (known ++ gateNames [line]) maxVar blocks
          (gates ++ (definedGate known line).toList) ∧
        s.2.map Prod.snd = (lastOutput? [line]).or (output.map Prod.snd) := by
  unfold readGates
  dsimp only
  rw [reads]
  cases line with
  | block quantifier arguments =>
    refine .accepts _ rfl (by simp) ⟨?_, rfl⟩
    simpa [gateNames, definedGate] using lays
  | output argument =>
    refine .accepts _ rfl (by simp) ⟨?_, rfl⟩
    simpa [gateNames, definedGate] using lays
  | gate gateName word arguments =>
    have defined := Reader.decides_defineGate counted lays number gateName word arguments small
    refine (defined.bind_pure fun s _ next => ?_).congr ?_
    · exact ⟨next, rfl⟩
    · constructor
      · intro proper name connective arguments same
        obtain ⟨rfl, rfl, rfl⟩ := Line.gate.inj same
        exact proper
      · exact fun proper => proper _ _ _ rfl

/-- The third sweep accepts if all lines say something and the gates are proper. -/
theorem decides_readGates (lays : r.Lays name known maxVar blocks gates)
    (counted : known.length + 1 = maxVar + gates.length) (entries : List (Nat × List Char))
    (small : ∀ item ∈ (parsed entries).flatMap Line.boundItems,
      item ∈ known ∧ numberOf known item < maxVar) (output : Option (Nat × List Char)) :
    Decides (entries.foldlM readGates (r, output))
      ((∀ entry ∈ entries, Line.parse? entry.2 ≠ none) ∧ ProperGates known (parsed entries))
      fun s => s.1.Lays name (known ++ gateNames (parsed entries)) maxVar blocks
          (gates ++ (parsed entries).filterMap
            (definedGate (known ++ gateNames (parsed entries)))) ∧
        s.2.map Prod.snd = (lastOutput? (parsed entries)).or (output.map Prod.snd) := by
  induction entries generalizing r known gates output with
  | nil =>
    refine .accepts _ rfl ⟨by simp, by simp [parsed, ProperGates]⟩ ⟨?_, rfl⟩
    simpa [parsed, gateNames] using lays
  | cons entry rest ih =>
    obtain ⟨number, text⟩ := entry
    rw [List.foldlM_cons, List.forall_mem_cons]
    cases reads : Line.parse? text with
    | none =>
      -- the sweeps before pass over such a line, this one does not
      refine .rejects (.unparsable number (String.ofList text)) ?_ fun proper => proper.1.1 rfl
      unfold readGates
      dsimp only
      rw [reads]
      rfl
    | some line =>
      rw [parsed_cons, parsed_singleton, reads, Option.toList_some, List.singleton_append]
        at small ⊢
      rw [List.flatMap_cons, List.forall_mem_append] at small
      rw [properGates_cons, gateNames_cons line (parsed rest), lastOutput?_cons line (parsed rest),
        ← List.append_assoc, filterMap_cons_append]
      have first := decides_readLine lays counted number reads small.1 output
      refine (first.bind fun s proper next =>
        (ih next.1 ?_ ?_ s.2).mono fun t others last => ?_).congr ?_
      · have defines : (definedGate known line).toList.length = (gateNames [line]).length :=
          length_definedGate proper known
        rw [List.length_append, List.length_append, defines]
        omega
      · intro item member
        obtain ⟨listed, below⟩ := small.2 item member
        exact ⟨List.mem_append_left _ listed, by rwa [numberOf_append listed]⟩
      · have same : definedGate (known ++ gateNames [line] ++ gateNames (parsed rest)) line =
            definedGate known line := by
          rw [List.append_assoc]
          exact definedGate_append (fun item member => (small.1 item member).1) proper _
        rw [same, ← List.append_assoc]
        refine ⟨last.1, ?_⟩
        rw [last.2, next.2, Option.or_assoc]
      · constructor
        · intro ⟨proper, all, others⟩
          exact ⟨⟨by simp, all⟩, proper, others⟩
        · intro ⟨⟨_, all⟩, proper, others⟩
          exact ⟨proper, all, others⟩

end Sweeps

theorem finish_eq {c : Circuit} {out : Literal} (defines : c.Defines out)
    (positive : 0 < c.maxVar) : finish c out = .ok (withOutput c out) := by
  unfold finish withOutput
  cases empty : c.gates.isEmpty with
  | true =>
    have accepts : c.Accepts { connective := .and, inputs := [out] } := by
      refine ⟨fun l member => List.mem_singleton.mp member ▸ defines, by simp, fun _ => rfl⟩
    have none : c.gates = #[] := Array.isEmpty_iff.mp empty
    have first : c.maxGate = c.maxVar := maxGate_of_no_gates none
    rw [if_pos rfl, if_pos rfl, addGate_eq accepts, first]
    dsimp only [Bind.bind, Except.bind]
    rw [setOutput_eq (by simp [Circuit.append])]
    · rw [Circuit.append, none]
      rfl
    · refine ⟨Int.natCast_ne_zero.mpr (Nat.ne_of_gt positive), ?_⟩
      rw [maxGate_append, first]
      exact Nat.lt_succ_self _
  | false => exact setOutput_eq empty defines

theorem boundItems_subset (lines : List Line) :
    ∀ item ∈ lines.flatMap Line.boundItems, item ∈ variableNames lines := by
  intro item member
  rw [variableNames, List.mem_append]
  by_cases declared : item ∈ blockItems lines
  · exact .inl declared
  · refine .inr (List.mem_eraseDups.mpr (List.mem_filter.mpr ⟨member, ?_⟩))
    simpa using declared

theorem boundItems_names (gates : ProperGates known lines) :
    ∀ item ∈ lines.flatMap Line.boundItems, isName item = true := by
  induction lines generalizing known with
  | nil => simp
  | cons line rest ih =>
    obtain ⟨first, others⟩ := properGates_cons.mp gates
    rw [List.flatMap_cons, List.forall_mem_append]
    refine ⟨fun item member => ?_, ih others⟩
    unfold Line.boundItems at member
    split at member
    · rename_i gateName word arguments
      obtain ⟨_, kind, connects, proper⟩ := first _ _ _ rfl
      unfold ProperArguments at proper
      rw [connects, Option.bind_some] at member
      split at member
      · rename_i quantifies quantified
        rw [if_pos (Connective.isQuantifier_of_quantifier? quantifies)] at proper
        obtain ⟨_, _, same, named, _⟩ := proper
        obtain ⟨rfl, rfl⟩ := Prod.mk.inj (Option.some.inj (quantified.symm.trans same))
        exact named item member
      · simp at member
    · simp at member

theorem lays_nothing (name : String) : Reader.Lays { circuit := { name } } name [] 1 [] [] :=
  ⟨rfl, fun _ => rfl⟩

/-- The blocks are those that all names describe. -/
theorem filterMap_blockOf_all (lines : List Line) (more : List (List Char)) :
    lines.filterMap (blockOf (variableNames lines ++ more)) =
      lines.filterMap (blockOf (blockItems lines)) := by
  rw [variableNames, List.append_assoc]
  exact filterMap_blockOf_append (fun item member => member) _

theorem length_definedGates (proper : ProperGates known lines) (all : List (List Char)) :
    (lines.filterMap (definedGate all)).length = (gateNames lines).length := by
  induction lines generalizing known with
  | nil => rfl
  | cons line rest ih =>
    obtain ⟨first, others⟩ := properGates_cons.mp proper
    rw [filterMap_cons_append, gateNames_cons, List.length_append, List.length_append, ih others,
      length_definedGate first all]

theorem decides_finish {r : Reader} (lays : r.Lays name known maxVar blocks gates)
    (counted : known.length + 1 = maxVar + gates.length) (positive : 0 < maxVar)
    {output : Option (Nat × List Char)} {last : Option (List Char)}
    (given : output.map Prod.snd = last) :
    Decides
      (match output with
        | none => throw .missingOutput
        | some (line, argument) => do finish r.circuit (← r.literal line argument))
      (∃ argument, last = some argument ∧ Names known argument)
      (· = withOutput (layOut name known maxVar blocks gates)
        ((last.map (literalOf known)).getD 0)) := by
  subst given
  cases output with
  | none => exact .rejects _ rfl (by simp)
  | some last =>
    obtain ⟨number, argument⟩ := last
    refine ((Reader.decides_literal lays.knows number argument).bind_ok fun out names same =>
      ⟨withOutput r.circuit out, ?_, ?_⟩).congr (by simp)
    · rw [same, lays.circuit_eq]
      exact finish_eq (Reader.defines_literalOf counted names) positive
    · rw [same, lays.circuit_eq]
      rfl

/-- Reading a text is recognising its lines. -/
theorem decides_read (text name : String) :
    Decides (read text name)
      ((∀ entry ∈ contentLines text, Line.parse? entry.2 ≠ none) ∧
        Proper (parsed (contentLines text)))
      (· = describe name (parsed (contentLines text))) := by
  obtain ⟨lines, same⟩ : ∃ lines, parsed (contentLines text) = lines := ⟨_, rfl⟩
  have blocks := decides_readBlocks (lays_nothing name) List.nodup_nil (contentLines text)
  have bound := map_boundNames (contentLines text)
  rw [same, List.nil_append, List.nil_append] at blocks
  rw [same] at bound ⊢
  have small : ∀ item ∈ lines.flatMap Line.boundItems, item ∈ variableNames lines ∧
      numberOf (variableNames lines) item < (variableNames lines).length + 1 := by
    intro item member
    have inside := boundItems_subset lines item member
    exact ⟨inside, Nat.lt_succ_of_le (numberOf_le inside)⟩
  have declared {r : Reader} (items : ∀ item ∈ blockItems lines, isName item = true)
      (laid : r.Lays name (blockItems lines) ((blockItems lines).length + 1)
        (lines.filterMap (blockOf (blockItems lines))) []) :=
    decides_declareBounds laid items ((contentLines text).flatMap boundNames)
  rw [bound, foldl_noteName] at declared
  have gates {r : Reader} (laid : r.Lays name (variableNames lines)
      ((variableNames lines).length + 1) (lines.filterMap (blockOf (blockItems lines))) []) :=
    decides_readGates laid rfl (contentLines text) (by rwa [same]) none
  rw [same, Option.map_none, Option.or_none] at gates
  unfold read
  refine (blocks.bind fun r₁ items laid₁ => (declared items.1 laid₁).bind fun r₂ _ laid₂ =>
    (gates laid₂).bind fun s proper laid₃ =>
      (decides_finish laid₃.1 ?_ (Nat.succ_pos _) laid₃.2).mono fun c _ read => ?_).congr ?_
  · have defined := length_definedGates proper.2 (variableNames lines ++ gateNames lines)
    rw [List.length_append, List.nil_append, defined]
    omega
  · rw [read, describe, filterMap_blockOf_all]
    rfl
  · constructor
    · intro ⟨⟨names, apart⟩, _, ⟨all, gates⟩, output⟩
      exact ⟨all, names, apart, gates, output⟩
    · intro ⟨all, proper⟩
      exact ⟨⟨proper.items_names, proper.items_nodup⟩, boundItems_names proper.gates,
        ⟨all, proper.gates⟩, proper.output⟩

theorem read_of_shapes (name : String) {text : String}
    (shaped : List.Forall₂ Shape (content text.toList) lines) (proper : Proper lines) :
    read text name = .ok (describe name lines) := by
  rw [content_eq] at shaped
  obtain ⟨all, rfl⟩ := shapes_iff.mp shaped
  exact (decides_read text name).eq_ok_iff.mpr ⟨⟨all, proper⟩, rfl⟩

theorem shapes_of_read {text name : String} {c : Circuit} (accepted : read text name = .ok c) :
    ∃ lines, List.Forall₂ Shape (content text.toList) lines ∧ Proper lines ∧
      c = describe name lines := by
  obtain ⟨⟨all, proper⟩, same⟩ := (decides_read text name).eq_ok_iff.mp accepted
  refine ⟨parsed (contentLines text), ?_, proper, same⟩
  rw [content_eq]
  exact shapes_iff.mpr ⟨all, rfl⟩

end QuantCircuit.Qcir
