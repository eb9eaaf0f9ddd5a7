import QuantCircuit.Proofs.Circuit.Miniscoping
import QuantCircuit.Proofs.Circuit.Wrapping
import QuantCircuit.Proofs.Edit.Enacting
import QuantCircuit.Proofs.Edit.Retracing
import QuantCircuit.Proofs.Edit.Rewriting

/-! Moving the inner blocks into the gates, in place. The last block is taken off as soon as
it has moved, or before, so the circuit on the way has fewer blocks than the one computed; all
the rest of it is the same. -/

namespace QuantCircuit.Circuit

variable {arithmetic : Arithmetic}
variable {c m t : Circuit} {out : Literal} {block : Block} {blocks kept inner : List Block}

theorem WellFormed.withFirst (valid : c.WellFormed) (first : blocks <+: c.blocks) :
    (c.withBlocks blocks).WellFormed := by
  obtain ⟨rest, whole⟩ := first
  have member {block : Block} (present : block ∈ blocks) : block ∈ c.blocks :=
    whole ▸ List.mem_append_left rest present
  refine valid.withBlocks (fun block present => valid.block_nonempty block (member present))
    (fun block present => valid.block_lt block (member present)) ?_
  have distinct := valid.block_nodup
  rw [← whole, List.flatMap_append] at distinct
  exact (List.nodup_append.mp distinct).1

/-- On the way, the circuit has the same variables and blocks as before, and an output. -/
def Continued (c m : Circuit) : Prop :=
  Replaces c m ∧ ∃ r, m.output? = some r

/-- A loop that moves the last block as long as there are inner ones does what moving the
inner blocks one after the other computes. -/
theorem run_inner {holds : Circuit → Prop} {step : Circuit → Block → Except Error Circuit}
    {move : Edit Unit}
    (moves : ∀ m kept block, holds m → kept ++ [block] <+: blocks → ∃ t, step m block = .ok t ∧
      holds t ∧ move (m.withBlocks (kept ++ [block])) = (.ok (), t.withBlocks kept))
    (moved : List Block) (first : kept ++ moved.reverse <+: blocks) (entries : List α)
    (counted : entries.length = moved.length) (start : holds m) :
    ∃ t, moved.foldlM step m = .ok t ∧ holds t ∧
      entries.forM (fun _ => move) (m.withBlocks (kept ++ moved.reverse)) =
        (.ok (), t.withBlocks kept) := by
  -- the loop takes the blocks from the end, so what is kept grows shorter towards the front
  induction moved generalizing m entries kept with
  | nil =>
    obtain rfl := List.length_eq_zero_iff.mp counted
    exact ⟨m, rfl, start, by rw [List.reverse_nil, List.append_nil]; rfl⟩
  | cons block rest ih =>
    rw [List.reverse_cons, ← List.append_assoc] at first ⊢
    obtain ⟨t, stepped, next, ran⟩ := moves m (kept ++ rest.reverse) block start first
    cases entries with
    | nil => simp at counted
    | cons _ entries =>
      obtain ⟨u, others, last, again⟩ := ih ((List.prefix_append ..).trans first) entries
        (by simpa using counted) next
      refine ⟨u, ?_, last, (run_bind_of_ok ran).trans again⟩
      rw [List.foldlM_cons, stepped]
      exact others

theorem run_popBlock (m : Circuit) (kept : List Block) (block : Block) :
    (modify fun c => { c with blocks := c.blocks.dropLast } : Edit Unit)
      (m.withBlocks (kept ++ [block])) = (.ok (), m.withBlocks kept) := by
  have shorter : ({ m.withBlocks (kept ++ [block]) with
      blocks := (m.withBlocks (kept ++ [block])).blocks.dropLast } : Circuit) =
        m.withBlocks kept := by
    simp [withBlocks]
  rw [← shorter]
  rfl

/-- The last block is taken off before its gate is added, and neither can fail. -/
theorem run_moveLastBlock (wrapped : m.wrapOutput block = .ok t) (kept : List Block) :
    Edit.moveLastBlock arithmetic (m.withBlocks (kept ++ [block])) = (.ok (), t.withBlocks kept) := by
  obtain ⟨out, output, wrapped⟩ := exists_of_bind_eq_ok wrapped
  obtain ⟨⟨id, n⟩, added, wrapped⟩ := exists_of_bind_eq_ok wrapped
  obtain rfl := Except.ok.inj wrapped
  obtain ⟨_, _, same⟩ := of_addGate added
  have given : (m.withBlocks (kept ++ [block])).output = .ok out := output
  have last : (m.withBlocks (kept ++ [block])).blocks.getLast? = some block := by
    simp [withBlocks]
  unfold Edit.moveLastBlock
  rw [run_get, run_lift_of_ok given, last]
  refine (run_bind_of_ok (run_popBlock m kept block)).trans ?_
  exact run_bind_of_ok ((enacts_addGate _ _ _).of_ok (addGate_of_checked (same kept) arithmetic))

theorem foldlM_eq_error {step : Circuit → β → Except Error Circuit} {entries : List β} {e : Error}
    (nonempty : entries ≠ []) (fails : ∀ entry ∈ entries, step c entry = .error e) :
    entries.foldlM step c = .error e := by
  cases entries with
  | nil => exact absurd rfl nonempty
  | cons entry rest =>
    rw [List.foldlM_cons, fails entry (by simp)]
    rfl

theorem run_forM_eq_error {move : Edit Unit} {entries : List β} {e : Error}
    (nonempty : entries ≠ []) (fails : move c = (.error e, c)) :
    entries.forM (fun _ => move) c = (.error e, c) := by
  cases entries with
  | nil => exact absurd rfl nonempty
  | cons entry rest => exact run_bind_of_error fails

theorem wrapOutput_of_no_output (missing : c.output? = none) (block : Block) :
    c.wrapOutput block = .error (.structural .noOutput) := by
  rw [wrapOutput, Circuit.output, missing]
  rfl

theorem moveLastBlock_of_no_output (missing : c.output? = none) :
    Edit.moveLastBlock arithmetic c = (.error (.structural .noOutput), c) := by
  have failed : c.output = .error (.structural .noOutput) := by rw [Circuit.output, missing]
  unfold Edit.moveLastBlock
  rw [run_get, run_lift_of_error failed]

/-- If there is an output, all inner blocks are moved. -/
theorem run_moving (stands : c.Stands) {step : Circuit → Block → Except Error Circuit}
    {move : Edit Unit} {outermost : Block} {inner : List Block} {out : Literal}
    (blocks : c.blocks = outermost :: inner) (output : c.output? = some out)
    (moves : ∀ m kept block, Continued c m → kept ++ [block] <+: c.blocks → ∃ t,
      step m block = .ok t ∧ Continued c t ∧
        move (m.withBlocks (kept ++ [block])) = (.ok (), t.withBlocks kept)) :
    ∃ t, inner.reverse.foldlM step c = .ok t ∧ (t.withBlocks [outermost]).Stands ∧
      c.blocks.tail.forM (fun _ => move) c = (.ok (), t.withBlocks [outermost]) := by
  have all : [outermost] ++ inner.reverse.reverse = c.blocks := by
    rw [List.reverse_reverse, List.singleton_append, blocks]
  have whole : c.withBlocks ([outermost] ++ inner.reverse.reverse) = c := congrArg c.withBlocks all
  have first : [outermost] ++ inner.reverse.reverse <+: c.blocks := all ▸ List.prefix_rfl
  obtain ⟨t, folded, ⟨replaces, r, given⟩, ran⟩ := run_inner moves inner.reverse first
    c.blocks.tail (by rw [blocks, List.tail_cons, List.length_reverse])
    ⟨.refl stands.valid, out, output⟩
  rw [whole] at ran
  have valid : (t.withBlocks [outermost]).WellFormed := by
    refine replaces.valid.withFirst ?_
    rw [replaces.blocks_eq, blocks]
    exact ⟨inner, rfl⟩
  exact ⟨t, folded, ⟨valid, replaces.valid.names_pos (replaces.valid.output_lt r given)⟩, ran⟩

/-- The inner blocks are moved one after the other, if there are any and there is an output. -/
theorem performs_moving (stands : c.Stands) (step : Circuit → Block → Except Error Circuit)
    {move : Edit Unit} {pass : Circuit → Except Error Circuit}
    (single : c.blocks.tail = [] → pass c = .ok c)
    (several : ∀ outermost inner, c.blocks = outermost :: inner → inner ≠ [] →
      pass c = inner.reverse.foldlM step c >>= fun m => .ok { m with blocks := [outermost] })
    (refuses : c.output? = none → c.blocks ≠ [] →
      (∀ block ∈ c.blocks, step c block = .error (.structural .noOutput)) ∧
        move c = (.error (.structural .noOutput), c))
    (moves : ∀ m kept block, Continued c m → kept ++ [block] <+: c.blocks → ∃ t,
      step m block = .ok t ∧ Continued c t ∧
        move (m.withBlocks (kept ++ [block])) = (.ok (), t.withBlocks kept)) :
    Performs (do (← get).blocks.tail.forM fun _ => move) c (pass c)
      (2 ≤ c.blocks.length ∧ c.output? = none) := by
  by_cases none : c.blocks.tail = []
  · refine .rewrites c (fun reason => ?_) (single none) ?_ stands
    · have length := congrArg List.length none
      rw [List.length_tail, List.length_nil] at length
      omega
    · rw [run_get, none]
      rfl
  · obtain ⟨outermost, inner, blocks⟩ := List.exists_cons_of_ne_nil
      (show c.blocks ≠ [] from fun empty => none (by rw [empty]; rfl))
    have inside : inner ≠ [] := by
      intro empty
      exact none (by rw [blocks, empty]; rfl)
    have two : 2 ≤ c.blocks.length := by
      have positive := List.length_pos_iff.mpr inside
      rw [blocks, List.length_cons]
      omega
    have computed := several outermost inner blocks inside
    cases output : c.output? with
    | none =>
      obtain ⟨fails, left⟩ := refuses output (by simp [blocks])
      refine .refuses .noOutput ⟨two, rfl⟩ ?_ ?_
      · rw [computed, foldlM_eq_error (by simpa using inside) fun block member =>
          fails block (by rw [blocks]; simpa using .inr (by simpa using member))]
        rfl
      · rw [run_get]
        exact run_forM_eq_error none left
    | some out =>
      obtain ⟨t, folded, standing, ran⟩ := run_moving stands blocks output moves
      refine .rewrites (t.withBlocks [outermost]) (by simp) ?_ ?_ standing
      · rw [computed, folded]
        rfl
      · rw [run_get]
        exact ran

theorem blocksToGates_of_single (single : c.blocks.tail = []) : c.blocksToGates = .ok c := by
  unfold blocksToGates
  split
  · simp_all
  · rfl

theorem performs_blocksToGates (stands : c.Stands) :
    Performs (Edit.blocksToGates arithmetic) c c.blocksToGates
      (2 ≤ c.blocks.length ∧ c.output? = none) := by
  refine performs_moving stands wrapOutput blocksToGates_of_single ?_ ?_ ?_
  · intro outermost inner blocks inside
    obtain ⟨second, more, rfl⟩ := List.exists_cons_of_ne_nil inside
    rw [blocksToGates, blocks]
    rfl
  · intro missing _
    exact ⟨fun block _ => wrapOutput_of_no_output missing block, moveLastBlock_of_no_output missing⟩
  · intro m kept block continued first
    obtain ⟨replaces, r, given⟩ := continued
    have outputs : Outputs c m (m.meaning r) fun _ => True :=
      ⟨replaces, r, given, rfl, fun _ _ => trivial⟩
    have present : block ∈ c.blocks := first.subset (by simp)
    obtain ⟨t, wrapped, next⟩ := outputs.wrapOutput (stands.valid.block_lt block present)
    obtain ⟨s, output, _⟩ := next.output
    exact ⟨t, wrapped, ⟨next.replaces, s, output⟩, run_moveLastBlock wrapped kept⟩

theorem markInputs_withBlocks (c : Circuit) (blocks : List Block) (count : Nat)
    (marked : Array Bool) : (c.withBlocks blocks).markInputs count marked =
      c.markInputs count marked := by
  induction count generalizing marked with
  | zero => rfl
  | succ count ih =>
    rw [markInputs_succ, markInputs_succ, ih]
    rfl

theorem reachable_withBlocks (c : Circuit) (blocks : List Block) :
    (c.withBlocks blocks).reachable = c.reachable := by
  have cone (out : Literal) : (c.withBlocks blocks).cone out = c.cone out :=
    c.markInputs_withBlocks blocks ..
  unfold reachable
  simp only [cone]
  rfl

theorem cleanupGates_withBlocks (valid : c.WellFormed) (output : c.output? = some out)
    (validBlocks : (c.withBlocks blocks).WellFormed) :
    ∃ t, c.cleanupGates = .ok t ∧ (c.withBlocks blocks).cleanupGates = .ok (t.withBlocks blocks) := by
  obtain ⟨marked, reached, reachable⟩ := reachable_spec valid output
  obtain ⟨marks, numbered, closed, iff_live⟩ := reachable.numbering_gates_eq valid output
  have place (v : Nat) (small : v < c.maxVar) : (c.keeping marks).place v = v :=
    place_of_all_marked (fun v small => (iff_live v).mpr (.inl small)) small
  have unmoved : ((c.withBlocks blocks).renumber (c.keeping marks)).blocks = blocks :=
    blocks_renumber_of_place_eq validBlocks place
  refine ⟨c.renumber (c.keeping marks), ?_, ?_⟩
  · rw [cleanupGates, reached, ← numbered]
    rfl
  · have changed : (c.withBlocks blocks).renumber (c.keeping marks) =
        (c.renumber (c.keeping marks)).withBlocks
          ((c.withBlocks blocks).renumber (c.keeping marks)).blocks := rfl
    rw [unmoved] at changed
    rw [cleanupGates, reachable_withBlocks, reached, ← changed, ← numbered]
    rfl

theorem setOutput_withBlocks {l : Literal} (given : c.setOutput l = .ok m) (blocks : List Block) :
    (c.withBlocks blocks).setOutput l = .ok (m.withBlocks blocks) := by
  have same : (c.withBlocks blocks).setOutput l =
      (fun m => m.withBlocks blocks) <$> c.setOutput l := by
    unfold setOutput
    show (if c.gates.isEmpty then _ else _) = _
    cases c.gates.isEmpty with
    | true => rfl
    | false =>
      show (checkLiteral l c.maxGate >>= _) = _ <$> (checkLiteral l c.maxGate >>= _)
      cases checkLiteral l c.maxGate <;> rfl
  rw [same, given]
  rfl

theorem WellFormed.takeBlocks (valid : m.WellFormed) (other : (c.withBlocks blocks).WellFormed)
    (same : m.maxVar = c.maxVar) : (m.withBlocks blocks).WellFormed :=
  valid.withBlocks other.block_nonempty
    (fun block present v member => same.symm ▸ other.block_lt block present v member)
    other.block_nodup

theorem run_cleanupGates (valid : c.WellFormed) (output : c.output? = some out)
    (validBlocks : (c.withBlocks blocks).WellFormed) (cleaned : c.cleanupGates = .ok t) :
    Edit.cleanupGates arithmetic (c.withBlocks blocks) = (.ok (), t.withBlocks blocks) := by
  obtain ⟨m, computed, same⟩ := cleanupGates_withBlocks valid output validBlocks
  obtain rfl := Except.ok.inj (computed.symm.trans cleaned)
  have named := valid.names_pos (valid.output_lt out output)
  exact (performs_cleanupGates (c := c.withBlocks blocks) ⟨validBlocks, named⟩).edited_of_ok same

/-- Quantifying the output by a variable goes the same way with fewer blocks. -/
theorem run_quantifyOutput (arithmetic : Arithmetic) (valid : c.WellFormed)
    (output : c.output? = some out) (validBlocks : (c.withBlocks blocks).WellFormed) {x : Nat} (positive : 0 < x)
    (below : x < c.maxVar) {q : Quantifier} (quantified : quantifyOutput q c x = .ok t) :
    Edit.quantifyOutput arithmetic q x (c.withBlocks blocks) = (.ok (), t.withBlocks blocks) := by
  have defined := valid.output_lt out output
  obtain ⟨d, analysed, analyses⟩ := Dependencies.ofCircuit_spec valid
  obtain ⟨l, s, ran, descends, _⟩ := Descent.leads_bringDown valid analyses positive below q
    defined (Descent.descends_start valid positive below)
  obtain ⟨_, same⟩ := Descent.retraces_bringDown d q x out _ _ _ ran
  have down : Edit.descend (bringDown d q x out) (c.withBlocks blocks) =
      (.ok l, s.circuit.withBlocks blocks) :=
    congrArg (fun ended : Except Error Literal × Descent => (ended.1, ended.2.circuit)) (same blocks)
  rw [quantifyOutput_eq analysed output ran] at quantified
  have analysedBlocks : Dependencies.ofCircuit (c.withBlocks blocks) arithmetic = .ok d :=
    Dependencies.ofCircuit_eq valid analysed arithmetic
  have given : (c.withBlocks blocks).output = .ok out := by
    have same : (c.withBlocks blocks).output = c.output := rfl
    rw [same, Circuit.output, output]
  have validMore := descends.valid.takeBlocks validBlocks descends.continues.maxVar_eq
  unfold Edit.quantifyOutput
  rw [run_get, run_lift_of_ok analysedBlocks, run_get, run_lift_of_ok given]
  refine (run_bind_of_ok down).trans ?_
  by_cases unchanged : l = out
  · rw [if_pos unchanged] at quantified ⊢
    exact run_cleanupGates descends.valid (descends.continues.output_eq.trans output) validMore
      quantified
  · rw [if_neg unchanged] at quantified ⊢
    obtain ⟨n, set, cleaned⟩ := exists_of_bind_eq_ok quantified
    obtain ⟨definedNew, rfl⟩ := of_setOutput set
    have passes := setOutput_of_checked (setOutput_withBlocks set blocks) arithmetic
    have changed := (enacts_setOutput _ arithmetic l).of_ok (by rw [passes]; rfl)
    refine (run_bind_of_ok changed).trans ?_
    exact run_cleanupGates (descends.valid.withOutput definedNew) rfl
      (validMore.withOutput definedNew) cleaned

theorem run_quantifyVariables (arithmetic : Arithmetic) (vars : List Nat) (q : Quantifier)
    (inside : ∀ v ∈ vars, 0 < v ∧ v < c.maxVar) (continued : Continued c m)
    (validBlocks : (c.withBlocks blocks).WellFormed) :
    ∃ t, vars.foldlM (quantifyOutput q) m = .ok t ∧ Continued c t ∧
      vars.forM (Edit.quantifyOutput arithmetic q) (m.withBlocks blocks) =
        (.ok (), t.withBlocks blocks) := by
  induction vars generalizing m with
  | nil => exact ⟨m, rfl, continued, rfl⟩
  | cons x rest ih =>
    obtain ⟨replaces, r, given⟩ := continued
    obtain ⟨positive, below⟩ := inside x (by simp)
    have belowM := replaces.maxVar_eq.symm ▸ below
    obtain ⟨t, quantified, next⟩ := quantifyOutput_spec replaces.valid given positive belowM q
    obtain ⟨s, output, _⟩ := next.output
    have ran := run_quantifyOutput arithmetic replaces.valid given
      (replaces.valid.takeBlocks validBlocks replaces.maxVar_eq) positive belowM quantified
    obtain ⟨u, others, last, again⟩ := ih (fun v member => inside v (by simp [member]))
      ⟨replaces.trans next.replaces, s, output⟩
    refine ⟨u, ?_, last, (run_bind_of_ok ran).trans again⟩
    rw [List.foldlM_cons, quantified]
    exact others

theorem quantifyOutput_of_no_output (valid : c.WellFormed) (missing : c.output? = none)
    (arithmetic : Arithmetic) (q : Quantifier) (x : Nat) :
    quantifyOutput q c x = .error (.structural .noOutput) ∧
      Edit.quantifyOutput arithmetic q x c = (.error (.structural .noOutput), c) := by
  obtain ⟨d, analysed, _⟩ := Dependencies.ofCircuit_spec valid
  have failed : c.output = .error (.structural .noOutput) := by rw [Circuit.output, missing]
  constructor
  · unfold quantifyOutput
    rw [analysed, failed]
    rfl
  · unfold Edit.quantifyOutput
    rw [run_get, run_lift_of_ok (Dependencies.ofCircuit_eq valid analysed arithmetic), run_get,
      run_lift_of_error failed]

theorem quantifyVariables_of_no_output (valid : c.WellFormed) (missing : c.output? = none)
    (arithmetic : Arithmetic) (q : Quantifier) {vars : List Nat} (nonempty : vars ≠ []) :
    vars.foldlM (quantifyOutput q) c = .error (.structural .noOutput) ∧
      vars.forM (Edit.quantifyOutput arithmetic q) c = (.error (.structural .noOutput), c) := by
  have fails := quantifyOutput_of_no_output valid missing arithmetic q
  refine ⟨foldlM_eq_error nonempty fun x _ => (fails x).1, ?_⟩
  cases vars with
  | nil => exact absurd rfl nonempty
  | cons x rest => exact run_bind_of_error (fails x).2

theorem run_miniscopeLastBlock (kept : List Block)
    (ran : block.vars.forM (Edit.quantifyOutput arithmetic block.quantifier)
      (m.withBlocks (kept ++ [block])) = (.ok (), t.withBlocks (kept ++ [block]))) :
    Edit.miniscopeLastBlock arithmetic (m.withBlocks (kept ++ [block])) =
      (.ok (), t.withBlocks kept) := by
  have last : (m.withBlocks (kept ++ [block])).blocks.getLast? = some block := by
    simp [withBlocks]
  unfold Edit.miniscopeLastBlock
  rw [run_get, last]
  exact (run_bind_of_ok ran).trans (run_popBlock t kept block)

theorem miniscope_of_single (single : c.blocks.tail = []) : c.miniscope = .ok c := by
  unfold miniscope
  split
  · simp_all
  · rfl

theorem performs_miniscope (stands : c.Stands) :
    Performs (Edit.miniscope arithmetic) c c.miniscope
      (2 ≤ c.blocks.length ∧ c.output? = none) := by
  refine performs_moving stands
    (fun c block => block.vars.foldlM (quantifyOutput block.quantifier) c) miniscope_of_single ?_ ?_ ?_
  · intro outermost inner blocks inside
    obtain ⟨second, more, rfl⟩ := List.exists_cons_of_ne_nil inside
    rw [miniscope, blocks]
    rfl
  · intro missing nonempty
    have fails (block : Block) (present : block ∈ c.blocks) :=
      quantifyVariables_of_no_output stands.valid missing arithmetic block.quantifier
        (stands.valid.block_nonempty block present)
    refine ⟨fun block present => (fails block present).1, ?_⟩
    have last := List.getLast?_eq_some_getLast nonempty
    unfold Edit.miniscopeLastBlock
    rw [run_get, last]
    exact run_bind_of_error (fails _ (List.getLast_mem nonempty)).2
  · intro m kept block continued first
    have present : block ∈ c.blocks := first.subset (by simp)
    obtain ⟨t, quantified, next, ran⟩ := run_quantifyVariables arithmetic block.vars block.quantifier
      (stands.valid.block_lt block present) continued (stands.valid.withFirst first)
    exact ⟨t, quantified, next, run_miniscopeLastBlock kept ran⟩

end QuantCircuit.Circuit
