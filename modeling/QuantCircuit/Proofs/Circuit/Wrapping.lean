import QuantCircuit.Circuit.Blocks
import QuantCircuit.Proofs.Circuit.Appending
import QuantCircuit.Proofs.Circuit.Collapsing
import QuantCircuit.Proofs.Circuit.Declaring
import QuantCircuit.Proofs.Circuit.Evaluation

/-! Wrapping the output into quantifier gates, one for each of the inner blocks. All that the
circuit has stays where it is, the new gates are nested behind it, and their value is that
of the old output with the inner blocks quantified. -/

namespace QuantCircuit.Circuit

variable {c m t : Circuit} {out r : Literal} {block : Block} {f : Assignment → Bool}
variable {remains : Nat → Prop}

/-- One block is quantified by a gate around the output. -/
theorem Outputs.wrapOutput (outputs : Outputs c m f remains)
    (inside : ∀ v ∈ block.vars, 0 < v ∧ v < c.maxVar) :
    ∃ t, m.wrapOutput block = .ok t ∧
      Outputs c t (block.quantifier.overVars f block.vars) fun _ => True := by
  obtain ⟨replaces, r, given, meaning, _⟩ := outputs
  have valid := replaces.valid
  have defined := valid.output_lt r given
  let gate := Gate.quantify block.quantifier (block.vars.map Int.ofNat) r
  have bound : ∀ v ∈ gate.bound, 0 < v ∧ v.natAbs < m.maxVar := by
    intro v member
    obtain ⟨w, listed, rfl⟩ := List.mem_map.mp member
    obtain ⟨positive, small⟩ := inside w listed
    exact ⟨Int.natCast_pos.mpr positive, replaces.maxVar_eq ▸ small⟩
  have accepts : m.Accepts gate :=
    ⟨fun l member => List.mem_singleton.mp member ▸ defined, bound, fun _ => rfl⟩
  have named := valid.names_pos defined
  have continued := (continues_append valid gate m.freshName).replaces
    (valid.append named accepts m.freshName)
  have fresh : (m.append gate m.freshName).Defines (m.maxGate : Int) :=
    defines_natCast (Nat.lt_of_lt_of_le valid.maxVar_pos (Nat.le_add_right ..))
      (by rw [maxGate_append]; exact Nat.lt_succ_self _)
  let t := { m.append gate m.freshName with output? := some (m.maxGate : Int) }
  have wrapped : Replaces m t := ⟨continued.valid.withOutput fresh, continued.maxVar_eq,
    continued.blocks_eq, continued.nameOf_eq⟩
  refine ⟨t, ?_, replaces.trans wrapped, _, rfl, ?_, fun _ _ => trivial⟩
  · unfold Circuit.wrapOutput
    rw [Circuit.output, given]
    show (m.addGate gate >>= fun p => pure { p.2 with output? := some (p.1 : Int) }) = _
    rw [addGate_eq accepts]
    rfl
  · have denotes := interpretation_append valid named accepts m.freshName
    have vars : gate.bound.map Int.natAbs = block.vars := by
      simp [gate, Gate.quantify, Function.comp_def]
    rw [Gate.meaning_quantifier m.interpretation rfl, vars] at denotes
    calc t.meaning (m.maxGate : Int)
      _ = (m.append gate m.freshName).interpretation m.maxGate := meaning_natCast t m.maxGate
      _ = block.quantifier.overVars (m.meaning r) block.vars := denotes
      _ = block.quantifier.overVars f block.vars := by rw [meaning]

/-- What a block is wrapped into stands behind all that there is. -/
theorem of_wrapOutput (wrapped : m.wrapOutput block = .ok t) (output : m.output? = some r) :
    t = { m.append (.quantify block.quantifier (block.vars.map Int.ofNat) r) m.freshName with
      output? := some (m.maxGate : Int) } := by
  obtain ⟨s, given, wrapped⟩ := exists_of_bind_eq_ok wrapped
  rw [Circuit.output, output] at given
  obtain rfl := Except.ok.inj given
  obtain ⟨⟨id, n⟩, added, wrapped⟩ := exists_of_bind_eq_ok wrapped
  obtain ⟨_, rfl, rfl⟩ := of_addNamedGate added
  exact (Except.ok.inj wrapped).symm

/-- The output once that many blocks are wrapped around it: the last of the new gates. -/
def wrapped (c : Circuit) (out : Literal) : Nat → Literal
  | 0 => out
  | count + 1 => (c.maxGate + count : Nat)

/-- The gate that quantifies a block when that many others have been wrapped before. -/
def wrapper (c : Circuit) (out : Literal) (count : Nat) (block : Block) : Gate :=
  .quantify block.quantifier (block.vars.map Int.ofNat) (c.wrapped out count)

/-- The blocks are wrapped around the output, from the first one on: each by a gate of its
own behind the gates that were there. -/
structure Wraps (c m : Circuit) (out : Literal) (blocks : List Block) : Prop where
  outputs : Outputs c m (Block.close (c.meaning out) blocks.reverse) fun _ => True
  output_eq : m.output? = some (c.wrapped out blocks.length)
  gates_eq : m.gates.toList = c.gates.toList ++ blocks.mapIdx (c.wrapper out)
  nameOf_eq : ∀ id : Nat, 0 < id → id < c.maxGate → m.nameOf id = c.nameOf id

theorem wraps_self (valid : c.WellFormed) (output : c.output? = some out) : Wraps c c out [] where
  outputs := ⟨.refl valid, out, output, rfl, fun _ _ => trivial⟩
  output_eq := output
  gates_eq := (List.append_nil _).symm
  nameOf_eq := fun _ _ _ => rfl

theorem Wraps.maxGate_eq {blocks : List Block} (wraps : Wraps c m out blocks) :
    m.maxGate = c.maxGate + blocks.length := by
  have count := congrArg List.length wraps.gates_eq
  simp only [Array.length_toList, List.length_append, List.length_mapIdx] at count
  rw [maxGate, wraps.outputs.replaces.maxVar_eq, count, ← Nat.add_assoc, maxGate]

theorem Wraps.wrapOutput {blocks : List Block} (wraps : Wraps c m out blocks)
    (inside : ∀ v ∈ block.vars, 0 < v ∧ v < c.maxVar) :
    ∃ t, m.wrapOutput block = .ok t ∧ Wraps c t out (blocks ++ [block]) := by
  obtain ⟨t, ran, outputs⟩ := wraps.outputs.wrapOutput inside
  have built := of_wrapOutput ran wraps.output_eq
  refine ⟨t, ran, ?_, ?_, ?_, fun id positive below => ?_⟩
  · rw [List.reverse_append]
    exact outputs
  · rw [built, wraps.maxGate_eq, List.length_append]
    rfl
  · have pushed : t.gates.toList = m.gates.toList ++ [c.wrapper out blocks.length block] := by
      rw [built]
      exact Array.toList_push
    rw [pushed, wraps.gates_eq, List.mapIdx_append, List.append_assoc]
    simp
  · have before : id < m.maxGate := Nat.lt_of_lt_of_le below (wraps.maxGate_eq ▸ Nat.le_add_right ..)
    have kept := (continues_append wraps.outputs.replaces.valid
      (c.wrapper out blocks.length block) m.freshName).nameOf_eq id positive before
    rw [built]
    exact kept.trans (wraps.nameOf_eq id positive below)

theorem Wraps.wrapBlocks {done : List Block} (wraps : Wraps c m out done) (blocks : List Block)
    (inside : ∀ block ∈ blocks, ∀ v ∈ block.vars, 0 < v ∧ v < c.maxVar) :
    ∃ t, blocks.foldlM Circuit.wrapOutput m = .ok t ∧ Wraps c t out (done ++ blocks) := by
  induction blocks generalizing m done with
  | nil => exact ⟨m, rfl, by rwa [List.append_nil]⟩
  | cons block rest ih =>
    obtain ⟨t, first, next⟩ := wraps.wrapOutput (inside block (by simp))
    obtain ⟨u, others, last⟩ := ih next fun other member => inside other (by simp [member])
    refine ⟨u, ?_, ?_⟩
    · rw [List.foldlM_cons, first]
      exact others
    · rwa [List.append_assoc] at last

theorem blocksToGates_eq (c : Circuit) :
    c.blocksToGates = (do
      let m ← c.blocks.tail.reverse.foldlM Circuit.wrapOutput c
      return { m with blocks := c.blocks.take 1 }) :=
  foldlM_inner Circuit.wrapOutput c

/-- Moving the inner blocks wraps them around the output, the innermost one first. -/
theorem blocksToGates_spec (valid : c.WellFormed) (output : c.output? = some out) :
    ∃ m, c.blocksToGates = .ok { m with blocks := c.blocks.take 1 } ∧
      Wraps c m out c.blocks.tail.reverse := by
  have inside : ∀ block ∈ c.blocks.tail.reverse, ∀ v ∈ block.vars, 0 < v ∧ v < c.maxVar :=
    fun block member => valid.block_lt block (List.mem_of_mem_tail (List.mem_reverse.mp member))
  obtain ⟨m, folded, wraps⟩ := (wraps_self valid output).wrapBlocks _ inside
  refine ⟨m, ?_, wraps⟩
  rw [blocksToGates_eq, folded]
  rfl

theorem Wraps.collapses (wraps : Wraps c m out c.blocks.tail.reverse) :
    Collapses c { m with blocks := c.blocks.take 1 } out := by
  have outputs := wraps.outputs
  rw [List.reverse_reverse] at outputs
  exact outputs.collapses

/-- Moving the inner blocks into gates around the output succeeds. -/
theorem collapses_blocksToGates (valid : c.WellFormed) (output : c.output? = some out) :
    ∃ m, c.blocksToGates = .ok m ∧ Collapses c m out := by
  obtain ⟨m, moved, wraps⟩ := blocksToGates_spec valid output
  exact ⟨_, moved, wraps.collapses⟩

/-- Moving the prefix into the gates keeps the variables, all that has a number with its name
and the first block. Each inner block becomes one gate behind the gates there are, the
innermost one around the old output and each other one around the gate before it. The new
circuit evaluates to what the old one evaluates to, with the inner blocks quantified. -/
theorem blocksToGates_refines (valid : c.WellFormed) (output : c.output? = some out) :
    ∃ m, c.blocksToGates = .ok m ∧ m.WellFormed ∧ m.maxVar = c.maxVar ∧
      m.blocks = c.blocks.take 1 ∧
      (∀ id : Nat, 0 < id → id < c.maxGate → m.nameOf id = c.nameOf id) ∧
      m.gates.toList = c.gates.toList ++ c.blocks.tail.reverse.mapIdx (c.wrapper out) ∧
      m.output? = some (c.wrapped out c.blocks.tail.length) ∧
      c.Computes (c.meaning out) ∧
      m.Computes (Block.close (c.meaning out) c.blocks.tail) := by
  obtain ⟨m, moved, wraps⟩ := blocksToGates_spec valid output
  have collapses := wraps.collapses
  obtain ⟨r, given, meaning⟩ := collapses.output
  have last := wraps.output_eq
  rw [List.length_reverse] at last
  refine ⟨_, moved, collapses.valid, collapses.maxVar_eq, rfl, wraps.nameOf_eq, wraps.gates_eq,
    last, computes_meaning valid output, ?_⟩
  rw [← meaning]
  exact computes_meaning collapses.valid given

/-- A circuit with two inner blocks, a free variable, and a gate that binds a variable of an
inner block once more. -/
def threeBlocks : Circuit where
  name := "threeBlocks"
  maxVar := 5
  blocks := [⟨.ex, [1]⟩, ⟨.all, [2]⟩, ⟨.ex, [3]⟩]
  gates := #[{ connective := .or, inputs := [1, -2, 3, 4] }, .quantify .all [2] 5,
    { connective := .and, inputs := [6, -3, 5] }]
  output? := some (-7)
  names := #["", "1", "2", "3", "4", "5", "6", "7"]
  origin := #[0, 1, 2, 3, 4, 5, 6, 7]

theorem threeBlocks_blocksToGates_refines :
    ∃ m, threeBlocks.blocksToGates = .ok m ∧ m.blocks = [⟨.ex, [1]⟩] ∧ m.gates.toList =
        threeBlocks.gates.toList ++ [.quantify .ex [3] (-7), .quantify .all [2] 8] ∧
      m.output? = some 9 ∧ m.Computes (Quantifier.all.overVars
        (Quantifier.ex.overVars (threeBlocks.meaning (-7)) [3]) [2]) := by
  obtain ⟨m, moved, _, _, blocks, _, gates, output, _, computes⟩ :=
    blocksToGates_refines (by decide : threeBlocks.WellFormed) rfl
  exact ⟨m, moved, blocks, gates, output, computes⟩

end QuantCircuit.Circuit
