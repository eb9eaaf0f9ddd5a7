import QuantCircuit.Proofs.Circuit.Occurrence
import QuantCircuit.Proofs.Circuit.Transport

namespace QuantCircuit.Circuit

variable {c m t : Circuit} {r out : Literal}

/-- A circuit in place of another one: the same variables in the same blocks, another
output. -/
structure Replaces (c m : Circuit) : Prop where
  valid : m.WellFormed
  maxVar_eq : m.maxVar = c.maxVar
  blocks_eq : m.blocks = c.blocks
  nameOf_eq : ∀ v : Nat, 0 < v → v < c.maxVar → m.nameOf v = c.nameOf v

theorem Replaces.refl (valid : c.WellFormed) : Replaces c c :=
  ⟨valid, rfl, rfl, fun _ _ _ => rfl⟩

theorem Replaces.trans (first : Replaces c m) (second : Replaces m t) : Replaces c t where
  valid := second.valid
  maxVar_eq := second.maxVar_eq.trans first.maxVar_eq
  blocks_eq := second.blocks_eq.trans first.blocks_eq
  nameOf_eq := fun v positive small =>
    (second.nameOf_eq v positive (first.maxVar_eq ▸ small)).trans (first.nameOf_eq v positive small)

theorem Continues.replaces (continues : c.Continues m) (valid : m.WellFormed) : Replaces c m where
  valid := valid
  maxVar_eq := continues.maxVar_eq
  blocks_eq := continues.blocks_eq
  nameOf_eq := fun v positive small =>
    continues.nameOf_eq v positive (Nat.lt_of_lt_of_le small (Nat.le_add_right ..))

/-- The circuit in place of another one, its output's function, and the variables that may
still occur in it. -/
structure Outputs (c m : Circuit) (f : Assignment → Bool) (remains : Nat → Prop) : Prop where
  replaces : Replaces c m
  output : ∃ r, m.output? = some r ∧ m.meaning r = f ∧ ∀ v, m.Occurs v r.natAbs → remains v

theorem Outputs.mono {f : Assignment → Bool} {remains fewer : Nat → Prop}
    (outputs : Outputs c m f remains) (implied : ∀ v, remains v → fewer v) :
    Outputs c m f fewer := by
  obtain ⟨r, given, meaning, occurs⟩ := outputs.output
  exact ⟨outputs.replaces, r, given, meaning, fun v here => implied v (occurs v here)⟩

theorem WellFormed.outermost (valid : c.WellFormed) :
    WellFormed { c with blocks := c.blocks.take 1 } := by
  have kept {block : Block} (member : block ∈ c.blocks.take 1) : block ∈ c.blocks :=
    List.mem_of_mem_take member
  refine valid.withBlocks (fun block member => valid.block_nonempty block (kept member))
    (fun block member => valid.block_lt block (kept member)) ?_
  have distinct := valid.block_nodup
  rw [← List.take_append_drop 1 c.blocks, List.flatMap_append] at distinct
  exact (List.nodup_append.mp distinct).1

/-- What moving the inner blocks into the gates leaves: the same variables, the first block,
and the function that the output had with the inner blocks quantified. -/
structure Collapses (c m : Circuit) (out : Literal) : Prop where
  valid : m.WellFormed
  maxVar_eq : m.maxVar = c.maxVar
  blocks_eq : m.blocks = c.blocks.take 1
  nameOf_eq : ∀ v : Nat, 0 < v → v < c.maxVar → m.nameOf v = c.nameOf v
  output : ∃ r, m.output? = some r ∧
    m.meaning r = Block.close (c.meaning out) c.blocks.tail

/-- Whether there are inner blocks or none, each of them is worked off, the innermost one
first, and the first block is left. -/
theorem foldlM_inner (step : Circuit → Block → Except Error Circuit) (c : Circuit) :
    (match c.blocks with
      | outermost :: inner@(_ :: _) => do
        let m ← inner.reverse.foldlM step c
        return { m with blocks := [outermost] }
      | _ => return c) = (do
      let m ← c.blocks.tail.reverse.foldlM step c
      return { m with blocks := c.blocks.take 1 }) := by
  obtain ⟨name, maxVar, blocks, gates, output?, names, origin⟩ := c
  match blocks with
  | [] => rfl
  | [_] => rfl
  | _ :: _ :: _ => rfl

theorem Outputs.collapses {remains : Nat → Prop}
    (outputs : Outputs c t (Block.close (c.meaning out) c.blocks.tail) remains) :
    Collapses c { t with blocks := c.blocks.take 1 } out where
  valid := outputs.replaces.blocks_eq ▸ outputs.replaces.valid.outermost
  maxVar_eq := outputs.replaces.maxVar_eq
  blocks_eq := rfl
  nameOf_eq := outputs.replaces.nameOf_eq
  output := by
    obtain ⟨r, given, meaning, _⟩ := outputs.output
    exact ⟨r, given, meaning⟩

theorem Collapses.trans (first : Collapses c m out) (output : m.output? = some r)
    (second : Collapses m t r) : Collapses c t out where
  valid := second.valid
  maxVar_eq := second.maxVar_eq.trans first.maxVar_eq
  blocks_eq := by rw [second.blocks_eq, first.blocks_eq, List.take_take, Nat.min_self]
  nameOf_eq := fun v positive small =>
    (second.nameOf_eq v positive (first.maxVar_eq ▸ small)).trans (first.nameOf_eq v positive small)
  output := by
    obtain ⟨r', givenM, meaningM⟩ := first.output
    obtain rfl := Option.some.inj (givenM.symm.trans output)
    obtain ⟨s, givenT, meaningT⟩ := second.output
    have none : m.blocks.tail = [] := by
      rw [first.blocks_eq]
      cases c.blocks <;> rfl
    refine ⟨s, givenT, ?_⟩
    rw [meaningT, none, ← meaningM]
    rfl

/-- A circuit with the variables, the names and the outermost block of another one. Fixing
variables that are in no inner block has the same effect on the truth. -/
structure Condenses (c : Circuit) (out : Literal) (m : Circuit) (r : Literal) : Prop where
  valid : m.WellFormed
  output : m.output? = some r
  maxVar_eq : m.maxVar = c.maxVar
  head_eq : m.blocks.head? = c.blocks.head?
  nameOf_eq : ∀ v : Nat, 0 < v → v < c.maxVar → m.nameOf v = c.nameOf v
  truthFixing_eq : ∀ choices : Choices, (∀ block ∈ c.blocks.tail, ∀ v ∈ block.vars,
    choices v = none) → m.truthFixing r choices = c.truthFixing out choices

theorem condenses_self (valid : c.WellFormed) (output : c.output? = some out) :
    Condenses c out c out where
  valid := valid
  output := output
  maxVar_eq := rfl
  head_eq := rfl
  nameOf_eq := fun _ _ _ => rfl
  truthFixing_eq := fun _ _ => rfl

theorem Condenses.truth_eq (condenses : Condenses c out m r) : m.truth r = c.truth out := by
  rw [← truthFixing_none, condenses.truthFixing_eq .none fun _ _ _ _ => rfl, truthFixing_none]

/-- Choices for variables of no inner block commute with the quantifiers that move. -/
theorem Collapses.condenses (collapses : Collapses c m out) (valid : c.WellFormed)
    (defined : c.Defines out) (output : m.output? = some r) : Condenses c out m r where
  valid := collapses.valid
  output := output
  maxVar_eq := collapses.maxVar_eq
  head_eq := by rw [collapses.blocks_eq]; cases c.blocks <;> rfl
  nameOf_eq := collapses.nameOf_eq
  truthFixing_eq := by
    intro choices open_
    obtain ⟨s, given, meaning⟩ := collapses.output
    obtain rfl := Option.some.inj (given.symm.trans output)
    have inner : (fun σ : Assignment => m.meaning s (σ.fix choices)) =
        Block.close (fun σ => c.meaning out (σ.fix choices)) c.blocks.tail := by
      rw [meaning]
      exact funext fun σ => Block.close_fix _ _ open_ σ
    have same : Block.close (fun σ => m.meaning s (σ.fix choices))
        (m.blocks.map (·.without choices)) =
          Block.close (fun σ => c.meaning out (σ.fix choices))
            (c.blocks.map (·.without choices)) := by
      rw [inner, collapses.blocks_eq]
      cases blocks : c.blocks with
      | nil => rfl
      | cons block rest =>
        rw [blocks, List.tail_cons] at open_
        rw [List.map_cons, map_without_eq_self open_]
        rfl
    rw [Bool.eq_iff_iff, truthFixing_eq_true_iff collapses.valid
      (collapses.valid.output_lt s output), same, truthFixing_eq_true_iff valid defined]

end QuantCircuit.Circuit
