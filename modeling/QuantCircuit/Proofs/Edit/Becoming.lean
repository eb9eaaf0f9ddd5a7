import QuantCircuit.Proofs.Circuit.Identifying
import QuantCircuit.Proofs.Circuit.Unsigning
import QuantCircuit.Proofs.Qcir.Labelling

namespace QuantCircuit.Circuit

variable {b c m : Circuit} {gate : Gate} {n : Numbering} {out : Literal} {blocks : List Block}

/-- Up to the signs of bound literals the circuit is well formed, and its names can be read
and differ. -/
structure Sound (c : Circuit) : Prop where
  stands : c.unsigned.Stands
  labelled : Labelled c.names

/-- A sound circuit that has kept the identifiers of an earlier one. -/
structure Becomes (b c : Circuit) : Prop where
  sound : c.Sound
  keeps : Keeps b.unsigned c.unsigned

theorem Becomes.refl (sound : c.Sound) : Becomes c c :=
  ⟨sound, .refl sound.stands.valid⟩

/-! One change. -/

theorem Becomes.withBlocks (becomes : Becomes b c)
    (valid : WellFormed { c.unsigned with blocks })
    (subset : ∀ block ∈ blocks, ∀ v ∈ block.vars,
      ∃ before ∈ c.blocks, v ∈ before.vars ∧ before.quantifier = block.quantifier) :
    Becomes b { c with blocks } where
  sound := ⟨⟨valid, becomes.sound.stands.named⟩, becomes.sound.labelled⟩
  keeps := becomes.keeps.trans (keeps_withBlocks becomes.sound.stands.valid subset)

theorem Becomes.withOutput (becomes : Becomes b c) (defined : c.Defines out) :
    Becomes b { c with output? := some out } where
  sound := ⟨⟨becomes.sound.stands.valid.withOutput defined.unsigned, becomes.sound.stands.named⟩,
    becomes.sound.labelled⟩
  keeps := becomes.keeps.trans (keeps_withOutput becomes.sound.stands.valid _)

theorem Becomes.append (becomes : Becomes b c)
    (checked : gate.check c.maxVar c.maxGate = .ok ()) :
    Becomes b (c.append gate c.freshName) := by
  have stands := becomes.sound.stands.append (accepts_unsigned checked) c.freshName
  refine ⟨⟨?_, labelled_push becomes.sound.labelled⟩, ?_⟩
  · rwa [unsigned_append]
  · rw [unsigned_append]
    exact becomes.keeps.trans
      (keeps_append becomes.sound.stands.valid stands.valid c.freshName_not_mem)

theorem Becomes.renumber (becomes : Becomes b c) (fits : n.Fits c.unsigned) :
    Becomes b (c.renumber n) := by
  have stands := stands_renumber becomes.sound.stands fits
  refine ⟨⟨?_, becomes.sound.labelled⟩, ?_⟩
  · rwa [unsigned_renumber]
  · rw [unsigned_renumber]
    exact becomes.keeps.trans (keeps_renumber becomes.sound.stands.valid fits)

theorem Becomes.flattenGate (becomes : Becomes b c) (marked : Array Bool) (position : Nat) :
    Becomes b (Circuit.flattenGate marked c position) := by
  have valid := becomes.sound.stands.valid
  have rewrites := rewrites_flattenGate valid marked position
  rw [← unsigned_flattenGate] at rewrites
  have names : (Circuit.flattenGate marked c position).names = c.names := rewrites.names_eq
  refine ⟨⟨⟨rewrites.valid, ?_⟩, names ▸ becomes.sound.labelled⟩,
    becomes.keeps.trans (rewrites.keeps valid)⟩
  rw [rewrites.names_eq]
  exact becomes.sound.stands.named

theorem Becomes.flattenGates (becomes : Becomes b c) (marked : Array Bool) (positions : List Nat) :
    Becomes b (positions.foldl (Circuit.flattenGate marked) c) := by
  induction positions generalizing c with
  | nil => exact becomes
  | cons position rest ih => exact ih (becomes.flattenGate marked position)

/-! Work in place. -/

/-- Whether the work succeeds or fails, it leaves a circuit that has kept the identifiers. -/
def Develops (b : Circuit) (work : Edit α) (c : Circuit) : Prop :=
  Ensures work c (fun _ m => Becomes b m) fun _ m => Becomes b m

theorem develops_get {next : Circuit → Edit β} (rest : Develops b (next c) c) :
    Develops b (get >>= next) c :=
  rest

theorem develops_lift {result : Except Error α} {next : α → Edit β} (becomes : Becomes b c)
    (rest : ∀ a, result = .ok a → Develops b (next a) c) :
    Develops b (liftM result >>= next) c :=
  .lift_bind (fun _ _ => becomes) rest

theorem Develops.bind {work : Edit α} {next : α → Edit β} (first : Develops b work c)
    (rest : ∀ a m, Becomes b m → Develops b (next a) m) : Develops b (work >>= next) c :=
  Ensures.bind first rest

theorem develops_forM {work : α → Edit Unit} (entries : List α)
    (each : ∀ a m, Becomes b m → Develops b (work a) m) (becomes : Becomes b c) :
    Develops b (entries.forM work) c := by
  induction entries generalizing c with
  | nil => exact becomes
  | cons a rest ih => exact (each a c becomes).bind fun _ m later => ih later

theorem exists_block_of_bindings_eq (same : Block.bindings blocks = Block.bindings c.blocks) :
    ∀ block ∈ blocks, ∀ v ∈ block.vars,
      ∃ before ∈ c.blocks, v ∈ before.vars ∧ before.quantifier = block.quantifier := by
  intro block present v member
  have bound : (block.quantifier, v) ∈ Block.bindings blocks :=
    List.mem_flatMap.mpr ⟨block, present, List.mem_map.mpr ⟨v, member, rfl⟩⟩
  rw [same] at bound
  obtain ⟨before, known, listed⟩ := List.mem_flatMap.mp bound
  obtain ⟨w, inside, equal⟩ := List.mem_map.mp listed
  obtain ⟨quantifier, rfl⟩ := Prod.mk.inj equal
  exact ⟨before, known, inside, quantifier⟩

theorem develops_splitBlocks (becomes : Becomes b c) : Develops b Edit.splitBlocks c :=
  becomes.withBlocks (wellFormed_splitBlocks becomes.sound.stands.valid)
    (exists_block_of_bindings_eq (Block.bindings_singletons c.blocks))

theorem develops_combineBlocks (becomes : Becomes b c) : Develops b Edit.combineBlocks c :=
  becomes.withBlocks (wellFormed_combineBlocks becomes.sound.stands.valid)
    (exists_block_of_bindings_eq (Block.bindings_joinRuns c.blocks))

theorem develops_flatten (becomes : Becomes b c) : Develops b (Edit.flatten .checked) c := by
  have valid := becomes.sound.stands.valid
  have layered : c.Layered := layered_unsigned.mp valid.layered
  unfold Develops Ensures
  cases output : c.output? with
  | none =>
    have ran : Edit.flatten .checked c = (.error (.structural .noOutput), c) := by
      unfold Edit.flatten
      rw [run_get, run_lift_of_error (definedOutput_eq_error output)]
    rw [ran]
    exact becomes
  | some out =>
    rw [run_flatten layered output (defines_unsigned.mp (valid.output_lt out output)) .checked]
    exact becomes.flattenGates (c.cone out) (List.range c.gates.size)

theorem develops_renumber (becomes : Becomes b c) (fits : n.Fits c.unsigned) :
    Develops b (Edit.renumber n) c :=
  develops_get (develops_lift becomes fun _ _ => becomes.renumber fits)

theorem develops_reachable {next : Array Bool → Edit β} (becomes : Becomes b c)
    (rest : ∀ out live, c.unsigned.output? = some out → c.unsigned.Reachable out live →
      Develops b (next live) c) : Develops b (Edit.reachable .checked >>= next) c := by
  have found := ensures_reachable becomes.sound.stands.valid
  refine Ensures.bind (found.mono_fail fun _ _ same => same ▸ becomes) ?_
  rintro live m ⟨rfl, out, output, reachable⟩
  exact rest out live output reachable

theorem develops_cleanup (becomes : Becomes b c) : Develops b (Edit.cleanup .checked) c := by
  have valid := becomes.sound.stands.valid
  unfold Edit.cleanup
  refine develops_get ?_
  split
  · exact becomes
  refine develops_reachable becomes fun out marked output reachable => develops_get ?_
  obtain ⟨marks, numbered, closed, _⟩ := reachable.numbering_eq valid output
  exact develops_renumber becomes (numbered ▸ closed.fits valid)

theorem develops_cleanupGates (becomes : Becomes b c) : Develops b (Edit.cleanupGates .checked) c := by
  have valid := becomes.sound.stands.valid
  refine develops_reachable becomes fun out marked output reachable => develops_get ?_
  obtain ⟨marks, numbered, closed, _⟩ := reachable.numbering_gates_eq valid output
  exact develops_renumber becomes (numbered ▸ closed.fits valid)

theorem develops_reorderVariables {first : List Nat} (becomes : Becomes b c)
    (lists : c.unsigned.Lists first) : Develops b (Edit.reorderVariables first) c := by
  have fits := lists.fits becomes.sound.stands.valid
  rw [reordering_unsigned] at fits
  refine develops_get ((develops_renumber becomes fits).bind fun _ m later => ?_)
  refine later.withBlocks (wellFormed_sorted later.sound.stands.valid) fun block present v member => ?_
  obtain ⟨before, known, rfl⟩ := List.mem_map.mp present
  exact ⟨before, known, Block.mem_sorted.mp member, rfl⟩

theorem develops_reorderByTraversal (becomes : Becomes b c) :
    Develops b (Edit.reorderByTraversal .checked) c := by
  have valid := becomes.sound.stands.valid
  have layered : c.Layered := layered_unsigned.mp valid.layered
  cases output : c.output? with
  | none =>
    unfold Develops Ensures Edit.reorderByTraversal
    rw [run_bind_of_error (metVariables_of_no_output output .checked)]
    exact becomes
  | some out =>
    have defined := valid.output_lt out output
    have met := run_metVariables layered output (defines_unsigned.mp defined) .checked
    have lists := lists_traversalOrder valid defined
    rw [traversalOrder_unsigned] at lists
    have later := develops_reorderVariables becomes lists
    unfold Develops Ensures Edit.reorderByTraversal at *
    rwa [run_bind_of_ok met]

theorem develops_reorderByAppearance (becomes : Becomes b c) :
    Develops b (Edit.reorderByAppearance .checked) c := by
  refine develops_get (develops_lift becomes fun _ _ => develops_reorderVariables becomes ?_)
  rw [← appearanceOrder_unsigned]
  exact lists_appearanceOrder becomes.sound.stands.valid

end QuantCircuit.Circuit
