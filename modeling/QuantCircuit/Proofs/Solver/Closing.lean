import QuantCircuit.Proofs.Solver.Eliminating
import QuantCircuit.Solver.Answer

/-! What elimination leaves: the function of the outermost block's variables, or the truth
itself if there is no block, or if the outermost block is universal and a free variable is
still looked at. In both cases the verdict can be read off. -/

namespace QuantCircuit

theorem Diagram.Valid.eq_const {d : Diagram} {f : Handle} (valid : d.Valid) (holds : d.Holds f)
    (reads : ReadsOnly (d.value · f) fun _ => False) : ∃ value, f = .const value := by
  refine ⟨d.value (fun _ => false) f, ?_⟩
  apply valid.eq_of_value_eq holds (Diagram.holds_const d _)
  intro σ
  rw [Diagram.value_const]
  exact reads σ _ fun _ impossible => impossible.elim

namespace Solver

open Diagram

variable {α : Type} {c : Circuit} {d : Diagram} {f : Handle} {g : Assignment → Bool}
variable {s t u : Solver}

/-- The outermost block is universal, and the function looks at a free variable even when
the inner blocks are quantified. -/
def Entangled (c : Circuit) (g : Assignment → Bool) : Prop :=
  ∃ block rest, c.blocks = block :: rest ∧ block.quantifier = .all ∧
    ∃ v : Nat, c.quantifierOf? (v : Literal) = none ∧ ¬ Ignores (Block.close g rest) v

/-- The handle is the truth of the formula. -/
def Settles (c : Circuit) (g : Assignment → Bool) (f : Handle) : Prop :=
  ∃ value, f = .const value ∧ (value = true ↔ ∃ τ, Block.close g c.blocks τ = true)

/-- The function that elimination leaves. -/
def Remains (c : Circuit) (g : Assignment → Bool) (d : Diagram) (f : Handle) : Prop :=
  d.Holds f ∧
    (((c.blocks = [] ∨ Entangled c g) ∧ Settles c g f) ∨
      ∃ block rest, c.blocks = block :: rest ∧ ¬ Entangled c g ∧
        ∀ σ, d.value σ f = Block.close g rest σ)

/-- Only the diagram and the counters differ, or the outermost block is noted to be
quantified, for a reason. -/
structure Closes (reason : Prop) (s t : Solver) : Prop where
  circuit_eq : t.circuit = s.circuit
  options_eq : t.options = s.options
  progress_eq : t.progress = s.progress
  forced_eq : t.forced = s.forced
  limit_eq : t.diagram.limit = s.diagram.limit
  valid : t.diagram.Valid
  grows : s.diagram.Grows t.diagram
  outer : t.outerAbstracted = true → s.outerAbstracted = true ∨ reason

theorem frame_closes (reason : Prop) : Frame (Closes reason) where
  trans first second :=
    ⟨second.circuit_eq.trans first.circuit_eq, second.options_eq.trans first.options_eq,
      second.progress_eq.trans first.progress_eq, second.forced_eq.trans first.forced_eq,
      second.limit_eq.trans first.limit_eq, second.valid, first.grows.trans second.grows,
      fun noted => (second.outer noted).elim first.outer .inr⟩
  limit_eq related := related.limit_eq

theorem Extends.closes (extended : Extends s t) (reason : Prop) : Closes reason s t :=
  ⟨extended.circuit_eq, extended.options_eq, extended.progress_eq, extended.forced_eq,
    extended.limit_eq, extended.valid, extended.grows,
    fun noted => .inl (extended.outer_eq ▸ noted)⟩

theorem Works.closes {work : Solve α} {mid : α → Solver → Prop} (works : Works Extends work s mid)
    (reason : Prop) : Works (Closes reason) work s fun a t => Extends s t ∧ mid a t :=
  Ensures.mono works (fun _ _ ⟨related, reached⟩ => ⟨related.closes reason, related, reached⟩)
    fun _ _ ⟨related, exhausted⟩ => ⟨related.closes reason, exhausted⟩

theorem mem_freeVariables_iff (valid : d.Valid) (holds : d.Holds f) {v : Nat} :
    v ∈ freeVariables c d f ↔
      ¬ Ignores (d.value · f) v ∧ c.quantifierOf? (v : Literal) = none := by
  rw [freeVariables, List.mem_filter, mem_support_iff valid holds, Option.isNone_iff_eq_none]

/-- Everything a function looks at is in a block or among its free variables. -/
theorem readsOnly_blocks_or_free (valid : d.Valid) (holds : d.Holds f) :
    ReadsOnly (d.value · f) fun v =>
      (∃ block ∈ c.blocks, v ∈ block.vars) ∨ v ∈ freeVariables c d f := by
  refine (readsOnly_support valid holds).mono fun v member => ?_
  cases found : c.quantifierOf? (v : Literal) with
  | none =>
    exact .inr ((mem_freeVariables_iff valid holds).mpr
      ⟨(mem_support_iff valid holds).mp member, found⟩)
  | some q =>
    refine .inl (Classical.byContradiction fun outside => ?_)
    have absent := Circuit.quantifierOf?_eq_none_iff.mpr fun block present inside =>
      outside ⟨block, present, inside⟩
    simp [absent] at found

/-- Free variables are quantified existentially, all at once. -/
theorem works_quantifyFree (valid : s.diagram.Valid) (holds : s.diagram.Holds f)
    (free : List Nat) :
    Works Extends (do
        let f ← onDiagram (Diagram.abstract .ex (free.map Int.ofNat) f)
        noteSize
        return f) s fun r t => t.diagram.Holds r ∧
      ∀ σ, t.diagram.value σ r = Quantifier.ex.overVars (s.diagram.value · f) free σ := by
  refine Works.bind frame_extends
    (works_onDiagram (builds_abstract valid holds .ex (free.map Int.ofNat))) ?_
  rintro r t extended ⟨holdsR, valueR⟩
  refine Works.bind frame_extends (works_noteSize extended.valid) ?_
  intro _ u noted same
  refine works_pure (.refl noted.valid) ?_
  rw [same]
  exact ⟨holdsR, fun σ => by rw [valueR, natAbs_map_ofNat]⟩

/-- A function over listed variables, quantified existentially, is settled. -/
theorem settles_of_overVars (valid : d.Valid) (holds : d.Holds f) {h : Assignment → Bool}
    {free : List Nat} (reads : ReadsOnly h (· ∈ free))
    (value : ∀ σ, d.value σ f = Quantifier.ex.overVars h free σ)
    (closed : ∀ τ, h τ = Block.close g c.blocks τ) : Settles c g f := by
  have same : (d.value · f) = Quantifier.ex.overVars h free := funext value
  have nothing : ReadsOnly (d.value · f) fun _ => False := by
    rw [same]
    exact (Quantifier.ex.readsOnly_overVars reads free).mono fun v facts => facts.2 facts.1
  obtain ⟨b, rfl⟩ := valid.eq_const holds nothing
  refine ⟨b, rfl, ?_⟩
  have here := value fun _ => false
  rw [value_const] at here
  rw [here, Quantifier.overVars_ex_of_readsOnly reads]
  simp only [closed]

theorem not_entangled_nil (blocks : c.blocks = []) : ¬ Entangled c g := by
  rintro ⟨block, rest, split, _⟩
  simp [blocks] at split

theorem entangled_cons_iff (blocks : c.blocks = block :: rest) :
    Entangled c g ↔ block.quantifier = .all ∧
      ∃ v : Nat, c.quantifierOf? (v : Literal) = none ∧ ¬ Ignores (Block.close g rest) v := by
  constructor
  · rintro ⟨other, more, split, facts⟩
    obtain ⟨rfl, rfl⟩ := List.cons.inj (blocks.symm.trans split)
    exact facts
  · intro facts
    exact ⟨block, rest, blocks, facts⟩

theorem remains_of_no_free (valid : d.Valid) (holds : d.Holds f)
    (value : ∀ σ, d.value σ f = Block.close g c.blocks.tail σ)
    (none : freeVariables c d f = []) : Remains c g d f ∧ ¬ Entangled c g := by
  have same : (d.value · f) = Block.close g c.blocks.tail := funext value
  cases blocks : c.blocks with
  | nil =>
    refine ⟨⟨holds, .inl ⟨.inl blocks, ?_⟩⟩, not_entangled_nil blocks⟩
    have reads : ReadsOnly (d.value · f) (· ∈ ([] : List Nat)) :=
      (readsOnly_blocks_or_free (c := c) valid holds).mono (by simp [blocks, none])
    refine settles_of_overVars valid holds reads (fun σ => rfl) fun τ => ?_
    rw [value, blocks]
    rfl
  | cons block rest =>
    have free : ¬ Entangled c g := by
      rw [entangled_cons_iff blocks]
      rintro ⟨_, v, absent, looks⟩
      rw [blocks, List.tail_cons] at same
      have listed := (mem_freeVariables_iff valid holds).mpr ⟨same ▸ looks, absent⟩
      simp [none] at listed
    exact ⟨⟨holds, .inr ⟨block, rest, blocks, free, by simpa [blocks] using value⟩⟩, free⟩

/-- The formula with everything but the free variables quantified looks at these only. -/
theorem readsOnly_close_free (valid : d.Valid) (holds : d.Holds f)
    (blocks : c.blocks = block :: rest)
    (value : ∀ σ, d.value σ f = Block.close g rest σ) :
    ReadsOnly (Block.close g c.blocks) (· ∈ freeVariables c d f) := by
  have same : (d.value · f) = Block.close g rest := funext value
  have outside := block.quantifier.readsOnly_overVars
    (readsOnly_blocks_or_free (c := c) valid holds) block.vars
  have listed : ∀ v ∈ c.blocks.flatMap (·.vars), Ignores (Block.close g c.blocks) v := by
    intro v member
    obtain ⟨other, present, inside⟩ := List.mem_flatMap.mp member
    exact Block.ignores_close_of_mem g present inside
  rw [same] at outside
  have closed : block.quantifier.overVars (Block.close g rest) block.vars =
      Block.close g c.blocks := by rw [blocks]; rfl
  rw [closed] at outside
  refine (outside.of_ignores_list listed).mono ?_
  rintro v ⟨⟨⟨other, present, inside⟩ | free, _⟩, absent⟩
  · exact absurd (List.mem_flatMap.mpr ⟨other, present, inside⟩) absent
  · exact free

/-- Free variables and a universal outermost block are quantified together. -/
theorem works_quantifyAll (valid : s.diagram.Valid) (holds : s.diagram.Holds f)
    (kept : s.diagram = d) (blocks : c.blocks = block :: rest)
    (universal : block.quantifier = .all)
    (value : ∀ σ, s.diagram.value σ f = Block.close g rest σ) :
    Works Extends (do
        let f' ← onDiagram (Diagram.abstract .all (block.vars.map Int.ofNat) f)
        let r ← onDiagram (Diagram.abstract .ex ((freeVariables c d f).map Int.ofNat) f')
        noteSize
        return r) s fun r t => t.diagram.Holds r ∧ Settles c g r := by
  subst kept
  have reads := readsOnly_close_free valid holds blocks value
  refine Works.bind frame_extends
    (works_onDiagram (builds_abstract valid holds .all (block.vars.map Int.ofNat))) ?_
  rintro h t extended ⟨holdsH, valueH⟩
  have closed (σ : Assignment) : t.diagram.value σ h = Block.close g c.blocks σ := by
    have same : (s.diagram.value · f) = Block.close g rest := funext value
    rw [valueH, natAbs_map_ofNat, same, blocks, Block.close, universal]
  have same : (t.diagram.value · h) = Block.close g c.blocks := funext closed
  refine (works_quantifyFree extended.valid holdsH _).mono ?_
  rintro r u later ⟨holdsR, valueR⟩
  exact ⟨holdsR, settles_of_overVars later.valid holdsR (same ▸ reads) valueR closed⟩

theorem remains_of_quantified (valid : s.diagram.Valid) (holds : s.diagram.Holds f)
    (blocks : c.blocks = []) (value : ∀ σ, s.diagram.value σ f = g σ) (validLater : d.Valid)
    {r : Handle} (holdsR : d.Holds r)
    (valueR : ∀ σ, d.value σ r =
      Quantifier.ex.overVars (s.diagram.value · f) (freeVariables c s.diagram f) σ) :
    Remains c g d r := by
  refine ⟨holdsR, .inl ⟨.inl blocks, settles_of_overVars validLater holdsR ?_ valueR fun τ => ?_⟩⟩
  · refine (readsOnly_blocks_or_free (c := c) valid holds).mono ?_
    simp [blocks]
  · rw [value, blocks]
    rfl

/-- A universal outermost block is quantified with the free variables, which is noted. -/
theorem works_closeUniversal (valid : s.diagram.Valid) (holds : s.diagram.Holds f)
    (blocks : c.blocks = block :: rest) (entangled : Entangled c g)
    (value : ∀ σ, s.diagram.value σ f = Block.close g rest σ) :
    Works (Closes (Entangled c g)) (do
        modify fun s => { s with outerAbstracted := true }
        countBlock
        let f' ← onDiagram (Diagram.abstract .all (block.vars.map Int.ofNat) f)
        let r ← onDiagram (Diagram.abstract .ex ((freeVariables c s.diagram f).map Int.ofNat) f')
        noteSize
        return r) s fun r t => Remains c g t.diagram r ∧ t.outerAbstracted = true := by
  have universal := ((entangled_cons_iff blocks).mp entangled).1
  have noted : Closes (Entangled c g) s { s with outerAbstracted := true } :=
    ⟨rfl, rfl, rfl, rfl, rfl, valid, .refl _, fun _ => .inr entangled⟩
  refine Works.bind (frame_closes _) (works_modify noted) ?_
  rintro _ t _ rfl
  refine Works.bind (frame_closes _)
    ((works_count (s := { s with outerAbstracted := true }) valid _).closes _) ?_
  rintro _ t _ ⟨counted, kept⟩
  rw [← kept] at holds value
  refine ((works_quantifyAll counted.valid holds kept blocks universal value).closes _).mono ?_
  rintro r u _ ⟨later, holdsR, settled⟩
  exact ⟨⟨holdsR, .inl ⟨.inr entangled, settled⟩⟩, by rw [later.outer_eq, counted.outer_eq]⟩

theorem works_closeFree (valid : s.diagram.Valid) (circuit : s.circuit = c)
    (holds : s.diagram.Holds f)
    (value : ∀ σ, s.diagram.value σ f = Block.close g c.blocks.tail σ) :
    Works (Closes (Entangled c g)) (closeFree f) s fun r t => Remains c g t.diagram r ∧
      (t.outerAbstracted = true ↔ s.outerAbstracted = true ∨ Entangled c g) := by
  unfold closeFree
  refine works_get (works_get ?_)
  simp only [circuit]
  split
  · rename_i empty
    obtain ⟨remains, free⟩ := remains_of_no_free valid holds value (List.isEmpty_iff.mp empty)
    exact works_pure ((Extends.refl valid).closes _) ⟨remains, by simp [free]⟩
  · rename_i nonempty
    have some : freeVariables c s.diagram f ≠ [] := fun none => nonempty (by rw [none]; rfl)
    obtain ⟨v, listed⟩ := List.exists_mem_of_ne_nil _ some
    obtain ⟨looks, absent⟩ := (mem_freeVariables_iff valid holds).mp listed
    cases blocks : c.blocks with
    | nil =>
      simp only [List.head?_nil]
      rw [blocks] at value
      refine ((works_quantifyFree valid holds _).closes _).mono ?_
      rintro r t _ ⟨extended, holdsR, valueR⟩
      have free := not_entangled_nil (g := g) blocks
      exact ⟨remains_of_quantified valid holds blocks value extended.valid holdsR valueR,
        by simp [free, extended.outer_eq]⟩
    | cons block rest =>
      simp only [List.head?_cons]
      rw [blocks, List.tail_cons] at value
      split
      · rename_i existential
        have free : ¬ Entangled c g := by simp [entangled_cons_iff blocks, existential]
        exact works_pure ((Extends.refl valid).closes _)
          ⟨⟨holds, .inr ⟨block, rest, blocks, free, value⟩⟩, by simp [free]⟩
      · rename_i notExistential
        have universal : block.quantifier = .all := by
          cases kind : block.quantifier with
          | all => rfl
          | ex => exact absurd kind notExistential
        have same : (s.diagram.value · f) = Block.close g rest := funext value
        have entangled : Entangled c g :=
          (entangled_cons_iff blocks).mpr ⟨universal, v, absent, same ▸ looks⟩
        refine (works_closeUniversal valid holds blocks entangled value).mono ?_
        rintro r t _ ⟨remains, noted⟩
        exact ⟨remains, by simp [entangled, noted]⟩

end Solver

end QuantCircuit
