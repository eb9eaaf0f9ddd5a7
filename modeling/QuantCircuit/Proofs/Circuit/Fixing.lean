import Mathlib.Data.List.Perm.Subperm
import QuantCircuit.Proofs.Circuit.Truth

/-! Fixing variables of the output's function, one after the other, each to a value that
its quantifier prefers. The truth of the formula stays the same, and the values chosen
for variables of the outermost block are good choices. -/

namespace QuantCircuit

abbrev Choices := Nat → Option Bool

namespace Choices

def none : Choices := fun _ => Option.none

def insert (choices : Choices) (v : Nat) (value : Bool) : Choices :=
  fun w => if w = v then some value else choices w

/-- The values in a list, the latest first. -/
def ofList : List (Nat × Bool) → Choices
  | [] => none
  | (v, value) :: earlier => (ofList earlier).insert v value

def within (choices : Choices) (vars : List Nat) : Choices :=
  fun v => if v ∈ vars then choices v else Option.none

theorem ofList_of_not_mem {made : List (Nat × Bool)} (absent : v ∉ made.map (·.1)) :
    ofList made v = Option.none := by
  induction made with
  | nil => rfl
  | cons entry earlier ih =>
    rw [List.map_cons, List.mem_cons, not_or] at absent
    rw [ofList, insert, if_neg absent.1, ih absent.2]

theorem mem_of_ofList {made : List (Nat × Bool)} (listed : ofList made v = some value) :
    (v, value) ∈ made := by
  induction made with
  | nil => simp [ofList, none] at listed
  | cons entry earlier ih =>
    rw [ofList, insert] at listed
    split at listed
    · rename_i same
      simp [same, ← Option.some.inj listed]
    · exact List.mem_cons_of_mem _ (ih listed)

@[simp] theorem within_none (vars : List Nat) : none.within vars = none := by
  funext v
  simp [within, none]

theorem within_insert_of_not_mem (choices : Choices) (outside : v ∉ vars) (value : Bool) :
    (choices.insert v value).within vars = choices.within vars := by
  funext w
  by_cases member : w ∈ vars
  · have different : w ≠ v := fun same => outside (same ▸ member)
    simp [within, insert, member, different]
  · simp [within, member]

end Choices

namespace Assignment

/-- The assignment with the chosen values instead. -/
def fix (σ : Assignment) (choices : Choices) : Assignment :=
  fun v => (choices v).getD (σ v)

@[simp] theorem fix_none (σ : Assignment) : σ.fix .none = σ := rfl

theorem fix_within_of_mem (σ : Assignment) (choices : Choices) (member : v ∈ vars) :
    σ.fix (choices.within vars) v = (choices v).getD (σ v) := by
  simp [fix, Choices.within, member]

theorem fix_within_of_not_mem (σ : Assignment) (choices : Choices) (outside : v ∉ vars) :
    σ.fix (choices.within vars) v = σ v := by
  simp [fix, Choices.within, outside]

theorem fix_set (σ : Assignment) {choices : Choices} (open_ : choices v = none) (value : Bool) :
    (σ.set v value).fix choices = (σ.fix choices).set v value := by
  funext w
  by_cases same : w = v
  · subst w
    simp [fix, open_]
  · simp [fix, same]

theorem fix_within_insert (σ : Assignment) {choices : Choices} (fresh : choices v = none)
    (member : v ∈ vars) (value : Bool) :
    σ.fix ((choices.insert v value).within vars) = (σ.set v value).fix (choices.within vars) := by
  funext w
  by_cases listed : w ∈ vars
  · rw [fix_within_of_mem _ _ listed, fix_within_of_mem _ _ listed]
    by_cases same : w = v
    · subst w
      simp [Choices.insert, fresh]
    · simp [Choices.insert, same]
  · have different : w ≠ v := fun same => listed (same ▸ member)
    rw [fix_within_of_not_mem _ _ listed, fix_within_of_not_mem _ _ listed, set_other _ _ different]

end Assignment

theorem Quantifier.overVars_fix (q : Quantifier) (p : Assignment → Bool) {choices : Choices}
    (open_ : ∀ v ∈ vars, choices v = none) (σ : Assignment) :
    q.overVars p vars (σ.fix choices) = q.overVars (fun τ => p (τ.fix choices)) vars σ := by
  induction vars generalizing σ with
  | nil => rfl
  | cons v rest ih =>
    have moved (value : Bool) : (σ.fix choices).set v value = (σ.set v value).fix choices :=
      (Assignment.fix_set σ (open_ v (by simp)) value).symm
    simp only [overVars, moved, ih fun w member => open_ w (by simp [member])]

theorem Block.close_fix (p : Assignment → Bool) {choices : Choices} (blocks : List Block)
    (open_ : ∀ block ∈ blocks, ∀ v ∈ block.vars, choices v = none) (σ : Assignment) :
    close p blocks (σ.fix choices) = close (fun τ => p (τ.fix choices)) blocks σ := by
  induction blocks generalizing σ with
  | nil => rfl
  | cons block rest ih =>
    have inner : (fun τ : Assignment => close p rest (τ.fix choices)) =
        close (fun τ => p (τ.fix choices)) rest :=
      funext fun τ => ih (fun other member => open_ other (by simp [member])) τ
    rw [close, block.quantifier.overVars_fix _ (open_ block (by simp)), inner, close]

/-- Fixing another variable keeps a preference. -/
theorem Prefers.comp_set (prefers : Prefers q f v value) (different : v ≠ w) (other : Bool) :
    Prefers q (fun σ => f (σ.set w other)) v value := by
  intro σ reached
  simp only [Assignment.set_comm σ value other different]
  exact prefers _ reached

theorem ignores_set (f : Assignment → Bool) (v : Nat) (value : Bool) :
    Ignores (fun σ => f (σ.set v value)) v := by
  intro σ other
  simp

theorem ReadsOnly.comp_set (reads : ReadsOnly f relevant) (v : Nat) (value : Bool) :
    ReadsOnly (fun σ => f (σ.set v value)) relevant := by
  intro σ τ agree
  apply reads
  intro w isRelevant
  by_cases same : w = v
  · subst w; simp
  · simp [same, agree w isRelevant]

namespace Circuit

variable {c : Circuit} {f g : Assignment → Bool} {choices : Choices} {v : Nat}

/-- The choices for the outermost block keep the value that its quantifier wants. -/
def Harmless (c : Circuit) (f : Assignment → Bool) (choices : Choices) : Prop :=
  ∀ block rest, c.blocks = block :: rest → ∀ σ : Assignment,
    Block.close f rest σ = block.quantifier.decisive →
      Block.close f rest (σ.fix (choices.within block.vars)) = block.quantifier.decisive

theorem harmless_none (c : Circuit) (f : Assignment → Bool) : c.Harmless f .none := by
  intro block rest _ σ reached
  rwa [Choices.within_none, Assignment.fix_none]

/-- The second function is the first one with the choices made, as far as the truth and
the choices for the outermost block are concerned. -/
structure Narrows (c : Circuit) (f g : Assignment → Bool) (choices : Choices) : Prop where
  reads : ReadsOnly g fun v => 0 < v ∧ v < c.maxVar
  close_eq : Block.close g c.blocks = Block.close f c.blocks
  blind : ∀ v value, choices v = some value → Ignores g v
  chosen : ∀ block rest, c.blocks = block :: rest → ∀ σ : Assignment,
    Block.close g rest σ = Block.close f rest (σ.fix (choices.within block.vars))
  keeps : ∀ block rest, c.blocks = block :: rest → ∀ σ,
    Block.close f rest σ = block.quantifier.decisive →
      Block.close g rest σ = block.quantifier.decisive

theorem narrows_self (reads : ReadsOnly f fun v => 0 < v ∧ v < c.maxVar) :
    c.Narrows f f .none where
  reads := reads
  close_eq := rfl
  blind := by simp [Choices.none]
  chosen := by
    intro block rest _ σ
    rw [Choices.within_none, Assignment.fix_none]
  keeps := fun _ _ _ _ reached => reached

theorem Narrows.congr {h : Assignment → Bool} (narrows : c.Narrows f g choices)
    (same : ∀ σ, h σ = g σ) : c.Narrows f h choices := by
  have equal : h = g := funext same
  rwa [equal]

/-- One more variable may be fixed to a value that its quantifier prefers. -/
theorem Narrows.insert (narrows : c.Narrows f g choices) (valid : c.WellFormed)
    (found : c.quantifierOf? (v : Literal) = some q) (prefers : Prefers q g v value)
    (fresh : choices v = none) :
    c.Narrows f (fun σ => g (σ.set v value)) (choices.insert v value) := by
  obtain ⟨before, own, after, split, rfl, member, absentBefore, absentAfter⟩ :=
    exists_block valid found
  refine ⟨narrows.reads.comp_set v value, ?_, ?_, ?_, ?_⟩
  · rw [← narrows.close_eq, split]
    exact prefers.close_eq member before after absentAfter
  · intro w other made
    by_cases same : w = v
    · exact same ▸ ignores_set g v value
    · simp only [Choices.insert, same, ↓reduceIte] at made
      exact (narrows.blind w other made).comp_set v value
  all_goals
    intro block rest blocks σ
    rw [split] at blocks
  · cases before with
    | nil =>
      obtain ⟨rfl, rfl⟩ := List.cons.inj blocks
      rw [← Block.close_set g after absentAfter, narrows.chosen own after split,
        Assignment.fix_within_insert σ fresh member]
    | cons first between =>
      rw [List.cons_append] at blocks split
      obtain ⟨rfl, rfl⟩ := List.cons.inj blocks
      rw [prefers.close_eq member between after absentAfter,
        Choices.within_insert_of_not_mem choices (absentBefore first (by simp))]
      exact narrows.chosen first _ split σ
  · intro reached
    cases before with
    | nil =>
      obtain ⟨rfl, rfl⟩ := List.cons.inj blocks
      rw [← Block.close_set g after absentAfter]
      exact prefers.close after absentAfter σ (narrows.keeps own after split σ reached)
    | cons first between =>
      rw [List.cons_append] at blocks split
      obtain ⟨rfl, rfl⟩ := List.cons.inj blocks
      rw [prefers.close_eq member between after absentAfter]
      exact narrows.keeps first _ split σ reached

/-- Variables that the function looks at are fixed one after the other, each once and to a
value that its quantifier prefers by then. The latest one is listed first. -/
inductive Fixes (c : Circuit) (f : Assignment → Bool) :
    List (Nat × Bool) → (Assignment → Bool) → Prop where
  | start : Fixes c f [] f
  | fix {made : List (Nat × Bool)} {g : Assignment → Bool} {v : Nat} {q : Quantifier} {value : Bool}
      (earlier : Fixes c f made g) (found : c.quantifierOf? (v : Literal) = some q)
      (prefers : Prefers q g v value) (looks : ¬ Ignores f v) (fresh : v ∉ made.map (·.1)) :
      Fixes c f ((v, value) :: made) fun σ => g (σ.set v value)

section Fixes

variable {made : List (Nat × Bool)}

theorem Fixes.congr {h : Assignment → Bool} (fixes : c.Fixes f made g) (same : ∀ σ, h σ = g σ) :
    c.Fixes f made h := by
  have equal : h = g := funext same
  rwa [equal]

theorem Fixes.ignores (fixes : c.Fixes f made g) (ignored : Ignores f v) : Ignores g v := by
  induction fixes with
  | start => exact ignored
  | fix _ _ _ _ _ ih => exact ih.comp_set _ _

theorem Fixes.blind (fixes : c.Fixes f made g) (member : v ∈ made.map (·.1)) : Ignores g v := by
  induction fixes with
  | start => simp at member
  | @fix made g w q value _ _ _ _ _ ih =>
    by_cases same : v = w
    · exact same ▸ ignores_set g w value
    · exact (ih (by simpa [same] using member)).comp_set w value

theorem Fixes.looks (fixes : c.Fixes f made g) (member : v ∈ made.map (·.1)) : ¬ Ignores f v := by
  induction fixes with
  | start => simp at member
  | fix _ _ _ looks _ ih =>
    rcases List.mem_cons.mp member with rfl | before
    · exact looks
    · exact ih before

theorem Fixes.nodup (fixes : c.Fixes f made g) : (made.map (·.1)).Nodup := by
  induction fixes with
  | start => exact List.nodup_nil
  | fix _ _ _ _ fresh ih => exact List.nodup_cons.mpr ⟨fresh, ih⟩

theorem Fixes.trans {h : Assignment → Bool} {more : List (Nat × Bool)} (first : c.Fixes f made g)
    (second : c.Fixes g more h) : c.Fixes f (more ++ made) h := by
  induction second with
  | start => exact first
  | fix _ found prefers looks fresh ih =>
    refine ih.fix found prefers (fun ignored => looks (first.ignores ignored)) ?_
    rw [List.map_append, List.mem_append, not_or]
    exact ⟨fresh, fun before => looks (first.blind before)⟩

theorem Fixes.quantified (fixes : c.Fixes f made g) (valid : c.WellFormed)
    (member : v ∈ made.map (·.1)) : v ∈ c.blocks.flatMap (·.vars) := by
  induction fixes with
  | start => simp at member
  | fix _ found _ _ _ ih =>
    rcases List.mem_cons.mp member with rfl | before
    · obtain ⟨_, block, _, split, _, inside, _⟩ := exists_block valid found
      exact List.mem_flatMap.mpr ⟨block, by simp [split], inside⟩
    · exact ih before

/-- No more is fixed than there are variables in blocks. -/
theorem Fixes.length_le (fixes : c.Fixes f made g) (valid : c.WellFormed) :
    made.length ≤ (c.blocks.flatMap (·.vars)).length := by
  have included := List.subperm_of_subset fixes.nodup fun v member => fixes.quantified valid member
  simpa using included.length_le

theorem Narrows.fixes {h : Assignment → Bool} (narrows : c.Narrows f g choices)
    (fixes : c.Fixes g made h) (valid : c.WellFormed) :
    ∃ all, c.Narrows f h all ∧ ∀ v, all v = (Choices.ofList made v).or (choices v) := by
  induction fixes with
  | start => exact ⟨choices, narrows, fun v => rfl⟩
  | @fix made h v q value _ found prefers looks fresh ih =>
    obtain ⟨all, narrowed, layered⟩ := ih
    have open_ : choices v = none := by
      cases earlier : choices v with
      | none => rfl
      | some other => exact absurd (narrows.blind v other earlier) looks
    have untouched : all v = none := by
      rw [layered, Choices.ofList_of_not_mem fresh, open_]
      rfl
    refine ⟨all.insert v value, narrowed.insert valid found prefers untouched, fun w => ?_⟩
    rw [Choices.ofList, Choices.insert, Choices.insert, layered]
    split <;> rfl

/-- The function with some variables fixed has the same value as before, with all blocks
quantified; and with all blocks but the first one, wherever the first block's variables have
the values they were fixed to. -/
theorem Fixes.close_eq (fixes : c.Fixes f made g) (valid : c.WellFormed)
    (reads : ReadsOnly f fun v => 0 < v ∧ v < c.maxVar) :
    Block.close g c.blocks = Block.close f c.blocks ∧
      ∀ block rest, c.blocks = block :: rest → ∀ σ : Assignment,
        (∀ entry ∈ made, entry.1 ∈ block.vars → σ entry.1 = entry.2) →
          Block.close g rest σ = Block.close f rest σ := by
  obtain ⟨all, narrows, layered⟩ := (narrows_self reads).fixes fixes valid
  refine ⟨narrows.close_eq, fun block rest blocks σ agree => ?_⟩
  rw [narrows.chosen block rest blocks]
  congr 1
  funext v
  by_cases member : v ∈ block.vars
  · rw [Assignment.fix_within_of_mem _ _ member, layered, Choices.none, Option.or_none]
    cases listed : Choices.ofList made v with
    | none => rfl
    | some value => exact (agree (v, value) (Choices.mem_of_ofList listed) member).symm
  · exact Assignment.fix_within_of_not_mem _ _ member

end Fixes

/-- The choices made on the way to a function, on top of harmless ones made before,
turn whatever makes the function take the wanted value into a good assignment. -/
theorem Narrows.lift (narrows : c.Narrows f g choices) {stale all : Choices}
    (harmless : c.Harmless f stale) (layered : ∀ v, all v = (choices v).or (stale v))
    (blocks : c.blocks = block :: rest) {σ : Assignment}
    (reached : Block.close g rest σ = block.quantifier.decisive) :
    Block.close f rest (σ.fix (all.within block.vars)) = block.quantifier.decisive := by
  have chosen := narrows.chosen block rest blocks
  rw [chosen σ] at reached
  have moved := narrows.keeps block rest blocks _ (harmless block rest blocks _ reached)
  rw [chosen] at moved
  have same : ((σ.fix (choices.within block.vars)).fix (stale.within block.vars)).fix
      (choices.within block.vars) = σ.fix (all.within block.vars) := by
    funext v
    by_cases member : v ∈ block.vars
    · simp only [Assignment.fix_within_of_mem _ _ member, layered]
      cases choices v <;> cases stale v <;> rfl
    · simp only [Assignment.fix_within_of_not_mem _ _ member]
  rwa [same] at moved

theorem Narrows.harmless_over (narrows : c.Narrows f g choices) {stale all : Choices}
    (harmless : c.Harmless f stale) (layered : ∀ v, all v = (choices v).or (stale v)) :
    c.Harmless f all := by
  intro block rest blocks σ reached
  exact narrows.lift harmless layered blocks (narrows.keeps block rest blocks σ reached)

/-- A function to go on with in place of the output's: with the same truth, and with
choices that turn its good assignments of the outermost block into good ones of the
output's function. -/
structure Simplified (c : Circuit) (f g : Assignment → Bool) (choices : Choices) : Prop where
  reads : ReadsOnly g fun v => 0 < v ∧ v < c.maxVar
  close_eq : Block.close g c.blocks = Block.close f c.blocks
  lift : ∀ block rest, c.blocks = block :: rest → ∀ σ : Assignment,
    Block.close g rest σ = block.quantifier.decisive →
      Block.close f rest (σ.fix (choices.within block.vars)) = block.quantifier.decisive

theorem Narrows.simplified (narrows : c.Narrows f g choices) {stale all : Choices}
    (harmless : c.Harmless f stale) (layered : ∀ v, all v = (choices v).or (stale v)) :
    c.Simplified f g all where
  reads := narrows.reads
  close_eq := narrows.close_eq
  lift := fun _ _ blocks _ reached => narrows.lift harmless layered blocks reached

end Circuit

end QuantCircuit
