import QuantCircuit.Proofs.Edit.Developing

namespace QuantCircuit

namespace Circuit

variable {b c m : Circuit} {old id : Nat} {arithmetic : Arithmetic}

theorem Sound.nameOf_mem (sound : c.Sound) (positive : 0 < id) (below : id < c.maxGate) :
    c.nameOf id ∈ c.names := by
  obtain ⟨entry, _, named⟩ :=
    sound.stands.valid.exists_name positive (by rwa [maxGate_unsigned])
  exact Array.mem_of_getElem? named

theorem Sound.nameOf_injective (sound : c.Sound) {i j : Nat} (positiveI : 0 < i)
    (belowI : i < c.maxGate) (positiveJ : 0 < j) (belowJ : j < c.maxGate)
    (same : c.nameOf i = c.nameOf j) : i = j := by
  rw [← maxGate_unsigned] at belowI belowJ
  have labelled : Labelled c.unsigned.names := sound.labelled
  exact labelled.nameOf_injective sound.stands.valid positiveI belowI positiveJ belowJ same

theorem Sound.isName_nameOf (sound : c.Sound) (positive : 0 < id) (below : id < c.maxGate) :
    Qcir.isName (c.nameOf id).toList = true := by
  rw [← maxGate_unsigned] at below
  have labelled : Labelled c.unsigned.names := sound.labelled
  exact labelled.isName_nameOf sound.stands.valid positive below

/-- Where an old name is found, there is what it has stood for. -/
theorem Becomes.remains (becomes : Becomes b c) (sound : b.Sound) (positive : 0 < old)
    (below : old < b.maxGate) (positiveNew : 0 < id) (belowNew : id < c.maxGate)
    (same : c.nameOf id = b.nameOf old) : Remains b.unsigned c.unsigned old id := by
  rcases becomes.keeps.remains id positiveNew (by rwa [maxGate_unsigned]) with
    ⟨other, positiveOther, belowOther, remains⟩ | ⟨_, fresh⟩
  · rw [maxGate_unsigned] at belowOther
    have equal : b.nameOf other = b.nameOf old := remains.nameOf_eq.symm.trans same
    exact sound.nameOf_injective positiveOther belowOther positive below equal ▸ remains
  · exact absurd (sound.nameOf_mem positive below) (same ▸ fresh)

theorem Becomes.exists_variable (becomes : Becomes b c) (positive : 0 < id)
    (small : id < c.maxVar) : ∃ v : Nat, 0 < v ∧ v < b.maxVar ∧ c.nameOf id = b.nameOf v := by
  have below : id < c.unsigned.maxGate := Nat.lt_of_lt_of_le small (Nat.le_add_right ..)
  rcases becomes.keeps.remains id positive below with ⟨v, known, _, remains⟩ | ⟨large, _⟩
  · exact ⟨v, known, remains.lt_maxVar_iff.mp small, remains.nameOf_eq⟩
  · exact absurd small (Nat.not_lt.mpr large)

theorem Remains.quantifier (remains : Remains b.unsigned c.unsigned old id) (sound : b.Sound)
    (later : c.Sound) {q : Quantifier} (found : c.quantifierOf? (id : Literal) = some q) :
    b.quantifierOf? (old : Literal) = some q := by
  obtain ⟨block, present, member, rfl⟩ :=
    (quantifierOf?_eq_some_iff (c := c.unsigned) later.stands.valid).mp found
  exact (quantifierOf?_eq_some_iff (c := b.unsigned) sound.stands.valid).mpr
    (remains.block block present member)

theorem Remains.denotes (remains : Remains b.unsigned c.unsigned old id) (χ : String → Bool) :
    c.interpretation id (fun v => χ (c.nameOf v)) =
      b.interpretation old fun v => χ (b.nameOf v) := by
  have same := remains.interpretation_eq χ
  rwa [interpretation_unsigned, interpretation_unsigned] at same

theorem afterOperations_append (c : Circuit) (first rest : List Operation) :
    c.afterOperations (first ++ rest) = (c.afterOperations first).afterOperations rest :=
  List.foldl_append

theorem Sound.nameOf_addGate (sound : c.Sound) {gate : Gate}
    (added : Edit.addGate arithmetic gate c = (.ok id, m)) : m.nameOf id = c.freshName := by
  cases computed : c.addGate gate arithmetic with
  | error e =>
    rw [(enacts_addGate c arithmetic gate).of_error computed] at added
    exact absurd (congrArg Prod.fst added) (by simp)
  | ok p =>
    rw [(enacts_addGate c arithmetic gate).of_ok computed] at added
    obtain ⟨same, rfl⟩ := Prod.mk.inj added
    obtain ⟨_, number, made⟩ := of_addNamedGate computed
    have named : (c.append gate c.freshName).nameOf c.unsigned.maxGate = c.freshName :=
      nameOf_pushed_last sound.stands.valid rfl rfl
    rw [maxGate_unsigned, ← number, Except.ok.inj same, ← made] at named
    exact named

theorem Becomes.fresh (becomes : Becomes b c) {gate : Gate}
    (added : Edit.addGate arithmetic gate c = (.ok id, m)) : m.nameOf id ∉ b.names := by
  rw [becomes.sound.nameOf_addGate added]
  exact fun given => c.freshName_not_mem (becomes.keeps.mem_names given)

end Circuit

namespace Qcir

open Circuit

variable {text name : String} {c : Circuit} {operations : List Operation}

theorem sound_of_read (accepted : read text name = .ok c) : c.Sound := by
  have untouched : ([] : List Pass).foldlM (fun c pass => pass.apply c) c = .ok c := rfl
  obtain ⟨stands, legible⟩ := stands_and_legible accepted untouched
  exact ⟨(unsigned_eq_self stands.valid).symm ▸ stands, legible.names⟩

/-- Names stay unique and go on standing for the same. A circuit has been read, and then
passes have been carried out on it, gates added and outputs set, with success or without. Its
identifiers have different names, and all of them can be read. The name of a variable that was
read belongs to no other identifier than this variable: the quantifier of its block is the one
that was read, and no variable has another name. In the same way a name of any circuit in
between still denotes the same function of named variables, and a gate that is added next gets
a name that no identifier has had at any time. -/
theorem names_last (accepted : read text name = .ok c)
    (unnamed : ∀ operation ∈ operations, operation.Unnamed) :
    let m := c.afterOperations operations
    (∀ i j : Nat, 0 < i → i < m.maxGate → 0 < j → j < m.maxGate →
        m.nameOf i = m.nameOf j → i = j) ∧
      (∀ i : Nat, 0 < i → i < m.maxGate → isName (m.nameOf i).toList = true) ∧
      (∀ v i : Nat, 0 < v → v < c.maxVar → 0 < i → i < m.maxGate → m.nameOf i = c.nameOf v →
        i < m.maxVar ∧ ∀ q, m.quantifierOf? i = some q → c.quantifierOf? v = some q) ∧
      (∀ i : Nat, 0 < i → i < m.maxVar →
        ∃ v : Nat, 0 < v ∧ v < c.maxVar ∧ m.nameOf i = c.nameOf v) ∧
      ∀ earlier, earlier <+: operations →
        let before := c.afterOperations earlier
        before.names.toList <+: m.names.toList ∧
          (∀ i j : Nat, 0 < i → i < before.maxGate → 0 < j → j < m.maxGate →
            m.nameOf j = before.nameOf i → (j < m.maxVar ↔ i < before.maxVar) ∧
              ∀ χ : String → Bool, m.interpretation j (fun v => χ (m.nameOf v)) =
                before.interpretation i fun v => χ (before.nameOf v)) ∧
          ∀ arithmetic gate id more, Edit.addGate arithmetic gate m = (.ok id, more) →
            more.nameOf id ∉ before.names ∧
              ∀ i : Nat, 0 < i → i < before.maxGate → more.nameOf id ≠ before.nameOf i := by
  intro m
  have sound : c.Sound := sound_of_read accepted
  have becomes : Becomes c m := (Becomes.refl sound).afterOperations unnamed
  refine ⟨fun i j positiveI belowI positiveJ belowJ => ?_, fun i => becomes.sound.isName_nameOf,
    fun v i positiveV smallV positive below same => ?_, fun i => becomes.exists_variable, ?_⟩
  · exact becomes.sound.nameOf_injective positiveI belowI positiveJ belowJ
  · have belowV : v < c.maxGate := Nat.lt_of_lt_of_le smallV (Nat.le_add_right ..)
    have remains := becomes.remains sound positiveV belowV positive below same
    exact ⟨remains.lt_maxVar_iff.mpr smallV, fun q => remains.quantifier sound becomes.sound⟩
  · rintro earlier ⟨rest, rfl⟩ before
    obtain ⟨unnamedFirst, unnamedRest⟩ := List.forall_mem_append.mp unnamed
    have start : before.Sound := ((Becomes.refl sound).afterOperations unnamedFirst).sound
    have later : Becomes before m := by
      rw [show m = before.afterOperations rest from afterOperations_append c earlier rest]
      exact (Becomes.refl start).afterOperations unnamedRest
    refine ⟨later.keeps.names, fun i j positiveI belowI positiveJ belowJ same => ?_,
      fun arithmetic gate id more added => ⟨later.fresh added, fun i positive below same => ?_⟩⟩
    · have remains := later.remains start positiveI belowI positiveJ belowJ same
      exact ⟨remains.lt_maxVar_iff, remains.denotes⟩
    · exact later.fresh added (same ▸ start.nameOf_mem positive below)

/-- Two variables have the names that come first for a new gate. -/
def clashing : Circuit where
  name := "clashing"
  maxVar := 4
  blocks := [⟨.ex, [1, 2]⟩, ⟨.all, [3]⟩]
  gates := #[{ connective := .and, inputs := [3, 1] }, { connective := .or, inputs := [2, 3] }]
  output? := some 5
  names := #["", "g6", "g6_1", "a", "h", "k"]
  origin := #[0, 1, 2, 3, 4, 5]

/-- The gate that is added, a variable and a gate are dropped again. -/
def droppingOperations : List Operation :=
  [.addGate { connective := .and, inputs := [1, -3] }, .rewrite .cleanup]

theorem clashing_names_last :
    let m := clashing.afterOperations droppingOperations
    (clashing.afterOperations (droppingOperations.take 1)).nameOf 6 = "g6_2" ∧
      m.maxGate = 4 ∧ m.nameOf 1 = "g6_1" ∧ m.quantifierOf? 1 = clashing.quantifierOf? 2 ∧
      m.nameOf 2 ≠ m.nameOf 3 ∧
      ∃ more, Edit.addGate .checked { connective := .or, inputs := [1, 2] } m = (.ok 4, more) ∧
        more.nameOf 4 ≠ "g6_2" := by
  have accepted : read "exists(g6, g6_1)\nforall(a)\noutput(k)\nh = and(a, g6)\nk = or(g6_1, a)\n"
      "clashing" = .ok clashing := by decide +kernel
  have name : (clashing.afterOperations (droppingOperations.take 1)).nameOf 6 = "g6_2" := by
    decide +kernel
  have size : (clashing.afterOperations droppingOperations).maxGate = 4 := by decide +kernel
  have unnamed : ∀ operation ∈ droppingOperations, operation.Unnamed := by
    simp [droppingOperations, Operation.Unnamed]
  have added : (Edit.addGate .checked { connective := .or, inputs := [1, 2] }
      (clashing.afterOperations droppingOperations)).1 = .ok 4 := by decide +kernel
  obtain ⟨unique, _, variables_, _, history⟩ := names_last accepted unnamed
  obtain ⟨_, _, fresh⟩ := history (droppingOperations.take 1) (List.take_prefix ..)
  refine ⟨name, size, by decide +kernel, ?_, fun same => ?_, _, run_eq_ok added, ?_⟩
  · have found : (clashing.afterOperations droppingOperations).quantifierOf? 1 = some .ex := by
      decide +kernel
    rw [found]
    exact ((variables_ 2 1 (by decide) (by decide) (by decide) (by rw [size]; decide)
      (by decide +kernel)).2 .ex found).symm
  · exact absurd (unique 2 3 (by decide) (by rw [size]; decide) (by decide)
      (by rw [size]; decide) same) (by decide)
  · exact name ▸ (fresh _ _ 4 _ (run_eq_ok added)).2 6 (by decide) (by decide +kernel)

end Qcir

end QuantCircuit
