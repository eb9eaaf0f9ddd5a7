import QuantCircuit.Proofs.Circuit.Flattening
import QuantCircuit.Proofs.Circuit.Naming
import QuantCircuit.Proofs.Circuit.Renumbering

namespace QuantCircuit.Circuit

variable {c m t : Circuit} {gate : Gate} {n : Numbering} {old id : Nat}

/-- An identifier of the second circuit is what one of the first has become: it has the name,
is of the same kind, stands under the same quantifier if it stands in a block at all, and
denotes the same function of the named variables. -/
structure Remains (c m : Circuit) (old id : Nat) : Prop where
  nameOf_eq : m.nameOf id = c.nameOf old
  lt_maxVar_iff : id < m.maxVar ↔ old < c.maxVar
  block : ∀ block ∈ m.blocks, id ∈ block.vars →
    ∃ before ∈ c.blocks, old ∈ before.vars ∧ before.quantifier = block.quantifier
  interpretation_eq : ∀ χ : String → Bool,
    m.interpretation id (fun v => χ (m.nameOf v)) = c.interpretation old fun v => χ (c.nameOf v)

theorem Remains.trans {last : Nat} (first : Remains c m old id) (second : Remains m t id last) :
    Remains c t old last where
  nameOf_eq := second.nameOf_eq.trans first.nameOf_eq
  lt_maxVar_iff := second.lt_maxVar_iff.trans first.lt_maxVar_iff
  block := by
    intro block present member
    obtain ⟨between, inside, listed, same⟩ := second.block block present member
    obtain ⟨before, known, found, equal⟩ := first.block between inside listed
    exact ⟨before, known, found, equal.trans same⟩
  interpretation_eq := fun χ => (second.interpretation_eq χ).trans (first.interpretation_eq χ)

/-- Names are only added, and every identifier either is what an old one has become or is a
gate under a name that has not been given before. -/
structure Keeps (c m : Circuit) : Prop where
  names : c.names.toList <+: m.names.toList
  remains : ∀ id : Nat, 0 < id → id < m.maxGate →
    (∃ old, 0 < old ∧ old < c.maxGate ∧ Remains c m old id) ∨
      m.maxVar ≤ id ∧ m.nameOf id ∉ c.names

theorem Keeps.mem_names (keeps : Keeps c m) {name : String} (given : name ∈ c.names) :
    name ∈ m.names :=
  Array.mem_toList_iff.mp (keeps.names.subset (Array.mem_toList_iff.mpr given))

theorem Keeps.trans (first : Keeps c m) (second : Keeps m t) : Keeps c t where
  names := first.names.trans second.names
  remains := by
    intro id positive below
    rcases second.remains id positive below with ⟨middle, positiveM, belowM, later⟩ | ⟨gate, fresh⟩
    · rcases first.remains middle positiveM belowM with ⟨old, known, inside, earlier⟩ | ⟨gate, fresh⟩
      · exact .inl ⟨old, known, inside, earlier.trans later⟩
      · refine .inr ⟨Nat.le_of_not_lt fun small => ?_, later.nameOf_eq ▸ fresh⟩
        exact Nat.not_lt_of_le gate (later.lt_maxVar_iff.mp small)
    · exact .inr ⟨gate, fun given => fresh (first.mem_names given)⟩

theorem remains_self (valid : c.WellFormed) (positive : 0 < id) (below : id < c.maxGate)
    (maxVar_eq : m.maxVar = c.maxVar)
    (nameOf_eq : ∀ v : Nat, 0 < v → v < c.maxGate → m.nameOf v = c.nameOf v)
    (blocks : ∀ block ∈ m.blocks, ∀ v ∈ block.vars,
      ∃ before ∈ c.blocks, v ∈ before.vars ∧ before.quantifier = block.quantifier)
    (same : m.interpretation id = c.interpretation id) : Remains c m id id where
  nameOf_eq := nameOf_eq id positive below
  lt_maxVar_iff := by rw [maxVar_eq]
  block := fun block present member => blocks block present id member
  interpretation_eq := by
    intro χ
    rw [same]
    refine readsOnly_occurs valid positive below _ _ fun v occurs => ?_
    rw [nameOf_eq v occurs.pos (Nat.lt_of_lt_of_le occurs.lt_maxVar (Nat.le_add_right ..))]

theorem blocks_self (c : Circuit) : ∀ block ∈ c.blocks, ∀ v ∈ block.vars,
    ∃ before ∈ c.blocks, v ∈ before.vars ∧ before.quantifier = block.quantifier :=
  fun block present _ member => ⟨block, present, member, rfl⟩

theorem keeps_withBlocks (valid : c.WellFormed) {blocks : List Block}
    (subset : ∀ block ∈ blocks, ∀ v ∈ block.vars,
      ∃ before ∈ c.blocks, v ∈ before.vars ∧ before.quantifier = block.quantifier) :
    Keeps c { c with blocks } where
  names := List.prefix_rfl
  remains := fun id positive below => .inl ⟨id, positive, below,
    remains_self valid positive below rfl (fun _ _ _ => rfl) subset rfl⟩

theorem keeps_withOutput (valid : c.WellFormed) (output? : Option Literal) :
    Keeps c { c with output? } where
  names := List.prefix_rfl
  remains := fun id positive below => .inl ⟨id, positive, below,
    remains_self valid positive below rfl (fun _ _ _ => rfl) c.blocks_self rfl⟩

theorem Keeps.refl (valid : c.WellFormed) : Keeps c c :=
  keeps_withOutput valid c.output?

theorem Rewrites.keeps (rewrites : Rewrites c m) (valid : c.WellFormed) : Keeps c m where
  names := rewrites.names_eq ▸ List.prefix_rfl
  remains := by
    intro id positive below
    rw [rewrites.maxGate_eq] at below
    refine .inl ⟨id, positive, below, remains_self valid positive below rewrites.maxVar_eq ?_ ?_
      (rewrites.interpretation_eq id below)⟩
    · intro v _ _
      rw [nameOf, nameOf, rewrites.names_eq, rewrites.origin_eq]
    · rw [rewrites.blocks_eq]
      exact c.blocks_self

theorem keeps_append {name : String} (valid : c.WellFormed)
    (validMore : (c.append gate name).WellFormed) (fresh : name ∉ c.names) :
    Keeps c (c.append gate name) where
  names := by simp [append]
  remains := by
    intro id positive below
    rw [maxGate_append] at below
    have continues := continues_append valid gate name
    rcases Nat.lt_or_eq_of_le (Nat.lt_succ_iff.mp below) with old | rfl
    · refine .inl ⟨id, positive, old, remains_self valid positive old rfl continues.nameOf_eq
        c.blocks_self (continues.interpretation_eq valid validMore old)⟩
    · refine .inr ⟨Nat.le_add_right .., ?_⟩
      rwa [nameOf_pushed_last valid rfl rfl]

theorem mem_block_renumber {block : Block} (fits : n.Fits c)
    (present : block ∈ (c.renumber n).blocks) (member : n.place id ∈ block.vars) :
    ∃ before ∈ c.blocks, id ∈ before.vars ∧ before.quantifier = block.quantifier := by
  obtain ⟨before, known, rfl⟩ := List.mem_map.mp (List.mem_filter.mp present).1
  obtain ⟨place, kept⟩ := List.mem_filter.mp member
  obtain ⟨v, listed, same⟩ := List.mem_map.mp place
  obtain rfl := fits.injective id v same.symm (by simpa using kept)
  exact ⟨before, known, listed, rfl⟩

theorem place_lt_maxVar_iff (fits : n.Fits c) (below : id < c.maxGate) (kept : n.place id ≠ 0) :
    n.place id < n.maxVar ↔ id < c.maxVar := by
  refine ⟨fun small => Nat.lt_of_not_le fun large => ?_, fits.variable_lt id⟩
  obtain ⟨gate, found⟩ := gate?_of_lt_maxGate large below
  exact Nat.not_lt_of_le (maxVar_le_of_gate? (renumbered_gate fits found kept)) small

/-- New numbers that fit change no name and no function of named variables. -/
theorem remains_renumber (valid : c.WellFormed) (fits : n.Fits c) (positive : 0 < id)
    (below : id < c.maxGate) (kept : n.place id ≠ 0) : Remains c (c.renumber n) id (n.place id) where
  nameOf_eq := nameOf_renumber valid fits positive below kept
  lt_maxVar_iff := place_lt_maxVar_iff fits below kept
  block := fun _ present member => mem_block_renumber fits present member
  interpretation_eq := by
    intro χ
    rw [interpretation_renumber valid fits (wellFormed_renumber valid fits) below kept]
    refine readsOnly_occurs valid positive below _ _ fun v occurs => ?_
    have place := Nat.ne_of_gt (occurs.renumber fits kept).pos
    rw [nameOf_renumber valid fits occurs.pos
      (Nat.lt_of_lt_of_le occurs.lt_maxVar (Nat.le_add_right ..)) place]

theorem keeps_renumber (valid : c.WellFormed) (fits : n.Fits c) : Keeps c (c.renumber n) where
  names := List.prefix_rfl
  remains := by
    intro p positive below
    obtain ⟨id, nonzero, inside, rfl⟩ := exists_place fits positive below
    exact .inl ⟨id, nonzero, inside,
      remains_renumber valid fits nonzero inside (Nat.ne_of_gt positive)⟩

end QuantCircuit.Circuit
