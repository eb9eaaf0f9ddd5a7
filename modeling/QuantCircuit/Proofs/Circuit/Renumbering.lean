import QuantCircuit.Circuit.Renumber
import QuantCircuit.Proofs.Circuit.Occurrence

namespace QuantCircuit

/-- The selected entries of a list with their positions: how many come before one. -/
theorem getElem?_filter_zipIdx (p : Nat → Bool) (list : List α) {start position count : Nat}
    {a : α} : ((list.zipIdx start).filter fun entry => p entry.2)[count]? = some (a, position) ↔
      start ≤ position ∧ list[position - start]? = some a ∧ p position = true ∧
        count = (List.range' start (position - start)).countP p := by
  induction list generalizing start count with
  | nil => simp
  | cons first rest ih =>
    rw [List.zipIdx_cons, List.filter_cons]
    dsimp only
    rcases Nat.lt_trichotomy position start with earlier | rfl | further
    · have behind : ¬ start + 1 ≤ position := by omega
      have different : start ≠ position := Nat.ne_of_gt earlier
      split
      · cases count <;> simp [ih, behind, different, Nat.not_le_of_lt earlier]
      · simp [ih, behind, Nat.not_le_of_lt earlier]
    · have behind : ¬ position + 1 ≤ position := Nat.not_succ_le_self position
      split
      · rename_i selected
        cases count <;> simp [ih, behind, selected]
      · rename_i dropped
        simp [ih, dropped]
    · have split : position - start = position - (start + 1) + 1 := by omega
      have before : start ≤ position ∧ start + 1 ≤ position := by omega
      have different : start ≠ position := Nat.ne_of_lt further
      rw [split, List.getElem?_cons_succ, List.range'_succ, List.countP_cons]
      split
      · cases count <;> simp [ih, before, different]
      · simp [ih, before]

/-- Quantified variables may be given other names, if these stay apart from all others. -/
theorem Quantifier.overVars_rename (q : Quantifier) {f g : Assignment → Bool} {place : Nat → Nat}
    (same : ∀ τ, f τ = g fun v => τ (place v))
    (apart : ∀ v ∈ vars, ∀ w, place w = place v → w = v) (τ : Assignment) :
    q.overVars f (vars.map place) τ = q.overVars g vars fun v => τ (place v) := by
  induction vars generalizing τ with
  | nil => exact same τ
  | cons v rest ih =>
    rw [List.map_cons, overVars, overVars]
    congr 1
    funext value
    have moved : (fun w => τ.set (place v) value (place w)) =
        Assignment.set (fun w => τ (place w)) v value := by
      funext w
      by_cases here : w = v
      · subst w
        simp [Assignment.set]
      · have different : place w ≠ place v := fun same => here (apart v (by simp) w same)
        simp [Assignment.set, here, different]
    rw [ih (fun w member => apart w (by simp [member])), moved]

namespace Numbering

variable {n : Numbering} {c : Circuit} {id : Nat} {l : Literal} {gate : Gate}

def keepsGate (n : Numbering) (c : Circuit) (position : Nat) : Bool :=
  n.place (c.maxVar + position) ≠ 0

/-- The new numbers are in order, and whatever a kept identifier needs is kept. -/
structure Fits (n : Numbering) (c : Circuit) : Prop where
  maxVar_pos : 0 < n.maxVar
  zero : n.place 0 = 0
  injective : ∀ v w, n.place v = n.place w → n.place v ≠ 0 → v = w
  variable_lt : ∀ v, v < c.maxVar → n.place v < n.maxVar
  onto : ∀ p, 0 < p → p < n.maxVar → ∃ v, v < c.maxVar ∧ n.place v = p
  /-- Kept gates are numbered in their old order. -/
  gate_eq : ∀ position, position < c.gates.size → n.place (c.maxVar + position) ≠ 0 →
    n.place (c.maxVar + position) =
      n.maxVar + (List.range position).countP (n.keepsGate c)
  inputs : ∀ id gate, c.gate? id = some gate → n.place id ≠ 0 →
    ∀ l ∈ gate.inputs, n.place l.natAbs ≠ 0
  bound : ∀ id gate, c.gate? id = some gate → n.place id ≠ 0 →
    ∀ v ∈ gate.bound, n.place v.natAbs ≠ 0
  output : ∀ l, c.output? = some l → n.place l.natAbs ≠ 0

@[simp] theorem natAbs_literal (n : Numbering) (l : Literal) :
    (n.literal l).natAbs = n.place l.natAbs := by
  unfold literal
  split <;> simp

theorem literal_neg_iff (kept : n.place l.natAbs ≠ 0) : n.literal l < 0 ↔ l < 0 := by
  unfold literal
  split
  · rename_i negative
    simp only [negative, iff_true]
    exact Int.neg_neg_of_pos (Int.natCast_pos.mpr (Nat.pos_of_ne_zero kept))
  · rename_i notNegative
    simp only [notNegative, iff_false, Int.not_lt]
    exact Int.natCast_nonneg _

theorem literal_ne_zero (kept : n.place l.natAbs ≠ 0) : n.literal l ≠ 0 := by
  intro zero
  have place := n.natAbs_literal l
  rw [zero] at place
  exact kept place.symm

end Numbering

namespace Circuit

variable {n : Numbering} {c : Circuit} {id count : Nat} {l : Literal} {gate : Gate}

@[simp] theorem maxVar_renumber (c : Circuit) (n : Numbering) :
    (c.renumber n).maxVar = n.maxVar := rfl

theorem output_renumber (n : Numbering) (output : c.output? = some l) :
    (c.renumber n).output? = some (n.literal l) :=
  congrArg (Option.map n.literal) output

theorem gates_renumber (c : Circuit) (n : Numbering) : (c.renumber n).gates =
    ((c.gates.toList.zipIdx.filter fun entry => n.keepsGate c entry.2).map
      fun entry => n.gate entry.1).toArray := rfl

theorem gates_renumber_getElem? : (c.renumber n).gates[count]? = some gate ↔
    ∃ position old, c.gates[position]? = some old ∧ n.keepsGate c position = true ∧
      count = (List.range position).countP (n.keepsGate c) ∧ gate = n.gate old := by
  simp only [gates_renumber, List.getElem?_toArray, List.getElem?_map, Option.map_eq_some_iff,
    Prod.exists, getElem?_filter_zipIdx (n.keepsGate c), Nat.zero_le, true_and, Nat.sub_zero,
    Array.getElem?_toList, List.range_eq_range']
  constructor
  · rintro ⟨old, position, ⟨located, kept, order⟩, rfl⟩
    exact ⟨position, old, located, kept, order, rfl⟩
  · rintro ⟨position, old, located, kept, order, rfl⟩
    exact ⟨old, position, ⟨located, kept, order⟩, rfl⟩

/-- A gate has a new number iff it is what an old gate has become. -/
theorem gate?_renumber (fits : n.Fits c) (id : Nat) : (c.renumber n).gate? id = some gate ↔
    ∃ before old, c.gate? before = some old ∧ n.place before = id ∧ id ≠ 0 ∧
      gate = n.gate old := by
  rw [gate?_eq_some_iff, maxVar_renumber, gates_renumber_getElem?]
  constructor
  · rintro ⟨lower, position, old, located, kept, order, rfl⟩
    have inside := (Array.getElem?_eq_some_iff.mp located).1
    have nonzero : n.place (c.maxVar + position) ≠ 0 := by simpa [Numbering.keepsGate] using kept
    have place := fits.gate_eq position inside nonzero
    refine ⟨c.maxVar + position, old, gate?_eq_some_iff.mpr ⟨by omega, by simpa using located⟩,
      by omega, ?_, rfl⟩
    have positive := fits.maxVar_pos
    omega
  · rintro ⟨before, old, found, rfl, nonzero, rfl⟩
    obtain ⟨lower, located⟩ := gate?_eq_some_iff.mp found
    have inside := (Array.getElem?_eq_some_iff.mp located).1
    have whole : c.maxVar + (before - c.maxVar) = before := by omega
    have place := fits.gate_eq (before - c.maxVar) inside (by rwa [whole])
    rw [whole] at place
    refine ⟨by omega, before - c.maxVar, old, located, ?_, by omega, rfl⟩
    simpa [Numbering.keepsGate, whole] using nonzero

theorem renumbered_gate (fits : n.Fits c) (found : c.gate? id = some gate)
    (kept : n.place id ≠ 0) : (c.renumber n).gate? (n.place id) = some (n.gate gate) :=
  (gate?_renumber fits _).mpr ⟨id, gate, found, rfl, kept, rfl⟩

theorem countP_range_lt {p : Nat → Bool} {first second : Nat} (order : first < second)
    (selected : p first = true) :
    (List.range first).countP p < (List.range second).countP p := by
  have before : (List.range (first + 1)).countP p = (List.range first).countP p + 1 := by
    rw [List.range_succ, List.countP_append]
    simp [selected]
  have within : (List.range (first + 1)).countP p ≤ (List.range second).countP p :=
    (List.range_sublist.mpr order).countP_le
  omega

/-- New numbers of gates are in the old order, behind those of the variables. -/
theorem place_lt_of_gate (fits : n.Fits c) (found : c.gate? id = some gate) {earlier : Nat}
    (order : earlier < id) (keptEarlier : n.place earlier ≠ 0) (kept : n.place id ≠ 0) :
    n.place earlier < n.place id := by
  have place {id : Nat} (lower : c.maxVar ≤ id) (upper : id < c.maxGate) (kept : n.place id ≠ 0) :
      n.place id = n.maxVar + (List.range (id - c.maxVar)).countP (n.keepsGate c) := by
    have whole : c.maxVar + (id - c.maxVar) = id := by omega
    have inside : id - c.maxVar < c.gates.size := by unfold maxGate at upper; omega
    have numbered := fits.gate_eq (id - c.maxVar) inside (by rwa [whole])
    rwa [whole] at numbered
  have last := place (maxVar_le_of_gate? found) (lt_maxGate_of_gate? found) kept
  by_cases variable_ : earlier < c.maxVar
  · have small := fits.variable_lt earlier variable_
    omega
  · have first := place (Nat.le_of_not_lt variable_)
      (Nat.lt_trans order (lt_maxGate_of_gate? found)) keptEarlier
    have selected : n.keepsGate c (earlier - c.maxVar) = true := by
      have whole : c.maxVar + (earlier - c.maxVar) = earlier := by omega
      simpa [Numbering.keepsGate, whole] using keptEarlier
    have fewer := countP_range_lt (p := n.keepsGate c)
      (show earlier - c.maxVar < id - c.maxVar by omega) selected
    omega

theorem place_lt_maxGate (fits : n.Fits c) (below : id < c.maxGate) (kept : n.place id ≠ 0) :
    n.place id < (c.renumber n).maxGate := by
  by_cases variable_ : id < c.maxVar
  · exact Nat.lt_of_lt_of_le (fits.variable_lt id variable_) (Nat.le_add_right ..)
  · obtain ⟨gate, found⟩ := gate?_of_lt_maxGate (Nat.le_of_not_lt variable_) below
    exact lt_maxGate_of_gate? (renumbered_gate fits found kept)

theorem meaning_renumbered_gate {functions others : Interpretation}
    (arity : gate.connective.isQuantifier → gate.inputs.length = 1)
    (inputs : ∀ l ∈ gate.inputs, ∀ τ : Assignment,
      others.literal (n.literal l) τ = functions.literal l fun v => τ (n.place v))
    (apart : ∀ v ∈ gate.bound, ∀ w, n.place w = n.place v.natAbs → w = v.natAbs)
    (τ : Assignment) :
    (n.gate gate).meaning others τ = gate.meaning functions fun v => τ (n.place v) := by
  have same : (n.gate gate).connective = gate.connective := rfl
  obtain ⟨q, kind | kind⟩ := gate.connective.eq_distributesOver_or_gate
  · apply eq_of_eq_decisive
    rw [Gate.meaning_eq_decisive others (same.trans kind),
      Gate.meaning_eq_decisive functions kind]
    constructor
    · rintro ⟨r, member, settled⟩
      obtain ⟨l, listed, rfl⟩ := List.mem_map.mp member
      exact ⟨l, listed, (inputs l listed τ).symm.trans settled⟩
    · rintro ⟨l, listed, settled⟩
      exact ⟨n.literal l, List.mem_map.mpr ⟨l, listed, rfl⟩, (inputs l listed τ).trans settled⟩
  · have only := Gate.inputs_eq_body kind arity
    have body : (n.gate gate).body = n.literal gate.body := by
      have inputs : (n.gate gate).inputs = gate.inputs.map n.literal := rfl
      rw [Gate.body, inputs, only]
      rfl
    have bound : (n.gate gate).bound.map Int.natAbs =
        (gate.bound.map Int.natAbs).map n.place := by
      simp [Numbering.gate]
    rw [Gate.meaning_quantifier others (same.trans kind), Gate.meaning_quantifier functions kind,
      body, bound]
    refine q.overVars_rename (inputs gate.body (by simp [only])) ?_ τ
    intro v member w equal
    obtain ⟨l, listed, rfl⟩ := List.mem_map.mp member
    exact apart l listed w equal

/-- A kept identifier means the same under the new numbers. -/
theorem interpretation_renumber (valid : c.WellFormed) (fits : n.Fits c)
    (validNew : (c.renumber n).WellFormed) (below : id < c.maxGate) (kept : n.place id ≠ 0)
    (τ : Assignment) : (c.renumber n).interpretation (n.place id) τ =
      c.interpretation id fun v => τ (n.place v) := by
  induction id using Nat.strongRecOn generalizing τ with
  | _ id ih =>
    cases found : c.gate? id with
    | none =>
      have small := lt_maxVar_of_gate?_eq_none found below
      have missing : (c.renumber n).gate? (n.place id) = none :=
        gate?_eq_none_of_lt (fits.variable_lt id small)
      rw [interpretation_variable found, interpretation_variable missing]
    | some gate =>
      rw [interpretation_gate valid found,
        interpretation_gate validNew (renumbered_gate fits found kept)]
      refine meaning_renumbered_gate (valid.one_input id gate found) ?_ ?_ τ
      · intro l member τ
        have earlier := (valid.inputs_lt id gate found l member).2
        have keptInput := fits.inputs id gate found kept l member
        have same := ih l.natAbs earlier (Nat.lt_trans earlier below) keptInput τ
        simp [Interpretation.literal, same, Numbering.literal_neg_iff keptInput]
      · intro v member w equal
        have keptBound := fits.bound id gate found kept v member
        exact fits.injective w v.natAbs equal (equal ▸ keptBound)

theorem exists_place (fits : n.Fits c) {p : Nat} (positive : 0 < p)
    (below : p < (c.renumber n).maxGate) : ∃ id, 0 < id ∧ id < c.maxGate ∧ n.place id = p := by
  have nonzero {id : Nat} (place : n.place id = p) : 0 < id := by
    refine Nat.pos_of_ne_zero fun zero => ?_
    rw [zero, fits.zero] at place
    omega
  by_cases variable_ : p < n.maxVar
  · obtain ⟨v, small, place⟩ := fits.onto p positive variable_
    exact ⟨v, nonzero place, Nat.lt_of_lt_of_le small (Nat.le_add_right ..), place⟩
  · obtain ⟨gate, found⟩ := gate?_of_lt_maxGate (c := c.renumber n) (Nat.le_of_not_lt variable_) below
    obtain ⟨id, old, located, place, _⟩ := (gate?_renumber fits p).mp found
    exact ⟨id, nonzero place, lt_maxGate_of_gate? located, place⟩

def recordOrigin (c : Circuit) (n : Numbering) (origins : Array Nat) (v : Nat) : Array Nat :=
  match n.place v with
  | 0 => origins
  | place => origins.setIfInBounds place (c.origin.getD v 0)

theorem recordOrigin_eq (c : Circuit) (n : Numbering) (origins : Array Nat) (v : Nat) :
    c.recordOrigin n origins v = if n.place v = 0 then origins
      else origins.setIfInBounds (n.place v) (c.origin.getD v 0) := by
  unfold recordOrigin
  split
  · simp_all
  · simp_all

theorem size_recordOrigins (c : Circuit) (n : Numbering) (vars : List Nat) (origins : Array Nat) :
    (vars.foldl (c.recordOrigin n) origins).size = origins.size := by
  induction vars generalizing origins with
  | nil => rfl
  | cons v rest ih =>
    rw [List.foldl_cons, ih, recordOrigin_eq]
    split <;> simp

theorem recordOrigins_other (vars : List Nat) (origins : Array Nat) {p : Nat}
    (other : ∀ v ∈ vars, n.place v ≠ p) :
    (vars.foldl (c.recordOrigin n) origins)[p]? = origins[p]? := by
  induction vars generalizing origins with
  | nil => rfl
  | cons v rest ih =>
    rw [List.foldl_cons, ih _ fun w member => other w (by simp [member]), recordOrigin_eq]
    split
    · rfl
    · rw [Array.getElem?_setIfInBounds_ne (other v (by simp))]

theorem recordOrigins_getElem? (fits : n.Fits c) (vars : List Nat) (origins : Array Nat) {v : Nat}
    (member : v ∈ vars) (kept : n.place v ≠ 0) (inside : n.place v < origins.size) :
    (vars.foldl (c.recordOrigin n) origins)[n.place v]? = some (c.origin.getD v 0) := by
  induction vars generalizing origins with
  | nil => simp at member
  | cons w rest ih =>
    rw [List.foldl_cons]
    by_cases later : v ∈ rest
    · refine ih _ later ?_
      rw [recordOrigin_eq]
      split <;> simpa
    · obtain rfl := (List.mem_cons.mp member).resolve_right later
      rw [recordOrigins_other, recordOrigin_eq, if_neg kept]
      · simp [inside]
      · exact fun u listed same => later (fits.injective v u same.symm kept ▸ listed)

theorem origin_renumber (c : Circuit) (n : Numbering) : (c.renumber n).origin =
    (List.range' 1 (c.maxVar - 1)).foldl (c.recordOrigin n) (Array.replicate n.maxVar 0) ++
      ((c.gates.toList.zipIdx.filter fun entry => n.keepsGate c entry.2).map
        fun entry => c.origin.getD (c.maxVar + entry.2) 0).toArray := rfl

/-- The way from a kept identifier to its name stays the same. -/
theorem origin_renumber_place (valid : c.WellFormed) (fits : n.Fits c) (positive : 0 < id)
    (below : id < c.maxGate) (kept : n.place id ≠ 0) :
    (c.renumber n).origin[n.place id]? = c.origin[id]? := by
  obtain ⟨entry, located, _⟩ := valid.exists_origin positive below
  have value : c.origin.getD id 0 = entry := by simp [Array.getD_eq_getD_getElem?, located]
  have size := c.size_recordOrigins n (List.range' 1 (c.maxVar - 1)) (Array.replicate n.maxVar 0)
  rw [Array.size_replicate] at size
  rw [origin_renumber, Array.getElem?_append, size, located]
  by_cases variable_ : id < c.maxVar
  · have small := fits.variable_lt id variable_
    rw [if_pos small, recordOrigins_getElem? fits, value]
    · exact List.mem_range'.mpr ⟨id - 1, by omega, by omega⟩
    · exact kept
    · simpa using small
  · obtain ⟨gate, found⟩ := gate?_of_lt_maxGate (Nat.le_of_not_lt variable_) below
    obtain ⟨_, listed⟩ := gate?_eq_some_iff.mp found
    have inside := (Array.getElem?_eq_some_iff.mp listed).1
    have whole : c.maxVar + (id - c.maxVar) = id := by omega
    have place := fits.gate_eq (id - c.maxVar) inside (by rwa [whole])
    rw [whole] at place
    have selected : n.keepsGate c (id - c.maxVar) = true := by
      simpa [Numbering.keepsGate, whole] using kept
    have position : (c.gates.toList.zipIdx.filter fun entry => n.keepsGate c entry.2)[n.place id -
        n.maxVar]? = some (gate, id - c.maxVar) := by
      rw [getElem?_filter_zipIdx]
      refine ⟨Nat.zero_le _, by simpa using listed, selected, ?_⟩
      rw [Nat.sub_zero, ← List.range_eq_range']
      omega
    rw [if_neg (by omega), List.getElem?_toArray, List.getElem?_map, position]
    simp [whole, located]

theorem nameOf_renumber (valid : c.WellFormed) (fits : n.Fits c) (positive : 0 < id)
    (below : id < c.maxGate) (kept : n.place id ≠ 0) :
    (c.renumber n).nameOf (n.place id) = c.nameOf id := by
  unfold nameOf
  rw [Int.natAbs_natCast, Int.natAbs_natCast, origin_renumber_place valid fits positive below kept]
  rfl

theorem origin_size_renumber (c : Circuit) (n : Numbering) :
    (c.renumber n).origin.size = (c.renumber n).maxGate := by
  rw [origin_renumber, Array.size_append, size_recordOrigins, Array.size_replicate, maxGate,
    gates_renumber]
  simp

theorem mem_tail_iff {entries : Array Nat} {entry : Nat} :
    entry ∈ entries.toList.tail ↔ ∃ p, 0 < p ∧ entries[p]? = some entry := by
  rw [List.mem_iff_getElem?]
  simp only [List.getElem?_tail, Array.getElem?_toList]
  constructor
  · rintro ⟨p, located⟩
    exact ⟨p + 1, Nat.succ_pos p, located⟩
  · rintro ⟨p, positive, located⟩
    exact ⟨p - 1, by rwa [Nat.sub_add_cancel positive]⟩

theorem nodup_tail_iff {entries : Array Nat} : entries.toList.tail.Nodup ↔
    ∀ p q entry, 0 < p → 0 < q → entries[p]? = some entry → entries[q]? = some entry → p = q := by
  have shift {p : Nat} (positive : 0 < p) : entries.toList.tail[p - 1]? = entries[p]? := by
    rw [List.getElem?_tail, Nat.sub_add_cancel positive, Array.getElem?_toList]
  constructor
  · intro distinct p q entry positiveP positiveQ locatedP locatedQ
    have inside : p - 1 < entries.toList.tail.length := by
      have bound := (Array.getElem?_eq_some_iff.mp locatedP).1
      rw [List.length_tail, Array.length_toList]
      omega
    have equal : entries.toList.tail[p - 1]? = entries.toList.tail[q - 1]? := by
      rw [shift positiveP, shift positiveQ, locatedP, locatedQ]
    have same := (List.getElem?_inj inside distinct).mp equal
    omega
  · intro injective
    refine List.pairwise_iff_getElem.mpr fun i j insideI insideJ order equal => ?_
    have located (k : Nat) (inside : k < entries.toList.tail.length) :
        entries[k + 1]? = some entries.toList.tail[k] := by
      rw [← List.getElem?_eq_getElem inside]
      exact (shift (Nat.succ_pos k)).symm
    have same := injective (i + 1) (j + 1) _ (Nat.succ_pos i) (Nat.succ_pos j)
      (located i insideI) (equal ▸ located j insideJ)
    omega

theorem flatMap_vars_renumber (c : Circuit) (n : Numbering) :
    (c.renumber n).blocks.flatMap (·.vars) =
      ((c.blocks.flatMap (·.vars)).map n.place).filter (· ≠ 0) := by
  have blocks : (c.renumber n).blocks = (c.blocks.map n.block).filter (!·.vars.isEmpty) := rfl
  rw [blocks]
  induction c.blocks with
  | nil => rfl
  | cons block rest ih =>
    rw [List.map_cons, List.filter_cons, List.flatMap_cons, List.map_append, List.filter_append,
      ← ih]
    split
    · rfl
    · rename_i empty
      have none : (n.block block).vars = [] := by simpa using empty
      have listed : (block.vars.map n.place).filter (· ≠ 0) = [] := none
      rw [listed, List.nil_append]

theorem blocks_renumber_of_all (valid : c.WellFormed)
    (all : ∀ v, 0 < v → v < c.maxVar → n.place v ≠ 0) : (c.renumber n).blocks =
      c.blocks.map fun block => ⟨block.quantifier, block.vars.map n.place⟩ := by
  have kept (block : Block) (present : block ∈ c.blocks) :
      n.block block = ⟨block.quantifier, block.vars.map n.place⟩ := by
    rw [Numbering.block, List.filter_eq_self.mpr fun p member => ?_]
    obtain ⟨v, listed, rfl⟩ := List.mem_map.mp member
    obtain ⟨positive, small⟩ := valid.block_lt block present v listed
    simpa using all v positive small
  show (c.blocks.map n.block).filter (!·.vars.isEmpty) = _
  rw [List.map_congr_left kept, List.filter_eq_self]
  intro block member
  obtain ⟨old, present, rfl⟩ := List.mem_map.mp member
  simpa using valid.block_nonempty old present

theorem blocks_renumber_of_place_eq (valid : c.WellFormed)
    (place : ∀ v, v < c.maxVar → n.place v = v) : (c.renumber n).blocks = c.blocks := by
  have all (v : Nat) (positive : 0 < v) (small : v < c.maxVar) : n.place v ≠ 0 := by
    rw [place v small]
    exact Nat.ne_of_gt positive
  rw [blocks_renumber_of_all valid all]
  refine (List.map_congr_left fun block present => ?_).trans (List.map_id _)
  have mapped : block.vars.map n.place = block.vars := by
    refine (List.map_congr_left fun v member => ?_).trans (List.map_id _)
    exact place v (valid.block_lt block present v member).2
  rw [mapped]
  rfl

theorem exists_origin_of_renumber (valid : c.WellFormed) (fits : n.Fits c) {p entry : Nat}
    (positive : 0 < p) (located : (c.renumber n).origin[p]? = some entry) :
    ∃ id, 0 < id ∧ n.place id = p ∧ c.origin[id]? = some entry := by
  have inside := (Array.getElem?_eq_some_iff.mp located).1
  rw [origin_size_renumber] at inside
  obtain ⟨id, nonzero, below, rfl⟩ := exists_place fits positive inside
  refine ⟨id, nonzero, rfl, ?_⟩
  rw [← origin_renumber_place valid fits nonzero below (by omega), located]

theorem wellFormed_renumber (valid : c.WellFormed) (fits : n.Fits c) :
    (c.renumber n).WellFormed where
  maxVar_pos := fits.maxVar_pos
  inputs_lt := by
    intro id gate found l member
    obtain ⟨before, old, located, rfl, kept, rfl⟩ := (gate?_renumber fits id).mp found
    obtain ⟨r, listed, rfl⟩ := List.mem_map.mp member
    have keptInput := fits.inputs before old located kept r listed
    refine ⟨Numbering.literal_ne_zero keptInput, ?_⟩
    rw [Numbering.natAbs_literal]
    exact place_lt_of_gate fits located (valid.inputs_lt before old located r listed).2 keptInput kept
  bound_lt := by
    intro id gate found v member
    obtain ⟨before, old, located, rfl, kept, rfl⟩ := (gate?_renumber fits id).mp found
    obtain ⟨w, listed, rfl⟩ := List.mem_map.mp member
    obtain ⟨positive, small⟩ := valid.bound_lt before old located w listed
    have keptBound := fits.bound before old located kept w listed
    refine ⟨?_, ?_⟩
    · rw [Numbering.literal, if_neg (Int.not_lt.mpr (Int.le_of_lt positive))]
      exact Int.natCast_pos.mpr (Nat.pos_of_ne_zero keptBound)
    · rw [Numbering.natAbs_literal]
      exact fits.variable_lt _ small
  one_input := by
    intro id gate found kind
    obtain ⟨before, old, located, rfl, kept, rfl⟩ := (gate?_renumber fits id).mp found
    have single := valid.one_input before old located kind
    simpa [Numbering.gate] using single
  output_lt := by
    intro l output
    obtain ⟨r, before, rfl⟩ := Option.map_eq_some_iff.mp output
    have kept := fits.output r before
    refine ⟨Numbering.literal_ne_zero kept, ?_⟩
    rw [Numbering.natAbs_literal]
    exact place_lt_maxGate fits (valid.output_lt r before).2 kept
  block_nonempty := by
    intro block member
    have kept := (List.mem_filter.mp member).2
    simpa using kept
  block_lt := by
    intro block member v listed
    obtain ⟨old, present, rfl⟩ := List.mem_map.mp (List.mem_filter.mp member).1
    obtain ⟨place, nonzero⟩ := List.mem_filter.mp listed
    obtain ⟨w, inside, rfl⟩ := List.mem_map.mp place
    exact ⟨Nat.pos_of_ne_zero (by simpa using nonzero),
      fits.variable_lt w (valid.block_lt old present w inside).2⟩
  block_nodup := by
    rw [flatMap_vars_renumber]
    refine List.pairwise_filter.mpr (List.pairwise_map.mpr (valid.block_nodup.imp ?_))
    intro v w different kept _ same
    exact different (fits.injective v w same (by simpa using kept))
  origin_size := c.origin_size_renumber n
  origin_lt := by
    intro entry member
    obtain ⟨p, positive, located⟩ := mem_tail_iff.mp member
    obtain ⟨id, nonzero, _, before⟩ := exists_origin_of_renumber valid fits positive located
    exact valid.origin_lt entry (mem_tail_iff.mpr ⟨id, nonzero, before⟩)
  origin_nodup := by
    refine nodup_tail_iff.mpr fun p q entry positiveP positiveQ locatedP locatedQ => ?_
    obtain ⟨id, nonzero, rfl, before⟩ := exists_origin_of_renumber valid fits positiveP locatedP
    obtain ⟨other, positive, rfl, again⟩ := exists_origin_of_renumber valid fits positiveQ locatedQ
    rw [nodup_tail_iff.mp valid.origin_nodup id other entry nonzero positive before again]

theorem meaning_renumber (valid : c.WellFormed) (fits : n.Fits c) (defined : c.Defines l)
    (kept : n.place l.natAbs ≠ 0) (τ : Assignment) :
    (c.renumber n).meaning (n.literal l) τ = c.meaning l fun v => τ (n.place v) := by
  have same := interpretation_renumber valid fits (wellFormed_renumber valid fits) defined.2 kept τ
  simp [meaning, Interpretation.literal, same, Numbering.literal_neg_iff kept]

/-- What occurs under the new numbers is what occurred, renumbered. -/
theorem occurs_of_renumber (valid : c.WellFormed) (fits : n.Fits c) (below : id < c.maxGate)
    (kept : n.place id ≠ 0) {w : Nat} (occurs : (c.renumber n).Occurs w (n.place id)) :
    ∃ v, n.place v = w ∧ c.Occurs v id := by
  induction id using Nat.strongRecOn with
  | _ id ih =>
    cases found : c.gate? id with
    | none =>
      have small := lt_maxVar_of_gate?_eq_none found below
      have missing : (c.renumber n).gate? (n.place id) = none :=
        gate?_eq_none_of_lt (fits.variable_lt id small)
      obtain ⟨rfl, _⟩ := (occurs_variable_iff missing).mp occurs
      have positive : 0 < id := Nat.pos_of_ne_zero fun zero => kept (zero ▸ fits.zero)
      exact ⟨id, rfl, .leaf positive small⟩
    | some gate =>
      obtain ⟨free, r, member, lower⟩ :=
        (occurs_gate_iff (renumbered_gate fits found kept)).mp occurs
      obtain ⟨l, listed, rfl⟩ := List.mem_map.mp member
      have earlier := (valid.inputs_lt id gate found l listed).2
      rw [Numbering.natAbs_literal] at lower
      obtain ⟨v, rfl, before⟩ := ih l.natAbs earlier (Nat.lt_trans earlier below)
        (fits.inputs id gate found kept l listed) lower
      refine ⟨v, rfl, .input found listed (fun binds => free ?_) before⟩
      obtain ⟨kind, bound⟩ := binds
      obtain ⟨x, inBound, rfl⟩ := List.mem_map.mp bound
      exact ⟨kind, List.mem_map.mpr ⟨n.literal x, List.mem_map.mpr ⟨x, inBound, rfl⟩, by simp⟩⟩

theorem Occurs.renumber (occurs : c.Occurs v id) (fits : n.Fits c) (kept : n.place id ≠ 0) :
    (c.renumber n).Occurs (n.place v) (n.place id) := by
  induction occurs with
  | leaf positive below => exact .leaf (Nat.pos_of_ne_zero kept) (fits.variable_lt v below)
  | @input id gate l found member free below ih =>
    refine .input (renumbered_gate fits found kept) (List.mem_map_of_mem member) ?_ ?_
    · rintro ⟨kind, bound⟩
      obtain ⟨renamed, listed, same⟩ := List.mem_map.mp bound
      obtain ⟨w, inside, rfl⟩ := List.mem_map.mp listed
      rw [Numbering.natAbs_literal] at same
      have equal := fits.injective w.natAbs v same (fits.bound id gate found kept w inside)
      exact free ⟨kind, List.mem_map.mpr ⟨w, inside, equal⟩⟩
    · rw [Numbering.natAbs_literal]
      exact ih (fits.inputs id gate found kept l member)

end Circuit

end QuantCircuit
