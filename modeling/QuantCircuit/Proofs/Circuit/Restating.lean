import QuantCircuit.Proofs.Circuit.Evaluation
import QuantCircuit.Proofs.Circuit.Relocating

namespace QuantCircuit

namespace Numbering

variable {n : Numbering} {gate : Gate}

theorem literal_eq_self {l : Literal} (same : n.place l.natAbs = l.natAbs) : n.literal l = l := by
  unfold literal
  rw [same]
  split
  · rename_i negative
    rw [Int.ofNat_natAbs_of_nonpos (Int.le_of_lt negative), Int.neg_neg]
  · rename_i notNegative
    exact Int.natAbs_of_nonneg (Int.not_lt.mp notNegative)

theorem gate_eq_self (inputs : ∀ l ∈ gate.inputs, n.place l.natAbs = l.natAbs)
    (bound : ∀ v ∈ gate.bound, n.place v.natAbs = v.natAbs) : n.gate gate = gate := by
  have renamed : gate.inputs.map n.literal = gate.inputs :=
    (List.map_congr_left fun l member => literal_eq_self (inputs l member)).trans (List.map_id _)
  have rebound : gate.bound.map n.literal = gate.bound :=
    (List.map_congr_left fun v member => literal_eq_self (bound v member)).trans (List.map_id _)
  rw [Numbering.gate, renamed, rebound]

end Numbering

namespace Circuit

variable {c m : Circuit} {n : Numbering} {v : Nat}

/-- A circuit says of what is kept of another one, under new numbers, what that says of it. -/
structure Restates (c m : Circuit) (n : Numbering) : Prop where
  output : m.output? = c.output?.map n.literal
  evaluate_eq : ∀ entries others : List Bool,
    (∀ v, v < c.maxVar → n.place v ≠ 0 →
      others.getD (n.place v) false = entries.getD v false) →
    m.evaluate others = c.evaluate entries
  quantifierOf?_eq : ∀ v : Nat, n.place v ≠ 0 → m.quantifierOf? (n.place v) = c.quantifierOf? v
  nameOf_eq : ∀ id : Nat, id < c.maxGate → n.place id ≠ 0 →
    m.nameOf (n.place id) = c.nameOf id
  truth_eq : ∀ out, c.output? = some out → m.truth (n.literal out) = c.truth out

theorem evaluate_of_no_output (absent : c.output? = none) (entries : List Bool) :
    c.evaluate entries = .error (.structural .noOutput) := by
  rw [evaluate, Circuit.output, absent]
  rfl

/-- Dropped variables do not occur in the output, so only the kept ones count. -/
theorem evaluate_renumber (valid : c.WellFormed) (fits : n.Fits c) {entries others : List Bool}
    (agree : ∀ v, v < c.maxVar → n.place v ≠ 0 →
      others.getD (n.place v) false = entries.getD v false) :
    (c.renumber n).evaluate others = c.evaluate entries := by
  obtain absent | ⟨out, output⟩ := Option.eq_none_or_eq_some c.output?
  · rw [evaluate_of_no_output absent]
    exact evaluate_of_no_output (congrArg (Option.map n.literal) absent) others
  · have defined := valid.output_lt out output
    have kept := fits.output out output
    rw [computes_meaning (wellFormed_renumber valid fits) (output_renumber n output),
      computes_meaning valid output, meaning_renumber valid fits defined kept]
    refine congrArg Except.ok (readsOnly_meaning_occurs valid defined _ _ fun v occurs => ?_)
    exact agree v occurs.lt_maxVar (place_ne_zero_of_occurs fits occurs kept)

theorem mem_vars_block (fits : n.Fits c) (kept : n.place v ≠ 0) (block : Block) :
    n.place v ∈ (n.block block).vars ↔ v ∈ block.vars := by
  simp only [Numbering.block, List.mem_filter, List.mem_map]
  constructor
  · rintro ⟨⟨w, member, same⟩, _⟩
    exact fits.injective w v same (same ▸ kept) ▸ member
  · intro member
    exact ⟨⟨v, member, rfl⟩, by simpa using kept⟩

theorem quantifierOf?_renumber (fits : n.Fits c) (kept : n.place v ≠ 0) :
    (c.renumber n).quantifierOf? (n.place v) = c.quantifierOf? v := by
  have blocks : (c.renumber n).blocks = (c.blocks.map n.block).filter (!·.vars.isEmpty) := rfl
  rw [quantifierOf?, quantifierOf?, blocks]
  induction c.blocks with
  | nil => rfl
  | cons block rest ih =>
    have same : ((n.block block).vars.any fun w => (w : Literal) == (n.place v : Literal)) =
        block.vars.any fun w => (w : Literal) == (v : Literal) := by
      rw [Bool.eq_iff_iff, block_has_iff, block_has_iff, mem_vars_block fits kept]
    rw [List.map_cons, List.filter_cons, List.find?_cons]
    cases has : block.vars.any fun w => (w : Literal) == (v : Literal) with
    | true =>
      have member := (mem_vars_block fits kept block).mpr (block_has_iff.mp has)
      have nonempty : (!(n.block block).vars.isEmpty) = true := by
        simpa using List.ne_nil_of_mem member
      rw [if_pos nonempty, List.find?_cons, same, has]
      rfl
    | false =>
      split
      · rw [List.find?_cons, same, has]
        exact ih
      · exact ih

theorem restates_renumber (valid : c.WellFormed) (fits : n.Fits c) :
    Restates c (c.renumber n) n where
  output := rfl
  evaluate_eq := fun _ _ => evaluate_renumber valid fits
  quantifierOf?_eq := fun _ => quantifierOf?_renumber fits
  nameOf_eq := by
    intro id below kept
    have positive : 0 < id := Nat.pos_of_ne_zero fun zero => kept (zero ▸ fits.zero)
    exact nameOf_renumber valid fits positive below kept
  truth_eq := fun _ output => (transports_renumber valid fits output).truth_eq

theorem gates_renumber_of_all (all : ∀ position, position < c.gates.size →
    n.place (c.maxVar + position) ≠ 0) : (c.renumber n).gates = c.gates.map n.gate := by
  have kept : c.gates.toList.zipIdx.filter (fun entry => n.keepsGate c entry.2) =
      c.gates.toList.zipIdx := by
    refine List.filter_eq_self.mpr fun entry member => ?_
    have inside := (List.mem_zipIdx' member).1
    simpa [Numbering.keepsGate] using all entry.2 (by simpa using inside)
  have listed : c.gates.toList.zipIdx.map (fun entry => n.gate entry.1) =
      c.gates.toList.map n.gate := by
    rw [show (fun entry : Gate × Nat => n.gate entry.1) = n.gate ∘ Prod.fst from rfl,
      ← List.map_map, List.zipIdx_map_fst]
  rw [gates_renumber, kept, listed, ← Array.toList_map, Array.toArray_toList]

theorem origin_renumber_zero (c : Circuit) (positive : 0 < n.maxVar) :
    (c.renumber n).origin[0]? = some 0 := by
  have untouched (vars : List Nat) (origins : Array Nat) :
      (vars.foldl (c.recordOrigin n) origins)[0]? = origins[0]? := by
    induction vars generalizing origins with
    | nil => rfl
    | cons v rest ih =>
      rw [List.foldl_cons, ih, recordOrigin_eq]
      split
      · rfl
      · rename_i kept
        rw [Array.getElem?_setIfInBounds_ne kept]
  rw [origin_renumber, Array.getElem?_append, size_recordOrigins, Array.size_replicate,
    if_pos positive, untouched]
  simp [positive]

theorem gates_renumber_of_place_eq (valid : c.WellFormed)
    (place : ∀ id, id < c.maxGate → n.place id = id) : (c.renumber n).gates = c.gates := by
  have kept (position : Nat) (inside : position < c.gates.size) :
      n.place (c.maxVar + position) ≠ 0 := by
    have positive := valid.maxVar_pos
    rw [place _ (Nat.add_lt_add_left inside _)]
    omega
  have same (gate : Gate) (member : gate ∈ c.gates.toList) : n.gate gate = gate := by
    obtain ⟨position, located⟩ := List.mem_iff_getElem?.mp member
    have found := gate?_of_located (by simpa using located)
    have below := lt_maxGate_of_gate? found
    refine Numbering.gate_eq_self (fun l read => place _ ?_) fun v binds => place _ ?_
    · exact Nat.lt_trans (valid.inputs_lt _ gate found l read).2 below
    · exact Nat.lt_of_lt_of_le (valid.bound_lt _ gate found v binds).2 (Nat.le_add_right ..)
  refine Array.ext' ?_
  rw [gates_renumber_of_all kept, Array.toList_map]
  exact (List.map_congr_left same).trans (List.map_id _)

theorem origin_renumber_of_place_eq (valid : c.WellFormed) (fits : n.Fits c)
    (zero : c.origin[0]? = some 0) (place : ∀ id, id < c.maxGate → n.place id = id)
    (maxGate_eq : (c.renumber n).maxGate = c.maxGate) : (c.renumber n).origin = c.origin := by
  refine Array.ext_getElem? fun id => ?_
  rcases Nat.lt_or_ge id c.maxGate with below | beyond
  · rcases Nat.eq_zero_or_pos id with rfl | positive
    · rw [origin_renumber_zero c fits.maxVar_pos, zero]
    · have moved := origin_renumber_place valid fits positive below (by rw [place id below]; omega)
      rwa [place id below] at moved
  · rw [Array.getElem?_eq_none (by rw [origin_size_renumber, maxGate_eq]; exact beyond),
      Array.getElem?_eq_none (by rw [valid.origin_size]; exact beyond)]

theorem renumber_eq_self (valid : c.WellFormed) (fits : n.Fits c) (zero : c.origin[0]? = some 0)
    (maxVar_eq : n.maxVar = c.maxVar) (place : ∀ id, id < c.maxGate → n.place id = id) :
    c.renumber n = c := by
  have gates := gates_renumber_of_place_eq valid place
  have blocks : (c.renumber n).blocks = c.blocks :=
    blocks_renumber_of_place_eq valid fun v small =>
      place v (Nat.lt_of_lt_of_le small (Nat.le_add_right ..))
  have output : c.output?.map n.literal = c.output? := by
    cases given : c.output? with
    | none => rfl
    | some out =>
      have same := Numbering.literal_eq_self (place out.natAbs (valid.output_lt out given).2)
      rw [Option.map_some, same]
  have maxGate_eq : (c.renumber n).maxGate = c.maxGate := by
    rw [maxGate, maxGate, maxVar_renumber, maxVar_eq, gates]
  have origin := origin_renumber_of_place_eq valid fits zero place maxGate_eq
  show ({ c with
    maxVar := n.maxVar
    gates := (c.renumber n).gates
    blocks := (c.renumber n).blocks
    output? := c.output?.map n.literal
    origin := (c.renumber n).origin } : Circuit) = c
  rw [maxVar_eq, gates, blocks, output, origin]

end Circuit

end QuantCircuit
