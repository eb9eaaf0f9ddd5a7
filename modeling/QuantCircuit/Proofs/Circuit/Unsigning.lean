import QuantCircuit.Proofs.Circuit.Cleaning
import QuantCircuit.Proofs.Circuit.Declaring
import QuantCircuit.Proofs.Circuit.Flattening
import QuantCircuit.Proofs.Circuit.Reordering

/-! Circuits whose gates may bind negative literals. Such a literal stands for its variable
in the meaning of a gate, and what changes a circuit sees no difference either, unless it
refuses to go on. So a circuit is well formed up to these signs, or it is not, and stays so. -/

namespace QuantCircuit

/-- The gate with the variables it binds in place of literals of either sign. -/
def Gate.unsigned (gate : Gate) : Gate :=
  { gate with bound := gate.bound.map fun v => (v.natAbs : Int) }

theorem Gate.map_natAbs_unsigned (gate : Gate) :
    gate.unsigned.bound.map Int.natAbs = gate.bound.map Int.natAbs := by
  rw [Gate.unsigned, List.map_map]
  exact List.map_congr_left fun v _ => Int.natAbs_natCast v.natAbs

theorem Gate.meaning_unsigned (functions : Interpretation) (gate : Gate) :
    gate.unsigned.meaning functions = gate.meaning functions := by
  funext σ
  unfold Gate.meaning
  rw [gate.map_natAbs_unsigned]
  rfl

theorem Numbering.unsigned_gate (n : Numbering) (gate : Gate) :
    (n.gate gate).unsigned = n.gate gate.unsigned := by
  have literal (v : Literal) : ((n.literal v).natAbs : Int) = n.literal (v.natAbs : Int) := by
    rw [Numbering.natAbs_literal, Numbering.literal,
      if_neg (Int.not_lt.mpr (Int.natCast_nonneg _)), Int.natAbs_natCast]
  have bound : (gate.bound.map n.literal).map (fun v => (v.natAbs : Int)) =
      (gate.bound.map fun v => (v.natAbs : Int)).map n.literal := by
    rw [List.map_map, List.map_map]
    exact List.map_congr_left fun v _ => literal v
  unfold Gate.unsigned Numbering.gate
  rw [bound]

namespace Circuit

variable {c m : Circuit} {gate : Gate} {id : Nat} {n : Numbering}

def unsigned (c : Circuit) : Circuit :=
  { c with gates := c.gates.map Gate.unsigned }

@[simp] theorem maxGate_unsigned (c : Circuit) : c.unsigned.maxGate = c.maxGate := by
  simp [unsigned, maxGate]

theorem Defines.unsigned {l : Literal} (defined : c.Defines l) : c.unsigned.Defines l :=
  ⟨defined.1, (maxGate_unsigned c).symm ▸ defined.2⟩

theorem defines_unsigned {l : Literal} : c.unsigned.Defines l ↔ c.Defines l := by
  rw [Circuit.Defines, Circuit.Defines, maxGate_unsigned]

theorem gate?_unsigned (c : Circuit) (id : Nat) :
    c.unsigned.gate? id = (c.gate? id).map Gate.unsigned := by
  unfold gate? unsigned
  dsimp only
  split
  · rfl
  · simp

theorem layered_unsigned : c.unsigned.Layered ↔ c.Layered := by
  constructor
  · intro layered id gate found
    exact layered id gate.unsigned (by rw [gate?_unsigned, found]; rfl)
  · intro layered id gate found
    rw [gate?_unsigned] at found
    obtain ⟨signed, located, rfl⟩ := Option.map_eq_some_iff.mp found
    exact layered id signed located

theorem unsigned_eq_self (valid : c.WellFormed) : c.unsigned = c := by
  have gates : c.gates.map Gate.unsigned = c.gates := by
    refine (Array.map_congr_left fun gate member => ?_).trans (Array.map_id _)
    obtain ⟨position, located⟩ := Array.getElem?_of_mem member
    have positive := valid.bound_lt _ gate (gate?_of_located located)
    have bound : gate.bound.map (fun v => (v.natAbs : Int)) = gate.bound :=
      (List.map_congr_left fun v listed => Int.natAbs_of_nonneg
        (Int.le_of_lt (positive v listed).1)).trans (List.map_id _)
    rw [Gate.unsigned, bound]
    rfl
  unfold unsigned
  rw [gates]

theorem extend_unsigned (functions : Interpretation) (next : Nat) (gates : List Gate) :
    functions.extend next (gates.map Gate.unsigned) = functions.extend next gates := by
  induction gates generalizing functions next with
  | nil => rfl
  | cons gate rest ih =>
    rw [List.map_cons, Interpretation.extend, Interpretation.extend, Gate.meaning_unsigned, ih]

@[simp] theorem interpretation_unsigned (c : Circuit) :
    c.unsigned.interpretation = c.interpretation := by
  unfold interpretation unsigned
  dsimp only
  rw [Array.toList_map, extend_unsigned]

theorem unsigned_append (c : Circuit) (gate : Gate) (name : String) :
    (c.append gate name).unsigned = c.unsigned.append gate.unsigned name := by
  simp [unsigned, append]

/-- A gate that has been checked is a proper one up to the signs. -/
theorem accepts_unsigned (checked : gate.check c.maxVar c.maxGate = .ok ()) :
    c.unsigned.Accepts gate.unsigned := by
  obtain ⟨inputs, bound, arity⟩ := of_check checked
  refine ⟨fun l member => Defines.unsigned (inputs l member), fun v member => ?_, arity⟩
  obtain ⟨w, listed, rfl⟩ := List.mem_map.mp member
  obtain ⟨nonzero, below⟩ := bound w listed
  exact ⟨Int.natCast_pos.mpr (Int.natAbs_pos.mpr nonzero), by rwa [Int.natAbs_natCast]⟩

theorem zipIdx_unsigned (c : Circuit) : c.unsigned.gates.toList.zipIdx =
    c.gates.toList.zipIdx.map fun entry => (entry.1.unsigned, entry.2) := by
  simp [unsigned, List.zipIdx_map, Prod.map]

theorem unsigned_renumber (c : Circuit) (n : Numbering) :
    (c.renumber n).unsigned = c.unsigned.renumber n := by
  have kept : (c.unsigned.gates.toList.zipIdx.filter fun entry => n.keepsGate c.unsigned entry.2) =
      (c.gates.toList.zipIdx.filter fun entry => n.keepsGate c entry.2).map
        fun entry => (entry.1.unsigned, entry.2) := by
    rw [zipIdx_unsigned, List.filter_map]
    rfl
  have gates : (c.renumber n).unsigned.gates = (c.unsigned.renumber n).gates := by
    rw [gates_renumber, kept]
    show (c.renumber n).gates.map Gate.unsigned = _
    rw [gates_renumber]
    simp [Numbering.unsigned_gate]
  have origin : (c.renumber n).origin = (c.unsigned.renumber n).origin := by
    rw [origin_renumber, origin_renumber, kept, List.map_map]
    rfl
  exact congrArg₂ (fun gates origin => { c.renumber n with gates, origin }) gates origin

theorem mergedInput_unsigned (c : Circuit) (connective : Connective) (l : Literal) :
    c.unsigned.mergedInput connective l = c.mergedInput connective l := by
  unfold mergedInput
  rw [gate?_unsigned]
  cases c.gate? l.natAbs <;> rfl

theorem getElem?_gates_unsigned (c : Circuit) (position : Nat) :
    c.unsigned.gates[position]? = c.gates[position]?.map Gate.unsigned :=
  Array.getElem?_map

theorem mergedGate_unsigned (c : Circuit) (gate : Gate) :
    c.unsigned.mergedGate gate.unsigned = (c.mergedGate gate).unsigned := by
  have merged : c.unsigned.mergedInput gate.connective = c.mergedInput gate.connective :=
    funext (mergedInput_unsigned c gate.connective)
  unfold mergedGate
  rw [show gate.unsigned.connective = gate.connective from rfl, merged]
  rfl

theorem unsigned_withGate (c : Circuit) (position : Nat) (gate : Gate) :
    (c.withGate position gate).unsigned = c.unsigned.withGate position gate.unsigned := by
  simp [unsigned, withGate]

theorem unsigned_flattenGate (marked : Array Bool) (c : Circuit) (position : Nat) :
    (flattenGate marked c position).unsigned = flattenGate marked c.unsigned position := by
  unfold flattenGate
  rw [getElem?_gates_unsigned, show c.unsigned.maxVar = c.maxVar from rfl]
  cases c.gates[position]? with
  | none => rcases marked[c.maxVar + position]? with _ | _ | _ <;> rfl
  | some gate =>
    rcases marked[c.maxVar + position]? with _ | _ | _
    · rfl
    · rfl
    · dsimp only [Option.map_some]
      rw [show gate.unsigned.connective = gate.connective from rfl, mergedGate_unsigned]
      split
      · rfl
      · exact unsigned_withGate c position _

theorem traverse_unsigned (c : Circuit) (steps : Nat) (stack : List Nat) (seen : Array Bool) :
    c.unsigned.traverse steps stack seen = c.traverse steps stack seen := by
  induction steps generalizing stack seen with
  | zero => simp [traverse]
  | succ steps ih =>
    cases stack with
    | nil => simp [traverse]
    | cons id stack =>
      rw [traverse, traverse, gate?_unsigned]
      split
      · exact ih stack seen
      · cases c.gate? id with
        | none => exact congrArg (id :: ·) (ih _ _)
        | some gate => exact ih _ _

theorem traversalOrder_unsigned (c : Circuit) (out : Literal) :
    c.unsigned.traversalOrder out = c.traversalOrder out := by
  have steps : c.unsigned.gates.foldl (fun steps gate => steps + gate.inputs.length) 1 =
      c.gates.foldl (fun steps gate => steps + gate.inputs.length) 1 := by
    rw [← Array.foldl_toList, ← Array.foldl_toList, unsigned, Array.toList_map, List.foldl_map]
    rfl
  unfold traversalOrder
  rw [traverse_unsigned, maxGate_unsigned, steps]

theorem appearanceOrder_unsigned (c : Circuit) :
    c.unsigned.appearanceOrder = c.appearanceOrder := by
  unfold appearanceOrder unsigned
  simp [Gate.unsigned, List.flatMap_map]

theorem reordering_unsigned (c : Circuit) (first : List Nat) :
    c.unsigned.reordering first = c.reordering first := by
  unfold reordering
  rw [maxGate_unsigned]
  rfl

end Circuit

end QuantCircuit
