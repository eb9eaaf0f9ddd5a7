import Mathlib.Data.List.Nodup
import QuantCircuit.Circuit.Basic

namespace QuantCircuit.Circuit

theorem toString_nat_injective {m n : Nat} (same : toString m = toString n) : m = n := by
  have digits := congrArg String.toList same
  rw [Nat.toString_eq_ofList_toDigits, Nat.toString_eq_ofList_toDigits, String.toList_ofList,
    String.toList_ofList] at digits
  have read := congrArg (fun ds => Nat.ofDigitChars 10 ds 0) digits
  simpa using read

theorem toList_nameVariant_succ (base : String) (k : Nat) :
    (nameVariant base (k + 1)).toList = base.toList ++ '_' :: (toString (k + 1)).toList := by
  simp [nameVariant, toString]

theorem nameVariant_injective {base : String} {j k : Nat}
    (same : nameVariant base j = nameVariant base k) : j = k := by
  have texts := congrArg String.toList same
  cases j with
  | zero =>
    cases k with
    | zero => rfl
    | succ k =>
      rw [toList_nameVariant_succ, nameVariant] at texts
      simpa using congrArg List.length texts
  | succ j =>
    cases k with
    | zero =>
      rw [toList_nameVariant_succ, nameVariant] at texts
      simpa using congrArg List.length texts
    | succ k =>
      rw [toList_nameVariant_succ, toList_nameVariant_succ] at texts
      have digits := (List.cons.inj (List.append_cancel_left texts)).2
      exact toString_nat_injective (String.toList_inj.mp digits)

/-- If the last name that is tried is taken, so are all before it. -/
theorem taken_of_untakenFrom {names : Array String} {base : String} (tries first : Nat)
    (taken : untakenFrom names base tries first ∈ names) :
    ∀ k, first ≤ k → k ≤ first + tries → nameVariant base k ∈ names := by
  induction tries generalizing first with
  | zero =>
    intro k low high
    obtain rfl : k = first := Nat.le_antisymm high low
    exact taken
  | succ tries ih =>
    rw [untakenFrom] at taken
    split at taken
    · rename_i here
      intro k low high
      rcases Nat.eq_or_lt_of_le low with rfl | later
      · exact Array.contains_iff_mem.mp here
      · exact ih (first + 1) taken k later (by omega)
    · rename_i free
      exact absurd (Array.contains_iff_mem.mpr taken) free

theorem untakenFrom_eq_nameVariant (names : Array String) (base : String) (tries first : Nat) :
    ∃ k, untakenFrom names base tries first = nameVariant base k := by
  induction tries generalizing first with
  | zero => exact ⟨first, rfl⟩
  | succ tries ih =>
    rw [untakenFrom]
    split
    · exact ih (first + 1)
    · exact ⟨first, rfl⟩

/-- There are more variants than names. -/
theorem freshName_not_mem (c : Circuit) : c.freshName ∉ c.names := by
  intro taken
  have all := taken_of_untakenFrom _ _ taken
  have distinct : ((List.range (c.names.size + 1)).map
      (nameVariant s!"g{c.names.size}")).Nodup :=
    List.Nodup.map (fun _ _ => nameVariant_injective) List.nodup_range
  have inside : (List.range (c.names.size + 1)).map (nameVariant s!"g{c.names.size}") ⊆
      c.names.toList := by
    intro name member
    obtain ⟨k, low, rfl⟩ := List.mem_map.mp member
    have below := List.mem_range.mp low
    exact Array.mem_toList_iff.mpr (all k (Nat.zero_le k) (by omega))
  -- one variant more than there are names
  have fewer := distinct.length_le_of_subset inside
  rw [List.length_map, List.length_range, Array.length_toList] at fewer
  omega

end QuantCircuit.Circuit
