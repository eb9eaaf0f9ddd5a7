import QuantCircuit.Proofs.Circuit.Renaming

/-! The traversal with a stack is a recursive depth-first search. The stack holds what the calls
that have begun have still to visit, and visiting one identifier after the other from its top does
what these calls do. -/

namespace QuantCircuit.Circuit

variable {c : Circuit} {first : List Nat} {out : Literal} {gate : Gate} {id : Nat}
variable {visited : List Nat} {seen : Array Bool}

/-- A depth-first search that has visited some identifiers, in this order, comes to one more.
Unless it was there before, it visits it, and then its inputs from left to right. Inputs that do
not come earlier would not be followed; a well-formed circuit has none. -/
def visit (c : Circuit) (visited : List Nat) (id : Nat) : List Nat :=
  if id ∈ visited then visited
  else match c.gate? id with
    | none => visited ++ [id]
    | some gate => gate.inputs.foldl (fun visited l =>
        if l.natAbs < id then c.visit visited l.natAbs else visited) (visited ++ [id])
termination_by id

/-- The variables in the order in which the search from a literal meets them. -/
def depthFirstOrder (c : Circuit) (literal : Literal) : List Nat :=
  (c.visit [] literal.natAbs).filter (· < c.maxVar)

theorem visit_of_mem (member : id ∈ visited) : c.visit visited id = visited := by
  rw [visit, if_pos member]

theorem visit_variable (fresh : id ∉ visited) (missing : c.gate? id = none) :
    c.visit visited id = visited ++ [id] := by
  rw [visit, if_neg fresh, missing]

theorem visit_gate (valid : c.WellFormed) (fresh : id ∉ visited) (found : c.gate? id = some gate) :
    c.visit visited id = (gate.inputs.map Int.natAbs).foldl c.visit (visited ++ [id]) := by
  rw [visit, if_neg fresh, found, List.foldl_map]
  apply List.foldl_ext
  intro visited l member
  exact if_pos (valid.inputs_lt id gate found l member).2

/-- How many inputs those of the gates have that have not been visited. -/
def unreadInputs (visited : List Nat) : List (Gate × Nat) → Nat
  | [] => 0
  | entry :: rest =>
    (if entry.2 ∈ visited then 0 else entry.1.inputs.length) + unreadInputs visited rest

theorem unreadInputs_concat_le (visited : List Nat) (id : Nat) (entries : List (Gate × Nat)) :
    unreadInputs (visited ++ [id]) entries ≤ unreadInputs visited entries := by
  induction entries with
  | nil => exact Nat.le_refl 0
  | cons entry rest ih =>
    refine Nat.add_le_add ?_ ih
    by_cases before : entry.2 ∈ visited
    · simp [before]
    · by_cases now : entry.2 = id <;> simp [before, now]

/-- What goes on the stack when a gate is visited has not been counted as read before. -/
theorem unreadInputs_visit {entries : List (Gate × Nat)} (member : (gate, id) ∈ entries)
    (fresh : id ∉ visited) : gate.inputs.length + unreadInputs (visited ++ [id]) entries ≤
      unreadInputs visited entries := by
  induction entries with
  | nil => simp at member
  | cons entry rest ih =>
    rcases List.mem_cons.mp member with rfl | later
    · have others := unreadInputs_concat_le visited id rest
      simp only [unreadInputs, fresh, List.mem_append, List.mem_singleton, or_true, ↓reduceIte]
      omega
    · have others := ih later
      have first := unreadInputs_concat_le visited id [entry]
      simp only [unreadInputs] at first ⊢
      omega

/-- The marks say what has been visited. -/
def Marks (c : Circuit) (seen : Array Bool) (visited : List Nat) : Prop :=
  ∀ id < c.maxGate, seen.getD id true = false ↔ id ∉ visited

theorem Marks.visit (marks : c.Marks seen visited) (id : Nat) :
    c.Marks (seen.setIfInBounds id true) (visited ++ [id]) := by
  intro v below
  rw [getD_mark, marks v below, List.mem_append, List.mem_singleton, not_or]

/-- Emptying the stack visits what is on it by recursive search, from the top down. -/
theorem foldl_visit_eq (valid : c.WellFormed) (steps : Nat) (stack : List Nat)
    (inside : ∀ id ∈ stack, id < c.maxGate) (marks : c.Marks seen visited)
    (enough : stack.length + unreadInputs visited (c.gates.toList.zipIdx c.maxVar) ≤ steps) :
    (stack.foldl c.visit visited).filter (· < c.maxVar) =
      visited.filter (· < c.maxVar) ++ c.traverse steps stack seen := by
  induction steps generalizing stack visited seen with
  | zero =>
    obtain rfl : stack = [] := List.eq_nil_of_length_eq_zero (by omega)
    simp [traverse]
  | succ steps ih =>
    cases stack with
    | nil => simp [traverse]
    | cons id stack =>
      obtain ⟨below, others⟩ := List.forall_mem_cons.mp inside
      rw [List.length_cons] at enough
      rw [List.foldl_cons, traverse]
      by_cases member : id ∈ visited
      · have old : seen.getD id true = true := by
          simpa [member] using (marks id below).not
        rw [if_pos old, visit_of_mem member]
        exact ih stack others marks (by omega)
      · have new : seen.getD id true = false := (marks id below).mpr member
        have fewer := unreadInputs_concat_le visited id (c.gates.toList.zipIdx c.maxVar)
        rw [if_neg (by simp [new])]
        cases found : c.gate? id with
        | none =>
          have small := lt_maxVar_of_gate?_eq_none found below
          rw [visit_variable member found, ih stack others (marks.visit id) (by omega)]
          simp [small]
        | some gate =>
          have large := maxVar_le_of_gate? found
          have listed : (gate, id) ∈ c.gates.toList.zipIdx c.maxVar :=
            List.mem_zipIdx_iff_le_and_getElem?_sub.mpr
              ⟨large, by simpa using (gate?_eq_some_iff.mp found).2⟩
          have read := unreadInputs_visit listed member
          rw [visit_gate valid member found, ← List.foldl_append,
            ih _ (List.forall_mem_append.mpr ⟨?_, others⟩) (marks.visit id) ?_]
          · simp [Nat.not_lt.mpr large]
          · intro v input
            obtain ⟨l, member, rfl⟩ := List.mem_map.mp input
            exact Nat.lt_trans (valid.inputs_lt id gate found l member).2 below
          · rw [List.length_append, List.length_map]
            omega

/-- Before anything is visited, the inputs of all gates are counted. -/
theorem foldl_inputs_length (gates : List Gate) (start next : Nat) :
    gates.foldl (fun steps gate => steps + gate.inputs.length) start =
      start + unreadInputs [] (gates.zipIdx next) := by
  induction gates generalizing start next with
  | nil => rfl
  | cons gate rest ih =>
    rw [List.foldl_cons, ih _ (next + 1), Nat.add_assoc]
    rfl

theorem traversalOrder_eq_depthFirstOrder (valid : c.WellFormed) (defined : c.Defines out) :
    c.traversalOrder out = c.depthFirstOrder out := by
  have marks : c.Marks (Array.replicate c.maxGate false) [] := by
    intro id below
    simp [Array.getD_eq_getD_getElem?, below]
  have enough := Nat.le_of_eq (foldl_inputs_length c.gates.toList 1 c.maxVar).symm
  rw [Array.foldl_toList] at enough
  have emptied := foldl_visit_eq valid _ [out.natAbs] (by simpa using defined.2) marks enough
  exact emptied.symm

/-- The traversal with a stack meets the variables as the recursive search does. They become the
first variables in this order, and those that are not met follow in their old order. -/
theorem traversal_follows_search (valid : c.WellFormed) (output : c.output? = some out) :
    c.traversalOrder out = c.depthFirstOrder out ∧
      ∃ m n, c.reorderByTraversal = .ok m ∧ Renames c m n ∧
        (c.depthFirstOrder out ++ (List.range' 1 (c.maxVar - 1)).filter
          (· ∉ c.depthFirstOrder out)).map n.place = List.range' 1 (c.maxVar - 1) := by
  have defined := valid.output_lt out output
  have lists := lists_traversalOrder valid defined
  have same := traversalOrder_eq_depthFirstOrder valid defined
  refine ⟨same, _, _, reorderByTraversal_eq output, renames_reorderVariables valid lists, ?_⟩
  rw [same] at lists ⊢
  exact lists.map_place_inOrder

/-- The sixth identifier is an input of the eighth one, and of the seventh, through which it is
reached first. The second variable and the fourth are not reached. -/
def shared : Circuit where
  name := "shared"
  maxVar := 6
  blocks := [⟨.ex, [2, 3]⟩]
  gates := #[{ connective := .and, inputs := [5, -1] }, { connective := .or, inputs := [-6, 3, 5] },
    { connective := .and, inputs := [7, 6] }]
  output? := some (-8)
  names := #["", "1", "2", "3", "4", "5", "6", "7", "8"]
  origin := #[0, 1, 2, 3, 4, 5, 6, 7, 8]

theorem shared_traversal_follows_search :
    shared.depthFirstOrder (-8) = [5, 1, 3] ∧
      ∃ m n, shared.reorderByTraversal = .ok m ∧ Renames shared m n ∧
        [5, 1, 3, 2, 4].map n.place = [1, 2, 3, 4, 5] := by
  have output : shared.output? = some (-8) := rfl
  obtain ⟨same, m, n, computed, renames, places⟩ :=
    traversal_follows_search (by decide : shared.WellFormed) output
  have order : shared.traversalOrder (-8) = [5, 1, 3] := by decide
  rw [← same, order] at places
  exact ⟨same.symm.trans order, m, n, computed, renames, places⟩

end QuantCircuit.Circuit
