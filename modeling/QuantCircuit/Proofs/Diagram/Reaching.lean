import QuantCircuit.Proofs.Diagram.Inspecting

namespace QuantCircuit.Diagram

/-- A handle reaches itself, and the children of the nodes it reaches. -/
inductive Reaches (d : Diagram) (f : Handle) : Handle → Prop where
  | here : Reaches d f f
  | low {index : Nat} {n : Node} (above : Reaches d f (.node index))
      (found : d.nodes[index]? = some n) : Reaches d f n.low
  | high {index : Nat} {n : Node} (above : Reaches d f (.node index))
      (found : d.nodes[index]? = some n) : Reaches d f n.high

variable {d : Diagram} {f g h : Handle} {n : Node} {index : Nat} {live : Array Bool}
variable {roots : List Handle}

theorem Reaches.holds (reaches : d.Reaches f g) (valid : d.Valid) (holds : d.Holds f) :
    d.Holds g := by
  cases reaches with
  | here => exact holds
  | low _ found => exact (valid.holds_children found).1
  | high _ found => exact (valid.holds_children found).2

theorem Reaches.trans (first : d.Reaches f g) (second : d.Reaches g h) : d.Reaches f h := by
  induction second with
  | here => exact first
  | low _ found ih => exact .low ih found
  | high _ found ih => exact .high ih found

theorem reaches_const_iff {value : Bool} : d.Reaches (.const value) h ↔ h = .const value := by
  constructor
  · intro reaches
    induction reaches with
    | here => rfl
    | low _ _ ih => simp at ih
    | high _ _ ih => simp at ih
  · intro same
    exact same ▸ .here

theorem reaches_node_iff (found : d.nodes[index]? = some n) :
    d.Reaches (.node index) h ↔ h = .node index ∨ d.Reaches n.low h ∨ d.Reaches n.high h := by
  constructor
  · intro reaches
    induction reaches with
    | here => exact .inl rfl
    | low above located ih =>
      rcases ih with same | low | high
      · obtain rfl := Handle.node.inj same
        obtain rfl := Option.some.inj (found.symm.trans located)
        exact .inr (.inl .here)
      · exact .inr (.inl (.low low located))
      · exact .inr (.inr (.low high located))
    | high above located ih =>
      rcases ih with same | low | high
      · obtain rfl := Handle.node.inj same
        obtain rfl := Option.some.inj (found.symm.trans located)
        exact .inr (.inr .here)
      · exact .inr (.inl (.high low located))
      · exact .inr (.inr (.high high located))
  · intro either
    rcases either with same | low | high
    · exact same ▸ .here
    · exact (Reaches.low .here found).trans low
    · exact (Reaches.high .here found).trans high

/-- Labels increase on the way down. -/
theorem Above.reaches (above : d.Above label f) (valid : d.Valid) (reaches : d.Reaches f h) :
    d.Above label h := by
  induction reaches with
  | here => exact above
  | low _ found ih => exact (valid.ordered _ _ found).1.mono (Nat.le_of_lt (ih _ found))
  | high _ found ih => exact (valid.ordered _ _ found).2.mono (Nat.le_of_lt (ih _ found))

/-- A walk ends below where it begins. -/
theorem Reaches.walk (reaches : d.Reaches f g) (position : Nat) (entries : List Bool) :
    d.Reaches f (d.walk position entries g) := by
  induction entries generalizing g position with
  | nil => exact reaches
  | cons entry rest ih =>
    rw [Diagram.walk]
    apply ih
    cases g with
    | const value => exact reaches
    | node index =>
      cases found : d.nodes[index]? with
      | none => simpa [found] using reaches
      | some n =>
        simp only [node?_node, found]
        split
        · cases entry with
          | true => exact .high reaches found
          | false => exact .low reaches found
        · exact reaches

/-- Marks that are closed under children are on everything that a marked handle reaches. -/
theorem MarksChildren.marked (closed : d.MarksChildren live) (reaches : d.Reaches f g)
    (marked : Marked live f) : Marked live g := by
  induction reaches with
  | here => exact marked
  | low _ found above => exact (closed _ _ found above).1
  | high _ found above => exact (closed _ _ found above).2

/-- What is marked is what the roots reach. -/
theorem reachable_iff (valid : d.Valid) (holds : ∀ f ∈ roots, d.Holds f) :
    (d.reachable roots)[index]? = some true ↔ ∃ f ∈ roots, d.Reaches f (.node index) := by
  constructor
  · intro marked
    refine reachable_induction roots (motive := fun g => ∃ f ∈ roots, d.Reaches f g) ?_ ?_ marked
    · intro f member
      exact ⟨f, member, .here⟩
    · intro parent n found reached
      obtain ⟨f, member, above⟩ := reached
      exact ⟨⟨f, member, .low above found⟩, f, member, .high above found⟩
  · intro reached
    obtain ⟨f, member, reaches⟩ := reached
    obtain ⟨_, closed, marked⟩ := reachable_spec valid roots
    exact closed.marked reaches (marked f member (holds f member))

def marks (live : Array Bool) : List Nat :=
  (live.toList.zipIdx.filter (·.1)).map (·.2)

theorem mem_marks : index ∈ marks live ↔ live[index]? = some true := by
  simp [marks, List.mem_zipIdx_iff_getElem?]

theorem marks_sorted (live : Array Bool) : (marks live).Pairwise (· < ·) := by
  have all : (live.toList.zipIdx.map (·.2)).Pairwise (· < ·) := by
    rw [List.zipIdx_map_snd]
    exact List.pairwise_lt_range'
  exact all.sublist (List.filter_sublist.map _)

theorem length_marks (live : Array Bool) : (marks live).length = live.toList.countP id := by
  rw [marks, List.length_map, ← List.countP_eq_length_filter]
  conv => rhs; rw [← List.zipIdx_map_fst 0 live.toList, List.countP_map]
  rfl

/-- The decisions of a function are the nodes it reaches, each of them once. -/
theorem nodeCount_eq (valid : d.Valid) (f : Handle) :
    d.nodeCount f = (marks (d.reachable [f])).length := by
  have sized := (reachable_spec valid [f]).1
  have second : ((d.nodes.zip (d.reachable [f])).toList.map (·.2)) = (d.reachable [f]).toList := by
    rw [Array.toList_zip]
    exact List.map_snd_zip (by simp [sized])
  rw [nodeCount, decisions, List.length_map, ← List.countP_eq_length_filter, length_marks, ← second,
    List.countP_map]
  rfl

end QuantCircuit.Diagram
