import QuantCircuit.Diagram.Collect
import QuantCircuit.Proofs.Diagram.Inspecting

namespace QuantCircuit.Diagram

variable {d : Diagram} {live : Array Bool} {state : Compaction} {count index : Nat} {n : Node}
variable {f g : Handle}

/-- A node with its children where they went. -/
def Compaction.move (state : Compaction) (n : Node) : Node :=
  { n with low := state.relocate n.low, high := state.relocate n.high }

/-- The compaction of the first nodes of a diagram: the live ones went to nodes with
their children moved, in the old order, and there are no others. -/
structure Compacted (d : Diagram) (live : Array Bool) (count : Nat) (state : Compaction) :
    Prop where
  moved_size : state.moved.size = count
  nodes_le : state.nodes.size ≤ count
  kept : ∀ index : Nat, index < count → live[index]? = some true →
    ∃ place, state.moved[index]? = some (.node place)
  inside : ∀ (index place : Nat), state.moved[index]? = some (.node place) →
    place < state.nodes.size
  source : ∀ (place : Nat) (m : Node), state.nodes[place]? = some m →
    ∃ (index : Nat) (n : Node), d.nodes[index]? = some n ∧ live[index]? = some true ∧
      state.moved[index]? = some (.node place) ∧ m = state.move n
  increasing : ∀ (index other place later : Nat), state.moved[index]? = some (.node place) →
    state.moved[other]? = some (.node later) → index < other → place < later

theorem compacted_start (d : Diagram) (live : Array Bool) : Compacted d live 0 {} := by
  constructor <;> simp

theorem relocate_push {nodes : Array Node} {place : Handle} (small : f.height ≤ state.moved.size) :
    Compaction.relocate { nodes, moved := state.moved.push place } f = state.relocate f := by
  cases f with
  | const value => rfl
  | node index =>
    have different : index ≠ state.moved.size := Nat.ne_of_lt small
    simp [Compaction.relocate, Array.getElem?_push, different]

theorem move_push {nodes : Array Node} {place : Handle} (low : n.low.height ≤ state.moved.size)
    (high : n.high.height ≤ state.moved.size) :
    Compaction.move { nodes, moved := state.moved.push place } n = state.move n := by
  simp only [Compaction.move, relocate_push low, relocate_push high]

theorem Compacted.drop (compacted : Compacted d live count state) (valid : d.Valid)
    (dead : live[count]? = some false) :
    Compacted d live (count + 1) { state with moved := state.moved.push (.const false) } := by
  have earlier {index place : Nat}
      (found : (state.moved.push (.const false))[index]? = some (.node place)) :
      state.moved[index]? = some (.node place) := by
    rw [Array.getElem?_push] at found
    split at found
    · simp at found
    · exact found
  have sized := compacted.moved_size
  refine ⟨by simp [sized], by have := compacted.nodes_le; simp; omega, ?_, ?_, ?_, ?_⟩
  · intro index small alive
    have before : index ≠ count := fun same => by simp [same, dead] at alive
    obtain ⟨place, found⟩ := compacted.kept index (by omega) alive
    exact ⟨place, by simp [Array.getElem?_push, sized, before, found]⟩
  · intro index place found
    exact compacted.inside index place (earlier found)
  · intro place m located
    obtain ⟨index, n, found, alive, went, rfl⟩ := compacted.source place m located
    have small : index < state.moved.size := (Array.getElem?_eq_some_iff.mp went).1
    have bounds := valid.children_le index n found
    refine ⟨index, n, found, alive, ?_, (move_push (by omega) (by omega)).symm⟩
    simp [Array.getElem?_push, Nat.ne_of_lt small, went]
  · intro index other place later first second
    exact compacted.increasing index other place later (earlier first) (earlier second)

theorem Compacted.keep (compacted : Compacted d live count state) (valid : d.Valid)
    (found : d.nodes[count]? = some n) (alive : live[count]? = some true) :
    Compacted d live (count + 1)
      { nodes := state.nodes.push (state.move n)
        moved := state.moved.push (.node state.nodes.size) } := by
  have sized := compacted.moved_size
  have cases {index place : Nat}
      (went : (state.moved.push (.node state.nodes.size))[index]? = some (.node place)) :
      (index = count ∧ place = state.nodes.size) ∨
        (index < count ∧ state.moved[index]? = some (.node place)) := by
    rw [Array.getElem?_push, sized] at went
    split at went
    · exact .inl ⟨‹_›, by simpa using went.symm⟩
    · exact .inr ⟨sized ▸ (Array.getElem?_eq_some_iff.mp went).1, went⟩
  refine ⟨by simp [sized], by have := compacted.nodes_le; simp; omega, ?_, ?_, ?_, ?_⟩
  · intro index small isLive
    by_cases last : index = count
    · exact ⟨state.nodes.size, by simp [last, ← sized]⟩
    · obtain ⟨place, went⟩ := compacted.kept index (by omega) isLive
      exact ⟨place, by simp [Array.getElem?_push, sized, last, went]⟩
  · intro index place went
    rcases cases went with ⟨_, rfl⟩ | ⟨_, before⟩
    · simp
    · have small := compacted.inside index place before
      simp
      omega
  · intro place m located
    rw [Array.getElem?_push] at located
    split at located
    · rename_i last
      obtain rfl := Option.some.inj located
      have bounds := valid.children_le count n found
      refine ⟨count, n, found, alive, ?_, (move_push (by omega) (by omega)).symm⟩
      simp [last, ← sized]
    · obtain ⟨index, m, before, isLive, went, rfl⟩ := compacted.source place _ located
      have small : index < state.moved.size := (Array.getElem?_eq_some_iff.mp went).1
      have bounds := valid.children_le index m before
      refine ⟨index, m, before, isLive, ?_, (move_push (by omega) (by omega)).symm⟩
      simp [Array.getElem?_push, Nat.ne_of_lt small, went]
  · intro index other place later first second before
    rcases cases first with ⟨rfl, rfl⟩ | ⟨_, old⟩
    · rcases cases second with ⟨same, _⟩ | ⟨small, _⟩ <;> omega
    · rcases cases second with ⟨_, rfl⟩ | ⟨_, oldLater⟩
      · exact compacted.inside index place old
      · exact compacted.increasing index other place later old oldLater before

theorem compacted_compact (valid : d.Valid) (sized : live.size = d.nodes.size) :
    Compacted d live d.nodes.size (d.compact live) := by
  have all : Compacted d live (d.nodes.zip live).size (d.compact live) := by
    refine Array.foldl_induction (Compacted d live) (compacted_start d live) ?_
    intro i state compacted
    obtain ⟨position, small⟩ := i
    have entry : (d.nodes.zip live)[position]? = some (d.nodes.zip live)[position] :=
      Array.getElem?_eq_getElem small
    obtain ⟨found, alive⟩ := Array.getElem?_zip_eq_some.mp entry
    simp only [Compaction.step, Fin.getElem_fin]
    cases mark : (d.nodes.zip live)[position].2 with
    | true => exact compacted.keep valid found (mark ▸ alive)
    | false => exact compacted.drop valid (mark ▸ alive)
  simpa [sized] using all

section Compacted

variable (compacted : Compacted d live d.nodes.size state)

include compacted

theorem Compacted.relocate_node (holds : d.Holds (.node index)) (alive : live[index]? = some true) :
    ∃ place, state.relocate (.node index) = .node place ∧
      state.moved[index]? = some (.node place) := by
  obtain ⟨place, went⟩ := compacted.kept index holds alive
  exact ⟨place, by simp [Compaction.relocate, went], went⟩

/-- Different live handles go to different places. -/
theorem Compacted.relocate_injective (holdsF : d.Holds f) (holdsG : d.Holds g)
    (liveF : Marked live f) (liveG : Marked live g) (same : state.relocate f = state.relocate g) :
    f = g := by
  cases f with
  | const value =>
    cases g with
    | const other => exact same
    | node index =>
      obtain ⟨place, went, _⟩ := compacted.relocate_node holdsG liveG
      rw [went] at same
      simp [Compaction.relocate] at same
  | node index =>
    obtain ⟨place, went, found⟩ := compacted.relocate_node holdsF liveF
    cases g with
    | const other =>
      rw [went] at same
      simp [Compaction.relocate] at same
    | node other =>
      obtain ⟨placeG, wentG, foundG⟩ := compacted.relocate_node holdsG liveG
      have places : place = placeG := by simpa [went, wentG] using same
      subst placeG
      rcases Nat.lt_trichotomy index other with before | equal | after
      · exact absurd (compacted.increasing _ _ _ _ found foundG before) (Nat.lt_irrefl _)
      · rw [equal]
      · exact absurd (compacted.increasing _ _ _ _ foundG found after) (Nat.lt_irrefl _)

/-- A live node is found where it went, with its children moved. -/
theorem Compacted.node_at (found : d.nodes[index]? = some n)
    (alive : live[index]? = some true) :
    ∃ place, state.relocate (.node index) = .node place ∧
      state.nodes[place]? = some (state.move n) := by
  obtain ⟨place, relocated, went⟩ := compacted.relocate_node (holds_of_getElem? found) alive
  have inside := compacted.inside index place went
  obtain ⟨other, m, foundOther, aliveOther, wentOther, moved⟩ :=
    compacted.source place state.nodes[place] (Array.getElem?_eq_getElem inside)
  have same : index = other := by
    have handles := compacted.relocate_injective (f := .node index) (g := .node other)
      (holds_of_getElem? found) (holds_of_getElem? foundOther) alive aliveOther
      (relocated.trans (by simp [Compaction.relocate, wentOther]))
    simpa using handles
  subst other
  obtain rfl : n = m := Option.some.inj (found.symm.trans foundOther)
  exact ⟨place, relocated, moved ▸ Array.getElem?_eq_getElem inside⟩

theorem Compacted.nodes_distinct (valid : d.Valid) (closed : d.MarksChildren live)
    {place other : Nat} {m : Node} (first : state.nodes[place]? = some m)
    (second : state.nodes[other]? = some m) : place = other := by
  obtain ⟨index, n, found, alive, went, moved⟩ := compacted.source place m first
  obtain ⟨index', n', found', alive', went', moved'⟩ := compacted.source other m second
  have holds := valid.holds_children found
  have holds' := valid.holds_children found'
  have marked := closed index n found alive
  have marked' := closed index' n' found' alive'
  have same : state.move n = state.move n' := moved.symm.trans moved'
  simp only [Compaction.move, Node.mk.injEq] at same
  have lows := compacted.relocate_injective holds.1 holds'.1 marked.1 marked'.1 same.2.1
  have highs := compacted.relocate_injective holds.2 holds'.2 marked.2 marked'.2 same.2.2
  have nodes : n = n' := by
    cases n
    cases n'
    simp_all
  subst n'
  obtain rfl := valid.index_unique found found'
  rw [went] at went'
  simpa using went'

end Compacted

/-- The inverse of the first nodes of a table. -/
def Indexes (nodes : Array Node) (count : Nat) (state : Std.TreeMap Node Nat × Nat) : Prop :=
  state.2 = count ∧
    ∀ (n : Node) (index : Nat), state.1[n]? = some index ↔ index < count ∧ nodes[index]? = some n

theorem Indexes.step {nodes : Array Node} {next : Nat} {unique : Std.TreeMap Node Nat}
    (indexes : Indexes nodes count (unique, next)) (here : nodes[count]? = some n)
    (fresh : ∀ index : Nat, nodes[index]? = some n → index = count) :
    Indexes nodes (count + 1) (unique.insert n next, next + 1) := by
  obtain ⟨rfl, right⟩ := indexes
  refine ⟨rfl, fun m index => ?_⟩
  simp only [Std.TreeMap.getElem?_insert, Std.LawfulEqCmp.compare_eq_iff_eq]
  by_cases same : n = m
  · subst m
    rw [if_pos rfl]
    constructor
    · intro found
      obtain rfl := Option.some.inj found
      exact ⟨Nat.lt_succ_self _, here⟩
    · rintro ⟨_, found⟩
      rw [fresh index found]
  · rw [if_neg same, right]
    constructor
    · rintro ⟨before, found⟩
      exact ⟨Nat.lt_succ_of_lt before, found⟩
    · rintro ⟨before, found⟩
      have different : index ≠ next := fun equal => by
        subst index
        exact same (Option.some.inj (here.symm.trans found))
      exact ⟨Nat.lt_of_le_of_ne (Nat.le_of_lt_succ before) different, found⟩

/-- In a table without equal nodes the inverse finds every node. -/
theorem inverse_getElem? {nodes : Array Node}
    (distinct : ∀ (index other : Nat) (n : Node), nodes[index]? = some n →
      nodes[other]? = some n → index = other) :
    (inverse nodes)[n]? = some index ↔ nodes[index]? = some n := by
  have all : Indexes nodes nodes.size
      (nodes.foldl (fun state n => (state.1.insert n state.2, state.2 + 1)) (∅, 0)) := by
    refine Array.foldl_induction (Indexes nodes) ⟨rfl, by simp⟩ ?_
    rintro ⟨position, small⟩ ⟨unique, next⟩ indexes
    have here : nodes[position]? = some nodes[position] := Array.getElem?_eq_getElem small
    exact indexes.step here fun index found => distinct index position _ found here
  refine (all.2 n index).trans ⟨And.right, fun found => ⟨?_, found⟩⟩
  exact (Array.getElem?_eq_some_iff.mp found).1

/-- The diagram with the live nodes only. -/
def collected (d : Diagram) (state : Compaction) : Diagram :=
  { d with nodes := state.nodes, unique := inverse state.nodes, selections := ∅ }

section Collected

variable (compacted : Compacted d live d.nodes.size state) (valid : d.Valid)
  (closed : d.MarksChildren live)

include compacted

theorem Compacted.above (holds : d.Holds f) (marked : Marked live f) (above : d.Above label f) :
    (d.collected state).Above label (state.relocate f) := by
  intro m found
  cases f with
  | const value => simp [Compaction.relocate] at found
  | node index =>
    obtain ⟨n, located⟩ := exists_getElem? holds
    obtain ⟨place, relocated, there⟩ := compacted.node_at located marked
    rw [relocated, node?_node] at found
    obtain rfl : state.move n = m := Option.some.inj (there.symm.trans found)
    exact above n located

include valid closed

theorem Compacted.children_at {place : Nat} {m : Node} (found : state.nodes[place]? = some m) :
    ∃ (index : Nat) (n : Node), d.nodes[index]? = some n ∧ m = state.move n ∧
      Marked live n.low ∧ Marked live n.high ∧
      (state.relocate n.low).height ≤ place ∧ (state.relocate n.high).height ≤ place := by
  obtain ⟨index, n, located, alive, went, moved⟩ := compacted.source place m found
  have bounds := valid.children_le index n located
  have holds := valid.holds_children located
  have marked := closed index n located alive
  have low (child : Handle) (below : child.height ≤ index) (holds : d.Holds child)
      (marked : Marked live child) : (state.relocate child).height ≤ place := by
    cases child with
    | const value => exact Nat.zero_le _
    | node other =>
      obtain ⟨earlier, relocated, wentChild⟩ := compacted.relocate_node holds marked
      rw [relocated]
      exact compacted.increasing other index earlier place wentChild went below
  exact ⟨index, n, located, moved, marked.1, marked.2, low _ bounds.1 holds.1 marked.1,
    low _ bounds.2 holds.2 marked.2⟩

theorem Compacted.valid_collected : (d.collected state).Valid := by
  have distinct (index other : Nat) (n : Node) (first : state.nodes[index]? = some n)
      (second : state.nodes[other]? = some n) : index = other :=
    compacted.nodes_distinct valid closed first second
  constructor
  · intro place m found
    obtain ⟨_, n, _, rfl, _, _, low, high⟩ := compacted.children_at valid closed found
    exact ⟨low, high⟩
  · intro place m found
    obtain ⟨index, n, located, rfl, markedLow, markedHigh, _⟩ :=
      compacted.children_at valid closed found
    have holds := valid.holds_children located
    have ordered := valid.ordered index n located
    exact ⟨compacted.above holds.1 markedLow ordered.1,
      compacted.above holds.2 markedHigh ordered.2⟩
  · intro place m found same
    obtain ⟨index, n, located, rfl, markedLow, markedHigh, _⟩ :=
      compacted.children_at valid closed found
    have holds := valid.holds_children located
    exact valid.reduced index n located
      (compacted.relocate_injective holds.1 holds.2 markedLow markedHigh same)
  · intro index n
    exact inverse_getElem? distinct
  · intro s f found
    simp [collected] at found
  · exact Nat.le_trans compacted.nodes_le valid.size_le

theorem Compacted.relocate_spec (holds : d.Holds f) (marked : Marked live f) :
    (d.collected state).Holds (state.relocate f) ∧
      ∀ σ, (d.collected state).value σ (state.relocate f) = d.value σ f := by
  have later := compacted.valid_collected valid closed
  refine valid.marked_induction closed (motive := fun f => (d.collected state).Holds (state.relocate f) ∧
    ∀ σ, (d.collected state).value σ (state.relocate f) = d.value σ f) ?_ ?_ holds marked
  · intro value
    simp [Compaction.relocate]
  · intro index n alive found low high
    obtain ⟨place, relocated, there⟩ := compacted.node_at found alive
    rw [relocated]
    refine ⟨holds_of_getElem? (d := d.collected state) there, fun σ => ?_⟩
    rw [later.value_node there, valid.value_node found]
    simp only [Compaction.move, low.2 σ, high.2 σ]

end Collected

/-- The roots mean the same as before in the collected diagram. -/
theorem collect_spec (valid : d.Valid) {roots : List Handle} (holds : ∀ f ∈ roots, d.Holds f) :
    (d.collect roots).2.Valid ∧ (d.collect roots).2.limit = d.limit ∧
      ∃ move : Handle → Handle, (d.collect roots).1 = roots.map move ∧
        ∀ f ∈ roots, (d.collect roots).2.Holds (move f) ∧
          ∀ σ, (d.collect roots).2.value σ (move f) = d.value σ f := by
  obtain ⟨sized, closed, marked⟩ := reachable_spec valid roots
  have compacted := compacted_compact valid sized
  refine ⟨compacted.valid_collected valid closed, rfl, _, rfl, fun f member => ?_⟩
  exact compacted.relocate_spec valid closed (holds f member) (marked f member (holds f member))

end QuantCircuit.Diagram
