import QuantCircuit.Proofs.Diagram.Evaluating
import QuantCircuit.Proofs.Diagram.Reaching

/-! Nobody who holds the roots can tell that garbage was collected, except by the size of the
table. Exactly the nodes that the roots reach are left, in their old order, and a second
collection finds nothing to do. -/

namespace QuantCircuit

/-- An increasing list without gaps, from zero on, counts its places. -/
theorem eq_range_of_sorted {numbers : List Nat} {count : Nat} (sorted : numbers.Pairwise (· < ·))
    (members : ∀ i, i ∈ numbers ↔ i < count) : numbers = List.range count := by
  have same : numbers.Perm (List.range count) :=
    (List.perm_ext_iff_of_nodup (sorted.imp Nat.ne_of_lt) List.nodup_range).mpr fun i =>
      (members i).trans List.mem_range.symm
  refine same.eq_of_pairwise (fun a b _ _ before after => ?_) sorted List.pairwise_lt_range
  exact absurd before (Nat.lt_asymm after)

namespace Diagram

variable {d : Diagram} {live : Array Bool} {state : Compaction} {index limit : Nat} {n : Node}
variable {f g : Handle} {roots : List Handle} {entries : List Bool} {position : Nat}

section Compacted

variable (compacted : Compacted d live d.nodes.size state)

include compacted

/-- Live nodes take the places from zero on, in their old order. -/
theorem Compacted.places (sized : live.size = d.nodes.size) :
    (marks live).map (fun index => state.relocate (.node index)) =
      (List.range state.nodes.size).map .node := by
  have inside {index : Nat} (member : index ∈ marks live) : d.Holds (.node index) := by
    have small : index < live.size := (Array.getElem?_eq_some_iff.mp (mem_marks.mp member)).1
    rw [sized] at small
    exact small
  let place (index : Nat) : Nat := (state.relocate (.node index)).height - 1
  have went {index : Nat} (member : index ∈ marks live) :
      state.moved[index]? = some (.node (place index)) ∧
        state.relocate (.node index) = .node (place index) := by
    obtain ⟨there, relocated, found⟩ :=
      compacted.relocate_node (inside member) (mem_marks.mp member)
    have same : place index = there := by
      simp only [place, relocated, Handle.height, Nat.add_sub_cancel]
    exact ⟨same ▸ found, same ▸ relocated⟩
  have sorted : ((marks live).map place).Pairwise (· < ·) := by
    refine List.pairwise_map.mpr ((marks_sorted live).imp_of_mem fun first second before => ?_)
    exact compacted.increasing _ _ _ _ (went first).1 (went second).1 before
  have members (p : Nat) : p ∈ (marks live).map place ↔ p < state.nodes.size := by
    rw [List.mem_map]
    constructor
    · intro placed
      obtain ⟨index, member, rfl⟩ := placed
      exact compacted.inside _ _ (went member).1
    · intro small
      obtain ⟨index, _, _, alive, found, _⟩ :=
        compacted.source p state.nodes[p] (Array.getElem?_eq_getElem small)
      have member : index ∈ marks live := mem_marks.mpr alive
      refine ⟨index, member, ?_⟩
      simpa using (went member).1.symm.trans found
  rw [← eq_range_of_sorted sorted members, List.map_map]
  exact List.map_congr_left fun index member => (went member).2

/-- If all nodes are live, none of them moves. -/
theorem Compacted.unmoved (sized : live.size = d.nodes.size)
    (all : ∀ index, index < d.nodes.size → live[index]? = some true) (valid : d.Valid) :
    state.nodes = d.nodes ∧ ∀ f, d.Holds f → state.relocate f = f := by
  have everything : marks live = List.range d.nodes.size := by
    apply eq_range_of_sorted (marks_sorted live)
    intro index
    rw [mem_marks]
    exact ⟨fun alive => sized ▸ (Array.getElem?_eq_some_iff.mp alive).1, all index⟩
  have places := compacted.places sized
  rw [everything] at places
  have count : d.nodes.size = state.nodes.size := by simpa using congrArg List.length places
  rw [← count] at places
  have stays : ∀ f, d.Holds f → state.relocate f = f := by
    intro f holds
    cases f with
    | const value => rfl
    | node index => exact List.map_inj_left.mp places index (List.mem_range.mpr holds)
  refine ⟨Array.ext_getElem? fun index => ?_, stays⟩
  cases found : d.nodes[index]? with
  | none =>
    have behind : d.nodes.size ≤ index := Array.getElem?_eq_none_iff.mp found
    exact Array.getElem?_eq_none (count ▸ behind)
  | some n =>
    have holds : d.Holds (.node index) := holds_of_getElem? found
    obtain ⟨place, relocated, there⟩ := compacted.node_at found (all index holds)
    obtain rfl := Handle.node.inj ((stays _ holds).symm.trans relocated)
    have children := valid.holds_children found
    rw [there, Compaction.move, stays _ children.1, stays _ children.2]

theorem Compacted.exists_moved (holds : d.Holds f) (marked : Marked live f)
    (went : state.relocate f = .node index) (found : state.nodes[index]? = some n) :
    ∃ (old : Nat) (m : Node), f = .node old ∧ d.nodes[old]? = some m ∧ n = state.move m := by
  cases f with
  | const value => simp [Compaction.relocate] at went
  | node old =>
    obtain ⟨m, located⟩ := exists_getElem? holds
    obtain ⟨place, relocated, there⟩ := compacted.node_at located marked
    obtain rfl := Handle.node.inj (relocated.symm.trans went)
    exact ⟨old, m, rfl, located, Option.some.inj (found.symm.trans there)⟩

variable (closed : d.MarksChildren live)

include closed

/-- What lies below a function lies below it afterwards. -/
theorem Compacted.reaches (reaches : d.Reaches f g) (marked : Marked live f) :
    (d.collected state).Reaches (state.relocate f) (state.relocate g) := by
  induction reaches with
  | here => exact .here
  | low above found ih =>
    obtain ⟨place, relocated, there⟩ := compacted.node_at found (closed.marked above marked)
    rw [relocated] at ih
    exact .low ih there
  | high above found ih =>
    obtain ⟨place, relocated, there⟩ := compacted.node_at found (closed.marked above marked)
    rw [relocated] at ih
    exact .high ih there

variable (valid : d.Valid)

include valid

theorem Compacted.exists_of_reaches (holds : d.Holds f) (marked : Marked live f)
    (reaches : (d.collected state).Reaches (state.relocate f) g) :
    ∃ h, d.Reaches f h ∧ state.relocate h = g := by
  induction reaches with
  | here => exact ⟨f, .here, rfl⟩
  | low above found ih =>
    obtain ⟨h, reached, went⟩ := ih
    obtain ⟨old, m, rfl, located, rfl⟩ := compacted.exists_moved (reached.holds valid holds)
      (closed.marked reached marked) went found
    exact ⟨m.low, .low reached located, rfl⟩
  | high above found ih =>
    obtain ⟨h, reached, went⟩ := ih
    obtain ⟨old, m, rfl, located, rfl⟩ := compacted.exists_moved (reached.holds valid holds)
      (closed.marked reached marked) went found
    exact ⟨m.high, .high reached located, rfl⟩

theorem Compacted.walk_eq (holds : d.Holds f) (marked : Marked live f) :
    (d.collected state).walk position entries (state.relocate f) =
      state.relocate (d.walk position entries f) := by
  induction entries generalizing f position with
  | nil => rfl
  | cons entry rest ih =>
    cases f with
    | const value => simp [Compaction.relocate]
    | node index =>
      obtain ⟨n, found⟩ := exists_getElem? holds
      obtain ⟨place, relocated, there⟩ := compacted.node_at found marked
      have children := valid.holds_children found
      have marks := closed index n found marked
      have located : (d.collected state).node? (state.relocate (.node index)) =
          some (state.move n) := by
        rw [relocated]
        exact there
      simp only [walk, located, node?_node, found]
      by_cases here : n.label = position
      · rw [if_pos here, if_pos (show (state.move n).label = position from here)]
        cases entry with
        | true => exact ih children.2 marks.2
        | false => exact ih children.1 marks.1
      · rw [if_neg here, if_neg (show ¬ (state.move n).label = position from here)]
        exact ih holds marked

theorem Compacted.evaluate_eq (holds : d.Holds f) (marked : Marked live f) :
    (d.collected state).evaluate (state.relocate f) entries = d.evaluate f entries := by
  have reached := Reaches.here.walk (d := d) (f := f) 0 entries
  rw [evaluate, compacted.walk_eq closed valid holds marked, evaluate]
  cases ends : d.walk 0 entries f with
  | const value => rfl
  | node index =>
    rw [ends] at reached
    obtain ⟨place, relocated, _⟩ := compacted.relocate_node (reached.holds valid holds)
      (closed.marked reached marked)
    rw [relocated]
    rfl

/-- A function has as many nodes as before. -/
theorem Compacted.nodeCount_eq (holds : d.Holds f) (marked : Marked live f) :
    (d.collected state).nodeCount (state.relocate f) = d.nodeCount f := by
  have later := compacted.valid_collected valid closed
  have held := (compacted.relocate_spec valid closed holds marked).1
  have below {index : Nat} : index ∈ marks (d.reachable [f]) ↔ d.Reaches f (.node index) := by
    rw [mem_marks, reachable_iff valid (by simpa using holds)]
    simp
  have belowLater {index : Nat} :
      index ∈ marks ((d.collected state).reachable [state.relocate f]) ↔
        (d.collected state).Reaches (state.relocate f) (.node index) := by
    rw [mem_marks, reachable_iff later (by simpa using held)]
    simp
  have alive {index : Nat} (reached : d.Reaches f (.node index)) :=
    closed.marked reached marked
  have inside {index : Nat} (reached : d.Reaches f (.node index)) := reached.holds valid holds
  -- relocation is a bijection between what lies below before and after
  have same : ((marks ((d.collected state).reachable [state.relocate f])).map Handle.node).Perm
      ((marks (d.reachable [f])).map fun index => state.relocate (.node index)) := by
    refine (List.perm_ext_iff_of_nodup ?_ ?_).mpr fun g => ?_
    · exact ((marks_sorted _).imp Nat.ne_of_lt).map _ fun _ _ different same =>
        different (Handle.node.inj same)
    · refine List.pairwise_map.mpr ((marks_sorted _).imp_of_mem fun first second before same => ?_)
      have reachedFirst := below.mp first
      have reachedSecond := below.mp second
      have equal := compacted.relocate_injective (inside reachedFirst) (inside reachedSecond)
        (alive reachedFirst) (alive reachedSecond) same
      exact absurd (Handle.node.inj equal) (Nat.ne_of_lt before)
    · simp only [List.mem_map, below, belowLater]
      constructor
      · intro reached
        obtain ⟨index, reached, rfl⟩ := reached
        obtain ⟨h, before, went⟩ := compacted.exists_of_reaches closed valid holds marked reached
        cases h with
        | const value => simp [Compaction.relocate] at went
        | node old => exact ⟨old, before, went⟩
      · intro reached
        obtain ⟨index, reached, rfl⟩ := reached
        obtain ⟨place, relocated, _⟩ := compacted.relocate_node (inside reached) (alive reached)
        have after := compacted.reaches closed reached marked
        rw [relocated] at after
        exact ⟨place, after, relocated.symm⟩
  rw [Diagram.nodeCount_eq later, Diagram.nodeCount_eq valid]
  simpa using same.length_eq

end Compacted

/-- What a collection comes to: where each root went, and which nodes were kept. -/
structure Reclaims (d : Diagram) (roots : List Handle) (move : Handle → Handle) (kept : List Nat)
    (moved : List Handle) (e : Diagram) : Prop where
  moved_eq : moved = roots.map move
  move_const : ∀ value, move (.const value) = .const value
  move_eq_iff : ∀ f ∈ roots, ∀ g ∈ roots, move f = move g ↔ f = g
  holds : ∀ f ∈ roots, e.Holds (move f)
  value_eq : ∀ f ∈ roots, ∀ σ, e.value σ (move f) = d.value σ f
  evaluate_eq : ∀ f ∈ roots, ∀ entries, e.evaluate (move f) entries = d.evaluate f entries
  nodeCount_eq : ∀ f ∈ roots, e.nodeCount (move f) = d.nodeCount f
  valid : e.Valid
  limit_eq : e.limit = d.limit
  selections_eq : e.selections = ∅
  /-- The nodes that are kept, in increasing order, are those that the roots reach. -/
  kept_sorted : kept.Pairwise (· < ·)
  mem_kept : ∀ index, index ∈ kept ↔ ∃ f ∈ roots, d.Reaches f (.node index)
  /-- They take the places from zero on, with their children moved. -/
  places : kept.map (fun index => move (.node index)) = (List.range e.size).map .node
  nodes : ∀ index ∈ kept, ∃ n, d.nodes[index]? = some n ∧
    e.node? (move (.node index)) = some ⟨n.label, move n.low, move n.high⟩
  size_eq : e.size = kept.length
  /-- Collecting again changes nothing. -/
  again : e.collect moved = (moved, e)

theorem collected_eq_of_nodes {later : Compaction} (same : later.nodes = state.nodes) :
    (d.collected state).collected later = d.collected state := by
  simp only [collected, same]

/-- After a collection every node is below a root, so another one keeps them all. -/
theorem collect_again (valid : d.Valid) (holds : ∀ f ∈ roots, d.Holds f) :
    (d.collect roots).2.collect (d.collect roots).1 = d.collect roots := by
  obtain ⟨sized, closed, marked⟩ := reachable_spec valid roots
  have compacted := compacted_compact valid sized
  have later := compacted.valid_collected valid closed
  let state := d.compact (d.reachable roots)
  let e := d.collected state
  have held : ∀ f ∈ roots.map state.relocate, e.Holds f := by
    intro f member
    obtain ⟨root, listed, rfl⟩ := List.mem_map.mp member
    exact (compacted.relocate_spec valid closed (holds root listed)
      (marked root listed (holds root listed))).1
  have all : ∀ index, index < e.nodes.size →
      (e.reachable (roots.map state.relocate))[index]? = some true := by
    intro index inside
    obtain ⟨old, _, _, alive, went, _⟩ :=
      compacted.source index state.nodes[index] (Array.getElem?_eq_getElem inside)
    obtain ⟨root, listed, reached⟩ := (reachable_iff valid holds).mp alive
    have after := compacted.reaches closed reached (marked root listed (holds root listed))
    have relocated : state.relocate (.node old) = .node index := by
      simp [Compaction.relocate, state, went]
    rw [relocated] at after
    exact (reachable_iff later held).mpr ⟨_, List.mem_map_of_mem listed, after⟩
  have sizedLater := (reachable_spec later (roots.map state.relocate)).1
  obtain ⟨nodes, stays⟩ := (compacted_compact later sizedLater).unmoved sizedLater all later
  have roots_eq : (roots.map state.relocate).map
      (e.compact (e.reachable (roots.map state.relocate))).relocate = roots.map state.relocate := by
    conv => rhs; rw [← List.map_id (roots.map state.relocate)]
    exact List.map_congr_left fun f member => stays f (held f member)
  exact Prod.ext roots_eq (collected_eq_of_nodes nodes)

/-- Garbage collection is invisible, whatever was done to the diagram before and whichever
handles are roots. -/
theorem collect_invisible (reached : Reachable limit d) (holds : d.HoldsAll roots) :
    ∃ move kept, Reclaims d roots move kept (d.collect roots).1 (d.collect roots).2 := by
  obtain ⟨valid, _⟩ := reached.valid
  obtain ⟨sized, closed, marked⟩ := reachable_spec valid roots
  have compacted := compacted_compact valid sized
  have alive (f : Handle) (member : f ∈ roots) := marked f member (holds f member)
  have moves (f : Handle) (member : f ∈ roots) :=
    compacted.relocate_spec valid closed (holds f member) (alive f member)
  have places := compacted.places sized
  have size_eq : (marks (d.reachable roots)).length =
      (d.compact (d.reachable roots)).nodes.size := by
    simpa using congrArg List.length places
  refine ⟨(d.compact (d.reachable roots)).relocate, marks (d.reachable roots), {
    moved_eq := rfl
    move_const := fun _ => rfl
    move_eq_iff := fun f memberF g memberG => ⟨compacted.relocate_injective (holds f memberF)
      (holds g memberG) (alive f memberF) (alive g memberG), congrArg _⟩
    holds := fun f member => (moves f member).1
    value_eq := fun f member => (moves f member).2
    evaluate_eq := fun f member entries =>
      compacted.evaluate_eq closed valid (holds f member) (alive f member)
    nodeCount_eq := fun f member =>
      compacted.nodeCount_eq closed valid (holds f member) (alive f member)
    valid := compacted.valid_collected valid closed
    limit_eq := rfl
    selections_eq := rfl
    kept_sorted := marks_sorted _
    mem_kept := fun index => mem_marks.trans (reachable_iff valid holds)
    places := places
    nodes := fun index member => ?_
    size_eq := size_eq.symm
    again := collect_again valid holds }⟩
  have live := mem_marks.mp member
  have inside : index < d.nodes.size := sized ▸ (Array.getElem?_eq_some_iff.mp live).1
  have found : d.nodes[index]? = some d.nodes[index] := Array.getElem?_eq_getElem inside
  obtain ⟨place, relocated, there⟩ := compacted.node_at found live
  rw [relocated]
  exact ⟨_, found, there⟩

/-- Roots may be listed more than once, and constants may be among them. -/
theorem pair_collect_invisible :
    (pair.collect [.node 1, .const true, .node 1]).1 = [.node 0, .const true, .node 0] ∧
      pair.size = 3 ∧ (pair.collect [.node 1, .const true, .node 1]).2.size = 1 ∧
      ∃ move kept, Reclaims pair [.node 1, .const true, .node 1] move kept
        (pair.collect [.node 1, .const true, .node 1]).1
        (pair.collect [.node 1, .const true, .node 1]).2 :=
  ⟨by decide +kernel, by decide +kernel, by decide +kernel,
    collect_invisible reachable_pair (by decide +kernel)⟩

end Diagram

end QuantCircuit
