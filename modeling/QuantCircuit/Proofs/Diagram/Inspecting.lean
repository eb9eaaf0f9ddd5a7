import QuantCircuit.Diagram.Query
import QuantCircuit.Proofs.Diagram.Canonicity

namespace QuantCircuit

section SortedLists

theorem eraseReps_loop_spec {first : Nat} {rest : List Nat} (acc : List Nat)
    (sorted : (first :: rest).Pairwise (· ≤ ·)) :
    ∃ tail, List.eraseRepsBy.loop (· == ·) first rest acc = acc.reverse ++ first :: tail ∧
      (first :: tail).Pairwise (· < ·) ∧ ∀ v, v ∈ first :: tail ↔ v ∈ first :: rest := by
  induction rest generalizing first acc with
  | nil => exact ⟨[], by simp [List.eraseRepsBy.loop], by simp, by simp⟩
  | cons second rest ih =>
    obtain ⟨least, sortedRest⟩ := List.pairwise_cons.mp sorted
    by_cases same : first = second
    · subst second
      obtain ⟨tail, result, increasing, members⟩ := ih acc sortedRest
      exact ⟨tail, by simpa [List.eraseRepsBy.loop] using result, increasing, by simp [members]⟩
    · obtain ⟨tail, result, increasing, members⟩ := ih (first :: acc) sortedRest
      have before : first < second := Nat.lt_of_le_of_ne (least second (by simp)) same
      have different : (first == second) = false := by simp [same]
      refine ⟨second :: tail, by simp [List.eraseRepsBy.loop, different, result],
        List.pairwise_cons.mpr ⟨?_, increasing⟩, ?_⟩
      · intro v member
        rcases List.mem_cons.mp ((members v).mp member) with rfl | later
        · exact before
        · exact Nat.lt_of_lt_of_le before ((List.pairwise_cons.mp sortedRest).1 v later)
      · intro v
        rw [List.mem_cons, members v, List.mem_cons (l := second :: rest)]

theorem eraseReps_spec {vars : List Nat} (sorted : vars.Pairwise (· ≤ ·)) :
    vars.eraseReps.Pairwise (· < ·) ∧ ∀ v, v ∈ vars.eraseReps ↔ v ∈ vars := by
  cases vars with
  | nil => simp [List.eraseReps, List.eraseRepsBy]
  | cons first rest =>
    obtain ⟨tail, result, increasing, members⟩ := eraseReps_loop_spec [] sorted
    simp only [List.eraseReps, List.eraseRepsBy, result]
    exact ⟨increasing, members⟩

theorem pairwise_le_mergeSort (vars : List Nat) : vars.mergeSort.Pairwise (· ≤ ·) := by
  have sorted : (vars.mergeSort fun v w => decide (v ≤ w)).Pairwise fun v w => decide (v ≤ w) :=
    List.pairwise_mergeSort (by simp; omega) (by simp; omega) vars
  simpa using sorted

end SortedLists

namespace Diagram

variable {d : Diagram} {f g : Handle} {n : Node} {index : Nat} {live : Array Bool}
variable {stack : List Handle}

/-- Constants need no mark. -/
def Marked (live : Array Bool) : Handle → Prop
  | .const _ => True
  | .node index => live[index]? = some true

theorem Marked.visit (marked : Marked live g) (index : Nat) :
    Marked (live.setIfInBounds index true) g := by
  cases g with
  | const value => trivial
  | node other =>
    rw [Marked, Array.getElem?_setIfInBounds]
    split
    · rename_i here
      have inside : other < live.size := (Array.getElem?_eq_some_iff.mp marked).1
      rw [if_pos (here ▸ inside)]
    · exact marked

theorem eq_or_marked_of_visit {other : Nat}
    (marked : (live.setIfInBounds index true)[other]? = some true) :
    other = index ∨ live[other]? = some true := by
  rw [Array.getElem?_setIfInBounds] at marked
  split at marked
  · rename_i here
    exact .inl here.symm
  · exact .inr marked

def MarksChildren (d : Diagram) (live : Array Bool) : Prop :=
  ∀ (index : Nat) (n : Node), d.nodes[index]? = some n → live[index]? = some true →
    Marked live n.low ∧ Marked live n.high

/-- A handle of the table is marked, or it lies on the stack still. -/
def Met (d : Diagram) (stack : List Handle) (live : Array Bool) (f : Handle) : Prop :=
  d.Holds f → Marked live f ∨ f ∈ stack

/-- The children of marked nodes have been met. -/
def Explores (d : Diagram) (stack : List Handle) (live : Array Bool) : Prop :=
  ∀ (index : Nat) (n : Node), d.nodes[index]? = some n → live[index]? = some true →
    d.Met stack live n.low ∧ d.Met stack live n.high

/-- What has been met when there is nothing left to look at is marked. -/
theorem Met.marked (met : d.Met [] live f) (holds : d.Holds f) : Marked live f := by
  simpa [Met] using met holds

theorem Met.skip (met : d.Met (f :: stack) live g) (old : d.Holds f → Marked live f) :
    d.Met stack live g := by
  intro holds
  rcases met holds with marked | listed
  · exact .inl marked
  · rcases List.mem_cons.mp listed with rfl | later
    · exact .inl (old holds)
    · exact .inr later

theorem Met.visit (met : d.Met (.node index :: stack) live g) (fresh : live[index]? = some false)
    (n : Node) : d.Met (n.high :: n.low :: stack) (live.setIfInBounds index true) g := by
  intro holds
  rcases met holds with marked | listed
  · exact .inl (marked.visit index)
  · rcases List.mem_cons.mp listed with rfl | later
    · have inside : index < live.size := (Array.getElem?_eq_some_iff.mp fresh).1
      exact .inl (by simp [Marked, inside])
    · exact .inr (by simp [later])

theorem Explores.skip (explores : d.Explores (f :: stack) live)
    (old : d.Holds f → Marked live f) : d.Explores stack live := by
  intro index n found marked
  obtain ⟨low, high⟩ := explores index n found marked
  exact ⟨low.skip old, high.skip old⟩

theorem Explores.visit (explores : d.Explores (.node index :: stack) live)
    (fresh : live[index]? = some false) (found : d.nodes[index]? = some n) :
    d.Explores (n.high :: n.low :: stack) (live.setIfInBounds index true) := by
  intro other m located marked
  rcases eq_or_marked_of_visit marked with rfl | before
  · obtain rfl := Option.some.inj (found.symm.trans located)
    exact ⟨fun _ => .inr (by simp), fun _ => .inr (by simp)⟩
  · obtain ⟨low, high⟩ := explores other m located before
    exact ⟨low.visit fresh n, high.visit fresh n⟩

/-- What is taken off the stack has been marked before, or is a node that is marked now. -/
theorem explore_cons (sized : live.size = d.nodes.size) (steps : Nat) (f : Handle)
    (stack : List Handle) :
    (d.explore (steps + 1) (f :: stack) live = d.explore steps stack live ∧
        (d.Holds f → Marked live f)) ∨
      ∃ index n, f = .node index ∧ live[index]? = some false ∧ d.nodes[index]? = some n ∧
        d.explore (steps + 1) (f :: stack) live =
          d.explore steps (n.high :: n.low :: stack) (live.setIfInBounds index true) := by
  cases f with
  | const value => exact .inl ⟨rfl, fun _ => trivial⟩
  | node index =>
    by_cases inside : index < d.nodes.size
    · have found := Array.getElem?_eq_getElem inside
      have located := Array.getElem?_eq_getElem (sized ▸ inside : index < live.size)
      cases mark : live[index] with
      | true =>
        rw [mark] at located
        exact .inl ⟨by simp [explore, located], fun _ => located⟩
      | false =>
        rw [mark] at located
        exact .inr ⟨index, _, rfl, located, found, by simp [explore, located, found]⟩
    · have missing := Array.getElem?_eq_none (Nat.le_of_not_lt inside)
      exact .inl ⟨by simp [explore, missing], fun holds => absurd holds inside⟩

/-- A mark leaves one node less without a mark. -/
theorem count_setIfInBounds (fresh : live[index]? = some false) :
    (live.setIfInBounds index true).count false + 1 = live.count false := by
  obtain ⟨inside, value⟩ := Array.getElem?_eq_some_iff.mp fresh
  have positive : 0 < live.count false :=
    Array.count_pos_iff.mpr (Array.mem_of_getElem? fresh)
  rw [Array.setIfInBounds_def, dif_pos inside, Array.count_set, value]
  simp only [BEq.rfl, if_true]
  simpa using Nat.sub_add_cancel positive

/-- With a step for each handle on the stack and two for each node without a mark, the stack is
empty in the end. -/
theorem explore_spec (steps : Nat) (stack : List Handle) (sized : live.size = d.nodes.size)
    (enough : stack.length + 2 * live.count false ≤ steps) (explores : d.Explores stack live) :
    (d.explore steps stack live).size = d.nodes.size ∧
      d.Explores [] (d.explore steps stack live) ∧
      ∀ f, d.Met stack live f → d.Met [] (d.explore steps stack live) f := by
  induction steps generalizing stack live with
  | zero =>
    obtain rfl : stack = [] := List.eq_nil_of_length_eq_zero (by omega)
    exact ⟨sized, explores, fun _ met => met⟩
  | succ steps ih =>
    cases stack with
    | nil => exact ⟨sized, explores, fun _ met => met⟩
    | cons f stack =>
      rw [List.length_cons] at enough
      rcases explore_cons sized steps f stack with ⟨same, old⟩ |
        ⟨index, n, rfl, fresh, found, same⟩
      · rw [same]
        obtain ⟨size, closed, kept⟩ := ih stack sized (by omega) (explores.skip old)
        exact ⟨size, closed, fun g met => kept g (met.skip old)⟩
      · have fewer := count_setIfInBounds fresh
        have less : (n.high :: n.low :: stack).length +
            2 * (live.setIfInBounds index true).count false ≤ steps := by
          simp only [List.length_cons]
          omega
        rw [same]
        obtain ⟨size, closed, kept⟩ :=
          ih _ (by simpa using sized) less (explores.visit fresh found)
        exact ⟨size, closed, fun g met => kept g (met.visit fresh n)⟩

/-- What holds of the marked nodes and of the stack, and passes to children, holds of all nodes
that are marked from there on. -/
theorem explore_induction {motive : Handle → Prop} (steps : Nat) (stack : List Handle)
    (sized : live.size = d.nodes.size) (start : ∀ f ∈ stack, motive f)
    (marked : ∀ index, live[index]? = some true → motive (.node index))
    (children : ∀ (index : Nat) (n : Node), d.nodes[index]? = some n → motive (.node index) →
      motive n.low ∧ motive n.high) :
    ∀ index, (d.explore steps stack live)[index]? = some true → motive (.node index) := by
  induction steps generalizing stack live with
  | zero => exact marked
  | succ steps ih =>
    cases stack with
    | nil => exact marked
    | cons f stack =>
      obtain ⟨first, rest⟩ := List.forall_mem_cons.mp start
      rcases explore_cons sized steps f stack with ⟨same, _⟩ | ⟨index, n, rfl, _, found, same⟩
      · rw [same]
        exact ih stack sized rest marked
      · obtain ⟨low, high⟩ := children index n found first
        have listed := List.forall_mem_cons.mpr ⟨high, List.forall_mem_cons.mpr ⟨low, rest⟩⟩
        rw [same]
        refine ih _ (by simpa using sized) listed fun other now => ?_
        rcases eq_or_marked_of_visit now with rfl | before
        · exact first
        · exact marked other before

theorem not_marked_replicate (size : Nat) : (Array.replicate size false)[index]? ≠ some true := by
  simp [Array.getElem?_replicate]

theorem reachable_spec (valid : d.Valid) (roots : List Handle) :
    (d.reachable roots).size = d.nodes.size ∧ d.MarksChildren (d.reachable roots) ∧
      ∀ f ∈ roots, d.Holds f → Marked (d.reachable roots) f := by
  obtain ⟨sized, explored, met⟩ := explore_spec (roots.length + 2 * d.size) roots.reverse
    (Array.size_replicate : (Array.replicate d.size false).size = d.nodes.size)
    (by simp) fun index n _ marked => absurd marked (not_marked_replicate d.size)
  refine ⟨sized, fun index n found marked => ?_, fun f member holds => ?_⟩
  · obtain ⟨low, high⟩ := explored index n found marked
    obtain ⟨lowHolds, highHolds⟩ := valid.holds_children found
    exact ⟨low.marked lowHolds, high.marked highHolds⟩
  · exact (met f fun _ => .inr (List.mem_reverse.mpr member)).marked holds

/-- What holds of the roots and passes to children holds of all nodes below the roots. -/
theorem reachable_induction (roots : List Handle) {motive : Handle → Prop}
    (start : ∀ f ∈ roots, motive f)
    (children : ∀ (index : Nat) (n : Node), d.nodes[index]? = some n → motive (.node index) →
      motive n.low ∧ motive n.high)
    (marked : (d.reachable roots)[index]? = some true) : motive (.node index) :=
  explore_induction _ roots.reverse Array.size_replicate
    (fun f member => start f (List.mem_reverse.mp member))
    (fun _ old => absurd old (not_marked_replicate d.size)) children index marked

/-- Proofs about everything below a function follow its marked nodes. -/
theorem Valid.marked_induction (valid : d.Valid) (closed : d.MarksChildren live)
    {motive : Handle → Prop} (const : ∀ value, motive (.const value))
    (node : ∀ (index : Nat) (n : Node), live[index]? = some true → d.nodes[index]? = some n →
      motive n.low → motive n.high → motive (.node index))
    (holds : d.Holds f) (marked : Marked live f) : motive f := by
  induction f, holds using valid.handle_induction with
  | const value => exact const value
  | node index n found low high =>
    have children := closed index n found marked
    exact node index n marked found (low children.1) (high children.2)

theorem mem_decisions_iff :
    n ∈ d.decisions f ↔
      ∃ index : Nat, d.nodes[index]? = some n ∧ (d.reachable [f])[index]? = some true := by
  simp only [decisions, List.mem_map, List.mem_filter, Prod.exists,
    Array.mem_toList_iff, Array.mem_iff_getElem?, Array.getElem?_zip_eq_some]
  constructor
  · rintro ⟨m, live, ⟨⟨index, found, marked⟩, rfl⟩, rfl⟩
    exact ⟨index, found, marked⟩
  · rintro ⟨index, found, marked⟩
    exact ⟨n, true, ⟨⟨index, found, marked⟩, rfl⟩, rfl⟩

theorem support_sorted (d : Diagram) (f : Handle) : (d.support f).Pairwise (· < ·) :=
  (eraseReps_spec (pairwise_le_mergeSort _)).1

theorem support_nodup (d : Diagram) (f : Handle) : (d.support f).Nodup :=
  (d.support_sorted f).imp Nat.ne_of_lt

theorem mem_support_iff_decision :
    v ∈ d.support f ↔ ∃ n ∈ d.decisions f, n.label = v := by
  rw [support, (eraseReps_spec (pairwise_le_mergeSort _)).2, List.mem_mergeSort, List.mem_map]

theorem readsOnly_support (valid : d.Valid) (holds : d.Holds f) :
    ReadsOnly (d.value · f) (· ∈ d.support f) := by
  obtain ⟨_, closed, roots⟩ := reachable_spec valid [f]
  refine valid.marked_induction closed (motive := fun g => ReadsOnly (d.value · g) (· ∈ d.support f))
    ?_ ?_ holds (roots f (by simp) holds)
  · intro value σ τ _
    simp
  · intro index n marked found low high σ τ agree
    have tested : n.label ∈ d.support f :=
      mem_support_iff_decision.mpr ⟨n, mem_decisions_iff.mpr ⟨index, found, marked⟩, rfl⟩
    have lows : d.value σ n.low = d.value τ n.low := low σ τ agree
    have highs : d.value σ n.high = d.value τ n.high := high σ τ agree
    simp only [valid.value_node found, agree n.label tested, lows, highs]

/-- A variable that a decision does not look at is not looked at below it. -/
theorem Valid.ignores_children (valid : d.Valid) (found : d.nodes[index]? = some n)
    (blind : Ignores (d.value · (.node index)) v) :
    Ignores (d.value · n.low) v ∧ Ignores (d.value · n.high) v := by
  have ignored := valid.ignores_root_label found
  have children := valid.value_children found
  by_cases same : v = n.label
  · exact same ▸ ignored
  · constructor
    · intro σ value
      simp only [(children _).1, ← blind (σ.set n.label false) value,
        Assignment.set_comm σ value false same]
    · intro σ value
      simp only [(children _).2, ← blind (σ.set n.label true) value,
        Assignment.set_comm σ value true same]

theorem Valid.not_ignores_label_below (valid : d.Valid) (member : n ∈ d.decisions f) :
    ¬ Ignores (d.value · f) n.label := by
  obtain ⟨index, found, marked⟩ := mem_decisions_iff.mp member
  have below : ∀ v, Ignores (d.value · f) v → Ignores (d.value · (.node index)) v := by
    refine reachable_induction [f]
      (motive := fun g => ∀ v, Ignores (d.value · f) v → Ignores (d.value · g) v) ?_ ?_ marked
    · intro g root v blind
      rw [List.mem_singleton.mp root]
      exact blind
    · intro parent m located passed
      exact ⟨fun v blind => (valid.ignores_children located (passed v blind)).1,
        fun v blind => (valid.ignores_children located (passed v blind)).2⟩
  exact fun blind => valid.not_ignores_root found (below n.label blind)

/-- The support of a function is the set of variables it looks at. -/
theorem mem_support_iff (valid : d.Valid) (holds : d.Holds f) :
    v ∈ d.support f ↔ ¬ Ignores (d.value · f) v := by
  constructor
  · intro member
    obtain ⟨n, decision, same⟩ := mem_support_iff_decision.mp member
    exact same ▸ valid.not_ignores_label_below decision
  · intro looks
    refine Classical.byContradiction fun outside => looks ?_
    exact (readsOnly_support valid holds).ignores outside

theorem pathToTrue_sorted (valid : d.Valid) (bound : Nat) (f : Handle) :
    (d.pathToTrue bound f).Pairwise (fun first second => first.1 < second.1) ∧
      ∀ label, d.Above label f → ∀ entry ∈ d.pathToTrue bound f, label < entry.1 := by
  induction bound generalizing f with
  | zero => simp [pathToTrue]
  | succ bound ih =>
    rw [pathToTrue]
    cases f with
    | const value => simp
    | node index =>
      cases found : d.nodes[index]? with
      | none => simp [found]
      | some n =>
        have ordered := valid.ordered index n found
        have step (value : Bool) (child : Handle) (above : d.Above n.label child) :
            ((n.label, value) :: d.pathToTrue bound child).Pairwise
              (fun first second => first.1 < second.1) ∧
            ∀ label, d.Above label (.node index) →
              ∀ entry ∈ (n.label, value) :: d.pathToTrue bound child, label < entry.1 := by
          refine ⟨List.pairwise_cons.mpr ⟨(ih child).2 n.label above, (ih child).1⟩, ?_⟩
          intro label before entry member
          rcases List.mem_cons.mp member with rfl | later
          · exact before n found
          · exact Nat.lt_trans (before n found) ((ih child).2 n.label above entry later)
        simp only [node?_node, found]
        split
        · exact step false n.low ordered.1
        · exact step true n.high ordered.2

theorem value_of_pathToTrue (valid : d.Valid) (holds : d.Holds f) (enough : f.height ≤ bound)
    (possible : f ≠ .const false) (σ : Assignment)
    (follows : ∀ entry ∈ d.pathToTrue bound f, σ entry.1 = entry.2) : d.value σ f = true := by
  induction bound generalizing f with
  | zero =>
    cases f with
    | const value => simpa using possible
    | node index => simp [Handle.height] at enough
  | succ bound ih =>
    rw [pathToTrue] at follows
    cases f with
    | const value => simpa using possible
    | node index =>
      obtain ⟨n, found⟩ := exists_getElem? holds
      have children := valid.holds_children found
      have bounds := valid.children_le index n found
      simp only [Handle.height] at enough
      simp only [node?_node, found] at follows
      rw [valid.value_node found]
      split at follows
      · rename_i open_
        have decision : σ n.label = false := follows (n.label, false) (by simp)
        simp only [decision, Bool.false_eq_true, ↓reduceIte]
        exact ih children.1 (by omega) open_ fun entry member => follows entry (by simp [member])
      · rename_i closed
        have high : n.high ≠ .const false := fun same =>
          valid.reduced index n found ((Classical.not_not.mp closed).trans same.symm)
        have decision : σ n.label = true := follows (n.label, true) (by simp)
        simp only [decision, ↓reduceIte]
        exact ih children.2 (by omega) high fun entry member => follows entry (by simp [member])

theorem lookup_eq_some_iff_mem {α : Type} [DecidableEq α] {entries : List (α × Bool)} {key : α}
    {value : Bool} (distinct : (entries.map Prod.fst).Nodup) :
    entries.lookup key = some value ↔ (key, value) ∈ entries := by
  constructor
  · intro found
    obtain ⟨before, after, rfl, _⟩ := List.lookup_eq_some_iff.mp found
    simp
  · intro member
    obtain ⟨before, after, rfl⟩ := List.append_of_mem member
    refine List.lookup_eq_some_iff.mpr ⟨before, after, rfl, fun entry early => ?_⟩
    rw [List.map_append, List.map_cons, List.nodup_append] at distinct
    have apart := distinct.2.2 entry.1 (List.mem_map_of_mem early) key (by simp)
    simpa using Ne.symm apart

theorem pickCube_eq_none_iff {literals : List Literal} :
    d.pickCube f literals = none ↔ f = .const false := by
  unfold pickCube
  split <;> simp [*]

/-- The picked values are those of a satisfying assignment. -/
theorem pickCube_spec (valid : d.Valid) (holds : d.Holds f) {literals : List Literal}
    (picked : d.pickCube f literals = some values) :
    ∃ σ : Assignment, d.value σ f = true ∧
      values = literals.map fun literal => σ literal.natAbs := by
  unfold pickCube at picked
  split at picked
  · simp at picked
  · rename_i possible
    refine ⟨fun v => ((d.pathToTrue f.height f).lookup v).getD false, ?_, ?_⟩
    · apply value_of_pathToTrue valid holds (Nat.le_refl _) possible
      intro entry member
      have distinct : ((d.pathToTrue f.height f).map Prod.fst).Nodup :=
        List.pairwise_map.mpr ((pathToTrue_sorted valid _ f).1.imp Nat.ne_of_lt)
      simp [(lookup_eq_some_iff_mem distinct).mpr member]
    · exact (Option.some.inj picked).symm

end Diagram

end QuantCircuit
