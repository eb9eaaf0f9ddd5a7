import QuantCircuit.Diagram.Abstract
import QuantCircuit.Proofs.Diagram.Canonicity
import QuantCircuit.Proofs.Ensures

namespace QuantCircuit.Diagram

/-- Work on the diagram keeps it valid and lets it grow; without error, the result and
the diagram then have the property. -/
def Builds (work : Build α) (d : Diagram) (post : α → Diagram → Prop) : Prop :=
  Ensures work d (fun a e => e.Valid ∧ d.Grows e ∧ post a e)
    fun error e => e.Valid ∧ d.Grows e ∧ error = .tableExhausted d.limit

variable {α β : Type} {d e : Diagram} {work : Build α} {mid : α → Diagram → Prop}
variable {post : β → Diagram → Prop}

theorem builds_pure {b : β} (valid : d.Valid) (reached : post b d) : Builds (pure b) d post :=
  ⟨valid, .refl d, reached⟩

theorem Builds.mono {better : α → Diagram → Prop} (builds : Builds work d mid)
    (implies : ∀ a e, e.Valid → d.Grows e → mid a e → better a e) : Builds work d better :=
  Ensures.mono builds (fun a e ⟨valid, grows, reached⟩ =>
    ⟨valid, grows, implies a e valid grows reached⟩) fun _ _ failed => failed

theorem Builds.bind {next : α → Build β} (first : Builds work d mid)
    (rest : ∀ a e, e.Valid → d.Grows e → mid a e → Builds (next a) e post) :
    Builds (work >>= next) d post := by
  refine Ensures.bind (Ensures.mono_fail first ?_) ?_
  · rintro error e facts
    exact facts
  · rintro a e ⟨valid, grows, reached⟩
    refine Ensures.mono (rest a e valid grows reached) ?_ ?_
    · rintro b h ⟨validLater, growsLater, done⟩
      exact ⟨validLater, grows.trans growsLater, done⟩
    · rintro error h ⟨validLater, growsLater, exhausted⟩
      exact ⟨validLater, grows.trans growsLater, grows.limit_eq ▸ exhausted⟩

/-- The diagram after a new node. -/
def withNode (d : Diagram) (n : Node) : Diagram :=
  { d with nodes := d.nodes.push n, unique := d.unique.insert n d.nodes.size }

theorem withNode_getElem? (d : Diagram) (n : Node) (index : Nat) :
    (d.withNode n).nodes[index]? = if index = d.nodes.size then some n else d.nodes[index]? := by
  simp [withNode, Array.getElem?_push]

theorem grows_withNode (d : Diagram) (n : Node) : d.Grows (d.withNode n) := by
  refine ⟨rfl, fun index m found => ?_⟩
  have small : index < d.nodes.size := holds_of_getElem? found
  rw [withNode_getElem?, if_neg (Nat.ne_of_lt small), found]

theorem Valid.withNode (valid : d.Valid) {n : Node} (low : d.Holds n.low) (high : d.Holds n.high)
    (aboveLow : d.Above n.label n.low) (aboveHigh : d.Above n.label n.high)
    (different : n.low ≠ n.high) (fresh : d.unique[n]? = none)
    (room : d.nodes.size < d.limit) : (d.withNode n).Valid := by
  have grows := grows_withNode d n
  have cases {index : Nat} {m : Node} (found : (d.withNode n).nodes[index]? = some m) :
      (index = d.nodes.size ∧ m = n) ∨ (d.nodes[index]? = some m) := by
    rw [withNode_getElem?] at found
    split at found
    · exact .inl ⟨‹_›, (Option.some.inj found).symm⟩
    · exact .inr found
  constructor
  · intro index m found
    rcases cases found with ⟨rfl, rfl⟩ | old
    · exact ⟨low, high⟩
    · exact valid.children_le index m old
  · intro index m found
    rcases cases found with ⟨rfl, rfl⟩ | old
    · exact ⟨grows.above low aboveLow, grows.above high aboveHigh⟩
    · have children := valid.holds_children old
      have above := valid.ordered index m old
      exact ⟨grows.above children.1 above.1, grows.above children.2 above.2⟩
  · intro index m found
    rcases cases found with ⟨rfl, rfl⟩ | old
    · exact different
    · exact valid.reduced index m old
  · intro index m
    simp only [withNode_getElem?]
    simp only [Diagram.withNode, Std.TreeMap.getElem?_insert, Std.LawfulEqCmp.compare_eq_iff_eq]
    by_cases same : n = m
    · subst m
      by_cases last : index = d.nodes.size
      · simp [last]
      · have absent : d.nodes[index]? ≠ some n := fun found => by
          simp [(valid.unique_eq index n).mpr found] at fresh
        simp [last, absent, Ne.symm last]
    · by_cases last : index = d.nodes.size
      · subst last
        have absent : d.unique[m]? ≠ some d.nodes.size := fun found => by
          have located := (valid.unique_eq _ m).mp found
          simp at located
        simp [same, absent]
      · simp [same, last, valid.unique_eq]
  · intro s f found
    obtain ⟨test, yes, no, result, same⟩ := valid.selections_eq s f found
    refine ⟨grows.holds test, grows.holds yes, grows.holds no, grows.holds result, fun σ => ?_⟩
    simp only [grows.value_eq valid test, grows.value_eq valid yes, grows.value_eq valid no,
      grows.value_eq valid result, same σ]
  · simpa [Diagram.withNode] using Nat.succ_le_of_lt room

/-- Sharing a node over earlier handles with later labels gives its function. -/
theorem builds_share (valid : d.Valid) {n : Node} (low : d.Holds n.low) (high : d.Holds n.high)
    (aboveLow : d.Above n.label n.low) (aboveHigh : d.Above n.label n.high) :
    Builds (share n) d fun f e => e.Holds f ∧
      ∀ σ, e.value σ f = if σ n.label then d.value σ n.high else d.value σ n.low := by
  unfold Builds Ensures share
  by_cases equal : n.low = n.high
  · simp only [equal, ↓reduceIte]
    exact ⟨valid, .refl d, high, by simp⟩
  · simp only [equal, ↓reduceIte]
    cases located : d.unique[n]? with
    | some index =>
      have found := (valid.unique_eq index n).mp located
      exact ⟨valid, .refl d, holds_of_getElem? found, valid.value_node found⟩
    | none =>
      by_cases full : d.limit ≤ d.nodes.size
      · simp only [full, ↓reduceIte]
        exact ⟨valid, .refl d, trivial⟩
      · simp only [full, ↓reduceIte]
        have validLater := valid.withNode low high aboveLow aboveHigh equal located
          (Nat.lt_of_not_le full)
        have grows := grows_withNode d n
        have found : (d.withNode n).nodes[d.nodes.size]? = some n := by
          simp [withNode_getElem?]
        refine ⟨validLater, grows, holds_of_getElem? found, fun σ => ?_⟩
        rw [← grows.value_eq valid low, ← grows.value_eq valid high]
        exact validLater.value_node found σ

theorem builds_terminal (valid : d.Valid) (label : Nat) :
    Builds (terminal label) d fun f e => e.Holds f ∧ ∀ σ : Assignment, e.value σ f = σ label := by
  refine (builds_share valid (holds_const d false) (holds_const d true) (by simp) (by simp)).mono ?_
  rintro f e _ _ ⟨holds, value⟩
  refine ⟨holds, fun σ => ?_⟩
  cases same : σ label <;> simp [value, same]

end QuantCircuit.Diagram
