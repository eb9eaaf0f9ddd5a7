import QuantCircuit.Proofs.Circuit.Declaring
import QuantCircuit.Qcir.Reader

namespace QuantCircuit

namespace Qcir.Reader

open Circuit

variable {r s : Reader} {name : String} {names : List String} {v : Nat} {vars : List Nat}
variable {c m : Circuit} {gate : Gate} {line : Nat}

/-- The circuit read so far is well formed, and each of its identifiers is found under
its name. -/
structure Sound (r : Reader) : Prop where
  valid : r.circuit.WellFormed
  named : 0 < r.circuit.names.size
  found : ∀ id : Nat, 0 < id → id < r.circuit.maxGate → r.ids[r.circuit.nameOf id]? = some id

theorem sound_start (name : String) : Sound { circuit := { name } } := by
  refine ⟨wellFormed_empty name, Nat.one_pos, fun id positive below => ?_⟩
  have below : id < 1 := below
  omega

/-- A name that is not known yet may be given to the next identifier. -/
theorem Sound.push (sound : r.Sound) (fresh : r.ids[name]? = none) (valid : m.WellFormed)
    (names : m.names = r.circuit.names.push name)
    (origin : m.origin = r.circuit.origin.push r.circuit.names.size) :
    Sound { circuit := m, ids := r.ids.insert name r.circuit.maxGate } := by
  have last := nameOf_pushed_last sound.valid names origin
  have larger : m.maxGate = r.circuit.maxGate + 1 := by
    rw [← valid.origin_size, ← sound.valid.origin_size, origin, Array.size_push]
  refine ⟨valid, by rw [names, Array.size_push]; exact Nat.succ_pos _, fun id positive below => ?_⟩
  have below : id < m.maxGate := below
  rw [Std.TreeMap.getElem?_insert]
  by_cases new : id = r.circuit.maxGate
  · have same : compare name name = .eq := Std.ReflCmp.compare_self
    rw [new, last, if_pos same]
  · have before : id < r.circuit.maxGate := by omega
    have found := sound.found id positive before
    have kept := nameOf_pushed sound.valid names origin positive before
    have different : compare name (m.nameOf id) ≠ .eq := by
      intro same
      rw [← kept, ← Std.LawfulEqOrd.eq_of_compare same, fresh] at found
      simp at found
    rw [if_neg different, kept]
    exact found

theorem Sound.declare (sound : r.Sound) (fresh : r.ids[name]? = none)
    (declared : r.circuit.addUnboundVariable name = .ok (v, m)) :
    Sound ({ r with circuit := m }.learn [name] [v]) := by
  obtain ⟨empty, rfl, rfl⟩ := of_addUnboundVariable declared
  have pushed := sound.push fresh (sound.valid.declare sound.named empty name) rfl rfl
  rw [maxGate_of_no_gates empty] at pushed
  exact pushed

/-- Names that are new and different may be given to variables, which are numbered in
their order. -/
theorem Sound.declareAll (sound : r.Sound) (distinct : names.Nodup)
    (fresh : ∀ name ∈ names, r.ids[name]? = none)
    (declared : r.circuit.addUnboundVariables names = .ok (vars, m)) :
    Sound ({ r with circuit := m }.learn names vars) ∧ m.blocks = r.circuit.blocks ∧
      vars = List.range' r.circuit.maxVar vars.length ∧
        m.maxVar = r.circuit.maxVar + vars.length := by
  induction names generalizing r vars with
  | nil =>
    obtain ⟨rfl, rfl⟩ := Prod.mk.inj (Except.ok.inj declared)
    exact ⟨sound, rfl, rfl, rfl⟩
  | cons name rest ih =>
    obtain ⟨different, distinctRest⟩ := List.nodup_cons.mp distinct
    obtain ⟨⟨v, c⟩, first, declared⟩ := exists_of_bind_eq_ok declared
    obtain ⟨⟨more, n⟩, others, declared⟩ := exists_of_bind_eq_ok declared
    obtain ⟨rfl, rfl⟩ := Prod.mk.inj (Except.ok.inj declared)
    have next := sound.declare (fresh name (by simp)) first
    obtain ⟨_, rfl, rfl⟩ := of_addUnboundVariable first
    have unknown : ∀ other ∈ rest,
        ({ r with circuit := r.circuit.declare name }.learn [name] [r.circuit.maxVar]).ids[other]? =
          none := by
      intro other member
      have apart : compare name other ≠ .eq := fun same =>
        different (Std.LawfulEqOrd.eq_of_compare same ▸ member)
      show (r.ids.insert name r.circuit.maxVar)[other]? = none
      rw [Std.TreeMap.getElem?_insert, if_neg apart]
      exact fresh other (by simp [member])
    obtain ⟨last, blocks, numbered, counted⟩ := ih next distinctRest unknown others
    have numbered : more = List.range' (r.circuit.maxVar + 1) more.length := numbered
    have counted : n.maxVar = r.circuit.maxVar + 1 + more.length := counted
    refine ⟨last, blocks, ?_, ?_⟩
    · rw [List.length_cons, List.range'_succ, ← numbered]
    · rw [List.length_cons, counted]
      omega

theorem Sound.openBlock (sound : r.Sound) (q : Quantifier) {before : Nat} (positive : 0 < before)
    (earlier : ∀ block ∈ r.circuit.blocks, ∀ v ∈ block.vars, v < before)
    (nonempty : vars ≠ []) (numbered : vars = List.range' before vars.length)
    (counted : r.circuit.maxVar = before + vars.length) :
    Sound { r with circuit := { r.circuit with blocks := r.circuit.blocks ++ [⟨q, vars⟩] } } := by
  refine ⟨sound.valid.bindNew positive earlier counted ?_ ?_, sound.named, sound.found⟩
  · intro block member
    rcases List.mem_append.mp member with old | new
    · exact sound.valid.block_nonempty block old
    · exact List.mem_singleton.mp new ▸ nonempty
  · rw [List.flatMap_append, List.flatMap_singleton, ← numbered]

theorem not_known (absent : ¬ r.ids.contains name = true) : r.ids[name]? = none := by
  rw [Std.TreeMap.contains_eq_isSome_getElem?] at absent
  simpa using absent

theorem of_checkItems {earlier items : List (List Char)}
    (checked : r.checkItems line earlier items = .ok ()) :
    (items.map String.ofList).Nodup ∧ (∀ item ∈ items, item ∉ earlier) ∧
      ∀ name ∈ items.map String.ofList, r.ids[name]? = none := by
  induction items generalizing earlier with
  | nil => simp
  | cons item rest ih =>
    unfold checkItems at checked
    split at checked
    · simp at checked
    · split at checked
      · simp at checked
      · rename_i new
        obtain ⟨unknown, other⟩ := not_or.mp new
        obtain ⟨distinct, apart, fresh⟩ := ih checked
        refine ⟨List.nodup_cons.mpr ⟨fun again => ?_, distinct⟩, ?_, ?_⟩
        · obtain ⟨same, member, equal⟩ := List.mem_map.mp again
          exact apart same member (by simp [String.ofList_injective equal])
        · intro member listed
          rcases List.mem_cons.mp listed with rfl | later
          · exact other
          · exact fun early => apart member later (by simp [early])
        · intro name listed
          rcases List.mem_cons.mp listed with rfl | later
          · exact not_known unknown
          · exact fresh name later

theorem Sound.declareBlock (sound : r.Sound) {quantifier : Option Quantifier}
    {arguments : List Char} (declared : r.declareBlock line quantifier arguments = .ok s) :
    s.Sound := by
  obtain ⟨_, checked, declared⟩ := exists_of_bind_eq_ok declared
  obtain ⟨distinct, _, fresh⟩ := of_checkItems checked
  cases quantifier with
  | none =>
    obtain ⟨⟨vars, m⟩, added, declared⟩ := exists_of_bind_eq_ok declared
    obtain rfl := Except.ok.inj declared
    exact (sound.declareAll distinct fresh added).1
  | some q =>
    obtain ⟨⟨vars, m⟩, added, declared⟩ := exists_of_bind_eq_ok declared
    obtain rfl := Except.ok.inj declared
    obtain ⟨n, declared, opened⟩ := of_addBlock added
    obtain ⟨later, blocks, numbered, counted⟩ := sound.declareAll distinct fresh declared
    rcases opened with ⟨_, rfl⟩ | ⟨nonempty, rfl⟩
    · exact later
    · exact later.openBlock q sound.valid.maxVar_pos
        (fun block present v member =>
          (sound.valid.block_lt block (blocks ▸ present) v member).2) nonempty numbered counted

theorem Sound.declareBound (sound : r.Sound) {item : Nat × List Char}
    (declared : r.declareBound item = .ok s) : s.Sound := by
  unfold Reader.declareBound at declared
  dsimp only at declared
  split at declared
  · exact Except.ok.inj declared ▸ sound
  · rename_i unknown
    split at declared
    · exact absurd declared throw_bind_ne_ok
    · obtain ⟨⟨v, m⟩, added, declared⟩ := exists_of_bind_eq_ok declared
      exact Except.ok.inj declared ▸ sound.declare (not_known unknown) added

theorem of_readGate {connective : Connective} {arguments : List Char}
    (read : r.readGate line connective arguments = .ok gate) : ∀ v ∈ gate.bound, ¬ v < 0 := by
  unfold readGate at read
  split at read
  · obtain ⟨inputs, _, read⟩ := exists_of_bind_eq_ok read
    obtain rfl := Except.ok.inj read
    simp
  · dsimp only at read
    split at read
    · simp [throw, throwThe, MonadExceptOf.throw] at read
    · obtain ⟨bound, _, read⟩ := exists_of_bind_eq_ok read
      split at read
      · exact absurd read throw_bind_ne_ok
      · rename_i positive
        obtain ⟨body, _, read⟩ := exists_of_bind_eq_ok read
        obtain rfl := Except.ok.inj read
        intro v member negative
        exact positive (List.any_eq_true.mpr ⟨v, member, decide_eq_true negative⟩)

/-- Gates are read soundly. -/
theorem Sound.defineGate (sound : r.Sound) {name connective arguments : List Char}
    (defined : r.defineGate line name connective arguments = .ok s) : s.Sound := by
  unfold Reader.defineGate at defined
  dsimp only at defined
  split at defined
  · exact absurd defined throw_bind_ne_ok
  · rename_i unknown
    split at defined
    · simp [throw, throwThe, MonadExceptOf.throw] at defined
    · obtain ⟨gate, read, defined⟩ := exists_of_bind_eq_ok defined
      obtain ⟨⟨id, m⟩, added, defined⟩ := exists_of_bind_eq_ok defined
      obtain rfl := Except.ok.inj defined
      obtain ⟨checked, rfl, rfl⟩ := of_addNamedGate added
      have accepts := accepts_of_check checked (of_readGate read)
      exact sound.push (not_known unknown) (sound.valid.append sound.named accepts _) rfl rfl

theorem Sound.names_injective (sound : r.Sound) {v w : Nat} (insideV : 0 < v ∧ v < r.circuit.maxVar)
    (insideW : 0 < w ∧ w < r.circuit.maxVar)
    (same : r.circuit.nameOf v = r.circuit.nameOf w) : v = w := by
  have bound : r.circuit.maxVar ≤ r.circuit.maxGate := Nat.le_add_right ..
  have found := sound.found v insideV.1 (Nat.lt_of_lt_of_le insideV.2 bound)
  rw [same, sound.found w insideW.1 (Nat.lt_of_lt_of_le insideW.2 bound)] at found
  exact (Option.some.inj found).symm

end Qcir.Reader

namespace Circuit

/-- Different variables have different names. -/
def NamesVariables (c : Circuit) : Prop :=
  ∀ v w : Nat, 0 < v ∧ v < c.maxVar → 0 < w ∧ w < c.maxVar → c.nameOf v = c.nameOf w → v = w

end Circuit

namespace Qcir

open Circuit Reader

variable {r s : Reader} {c : Circuit} {out : Literal} {text name : String}

theorem Reader.Sound.readBlocks (sound : r.Sound) {entry : Nat × List Char}
    (read : Qcir.readBlocks r entry = .ok s) : s.Sound := by
  unfold Qcir.readBlocks at read
  split at read
  · exact sound.declareBlock read
  · exact Except.ok.inj read ▸ sound

theorem Reader.Sound.readGates {output : Option (Nat × List Char)} (sound : r.Sound)
    {entry : Nat × List Char} {state : Reader × Option (Nat × List Char)}
    (read : Qcir.readGates (r, output) entry = .ok state) : state.1.Sound := by
  unfold Qcir.readGates at read
  dsimp only at read
  split at read
  · exact Except.ok.inj read ▸ sound
  · exact Except.ok.inj read ▸ sound
  · obtain ⟨next, defined, read⟩ := exists_of_bind_eq_ok read
    exact Except.ok.inj read ▸ sound.defineGate defined
  · simp [throw, throwThe, MonadExceptOf.throw] at read

theorem Reader.Sound.finish (sound : r.Sound) (finished : Qcir.finish r.circuit out = .ok c) :
    c.WellFormed ∧ (∃ l, c.output? = some l) ∧ c.NamesVariables := by
  unfold Qcir.finish at finished
  split at finished
  · obtain ⟨⟨id, m⟩, added, finished⟩ := exists_of_bind_eq_ok finished
    obtain ⟨checked, rfl, rfl⟩ := of_addNamedGate added
    obtain ⟨defined, rfl⟩ := of_setOutput finished
    have accepts := accepts_of_check checked (by simp)
    refine ⟨(sound.valid.append sound.named accepts _).withOutput defined, ⟨_, rfl⟩, ?_⟩
    intro v w insideV insideW same
    have kept {v : Nat} (inside : 0 < v ∧ v < r.circuit.maxVar) :=
      (continues_append sound.valid { connective := .and, inputs := [out] }
        r.circuit.freshName).nameOf_eq v inside.1 (Nat.lt_of_lt_of_le inside.2 (Nat.le_add_right ..))
    exact sound.names_injective insideV insideW ((kept insideV).symm.trans (same.trans (kept insideW)))
  · obtain ⟨defined, rfl⟩ := of_setOutput finished
    exact ⟨sound.valid.withOutput defined, ⟨_, rfl⟩, fun v w => sound.names_injective⟩

/-- Whatever is read is well formed, has an output, and names its variables. -/
theorem read_spec (read : Qcir.read text name = .ok c) :
    c.WellFormed ∧ (∃ l, c.output? = some l) ∧ c.NamesVariables := by
  obtain ⟨first, declared, read⟩ := exists_of_bind_eq_ok read
  obtain ⟨second, bound, read⟩ := exists_of_bind_eq_ok read
  obtain ⟨⟨third, output⟩, gates, read⟩ := exists_of_bind_eq_ok read
  have soundFirst := foldlM_induction Sound (fun _ _ _ sound => sound.readBlocks) _
    (sound_start name) declared
  have soundSecond := foldlM_induction Sound (fun _ _ _ sound => sound.declareBound) _ soundFirst
    bound
  have soundThird := foldlM_induction (fun state => Sound state.1)
    (fun _ _ _ sound => Sound.readGates sound) _ soundSecond gates
  dsimp only at read
  split at read
  · simp [throw, throwThe, MonadExceptOf.throw] at read
  · obtain ⟨l, _, finished⟩ := exists_of_bind_eq_ok read
    exact Sound.finish soundThird finished

end Qcir

end QuantCircuit
