import QuantCircuit.Proofs.Circuit.Cleaning
import QuantCircuit.Proofs.Circuit.Collapsing
import QuantCircuit.Proofs.Circuit.Descending
import QuantCircuit.Proofs.Circuit.Evaluation

namespace QuantCircuit.Circuit

open Descent

variable {c m t : Circuit} {q : Quantifier} {x : Nat} {l r out : Literal}

theorem literal_ext {r l : Int} (same : r.natAbs = l.natAbs) (sign : r < 0 ↔ l < 0) : r = l := by
  omega

/-- Without gates there is nothing to quantify but a variable, which stays as it is. -/
theorem quantifies_eq_of_no_gates (valid : c.WellFormed) (quantifies : Quantifies c m q x l r)
    (defined : c.Defines l) (continues : c.Continues m) (none : m.gates.isEmpty = true) : r = l := by
  have size : m.gates.size = 0 := by simpa using none
  have last : m.maxGate = c.maxVar := by rw [maxGate, size, continues.maxVar_eq, Nat.add_zero]
  have missing : c.gate? l.natAbs = Option.none :=
    gate?_eq_none_of_lt (Nat.lt_of_lt_of_le defined.2 (last ▸ continues.maxGate_le))
  have missingM : m.gate? r.natAbs = Option.none :=
    gate?_eq_none_of_lt (by rw [continues.maxVar_eq, ← last]; exact quantifies.defined.2)
  have leaf : m.Occurs r.natAbs r.natAbs :=
    (occurs_variable_iff missingM).mpr ⟨rfl, Int.natAbs_pos.mpr quantifies.defined.1, by
      rw [continues.maxVar_eq, ← last]; exact quantifies.defined.2⟩
  obtain ⟨different, before⟩ := quantifies.occurs _ leaf
  obtain ⟨same, _⟩ := (occurs_variable_iff missing).mp before
  have absent : ¬ c.Occurs x l.natAbs := fun occurs =>
    different (same.trans ((occurs_variable_iff missing).mp occurs).1.symm)
  have meaning := congrFun quantifies.meaning_eq fun _ => false
  rw [q.overVars_of_ignores (by simpa using ignores_meaning valid defined absent)] at meaning
  refine literal_ext same ?_
  simpa [Circuit.meaning, Interpretation.literal, interpretation_variable missing,
    interpretation_variable missingM] using meaning

theorem cleanupGates_spec (valid : c.WellFormed) (output : c.output? = some out) :
    ∃ m r, c.cleanupGates = .ok m ∧ Replaces c m ∧ m.output? = some r ∧
      m.meaning r = c.meaning out ∧ ∀ v, m.Occurs v r.natAbs → c.Occurs v out.natAbs := by
  obtain ⟨marks, computed, closed, iff_live⟩ := cleanupGates_eq valid output
  have fits := closed.fits valid
  have all (v : Nat) (small : v < c.maxVar) : marks[v]? = some true := (iff_live v).mpr (.inl small)
  have place (v : Nat) (small : v < c.maxVar) : (c.keeping marks).place v = v :=
    place_of_all_marked all small
  have validM := wellFormed_renumber valid fits
  have defined := valid.output_lt out output
  have kept := fits.output out output
  refine ⟨_, (c.keeping marks).literal out, computed, ⟨validM, ?_, ?_, ?_⟩, ?_, ?_, ?_⟩
  · exact count_take_of_all all
  · exact blocks_renumber_of_place_eq valid place
  · intro v positive small
    have below : v < c.maxGate := Nat.lt_of_lt_of_le small (Nat.le_add_right ..)
    have named := nameOf_renumber valid fits positive below (by rw [place v small]; omega)
    rwa [place v small] at named
  · exact output_renumber _ output
  · funext σ
    rw [meaning_renumber valid fits defined kept]
    refine readsOnly_meaning valid defined _ _ fun v inside => ?_
    rw [place v inside.2]
  · intro v occurs
    rw [Numbering.natAbs_literal] at occurs
    obtain ⟨w, rfl, before⟩ := occurs_of_renumber valid fits defined.2 kept occurs
    rwa [place w before.lt_maxVar]

theorem quantifyOutput_eq {d : Dependencies} {s : Descent}
    (analysed : Dependencies.ofCircuit c = .ok d) (output : c.output? = some out)
    (ran : (bringDown d q x out : Descend Literal) { circuit := c } = .ok (l, s)) :
    quantifyOutput q c x = if l = out then s.circuit.cleanupGates
      else s.circuit.setOutput l >>= cleanupGates := by
  unfold quantifyOutput
  rw [analysed, Circuit.output, output]
  show ((bringDown d q x out : Descend Literal) { circuit := c } >>= fun p =>
    if p.1 = out then p.2.circuit.cleanupGates
    else p.2.circuit.setOutput p.1 >>= cleanupGates) = _
  rw [ran]
  rfl

theorem quantifyOutput_brings (valid : c.WellFormed) (output : c.output? = some out)
    (positive : 0 < x) (below : x < c.maxVar) (q : Quantifier) :
    ∃ l s, Descends c x s ∧ Brings c s.circuit q x out l ∧
      quantifyOutput q c x = cleanupGates { s.circuit with output? := some l } := by
  have defined := valid.output_lt out output
  obtain ⟨d, analysed, analyses⟩ := Dependencies.ofCircuit_spec valid
  obtain ⟨l, s, ran, descends, _, brings⟩ :=
    leads_bringDown valid analyses positive below q defined (descends_start valid positive below)
  refine ⟨l, s, descends, brings, ?_⟩
  rw [quantifyOutput_eq analysed output ran]
  split
  · rename_i same
    have given : s.circuit.output? = some l := same ▸ descends.continues.output_eq.trans output
    rw [← given]
  · rename_i different
    have gates : s.circuit.gates.isEmpty = false := by
      refine Bool.not_eq_true _ ▸ fun none => different ?_
      exact quantifies_eq_of_no_gates valid brings.toQuantifies defined descends.continues none
    rw [setOutput_eq gates brings.defined]
    rfl

theorem quantifyOutput_spec (valid : c.WellFormed) (output : c.output? = some out)
    (positive : 0 < x) (below : x < c.maxVar) (q : Quantifier) :
    ∃ m, quantifyOutput q c x = .ok m ∧
      Outputs c m (q.overVars (c.meaning out) [x]) fun v => v ≠ x ∧ c.Occurs v out.natAbs := by
  obtain ⟨l, s, descends, brings, same⟩ := quantifyOutput_brings valid output positive below q
  obtain ⟨m, r, computed, replaces, given, meaning, occurs⟩ :=
    cleanupGates_spec (descends.valid.withOutput brings.defined) rfl
  have continued := descends.continues.replaces descends.valid
  refine ⟨m, same.trans computed, ?_, r, given, meaning.trans brings.meaning_eq, fun v here => ?_⟩
  · exact continued.trans ⟨replaces.valid, replaces.maxVar_eq, replaces.blocks_eq, replaces.nameOf_eq⟩
  · exact brings.toQuantifies.occurs v ((occurs v here).congr rfl rfl)

theorem Outputs.quantifyOutput {f : Assignment → Bool} {remains : Nat → Prop}
    (outputs : Outputs c m f remains) (positive : 0 < x) (below : x < c.maxVar) (q : Quantifier) :
    ∃ t, Circuit.quantifyOutput q m x = .ok t ∧
      Outputs c t (q.overVars f [x]) fun v => remains v ∧ v ≠ x := by
  obtain ⟨r, given, meaning, occurs⟩ := outputs.output
  obtain ⟨t, computed, replaces, last, output, same, fewer⟩ := quantifyOutput_spec
    outputs.replaces.valid given positive (outputs.replaces.maxVar_eq ▸ below) q
  refine ⟨t, computed, outputs.replaces.trans replaces, last, output, meaning ▸ same, ?_⟩
  intro v here
  obtain ⟨different, before⟩ := fewer v here
  exact ⟨occurs v before, different⟩

theorem Outputs.quantifyBlock {f : Assignment → Bool} {remains : Nat → Prop} (q : Quantifier)
    (vars : List Nat) (inside : ∀ v ∈ vars, 0 < v ∧ v < c.maxVar)
    (outputs : Outputs c m f remains) :
    ∃ t, vars.foldlM (Circuit.quantifyOutput q) m = .ok t ∧
      Outputs c t (q.overVars f vars) fun v => remains v ∧ v ∉ vars := by
  induction vars generalizing m f remains with
  | nil => exact ⟨m, rfl, outputs.mono fun v stays => ⟨stays, by simp⟩⟩
  | cons x rest ih =>
    obtain ⟨positive, below⟩ := inside x (by simp)
    obtain ⟨t, first, next⟩ := outputs.quantifyOutput positive below q
    obtain ⟨u, others, last⟩ := ih (fun v member => inside v (by simp [member])) next
    refine ⟨u, ?_, ?_⟩
    · rw [List.foldlM_cons, first]
      exact others
    · -- the first variable comes innermost, where one quantifier may as well have it last
      have order : q.overVars (q.overVars f [x]) rest = q.overVars f (x :: rest) := by
        rw [Quantifier.overVars_comm, ← Quantifier.overVars_append]
        rfl
      rw [order] at last
      refine last.mono fun v stays => ⟨stays.1.1, ?_⟩
      simpa using ⟨stays.1.2, stays.2⟩

/-- The inner blocks are quantified from the innermost one on. -/
theorem Outputs.quantifyBlocks {f : Assignment → Bool} {remains : Nat → Prop}
    (blocks : List Block) (inside : ∀ block ∈ blocks, ∀ v ∈ block.vars, 0 < v ∧ v < c.maxVar)
    (outputs : Outputs c m f remains) :
    ∃ t, blocks.foldlM (fun m block =>
        block.vars.foldlM (Circuit.quantifyOutput block.quantifier) m) m = .ok t ∧
      Outputs c t (Block.close f blocks.reverse)
        fun v => remains v ∧ ∀ block ∈ blocks, v ∉ block.vars := by
  induction blocks generalizing m f remains with
  | nil => exact ⟨m, rfl, outputs.mono fun v stays => ⟨stays, by simp⟩⟩
  | cons block rest ih =>
    obtain ⟨t, first, next⟩ :=
      outputs.quantifyBlock block.quantifier block.vars (inside block (by simp))
    obtain ⟨u, others, last⟩ := ih (fun other member => inside other (by simp [member])) next
    refine ⟨u, ?_, ?_⟩
    · rw [List.foldlM_cons, first]
      exact others
    · have order : Block.close (block.quantifier.overVars f block.vars) rest.reverse =
          Block.close f (block :: rest).reverse := by
        rw [List.reverse_cons, Block.close_append]
        rfl
      rw [order] at last
      refine last.mono fun v stays => ⟨stays.1.1, ?_⟩
      simpa using ⟨stays.1.2, stays.2⟩

theorem miniscope_eq (c : Circuit) :
    c.miniscope = (do
      let m ← c.blocks.tail.reverse.foldlM
        (fun c block => block.vars.foldlM (quantifyOutput block.quantifier) c) c
      return { m with blocks := c.blocks.take 1 }) :=
  foldlM_inner _ c

theorem miniscope_spec (valid : c.WellFormed) (output : c.output? = some out) :
    ∃ m, c.miniscope = .ok m ∧ Collapses c m out ∧ ∀ r, m.output? = some r →
      ∀ block ∈ c.blocks.tail, ∀ v ∈ block.vars, ¬ m.Occurs v r.natAbs := by
  have start : Outputs c c (c.meaning out) fun _ => True :=
    ⟨.refl valid, out, output, rfl, fun _ _ => trivial⟩
  have inside : ∀ block ∈ c.blocks.tail.reverse, ∀ v ∈ block.vars, 0 < v ∧ v < c.maxVar :=
    fun block member => valid.block_lt block (List.mem_of_mem_tail (List.mem_reverse.mp member))
  obtain ⟨t, folded, outputs⟩ := start.quantifyBlocks _ inside
  rw [List.reverse_reverse] at outputs
  refine ⟨{ t with blocks := c.blocks.take 1 }, ?_, outputs.collapses, ?_⟩
  · rw [miniscope_eq, folded]
    rfl
  · obtain ⟨_, r, given, _, occurs⟩ := outputs
    intro other again block member v listed here
    obtain rfl := Option.some.inj (given.symm.trans again)
    exact (occurs v (here.congr rfl rfl)).2 block (List.mem_reverse.mpr member) listed

/-- Miniscoping refines the circuit: it succeeds, keeps the variables and the first block,
and the new circuit's output has, for every assignment, the value of the old output with
the inner blocks quantified. None of their variables occurs free in it. -/
theorem miniscope_refines (valid : c.WellFormed) (output : c.output? = some out) :
    ∃ m r, c.miniscope = .ok m ∧ m.WellFormed ∧ m.maxVar = c.maxVar ∧
      m.blocks = c.blocks.take 1 ∧ m.output? = some r ∧
      c.Computes (c.meaning out) ∧ m.Computes (Block.close (c.meaning out) c.blocks.tail) ∧
      ∀ block ∈ c.blocks.tail, ∀ v ∈ block.vars, ¬ m.Occurs v r.natAbs := by
  obtain ⟨m, computed, collapses, absent⟩ := miniscope_spec valid output
  obtain ⟨r, given, meaning⟩ := collapses.output
  refine ⟨m, r, computed, collapses.valid, collapses.maxVar_eq, collapses.blocks_eq, given,
    computes_meaning valid output, ?_, absent r given⟩
  rw [← meaning]
  exact computes_meaning collapses.valid given

/-- A circuit whose output is the negation of a gate that binds a variable of the inner
block once more. -/
def rebinding : Circuit where
  name := "rebinding"
  maxVar := 4
  blocks := [⟨.ex, [1]⟩, ⟨.all, [2, 3]⟩]
  gates := #[{ connective := .or, inputs := [1, -2] }, .quantify .ex [2] 4,
    { connective := .and, inputs := [5, -3, 4] }]
  output? := some (-6)
  names := #["", "1", "2", "3", "4", "5", "6"]
  origin := #[0, 1, 2, 3, 4, 5, 6]

theorem rebinding_miniscope_refines :
    ∃ m r, rebinding.miniscope = .ok m ∧ m.maxVar = 4 ∧ m.blocks = [⟨.ex, [1]⟩] ∧
      m.output? = some r ∧ m.Computes (Quantifier.all.overVars (rebinding.meaning (-6)) [2, 3]) ∧
      ¬ m.Occurs 3 r.natAbs := by
  obtain ⟨m, r, computed, _, variables_, blocks, output, _, computes, absent⟩ :=
    miniscope_refines (by decide : rebinding.WellFormed) rfl
  exact ⟨m, r, computed, variables_, blocks, output, computes,
    absent ⟨.all, [2, 3]⟩ (by decide) 3 (by decide)⟩

end QuantCircuit.Circuit
