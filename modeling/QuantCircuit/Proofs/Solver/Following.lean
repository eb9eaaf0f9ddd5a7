import QuantCircuit.Proofs.Diagram.Pairing
import QuantCircuit.Proofs.Solver.Working

/-! Two solvers on one circuit. The options of the following one may differ in what is for tuning;
what answers depend on agrees, handles aside. -/

namespace QuantCircuit.Solver

open Diagram

variable {α β γ δ ι : Type} {spare : Nat} {room : Option (Reserve spare)} {s s' t t' : Solver}
variable {f g : Handle} {x y : Statistics}

/-- The numbers of fixed variables agree. With room for a reserve, the largest size of the second
table is bounded by that of the first one. -/
structure Tracks (roomy : Prop) (spare : Nat) (x y : Statistics) : Prop where
  units_eq : y.units = x.units
  pures_eq : y.pures = x.pures
  peak_le : roomy → y.peakNodes ≤ spare + x.peakNodes

/-- The second solver is where the first one is. -/
structure Follows (room : Option (Reserve spare)) (s t : Solver) : Prop where
  circuit_eq : t.circuit = s.circuit
  options_eq : t.options =
    { s.options with fold := t.options.fold, releaseDead := t.options.releaseDead }
  /-- With room, both make the same nodes. -/
  fold_eq : room.isSome → t.options.fold = s.options.fold
  forced_eq : t.forced = s.forced
  outer_eq : t.outerAbstracted = s.outerAbstracted
  paired : Paired room s.diagram t.diagram
  tracks : Tracks room.isSome spare s.statistics t.statistics

theorem follows_start (c : Circuit) (options : SolverOptions) {fold fold' : Fold}
    (release release' : Bool) {limit limit' : Nat} (same : room.isSome → fold' = fold)
    (fits : room.isSome → spare + limit ≤ limit') :
    Follows room (start c { options with fold := fold, releaseDead := release } limit)
      (start c { options with fold := fold', releaseDead := release' } limit') where
  circuit_eq := rfl
  options_eq := rfl
  fold_eq := same
  forced_eq := rfl
  outer_eq := rfl
  paired := paired_empty fits
  tracks := ⟨rfl, rfl, fun _ => Nat.zero_le _⟩

/-- Both solvers move on without coming to another stage; their handles stay what they are. -/
structure Advance (room : Option (Reserve spare)) (s t s' t' : Solver) : Prop
    extends Follows room s' t' where
  growsLeft : s.diagram.Grows s'.diagram
  growsRight : t.diagram.Grows t'.diagram
  progressLeft : s'.progress = s.progress
  progressRight : t'.progress = t.progress

theorem Advance.trans {s'' t'' : Solver} (first : Advance room s t s' t')
    (second : Advance room s' t' s'' t'') : Advance room s t s'' t'' :=
  ⟨second.toFollows, first.growsLeft.trans second.growsLeft,
    first.growsRight.trans second.growsRight, second.progressLeft.trans first.progressLeft,
    second.progressRight.trans first.progressRight⟩

theorem Follows.still (follows : Follows room s t) : Advance room s t s t :=
  ⟨follows, .refl _, .refl _, rfl, rfl⟩

theorem Advance.onDiagrams (advance : Advance room s t s' t') :
    Diagram.Advance room s.diagram t.diagram s'.diagram t'.diagram :=
  ⟨advance.paired, advance.growsLeft, advance.growsRight⟩

/-- The handles have the same function, each in its own solver. -/
def Alike (f : Handle) (s : Solver) (g : Handle) (t : Solver) : Prop :=
  Diagram.Alike f s.diagram g t.diagram

theorem Alike.advance (alike : Alike f s g t) (follows : Follows room s t)
    (advance : Advance room s t s' t') : Alike f s' g t' :=
  Diagram.Alike.advance alike follows.paired advance.onDiagrams

/-- The following work keeps up, and the second solver stays where the first one is. -/
def Shadows (room : Option (Reserve spare)) (lead : Solve α) (follow : Solve β) (s t : Solver)
    (post : α → Solver → β → Solver → Prop) : Prop :=
  Mirrors (Advance room) room.isSome lead follow s t post

namespace Shadows

variable {lead : Solve α} {follow : Solve β} {mid : α → Solver → β → Solver → Prop}
variable {post : γ → Solver → δ → Solver → Prop}

theorem pure {a : α} {b : β} (follows : Follows room s t) (related : mid a s b t) :
    Shadows room (Pure.pure a) (Pure.pure b) s t mid :=
  Mirrors.pure follows.still related

theorem bind {next : α → Solve γ} {other : β → Solve δ} (first : Shadows room lead follow s t mid)
    (rest : ∀ a s' b t', Advance room s t s' t' → mid a s' b t' →
      Shadows room (next a) (other b) s' t' post) :
    Shadows room (lead >>= next) (follow >>= other) s t post :=
  Mirrors.bind (fun _ _ _ _ _ _ => Advance.trans) first rest

theorem mono {better : α → Solver → β → Solver → Prop}
    (shadows : Shadows room lead follow s t mid)
    (implies : ∀ a s' b t', Advance room s t s' t' → mid a s' b t' → better a s' b t') :
    Shadows room lead follow s t better :=
  Mirrors.mono shadows implies

theorem get {next : Solver → Solve γ} {other : Solver → Solve δ}
    (rest : Shadows room (next s) (other t) s t post) :
    Shadows room (MonadState.get >>= next) (MonadState.get >>= other) s t post :=
  rest

theorem throw (error : Error) :
    Shadows room (MonadExcept.throw error : Solve α) follow s t mid :=
  Coupled.throw error

theorem foldlM (rel : γ → Solver → δ → Solver → Prop) {step : γ → ι → Solve γ}
    {other : δ → ι → Solve δ} (entries : List ι)
    (each : ∀ entry c s d t, Follows room s t → rel c s d t →
      Shadows room (step c entry) (other d entry) s t rel)
    {c : γ} {d : δ} (follows : Follows room s t) (start : rel c s d t) :
    Shadows room (entries.foldlM step c) (entries.foldlM other d) s t rel := by
  apply Coupled.foldlM _ entries _ ⟨follows.still, start⟩
  intro entry _ c' s' d' t' facts
  apply Coupled.mono (each entry c' s' d' t' facts.1.toFollows facts.2)
  intro c'' s'' d'' t'' later
  exact ⟨facts.1.trans later.1, later.2⟩

theorem modify {change other : Solver → Solver} (follows : Follows room (change s) (other t))
    (same : (change s).diagram = s.diagram ∧ (change s).progress = s.progress)
    (sameRight : (other t).diagram = t.diagram ∧ (other t).progress = t.progress) :
    Shadows room (modifyGet fun s => ((), change s)) (modifyGet fun t => ((), other t)) s t
      fun _ s' _ t' => s' = change s ∧ t' = other t := by
  have advance : Advance room s t (change s) (other t) :=
    ⟨follows, same.1 ▸ .refl _, sameRight.1 ▸ .refl _, same.2, sameRight.2⟩
  exact Coupled.modify ⟨advance, rfl, rfl⟩

end Shadows

theorem shadows_onDiagram {work : Build α} {other : Build β}
    {post : α → Diagram → β → Diagram → Prop} (follows : Follows room s t)
    (shadows : Diagram.Shadows room work other s.diagram t.diagram post) :
    Shadows room (onDiagram work) (onDiagram other) s t
      fun a s' b t' => post a s'.diagram b t'.diagram := by
  intro a s' ran
  rw [onDiagram_run] at ran
  obtain ⟨returned, rfl⟩ := Prod.mk.inj ran
  have related := shadows a _ (run_eq_ok returned)
  unfold Ensures at related ⊢
  rw [onDiagram_run]
  rcases ended : other t.diagram with ⟨result, e⟩
  rw [ended] at related
  cases result with
  | error _ => exact related
  | ok b =>
    obtain ⟨advance, reached⟩ := related
    have paired : Paired room (work s.diagram).2 e := advance.toPaired
    exact ⟨⟨{ follows with paired }, advance.growsLeft, advance.growsRight, rfl, rfl⟩, reached⟩

theorem shadows_perform {operation other : Diagram.Operation} (follows : Follows room s t)
    (twins : Diagram.Operation.Twins s.diagram t.diagram operation other) :
    Shadows room (onDiagram operation.perform) (onDiagram other.perform) s t Alike :=
  shadows_onDiagram follows (Diagram.Operation.shadows_perform twins follows.paired)

theorem shadows_restrict (follows : Follows room s t) (alike : Alike f s g t) (literal : Literal) :
    Shadows room (onDiagram (Diagram.restrict f literal)) (onDiagram (Diagram.restrict g literal))
      s t Alike :=
  shadows_perform follows (.restrict alike literal)

theorem shadows_abstract (follows : Follows room s t) (alike : Alike f s g t) (q : Quantifier)
    (literals : List Literal) :
    Shadows room (onDiagram (Diagram.abstract q literals f))
      (onDiagram (Diagram.abstract q literals g)) s t Alike :=
  shadows_perform follows (.abstract q literals alike)

theorem shadows_not (follows : Follows room s t) (alike : Alike f s g t) :
    Shadows room (onDiagram (Diagram.not f)) (onDiagram (Diagram.not g)) s t Alike :=
  shadows_perform follows (.not alike)

theorem shadows_count {update : Statistics → Statistics} (follows : Follows room s t)
    (keeps : ∀ {x y}, Tracks room.isSome spare x y →
      Tracks room.isSome spare (update x) (update y)) :
    Shadows room (count update) (count update) s t fun _ _ _ _ => True := by
  have later : Follows room { s with statistics := update s.statistics }
      { t with statistics := update t.statistics } :=
    { follows with tracks := keeps follows.tracks }
  exact (Shadows.modify later ⟨rfl, rfl⟩ ⟨rfl, rfl⟩).mono fun _ _ _ _ _ _ => True.intro

/-- Counters that neither answers nor the size of the table depend on. -/
theorem shadows_countOther {update : Statistics → Statistics} (follows : Follows room s t)
    (apart : ∀ x : Statistics, (update x).units = x.units ∧ (update x).pures = x.pures ∧
      (update x).peakNodes = x.peakNodes) :
    Shadows room (count update) (count update) s t fun _ _ _ _ => True := by
  apply shadows_count follows
  intro x y tracks
  refine ⟨?_, ?_, fun roomy => ?_⟩
  · rw [(apart x).1, (apart y).1, tracks.units_eq]
  · rw [(apart x).2.1, (apart y).2.1, tracks.pures_eq]
  · rw [(apart x).2.2, (apart y).2.2]
    exact tracks.peak_le roomy

theorem shadows_noteSize (follows : Follows room s t) :
    Shadows room noteSize noteSize s t fun _ _ _ _ => True := by
  have later : Follows room
      { s with statistics :=
        { s.statistics with peakNodes := max s.statistics.peakNodes s.diagram.size } }
      { t with statistics :=
        { t.statistics with peakNodes := max t.statistics.peakNodes t.diagram.size } } := by
    refine { follows with
      tracks := ⟨follows.tracks.units_eq, follows.tracks.pures_eq, fun roomy => ?_⟩ }
    have before := follows.tracks.peak_le roomy
    have now := follows.paired.size_le roomy
    dsimp only
    omega
  exact (Shadows.modify later ⟨rfl, rfl⟩ ⟨rfl, rfl⟩).mono fun _ _ _ _ _ _ => True.intro

theorem shadows_force (follows : Follows room s t) (v : Nat) (value : Bool) :
    Shadows room (force v value) (force v value) s t fun _ _ _ _ => True := by
  have later : Follows room { s with forced := s.forced.insert v value }
      { t with forced := t.forced.insert v value } :=
    { follows with forced_eq := by rw [follows.forced_eq] }
  exact (Shadows.modify later ⟨rfl, rfl⟩ ⟨rfl, rfl⟩).mono fun _ _ _ _ _ _ => True.intro

end QuantCircuit.Solver
