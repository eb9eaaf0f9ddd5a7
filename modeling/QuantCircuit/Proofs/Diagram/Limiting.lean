import QuantCircuit.Diagram.Query
import QuantCircuit.Proofs.Diagram.Building
import QuantCircuit.Proofs.Limiting

namespace QuantCircuit.Diagram

variable {α β : Type} {d : Diagram}

def withLimit (d : Diagram) (limit : Nat) : Diagram := { d with limit }

instance : Limited Diagram := ⟨size, withLimit⟩

@[simp] theorem withLimit_nodes (d : Diagram) (limit : Nat) : (d.withLimit limit).nodes = d.nodes :=
  rfl

@[simp] theorem withLimit_unique (d : Diagram) (limit : Nat) :
    (d.withLimit limit).unique = d.unique := rfl

@[simp] theorem withLimit_limit (d : Diagram) (limit : Nat) : (d.withLimit limit).limit = limit :=
  rfl

theorem indifferent_share (n : Node) (d : Diagram) : Indifferent (share n) d := by
  by_cases equal : n.low = n.high
  · apply Indifferent.of_same
    intro limit
    exact if_pos equal
  · cases located : d.unique[n]? with
    | some index =>
      apply Indifferent.of_same (.ok (.node index))
      intro limit
      show share n (d.withLimit limit) = (.ok (.node index), d.withLimit limit)
      simp only [share, equal, ↓reduceIte, withLimit_unique, located]
    | none =>
      refine ⟨.ok (.node d.nodes.size), d.withNode n, ?_, fun limit room => ?_,
        fun limit enough less => ?_⟩
      · show d.nodes.size ≤ (d.nodes.push n).size
        simp
      · have enough : (d.nodes.push n).size ≤ limit := room
        have free : ¬ limit ≤ d.nodes.size := by
          rw [Array.size_push] at enough
          omega
        show share n (d.withLimit limit) =
          (.ok (.node d.nodes.size), (d.withNode n).withLimit limit)
        simp only [share, equal, ↓reduceIte, withLimit_unique, located, withLimit_limit,
          withLimit_nodes, free]
        rfl
      · have few : limit < (d.nodes.push n).size := less
        have fits : d.nodes.size ≤ limit := enough
        have full : limit ≤ d.nodes.size := by
          rw [Array.size_push] at few
          omega
        refine ⟨d.withLimit limit, ?_, Nat.le_antisymm fits full⟩
        show share n (d.withLimit limit) = _
        simp only [share, equal, ↓reduceIte, withLimit_unique, located, withLimit_limit,
          withLimit_nodes, full]

theorem indifferent_ofVariable (literal : Literal) (d : Diagram) :
    Indifferent (ofVariable literal) d := by
  unfold ofVariable
  split
  · exact .throw _ d
  · exact indifferent_share _ d

theorem indifferent_remember (s : Selection) (f : Handle) (d : Diagram) :
    Indifferent (remember s f) d :=
  .modify rfl fun _ => rfl

theorem indifferent_selectWithin (bound : Nat) (s : Selection) (d : Diagram) :
    Indifferent (selectWithin bound s) d := by
  induction bound generalizing s d with
  | zero => exact .pure _ d
  | succ bound ih =>
    rw [selectWithin]
    cases s.direct? with
    | some f => exact .pure f d
    | none =>
      apply Indifferent.get _ fun _ => rfl
      cases d.selections[s]? with
      | some f => exact .pure f d
      | none =>
        cases d.split? s with
        | none => exact .pure _ d
        | some halves =>
          obtain ⟨label, whenFalse, whenTrue⟩ := halves
          apply (ih whenFalse d).bind
          intro low e
          apply (ih whenTrue e).bind
          intro high h
          apply (indifferent_share ⟨label, low, high⟩ h).bind
          intro f k
          exact (indifferent_remember s f k).bind fun _ l => .pure f l

theorem indifferent_select (test yes no : Handle) (d : Diagram) :
    Indifferent (select test yes no) d :=
  indifferent_selectWithin _ _ d

theorem indifferent_not (f : Handle) (d : Diagram) : Indifferent (not f) d :=
  indifferent_select _ _ _ d

theorem indifferent_and (f g : Handle) (d : Diagram) : Indifferent (and f g) d :=
  indifferent_select _ _ _ d

theorem indifferent_or (f g : Handle) (d : Diagram) : Indifferent (or f g) d :=
  indifferent_select _ _ _ d

theorem indifferent_combine (q : Quantifier) (f g : Handle) (d : Diagram) :
    Indifferent (combine q f g) d := by
  cases q with
  | all => exact indifferent_and f g d
  | ex => exact indifferent_or f g d

section Walking

variable {found : Found}

theorem indifferent_walk_diagram {next : Diagram → StateT Found Build β}
    (rest : Indifferent (next d found) d)
    (blind : ∀ limit, next (d.withLimit limit) found = next d found) :
    Indifferent ((getThe Diagram >>= next) found) d :=
  have read : Indifferent (get >>= fun d => next d found : Build (β × Found)) d := .get rest blind
  read

theorem indifferent_walk_bind {work : StateT Found Build α} {next : α → StateT Found Build β}
    (first : Indifferent (work found) d)
    (rest : ∀ a later e, Indifferent (next a later) e) :
    Indifferent ((work >>= next) found) d :=
  first.bind fun result e => rest result.1 result.2 e

theorem indifferent_walk_lift {work : Build α} (indifferent : Indifferent work d)
    (found : Found) : Indifferent ((liftM work : StateT Found Build α) found) d :=
  indifferent.bind fun a e => .pure (a, found) e

end Walking

theorem indifferent_restrictWithin (label : Nat) (value : Bool) (bound : Nat) (f : Handle)
    (found : Found) (d : Diagram) :
    Indifferent (restrictWithin label value bound f found) d := by
  induction bound generalizing f found d with
  | zero => cases f <;> exact .pure _ d
  | succ bound ih =>
    cases f with
    | const other => exact .pure _ d
    | node index =>
      rw [restrictWithin]
      apply indifferent_walk_bind (.pure (found, found) d)
      intro known found d
      apply indifferent_walk_diagram _ fun _ => rfl
      cases known[index]? with
      | some f => exact .pure _ d
      | none =>
        cases d.nodes[index]? with
        | none => exact .pure _ d
        | some n =>
          dsimp only
          by_cases before : label < n.label
          · rw [if_pos before]
            exact .pure _ d
          · rw [if_neg before]
            by_cases here : label = n.label
            · rw [if_pos here]
              exact .pure _ d
            · rw [if_neg here]
              apply indifferent_walk_bind (ih n.low found d)
              intro low found d
              apply indifferent_walk_bind (ih n.high found d)
              intro high found d
              apply indifferent_walk_bind (indifferent_walk_lift (indifferent_share _ d) found)
              intro f found d
              exact .pure _ d

theorem indifferent_restrict (f : Handle) (literal : Literal) (d : Diagram) :
    Indifferent (restrict f literal) d :=
  (indifferent_restrictWithin _ _ _ f ∅ d).bind fun result e => .pure result.1 e

theorem indifferent_abstractWithin (q : Quantifier) (labels : List Nat) (last bound : Nat)
    (f : Handle) (found : Found) (d : Diagram) :
    Indifferent (abstractWithin q labels last bound f found) d := by
  induction bound generalizing f found d with
  | zero => cases f <;> exact .pure _ d
  | succ bound ih =>
    cases f with
    | const other => exact .pure _ d
    | node index =>
      rw [abstractWithin]
      apply indifferent_walk_diagram _ fun _ => rfl
      cases d.nodes[index]? with
      | none => exact .pure _ d
      | some n =>
        dsimp only
        by_cases behind : last < n.label
        · rw [if_pos behind]
          exact .pure _ d
        · rw [if_neg behind]
          apply indifferent_walk_bind (.pure (found, found) d)
          intro known found d
          cases known[index]? with
          | some f => exact .pure _ d
          | none =>
            apply indifferent_walk_bind (ih n.low found d)
            intro low found d
            apply indifferent_walk_bind (ih n.high found d)
            intro high found d
            by_cases member : n.label ∈ labels
            · rw [if_pos member]
              apply indifferent_walk_bind
                (indifferent_walk_lift (indifferent_combine q low high d) found)
              intro f found d
              exact .pure _ d
            · rw [if_neg member]
              apply indifferent_walk_bind (indifferent_walk_lift (indifferent_share _ d) found)
              intro f found d
              exact .pure _ d

theorem indifferent_abstract (q : Quantifier) (literals : List Literal) (f : Handle)
    (d : Diagram) : Indifferent (abstract q literals f) d := by
  unfold abstract
  dsimp only
  cases (literals.map Int.natAbs).max? with
  | none => exact .pure f d
  | some last =>
    exact (indifferent_abstractWithin q _ last _ f ∅ d).bind fun result e => .pure result.1 e

section Queries

variable (d : Diagram) (limit : Nat)

theorem explore_withLimit (steps : Nat) (stack : List Handle) (live : Array Bool) :
    (d.withLimit limit).explore steps stack live = d.explore steps stack live := by
  induction steps generalizing stack live with
  | zero => rfl
  | succ steps ih =>
    cases stack with
    | nil => rfl
    | cons f stack =>
      have table : (d.withLimit limit).nodes = d.nodes := rfl
      simp only [explore, ih, table]

@[simp] theorem decisions_withLimit (f : Handle) :
    (d.withLimit limit).decisions f = d.decisions f := by
  unfold decisions reachable
  rw [explore_withLimit]
  rfl

@[simp] theorem support_withLimit (f : Handle) : (d.withLimit limit).support f = d.support f := by
  unfold support
  rw [decisions_withLimit]

theorem pathToTrue_withLimit (bound : Nat) (f : Handle) :
    (d.withLimit limit).pathToTrue bound f = d.pathToTrue bound f := by
  induction bound generalizing f with
  | zero => rfl
  | succ bound ih =>
    have node : (d.withLimit limit).node? f = d.node? f := by cases f <;> rfl
    simp only [pathToTrue, node, ih]

@[simp] theorem pickCube_withLimit (f : Handle) (literals : List Literal) :
    (d.withLimit limit).pickCube f literals = d.pickCube f literals := by
  unfold pickCube
  rw [pathToTrue_withLimit]

end Queries

end QuantCircuit.Diagram
