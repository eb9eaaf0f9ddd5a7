import QuantCircuit.Edit.Operation
import QuantCircuit.Proofs.Circuit.Declaring

namespace QuantCircuit

/-- Work in place that does to the circuit what was computed, or fails and leaves it alone. -/
def Enacts (work : Edit α) (c : Circuit) (computed : Except Error (α × Circuit)) : Prop :=
  work c = match computed with
    | .ok (a, m) => (.ok a, m)
    | .error e => (.error e, c)

namespace Enacts

variable {c m : Circuit} {work : Edit α} {computed : Except Error (α × Circuit)} {a : α} {e : Error}

theorem of_ok (enacts : Enacts work c computed) (ended : computed = .ok (a, m)) :
    work c = (.ok a, m) := by
  unfold Enacts at enacts
  rwa [ended] at enacts

theorem of_error (enacts : Enacts work c computed) (failed : computed = .error e) :
    work c = (.error e, c) := by
  unfold Enacts at enacts
  rwa [failed] at enacts

theorem unchanged (enacts : Enacts work c computed) (failed : work c = (.error e, m)) : m = c := by
  cases computed with
  | ok p =>
    rw [enacts.of_ok rfl] at failed
    exact absurd (congrArg Prod.fst failed) (by simp)
  | error other =>
    rw [enacts.of_error rfl] at failed
    exact (congrArg Prod.snd failed).symm

theorem discard (enacts : Enacts work c computed) :
    Enacts (discard work) c ((fun p => ((), p.2)) <$> computed) := by
  cases computed with
  | ok p => exact run_discard_of_ok (enacts.of_ok rfl)
  | error e => exact run_discard_of_error (enacts.of_error rfl)

end Enacts

namespace Circuit

variable {c : Circuit}

theorem enacts_declare (c : Circuit) (name : String) :
    Enacts (Edit.declare name) c (c.addUnboundVariable name) := by
  unfold Enacts Edit.declare addUnboundVariable
  rw [run_get]
  cases c.gates.isEmpty <;> rfl

theorem enacts_addVariable (c : Circuit) (q : Quantifier) (name : String) :
    Enacts (Edit.addVariable q name) c (c.addVariable q name) := by
  unfold Edit.addVariable addVariable
  cases declared : c.addUnboundVariable name with
  | ok p => exact run_bind_of_ok ((enacts_declare c name).of_ok declared)
  | error e => exact run_bind_of_error ((enacts_declare c name).of_error declared)

theorem run_mapM_declare (empty : c.gates = #[]) (names : List String) :
    names.mapM Edit.declare c =
      (.ok (List.range' c.maxVar names.length), names.foldl declare c) := by
  induction names generalizing c with
  | nil => rfl
  | cons name rest ih =>
    have first := (enacts_declare c name).of_ok (addUnboundVariable_eq empty name)
    rw [List.mapM_cons, run_bind_of_ok first, run_bind_of_ok (ih (c := c.declare name) empty)]
    rfl

/-- A block is declared as a whole or not at all, since what keeps a variable from being
declared keeps all of them. -/
theorem enacts_addBlock (c : Circuit) (q : Quantifier) (names : List String) :
    Enacts (Edit.addBlock q names) c (c.addBlock q names) := by
  unfold Edit.addBlock addBlock
  by_cases empty : c.gates = #[]
  · unfold Enacts
    rw [run_bind_of_ok (run_mapM_declare empty names), addUnboundVariables_eq empty]
    dsimp only [Bind.bind, Except.bind]
    cases (List.range' c.maxVar names.length).isEmpty <;> rfl
  · cases names with
    | nil => rfl
    | cons name rest =>
      have refused := addUnboundVariable_late empty name
      have failed : (name :: rest).mapM Edit.declare c =
          (.error (.structural (.lateDeclaration name)), c) := by
        rw [List.mapM_cons]
        exact run_bind_of_error ((enacts_declare c name).of_error refused)
      rw [addUnboundVariables, refused]
      exact run_bind_of_error failed

theorem enacts_addNamedGate (c : Circuit) (arithmetic : Arithmetic) (gate : Gate) (name : String) :
    Enacts (Edit.addNamedGate arithmetic gate name) c (c.addNamedGate gate name arithmetic) := by
  unfold Edit.addNamedGate addNamedGate
  unfold Enacts
  rw [run_get]
  cases gate.check c.maxVar c.maxGate arithmetic <;> rfl

theorem enacts_addGate (c : Circuit) (arithmetic : Arithmetic) (gate : Gate) :
    Enacts (Edit.addGate arithmetic gate) c (c.addGate gate arithmetic) := by
  unfold Enacts Edit.addGate addGate
  rw [run_get]
  exact enacts_addNamedGate c arithmetic gate c.freshName

theorem enacts_setOutput (c : Circuit) (arithmetic : Arithmetic) (literal : Literal) :
    Enacts (Edit.setOutput arithmetic literal) c
      ((fun m => ((), m)) <$> c.setOutput literal arithmetic) := by
  unfold Edit.setOutput setOutput Enacts
  rw [run_get]
  cases c.gates.isEmpty with
  | true => rfl
  | false => cases checkLiteral literal c.maxGate arithmetic <;> rfl

end Circuit

end QuantCircuit
