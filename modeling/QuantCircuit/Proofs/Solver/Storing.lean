import QuantCircuit.Proofs.Ensures
import QuantCircuit.Solver.Compile

namespace QuantCircuit.Solver

open Diagram Compilation

variable {uses : Array (Option Nat)} {target : Nat}

/-- Makes the function of a gate and puts it into its slot. -/
def storeGate (functions : Array (Option Handle)) (entry : Gate × Nat) :
    Solve (Array (Option Handle)) := do
  let (gate, id) := entry
  let maxVar := (← get).circuit.maxVar
  let options := (← get).options
  let inputs ← onDiagram (readInputs { functions, collectAbove := 0 } maxVar id gate.inputs)
  let f ← onDiagram (combineInputs options.fold gate inputs)
  count fun statistics => { statistics with gatesCompiled := statistics.gatesCompiled + 1 }
  noteSize
  return functions.setIfInBounds (id - maxVar) (some f)

/-- What is left to do when the function of a gate is stored. -/
def settleGate (uses : Array (Option Nat)) (target : Nat) (entry : Gate × Nat) (s : Solver)
    (state : Compilation) : Solve Compilation :=
  if s.options.releaseDead then
    collectGarbage (releaseUnused s.circuit.maxVar uses target entry.2 entry.1 state)
  else pure state

theorem getElem?_stored {slots : Array (Option Handle)} {position other : Nat} {f g : Handle}
    (found : (slots.setIfInBounds position (some f))[other]? = some (some g)) :
    (position = other ∧ position < slots.size ∧ g = f) ∨
      (position ≠ other ∧ slots[other]? = some (some g)) := by
  by_cases here : position = other
  · subst other
    have inside : position < slots.size := by
      simpa using (Array.getElem?_eq_some_iff.mp found).1
    obtain rfl : f = g := by simpa [inside] using found
    exact .inl ⟨rfl, inside, rfl⟩
  · exact .inr ⟨here, by simpa [here] using found⟩

theorem compileGate_eq (state : Compilation) (entry : Gate × Nat) (s : Solver) :
    compileGate uses target state entry s =
      (do
        let functions ← storeGate state.functions entry
        settleGate uses target entry s { state with functions }) s := by
  simp only [compileGate, storeGate, bind_assoc, pure_bind]
  repeat rw [run_get]
  rfl

end QuantCircuit.Solver
