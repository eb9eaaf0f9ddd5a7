import QuantCircuit.CommandLine.Options
import QuantCircuit.Edit.Operation
import QuantCircuit.Qcir.Reader
import QuantCircuit.Qcir.Writer
import QuantCircuit.Solver.Answer

namespace QuantCircuit.CommandLine

/-- Access to files. Reading without a path reads the standard input. -/
structure Files (m : Type → Type) where
  read : Option String → m (Except IoFault ByteArray)
  write : String → String → m (Except IoFault Unit)

namespace Settings

/-- The passes asked for that keep all blocks, in their fixed order. -/
def rearrangements (settings : Settings) : List Pass :=
  (if settings.split then [.splitBlocks] else []) ++
    (if settings.combine then [.combineBlocks] else []) ++
    (if settings.flatten then [.flatten] else []) ++
    (if settings.cleanup then [.cleanup] else []) ++
    match settings.reorder with
    | some .traversal => [.reorderByTraversal]
    | some .appearance => [.reorderByAppearance]
    | none => []

/-- The passes asked for that move inner blocks into the gates. -/
def descents (settings : Settings) : List Pass :=
  (if settings.blocksToGates then [.blocksToGates] else []) ++
    if settings.miniscope then [.miniscope] else []

end Settings

/-- The circuit rewritten in place, unless a pass fails. -/
def transform (settings : Settings) (c : Circuit) : Except Error Circuit :=
  match ((settings.rearrangements ++ settings.descents).forM (·.edit .checked) : Edit Unit) c with
  | (.ok _, m) => .ok m
  | (.error e, _) => .error e

/-- The verdict, and the witness on a line of its own if there is one. -/
def report (c : Circuit) (outcome : Outcome) : String :=
  (if outcome.verdict then "Result: TRUE\n" else "Result: FALSE\n") ++
    outcome.witness.elim "" (Qcir.valuationLine c)

/-- Decides the circuit with a table of its own. -/
def solve (settings : Settings) (c : Circuit) : Except Error Outcome :=
  let eliminate :=
    if settings.perVariable then Solver.eliminateVariables else Solver.eliminateBlocks
  (Solver.solveWith eliminate (.start c settings.solver settings.table)).1

/-- What the program prints. The transformed circuit is written before it is decided. -/
def run [Monad m] (files : Files m) (settings : Settings) : m (Except Error String) :=
  ExceptT.run do
    let bytes ← ExceptT.mk (Except.mapError Error.io <$> files.read settings.input)
    let c ← liftExcept (Qcir.readBytes bytes (settings.input.getD "stdin"))
    let c ← liftExcept (transform settings c)
    if let some path := settings.write then
      let text ← liftExcept (Qcir.write c settings.keepNames)
      ExceptT.mk (Except.mapError Error.io <$> files.write path text)
    if settings.solve then return report c (← liftExcept (solve settings c)) else return ""
where
  liftExcept {α : Type} (result : Except Error α) : ExceptT Error m α := ExceptT.mk (pure result)

end QuantCircuit.CommandLine
