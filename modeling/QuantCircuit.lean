import QuantCircuit.Circuit.Evaluate
import QuantCircuit.Circuit.Meaning
import QuantCircuit.Circuit.WellFormed
import QuantCircuit.Diagram.Meaning
import QuantCircuit.Edit.Build
import QuantCircuit.Edit.Operation
import QuantCircuit.Edit.Passes
import QuantCircuit.Main
import QuantCircuit.Proofs.Circuit.Alternating
import QuantCircuit.Proofs.Circuit.Analysing
import QuantCircuit.Proofs.Circuit.Appending
import QuantCircuit.Proofs.Circuit.Bringing
import QuantCircuit.Proofs.Circuit.Cleaning
import QuantCircuit.Proofs.Circuit.Collapsing
import QuantCircuit.Proofs.Circuit.Compacting
import QuantCircuit.Proofs.Circuit.Confining
import QuantCircuit.Proofs.Circuit.Connecting
import QuantCircuit.Proofs.Circuit.Declaring
import QuantCircuit.Proofs.Circuit.Denotation
import QuantCircuit.Proofs.Circuit.Descending
import QuantCircuit.Proofs.Circuit.Evaluation
import QuantCircuit.Proofs.Circuit.Fixing
import QuantCircuit.Proofs.Circuit.Flattening
import QuantCircuit.Proofs.Circuit.Gates
import QuantCircuit.Proofs.Circuit.Identifying
import QuantCircuit.Proofs.Circuit.Interpretation
import QuantCircuit.Proofs.Circuit.Keeping
import QuantCircuit.Proofs.Circuit.Landing
import QuantCircuit.Proofs.Circuit.Merging
import QuantCircuit.Proofs.Circuit.Miniscoping
import QuantCircuit.Proofs.Circuit.Naming
import QuantCircuit.Proofs.Circuit.Normalizing
import QuantCircuit.Proofs.Circuit.Occurrence
import QuantCircuit.Proofs.Circuit.Polarity
import QuantCircuit.Proofs.Circuit.Pushing
import QuantCircuit.Proofs.Circuit.Rearranging
import QuantCircuit.Proofs.Circuit.Relocating
import QuantCircuit.Proofs.Circuit.Renaming
import QuantCircuit.Proofs.Circuit.Renumbering
import QuantCircuit.Proofs.Circuit.Reordering
import QuantCircuit.Proofs.Circuit.Restating
import QuantCircuit.Proofs.Circuit.Searching
import QuantCircuit.Proofs.Circuit.Tightness
import QuantCircuit.Proofs.Circuit.Transport
import QuantCircuit.Proofs.Circuit.Truth
import QuantCircuit.Proofs.Circuit.Unsigning
import QuantCircuit.Proofs.Circuit.Wrapping
import QuantCircuit.Proofs.CommandLine.Solving
import QuantCircuit.Proofs.CommandLine.Transforming
import QuantCircuit.Proofs.Coupling
import QuantCircuit.Proofs.Diagram.Building
import QuantCircuit.Proofs.Diagram.Canonicity
import QuantCircuit.Proofs.Diagram.Charting
import QuantCircuit.Proofs.Diagram.Collecting
import QuantCircuit.Proofs.Diagram.Evaluating
import QuantCircuit.Proofs.Diagram.Inspecting
import QuantCircuit.Proofs.Diagram.Limiting
import QuantCircuit.Proofs.Diagram.Matching
import QuantCircuit.Proofs.Diagram.Operating
import QuantCircuit.Proofs.Diagram.Pairing
import QuantCircuit.Proofs.Diagram.Picking
import QuantCircuit.Proofs.Diagram.Quantifying
import QuantCircuit.Proofs.Diagram.Reaching
import QuantCircuit.Proofs.Diagram.Reclaiming
import QuantCircuit.Proofs.Diagram.Replaying
import QuantCircuit.Proofs.Diagram.Selecting
import QuantCircuit.Proofs.Diagram.Stocking
import QuantCircuit.Proofs.Edit.Becoming
import QuantCircuit.Proofs.Edit.Checking
import QuantCircuit.Proofs.Edit.Developing
import QuantCircuit.Proofs.Edit.Enacting
import QuantCircuit.Proofs.Edit.Lowering
import QuantCircuit.Proofs.Edit.Moving
import QuantCircuit.Proofs.Edit.Operating
import QuantCircuit.Proofs.Edit.Retracing
import QuantCircuit.Proofs.Edit.Rewriting
import QuantCircuit.Proofs.Edit.Unnesting
import QuantCircuit.Proofs.Edit.Walking
import QuantCircuit.Proofs.Ensures
import QuantCircuit.Proofs.Limiting
import QuantCircuit.Proofs.Qcir.Accepting
import QuantCircuit.Proofs.Qcir.Labelling
import QuantCircuit.Proofs.Qcir.Language
import QuantCircuit.Proofs.Qcir.Lasting
import QuantCircuit.Proofs.Qcir.Ordering
import QuantCircuit.Proofs.Qcir.Parsing
import QuantCircuit.Proofs.Qcir.Reading
import QuantCircuit.Proofs.Qcir.Recognizing
import QuantCircuit.Proofs.Qcir.Resolving
import QuantCircuit.Proofs.Qcir.Restoring
import QuantCircuit.Proofs.Qcir.Returning
import QuantCircuit.Proofs.Qcir.Scanning
import QuantCircuit.Proofs.Qcir.Spelling
import QuantCircuit.Proofs.Qcir.Understanding
import QuantCircuit.Proofs.Qcir.Writing
import QuantCircuit.Proofs.Quantification
import QuantCircuit.Proofs.Solver.Abreast
import QuantCircuit.Proofs.Solver.Agreeing
import QuantCircuit.Proofs.Solver.Calls
import QuantCircuit.Proofs.Solver.Closing
import QuantCircuit.Proofs.Solver.Combining
import QuantCircuit.Proofs.Solver.Compiling
import QuantCircuit.Proofs.Solver.Deciding
import QuantCircuit.Proofs.Solver.Eliminating
import QuantCircuit.Proofs.Solver.Enlarging
import QuantCircuit.Proofs.Solver.Folding
import QuantCircuit.Proofs.Solver.Following
import QuantCircuit.Proofs.Solver.Forcing
import QuantCircuit.Proofs.Solver.Limiting
import QuantCircuit.Proofs.Solver.Pacing
import QuantCircuit.Proofs.Solver.Preserving
import QuantCircuit.Proofs.Solver.Releasing
import QuantCircuit.Proofs.Solver.Retaining
import QuantCircuit.Proofs.Solver.Rounds
import QuantCircuit.Proofs.Solver.Running
import QuantCircuit.Proofs.Solver.Settling
import QuantCircuit.Proofs.Solver.Shadowing
import QuantCircuit.Proofs.Solver.Showing
import QuantCircuit.Proofs.Solver.Simplifying
import QuantCircuit.Proofs.Solver.Sparing
import QuantCircuit.Proofs.Solver.Stages
import QuantCircuit.Proofs.Solver.Storing
import QuantCircuit.Proofs.Solver.Tidying
import QuantCircuit.Proofs.Solver.Tuning
import QuantCircuit.Proofs.Solver.Witnessing
import QuantCircuit.Proofs.Solver.Working
