import QuantCircuit.Edit.Passes

namespace QuantCircuit

inductive Pass where
  | splitBlocks
  | combineBlocks
  | flatten
  | cleanup
  | cleanupGates
  | reorderByTraversal
  | reorderByAppearance
  | blocksToGates
  | miniscope
  deriving DecidableEq, Repr

/-- Anything that changes a circuit. -/
inductive Operation where
  | addVariable (q : Quantifier) (name : String)
  | addBlock (q : Quantifier) (names : List String)
  | addUnboundVariable (name : String)
  | addGate (gate : Gate)
  | addNamedGate (gate : Gate) (name : String)
  | setOutput (literal : Literal)
  | rewrite (pass : Pass)
  deriving DecidableEq, Repr

namespace Pass

def apply : Pass → Circuit → Except Error Circuit
  | splitBlocks, c => .ok c.splitBlocks
  | combineBlocks, c => .ok c.combineBlocks
  | flatten, c => c.flatten
  | cleanup, c => c.cleanup
  | cleanupGates, c => c.cleanupGates
  | reorderByTraversal, c => c.reorderByTraversal
  | reorderByAppearance, c => .ok c.reorderByAppearance
  | blocksToGates, c => c.blocksToGates
  | miniscope, c => c.miniscope

def edit (pass : Pass) (arithmetic : Arithmetic) : Edit Unit :=
  match pass with
  | splitBlocks => Edit.splitBlocks
  | combineBlocks => Edit.combineBlocks
  | flatten => Edit.flatten arithmetic
  | cleanup => Edit.cleanup arithmetic
  | cleanupGates => Edit.cleanupGates arithmetic
  | reorderByTraversal => Edit.reorderByTraversal arithmetic
  | reorderByAppearance => Edit.reorderByAppearance arithmetic
  | blocksToGates => Edit.blocksToGates arithmetic
  | miniscope => Edit.miniscope arithmetic

end Pass

namespace Operation

def apply (operation : Operation) (arithmetic : Arithmetic) (c : Circuit) :
    Except Error Circuit :=
  match operation with
  | addVariable q name => Prod.snd <$> c.addVariable q name
  | addBlock q names => Prod.snd <$> c.addBlock q names
  | addUnboundVariable name => Prod.snd <$> c.addUnboundVariable name
  | addGate gate => Prod.snd <$> c.addGate gate arithmetic
  | addNamedGate gate name => Prod.snd <$> c.addNamedGate gate name arithmetic
  | setOutput literal => c.setOutput literal arithmetic
  | rewrite pass => pass.apply c

def edit (operation : Operation) (arithmetic : Arithmetic) : Edit Unit :=
  match operation with
  | addVariable q name => discard (Edit.addVariable q name)
  | addBlock q names => discard (Edit.addBlock q names)
  | addUnboundVariable name => discard (Edit.declare name)
  | addGate gate => discard (Edit.addGate arithmetic gate)
  | addNamedGate gate name => discard (Edit.addNamedGate arithmetic gate name)
  | setOutput literal => Edit.setOutput arithmetic literal
  | rewrite pass => pass.edit arithmetic

end Operation

/-- What is left of a circuit after operations in place, each of which may have failed. -/
def Circuit.afterOperations (c : Circuit) (operations : List Operation)
    (arithmetic : Arithmetic := .checked) : Circuit :=
  operations.foldl (fun c operation => (operation.edit arithmetic c).2) c

end QuantCircuit
