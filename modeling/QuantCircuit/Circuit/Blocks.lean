import QuantCircuit.Circuit.Basic

namespace QuantCircuit

namespace Block

def singletons (block : Block) : List Block :=
  block.vars.map fun v => ⟨block.quantifier, [v]⟩

def joinRuns : List Block → List Block
  | [] => []
  | block :: rest =>
    match joinRuns rest with
    | next :: more =>
      if next.quantifier = block.quantifier then
        ⟨block.quantifier, block.vars ++ next.vars⟩ :: more
      else
        block :: next :: more
    | [] => [block]

end Block

namespace Circuit

def splitBlocks (c : Circuit) : Circuit :=
  { c with blocks := c.blocks.flatMap Block.singletons }

def combineBlocks (c : Circuit) : Circuit :=
  { c with blocks := Block.joinRuns c.blocks }

/-- Quantifies the output by a new gate that binds the block. -/
def wrapOutput (c : Circuit) (block : Block) : Except Error Circuit := do
  let out ← c.output
  let (gate, c) ← c.addGate (.quantify block.quantifier (block.vars.map Int.ofNat) out)
  return { c with output? := some gate }

/-- Moves all blocks but the outermost one into gates around the output, innermost
block first. -/
def blocksToGates (c : Circuit) : Except Error Circuit :=
  match c.blocks with
  | outermost :: inner@(_ :: _) => do
    let c ← inner.reverse.foldlM wrapOutput c
    return { c with blocks := [outermost] }
  | _ => return c

end Circuit

end QuantCircuit
