import QuantCircuit.Circuit.Basic

namespace QuantCircuit

/-- New numbers by old identifier; zero where the identifier is dropped. The new
variables are `1 .. maxVar - 1`, and kept gates are numbered in their old order. -/
structure Numbering where
  places : Array Nat
  maxVar : Nat

namespace Numbering

def place (numbering : Numbering) (id : Nat) : Nat :=
  numbering.places.getD id 0

def literal (numbering : Numbering) (literal : Literal) : Literal :=
  if literal < 0 then - (numbering.place literal.natAbs : Int)
  else numbering.place literal.natAbs

def gate (numbering : Numbering) (gate : Gate) : Gate :=
  { gate with
    inputs := gate.inputs.map numbering.literal
    bound := gate.bound.map numbering.literal }

def block (numbering : Numbering) (block : Block) : Block :=
  { block with vars := (block.vars.map numbering.place).filter (· ≠ 0) }

end Numbering

/-- Consecutive numbers for the marked entries, zero for the others. -/
def numberMarked (next : Nat) : List Bool → List Nat
  | [] => []
  | true :: rest => next :: numberMarked (next + 1) rest
  | false :: rest => 0 :: numberMarked next rest

namespace Circuit

/-- The circuit under new numbers. Blocks that lose all variables go; every kept
identifier keeps its name. -/
def renumber (c : Circuit) (numbering : Numbering) : Circuit :=
  let isKept (entry : Gate × Nat) := numbering.place (c.maxVar + entry.2) ≠ 0
  let kept := c.gates.toList.zipIdx.filter isKept
  let variableOrigins := (List.range' 1 (c.maxVar - 1)).foldl
    (fun origins v => match numbering.place v with
      | 0 => origins
      | place => origins.setIfInBounds place (c.origin.getD v 0))
    (Array.replicate numbering.maxVar 0)
  { c with
    maxVar := numbering.maxVar
    gates := (kept.map fun entry => numbering.gate entry.1).toArray
    blocks := (c.blocks.map numbering.block).filter (!·.vars.isEmpty)
    output? := c.output?.map numbering.literal
    origin := variableOrigins ++
      (kept.map fun entry => c.origin.getD (c.maxVar + entry.2) 0).toArray }

end Circuit

end QuantCircuit
