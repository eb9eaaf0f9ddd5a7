import QuantCircuit.Circuit.Basic

namespace QuantCircuit.Qcir

/-- A literal by its number, or by the name it was declared with. -/
def literalText (c : Circuit) (keepNames : Bool) (literal : Literal) : String :=
  if keepNames then c.literalName literal else toString literal

def listText (c : Circuit) (keepNames : Bool) (literals : List Literal) : String :=
  ", ".intercalate (literals.map (literalText c keepNames))

def gateLine (c : Circuit) (keepNames : Bool) (gate : Gate) (id : Nat) : String :=
  let bound := if gate.connective.isQuantifier then listText c keepNames gate.bound ++ "; " else ""
  s!"{literalText c keepNames id} = {gate.connective.name}(" ++
    bound ++ listText c keepNames gate.inputs ++ ")\n"

def freeVariables (c : Circuit) : List Literal :=
  ((List.range' 1 (c.maxVar - 1)).map Int.ofNat).filter fun v => (c.quantifierOf? v).isNone

def freeLine (c : Circuit) (keepNames : Bool) : String :=
  match freeVariables c with
  | [] => ""
  | free => "free(" ++ listText c keepNames free ++ ")\n"

def blockLine (c : Circuit) (keepNames : Bool) (block : Block) : String :=
  block.quantifier.name ++ "(" ++ listText c keepNames (block.vars.map Int.ofNat) ++ ")\n"

def write (c : Circuit) (keepNames : Bool) : Except Error String := do
  let out ← c.output
  return "#QCIR-G14\n" ++ freeLine c keepNames ++
    String.join (c.blocks.map (blockLine c keepNames)) ++
    "output(" ++ literalText c keepNames out ++ ")\n" ++
    String.join ((c.gates.toList.zipIdx c.maxVar).map fun (gate, id) =>
      gateLine c keepNames gate id)

/-- The line `name=value name=value ...`. -/
def valuationLine (c : Circuit) (valuation : Valuation) : String :=
  " ".intercalate (valuation.map fun (v, value) => s!"{c.nameOf v}={value}") ++ "\n"

end QuantCircuit.Qcir
