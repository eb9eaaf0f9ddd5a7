import QuantCircuit.Solver.Basic

namespace QuantCircuit.Solver

def stopEarly (f : Handle) : Solve Handle := do
  count fun statistics => { statistics with earlyTermination := true }
  return f

def countBlock : Solve Unit :=
  count fun statistics => { statistics with blocksEliminated := statistics.blocksEliminated + 1 }

/-- Quantifies one block after the other, until the function is constant. -/
def abstractBlocks : List Block → Handle → Solve Handle
  | [], f => pure f
  | block :: rest, f => do
    if f.isConstant then stopEarly f
    else
      let f ← onDiagram (Diagram.abstract block.quantifier (block.vars.map Int.ofNat) f)
      countBlock
      noteSize
      abstractBlocks rest f

/-- Quantifies one variable after the other, until the function is constant; says
whether it came to the end. -/
def abstractVariables (q : Quantifier) : List Nat → Handle → Solve (Handle × Bool)
  | [], f => pure (f, true)
  | v :: rest, f => do
    if f.isConstant then return (← stopEarly f, false)
    let f ← onDiagram (Diagram.abstract q [v] f)
    noteSize
    abstractVariables q rest f

def abstractBlocksByVariable : List Block → Handle → Solve Handle
  | [], f => pure f
  | block :: rest, f => do
    let (f, finished) ← abstractVariables block.quantifier block.vars.reverse f
    if finished then
      countBlock
      abstractBlocksByVariable rest f
    else return f

def freeVariables (c : Circuit) (d : Diagram) (f : Handle) : List Nat :=
  (d.support f).filter fun v => (c.quantifierOf? v).isNone

/-- Free variables are read as existential ones outside of all blocks. If the
outermost block is universal, it is quantified here together with them. -/
def closeFree (f : Handle) : Solve Handle := do
  let c := (← get).circuit
  let free := freeVariables c (← get).diagram f
  if free.isEmpty then return f
  let quantifyFree (f : Handle) : Solve Handle := do
    let f ← onDiagram (Diagram.abstract .ex (free.map Int.ofNat) f)
    noteSize
    return f
  match c.blocks.head? with
  | none => quantifyFree f
  | some block =>
    if block.quantifier = .ex then return f
    modify fun s => { s with outerAbstracted := true }
    countBlock
    quantifyFree (← onDiagram (Diagram.abstract .all (block.vars.map Int.ofNat) f))

def eliminateWith (call : StagedCall) (work : List Block → Handle → Solve Handle) : Solve Unit := do
  let f ← expectStage .matrixCompiled call
  let f ← closeFree (← work (← get).circuit.blocks.tail.reverse f)
  noteFunction .prefixEliminated f

/-- Leaves at most the outermost block, quantifying whole blocks at a time. -/
def eliminateBlocks : Solve Unit :=
  eliminateWith .eliminateBlocks abstractBlocks

/-- Leaves at most the outermost block, quantifying single variables. -/
def eliminateVariables : Solve Unit :=
  eliminateWith .eliminateVariables abstractBlocksByVariable

end QuantCircuit.Solver
