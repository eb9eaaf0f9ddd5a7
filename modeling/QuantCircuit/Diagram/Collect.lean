import QuantCircuit.Diagram.Query

namespace QuantCircuit.Diagram

/-- A table being compacted, and where the nodes looked at so far went. -/
structure Compaction where
  nodes : Array Node := #[]
  moved : Array Handle := #[]

def Compaction.relocate (state : Compaction) : Handle → Handle
  | .const value => .const value
  | .node index => state.moved.getD index (.const false)

/-- Keeps a live node, its children being moved already, and drops a dead one. -/
def Compaction.step (state : Compaction) (entry : Node × Bool) : Compaction :=
  if entry.2 then
    { nodes := state.nodes.push
        { entry.1 with low := state.relocate entry.1.low, high := state.relocate entry.1.high }
      moved := state.moved.push (.node state.nodes.size) }
  else
    { state with moved := state.moved.push (.const false) }

def compact (d : Diagram) (live : Array Bool) : Compaction :=
  (d.nodes.zip live).foldl Compaction.step {}

def inverse (nodes : Array Node) : Std.TreeMap Node Nat :=
  (nodes.foldl (fun (unique, i) n => (unique.insert n i, i + 1)) (∅, 0)).1

/-- Keeps what the roots reach, and says where the roots are now. -/
def collect (d : Diagram) (roots : List Handle) : List Handle × Diagram :=
  let state := d.compact (d.reachable roots)
  (roots.map state.relocate,
    { d with nodes := state.nodes, unique := inverse state.nodes, selections := ∅ })

end QuantCircuit.Diagram
