import LayerGraph.GraphCodec
import LayerGraph.JsonPrinter
import LayerGraph.StorageError

namespace LayerGraph

structure StoredBlock where
  id : NodeId
  kind : String
  sequenceIndex : UInt32
  label : String
  position : Option Position
  /-- JSON text. -/
  data : String
  deriving DecidableEq, Inhabited

structure StoredEdge where
  edge : Edge
  ordinal : Int
  deriving DecidableEq, Inhabited

structure GraphRows where
  blocks : List StoredBlock
  edges : List StoredEdge
  deriving DecidableEq, Inhabited

namespace StoredBlock

def ofNode (n : Node) : StoredBlock where
  id := n.id
  kind := n.block.kindName
  sequenceIndex := n.sequenceIndex
  label := n.label
  position := n.position
  data := n.block.data.text

def toNode (row : StoredBlock) : Except StorageError Node := do
  let data ← (Decoder.ofText Document.json row.data).mapError fun _ => .unreadableText
  let block ← (Block.ofRaw ⟨row.kind, data⟩).mapError fun e => .reconstruction (.block row.id e)
  return ⟨row.id, row.sequenceIndex, row.label, row.position, block⟩

end StoredBlock

namespace StoredEdge

/-- Connections with ordinals from `n` on. -/
def numbered : (n : Int) → List Edge → List StoredEdge
  | _, [] => []
  | n, e :: es => ⟨e, n⟩ :: numbered (n + 1) es

/-- In the order of the ordinals; rows with the same one stay in the order they have. -/
def sorted (rows : List StoredEdge) : List StoredEdge :=
  rows.mergeSort fun a b => a.ordinal ≤ b.ordinal

end StoredEdge

/-- The rows of a graph: its nodes in order, and its connections numbered from zero. -/
def Graph.toRows (g : Graph) : GraphRows := ⟨g.nodes.map .ofNode, StoredEdge.numbered 0 g.edges⟩

namespace GraphRows

def addBlock (g : Graph) (row : StoredBlock) : Except StorageError Graph := do
  (g.add (← row.toNode)).mapError fun e => .reconstruction (.graph e)

def addEdge (g : Graph) (row : StoredEdge) : Except StorageError Graph :=
  (g.addEdge row.edge).mapError fun e => .reconstruction (.graph e)

/-- Adds the blocks as the rows stand, then the connections in the order of their ordinals. -/
def toGraph (rows : GraphRows) : Except StorageError Graph := do
  let g ← rows.blocks.foldlM addBlock .empty
  (StoredEdge.sorted rows.edges).foldlM addEdge g

end GraphRows

end LayerGraph
