import LayerGraph.Arena
import LayerGraph.Graph

namespace LayerGraph

/-- A connection between slots. -/
structure FlowEdge where
  id : EdgeId
  ordinal : Nat
  source : Nat
  target : Nat
  deriving DecidableEq

/-- A graph as it is kept: ids lead to slots, families list slots, and a connection has the number
with which it was added. -/
structure IndexedGraph where
  nodes : Arena Node := {}
  edges : Arena FlowEdge := {}
  nodeIndex : List (NodeId × Nat) := []
  edgeIndex : List (EdgeId × Nat) := []
  neural : List Nat := []
  spatial : List Nat := []
  nextOrdinal : Nat := 0

namespace IndexedGraph

def empty : IndexedGraph := {}

def slot? (g : IndexedGraph) (id : NodeId) : Option Nat := g.nodeIndex.lookup id

def node? (g : IndexedGraph) (id : NodeId) : Option Node := (g.slot? id).bind g.nodes.get?

def get (g : IndexedGraph) (id : NodeId) : Except GraphError (Nat × Node) :=
  match g.slot? id with
  | none => .error (.nodeNotFound id)
  | some i =>
    match g.nodes.get? i with
    | none => .error (.nodeNotFound id)
    | some n => .ok (i, n)

def idAt (g : IndexedGraph) (i : Nat) : Option NodeId := (g.nodes.get? i).map (·.id)

def named (g : IndexedGraph) (e : FlowEdge) : Option Edge := do
  return ⟨e.id, ← g.idAt e.source, ← g.idAt e.target⟩

def edgeIdAt (g : IndexedGraph) (k : Nat) : Option EdgeId := (g.edges.get? k).map (·.id)

def edgeSlot? (g : IndexedGraph) (id : EdgeId) : Option Nat := g.edgeIndex.lookup id

def edge? (g : IndexedGraph) (id : EdgeId) : Option Edge := do
  g.named (← g.edges.get? (← g.edgeSlot? id))

def oldestFirst (es : List FlowEdge) : List FlowEdge := es.mergeSort (·.ordinal ≤ ·.ordinal)

def edgeList (g : IndexedGraph) : List Edge := (oldestFirst g.edges.entries).filterMap g.named

def edgesAt (g : IndexedGraph) (side : FlowEdge → Nat) (id : NodeId) : List Edge :=
  match g.slot? id with
  | none => []
  | some i => (oldestFirst (g.edges.entries.filter (side · = i))).filterMap g.named

def outgoing (g : IndexedGraph) (id : NodeId) : List Edge := g.edgesAt (·.source) id

def incoming (g : IndexedGraph) (id : NodeId) : List Edge := g.edgesAt (·.target) id

def familySlots (g : IndexedGraph) : Family → List Nat
  | .neural => g.neural
  | .spatial => g.spatial

def setFamilySlots (g : IndexedGraph) (f : Family) (is : List Nat) : IndexedGraph :=
  match f with
  | .neural => { g with neural := is }
  | .spatial => { g with spatial := is }

def unfile (g : IndexedGraph) (i : Nat) : IndexedGraph :=
  { g with neural := g.neural.filter (· ≠ i), spatial := g.spatial.filter (· ≠ i) }

def comesAfter (g : IndexedGraph) (q : UInt32) (i : Nat) : Bool :=
  (g.nodes.get? i).any fun n => q < n.sequenceIndex

def file (g : IndexedGraph) (i : Nat) (n : Node) : IndexedGraph :=
  match n.family? with
  | none => g
  | some f =>
    let later := g.comesAfter n.sequenceIndex
    let is := g.familySlots f
    g.setFamilySlots f (is.takeWhile (!later ·) ++ i :: is.dropWhile (!later ·))

def add (g : IndexedGraph) (n : Node) : Except GraphError IndexedGraph :=
  if (g.slot? n.id).isSome then .error (.duplicateNode n.id)
  else
    let i := g.nodes.next
    let g := { g with nodes := g.nodes.insert n, nodeIndex := (n.id, i) :: g.nodeIndex }
    .ok (g.file i n)

def incident (g : IndexedGraph) (i : Nat) : List Nat :=
  (List.range g.edges.slots.length).filter fun k =>
    (g.edges.get? k).any fun e => e.source = i ∨ e.target = i

def without (g : IndexedGraph) (i : Nat) (id : NodeId) : IndexedGraph :=
  let removed := (g.incident i).filterMap g.edgeIdAt
  { g.unfile i with
    nodes := g.nodes.erase i
    edges := (g.incident i).foldl Arena.erase g.edges
    nodeIndex := g.nodeIndex.filter (·.1 ≠ id)
    edgeIndex := g.edgeIndex.filter (·.1 ∉ removed) }

def remove (g : IndexedGraph) (id : NodeId) : Except GraphError (Node × IndexedGraph) := do
  let (i, n) ← g.get id
  return (n, g.without i id)

def modifyNode (g : IndexedGraph) (i : Nat) (f : Node → Node) : IndexedGraph :=
  { g with nodes := g.nodes.modify i f }

def modifyBlock (g : IndexedGraph) (id : NodeId) (f : Block → Except GraphError Block) :
    Except GraphError IndexedGraph := do
  let (i, n) ← g.get id
  let block ← f n.block
  let g := g.modifyNode i ({ · with block })
  return if block.family? = n.family? then g else (g.unfile i).file i { n with block }

def setSequenceIndex (g : IndexedGraph) (id : NodeId) (sequenceIndex : UInt32) :
    Except GraphError IndexedGraph := do
  let (i, n) ← g.get id
  if n.sequenceIndex = sequenceIndex then return g
  return ((g.unfile i).modifyNode i ({ · with sequenceIndex })).file i { n with sequenceIndex }

def makeRoom (g : IndexedGraph) (f : Family) (start : UInt32) : IndexedGraph :=
  let raise (n : Node) : Node :=
    if start ≤ n.sequenceIndex then
      { n with sequenceIndex := saturate (n.sequenceIndex.toNat + 1) }
    else n
  { g with nodes := (g.familySlots f).foldl (·.modify · raise) g.nodes }

def setLabel (g : IndexedGraph) (id : NodeId) (label : String) :
    Except GraphError IndexedGraph := do
  let (i, _) ← g.get id
  return g.modifyNode i ({ · with label })

def setPosition (g : IndexedGraph) (id : NodeId) (position : Option Position) :
    Except GraphError IndexedGraph := do
  let (i, _) ← g.get id
  return g.modifyNode i ({ · with position })

def addEdge (g : IndexedGraph) (e : Edge) : Except GraphError IndexedGraph :=
  if (g.edgeSlot? e.id).isSome then .error (.duplicateEdge e.id)
  else if e.source = e.target then .error (.invalidEdge (.selfLoop e.source))
  else
    match g.slot? e.source, g.slot? e.target with
    | none, _ => .error (.invalidEdge (.missingSource e.source))
    | some _, none => .error (.invalidEdge (.missingTarget e.target))
    | some i, some j =>
      .ok { g with
        edges := g.edges.insert ⟨e.id, g.nextOrdinal, i, j⟩
        edgeIndex := (e.id, g.edges.next) :: g.edgeIndex
        nextOrdinal := g.nextOrdinal + 1 }

def removeEdge (g : IndexedGraph) (id : EdgeId) : Except GraphError (Edge × IndexedGraph) :=
  match g.edgeSlot? id with
  | none => .error (.edgeNotFound id)
  | some k =>
    match (g.edges.get? k).bind g.named with
    | none => .error (.edgeNotFound id)
    | some e =>
      .ok (e, { g with
        edges := g.edges.erase k
        edgeIndex := g.edgeIndex.filter (·.1 ≠ id) })

end IndexedGraph

end LayerGraph
