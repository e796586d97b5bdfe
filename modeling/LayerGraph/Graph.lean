import LayerGraph.Node
import LayerGraph.Saturating

namespace LayerGraph

/-- The nodes of a family are in the order of their sequence indices, and nodes with the same one in
the order in which they entered the family. -/
structure Graph where
  slots : List (Option Node) := []
  /-- The empty slots, the one vacated last first. -/
  vacant : List Nat := []
  neural : List NodeId := []
  spatial : List NodeId := []
  /-- The connections, oldest first. -/
  edges : List Edge := []
  deriving DecidableEq, Inhabited

namespace Graph

def empty : Graph := {}

def nodes (g : Graph) : List Node := g.slots.filterMap id

def node? (g : Graph) (id : NodeId) : Option Node := g.nodes.find? (·.id = id)

def contains (g : Graph) (id : NodeId) : Bool := (g.node? id).isSome

def get (g : Graph) (id : NodeId) : Except GraphError Node :=
  match g.node? id with
  | some n => .ok n
  | none => .error (.nodeNotFound id)

def edge? (g : Graph) (id : EdgeId) : Option Edge := g.edges.find? (·.id = id)

def outgoing (g : Graph) (id : NodeId) : List Edge := g.edges.filter (·.source = id)

def incoming (g : Graph) (id : NodeId) : List Edge := g.edges.filter (·.target = id)

/-- Where the connections out of a node lead, oldest first; parallel ones repeat their target. -/
def successors (g : Graph) (id : NodeId) : List NodeId := (g.outgoing id).map (·.target)

def family (g : Graph) : Family → List NodeId
  | .neural => g.neural
  | .spatial => g.spatial

def members (g : Graph) (f : Family) : List Node := (g.family f).filterMap g.node?

def toDocument (g : Graph) : GraphDocument := ⟨g.nodes, g.edges⟩

def setFamily (g : Graph) (f : Family) (ids : List NodeId) : Graph :=
  match f with
  | .neural => { g with neural := ids }
  | .spatial => { g with spatial := ids }

def unfile (g : Graph) (id : NodeId) : Graph :=
  { g with neural := g.neural.filter (· ≠ id), spatial := g.spatial.filter (· ≠ id) }

def comesAfter (g : Graph) (i : UInt32) (id : NodeId) : Bool :=
  (g.node? id).any fun n => i < n.sequenceIndex

/-- Puts a node into its family, behind those whose sequence index is not above its own. -/
def file (g : Graph) (n : Node) : Graph :=
  match n.family? with
  | none => g
  | some f =>
    let later := g.comesAfter n.sequenceIndex
    let ids := g.family f
    g.setFamily f (ids.takeWhile (!later ·) ++ n.id :: ids.dropWhile (!later ·))

def nextSequenceIndex (g : Graph) (f : Family) : UInt32 :=
  ((g.members f).map fun n => saturate (n.sequenceIndex.toNat + 1)).foldl max 0

/-- Puts a node into the slot vacated last, or a new one. -/
def place (g : Graph) (n : Node) : Graph :=
  match g.vacant with
  | [] => { g with slots := g.slots ++ [some n] }
  | i :: rest => { g with slots := g.slots.set i (some n), vacant := rest }

def add (g : Graph) (n : Node) : Except GraphError Graph :=
  if g.contains n.id then .error (.duplicateNode n.id) else .ok ((g.place n).file n)

def remove (g : Graph) (id : NodeId) : Except GraphError (Node × Graph) := do
  let n ← g.get id
  let isIt (s : Option Node) : Bool := s.any (·.id = id)
  return (n, {
    g.unfile id with
    slots := g.slots.map fun s => if isIt s then none else s
    vacant := g.slots.findIdx isIt :: g.vacant
    edges := g.edges.filter fun e => e.source ≠ id ∧ e.target ≠ id })

/-- Changes a node in its slot; its id has to stay. -/
def mapNode (g : Graph) (id : NodeId) (f : Node → Node) : Graph :=
  { g with slots := g.slots.map (·.map fun n => if n.id = id then f n else n) }

/-- Changes the block of a node, which may take it to another family. -/
def modifyBlock (g : Graph) (id : NodeId) (f : Block → Except GraphError Block) :
    Except GraphError Graph := do
  let n ← g.get id
  let block ← f n.block
  let g := g.mapNode id ({ · with block })
  return if block.family? = n.family? then g else (g.unfile id).file { n with block }

def setSequenceIndex (g : Graph) (id : NodeId) (sequenceIndex : UInt32) :
    Except GraphError Graph := do
  let n ← g.get id
  -- filed again, the node would go behind those that share the index
  if n.sequenceIndex = sequenceIndex then return g
  return ((g.unfile id).mapNode id ({ · with sequenceIndex })).file { n with sequenceIndex }

def makeRoom (g : Graph) (f : Family) (start : UInt32) : Graph :=
  { g with
    slots := g.slots.map (·.map fun n =>
      if n.family? = some f ∧ start ≤ n.sequenceIndex then
        -- an index that is the largest already stays, and there is no room before it
        { n with sequenceIndex := saturate (n.sequenceIndex.toNat + 1) }
      else n) }

def setLabel (g : Graph) (id : NodeId) (label : String) : Except GraphError Graph := do
  let _ ← g.get id
  return g.mapNode id ({ · with label })

def setPosition (g : Graph) (id : NodeId) (position : Option Position) :
    Except GraphError Graph := do
  let _ ← g.get id
  return g.mapNode id ({ · with position })

def addEdge (g : Graph) (e : Edge) : Except GraphError Graph :=
  if (g.edge? e.id).isSome then .error (.duplicateEdge e.id)
  else if e.source = e.target then .error (.invalidEdge (.selfLoop e.source))
  else if !g.contains e.source then .error (.invalidEdge (.missingSource e.source))
  else if !g.contains e.target then .error (.invalidEdge (.missingTarget e.target))
  else .ok { g with edges := g.edges ++ [e] }

def removeEdge (g : Graph) (id : EdgeId) : Except GraphError (Edge × Graph) :=
  match g.edge? id with
  | some e => .ok (e, { g with edges := g.edges.filter (·.id ≠ id) })
  | none => .error (.edgeNotFound id)

/-- Adds the nodes one by one, then the connections. -/
def ofDocument (doc : GraphDocument) : Except GraphError Graph := do
  let g ← doc.nodes.foldlM add empty
  doc.edges.foldlM addEdge g

end Graph

end LayerGraph
