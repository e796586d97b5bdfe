import LayerGraph.ProjectStore
import LayerGraph.StoredRow

namespace LayerGraph

structure StoredProject where
  name : String
  owner : String
  training : Training := {}
  blocks : List StoredBlock := []
  edges : List StoredEdge := []
  nextOrdinal : Int := 0
  deriving DecidableEq, Inhabited

namespace StoredProject

def hasBlock (p : StoredProject) (id : NodeId) : Bool := p.blocks.any (·.id = id)

def hasEdge (p : StoredProject) (id : EdgeId) : Bool := p.edges.any (·.edge.id = id)

def edgesWhere (p : StoredProject) (holds : Edge → Bool) : List Edge :=
  (StoredEdge.sorted (p.edges.filter (holds ·.edge))).map (·.edge)

/-- A connection needs an id of its own and blocks at both ends. -/
def checkEdge (p : StoredProject) (e : Edge) : Except StorageError Unit :=
  if p.hasEdge e.id then .error (.integrity (.edgeExists e.id))
  else if !p.hasBlock e.source then .error (.integrity (.missingBlock e.id e.source))
  else if !p.hasBlock e.target then .error (.integrity (.missingBlock e.id e.target))
  else .ok ()

end StoredProject

structure MemoryStore where
  /-- In the order of their ids. -/
  projects : List (ProjectId × StoredProject) := []
  nextId : Int := 1
  deriving DecidableEq, Inhabited

namespace MemoryStore

def get (s : MemoryStore) (id : ProjectId) : Except StorageError StoredProject :=
  match s.projects.lookup id with
  | some p => .ok p
  | none => .error (.projectNotFound id)

def put (s : MemoryStore) (id : ProjectId) (p : StoredProject) : MemoryStore :=
  { s with projects := s.projects.map fun (i, q) => if i = id then (i, p) else (i, q) }

def create (s : MemoryStore) (name owner : String) : ProjectId × MemoryStore :=
  let id : ProjectId := ⟨s.nextId⟩
  (id, { projects := s.projects ++ [(id, { name, owner })], nextId := s.nextId + 1 })

def load (s : MemoryStore) (id : ProjectId) : Except StorageError Project := do
  let p ← s.get id
  let graph ← GraphRows.toGraph ⟨p.blocks, p.edges⟩
  return ⟨id, p.name, p.owner, graph, p.training⟩

def save (s : MemoryStore) (id : ProjectId) (g : Graph) (training : Training) :
    Except StorageError MemoryStore := do
  let p ← s.get id
  let rows := g.toRows
  return s.put id { p with
    training, blocks := rows.blocks, edges := rows.edges, nextOrdinal := rows.edges.length }

def delete (s : MemoryStore) (id : ProjectId) : Except StorageError MemoryStore := do
  let _ ← s.get id
  return { s with projects := s.projects.filter (·.1 ≠ id) }

def list (s : MemoryStore) (owner : Option String) : List ProjectSummary :=
  (s.projects.filter fun (_, p) => owner.all (p.owner = ·)).map fun (id, p) =>
    ⟨id, p.name, p.owner⟩

def insertNode (s : MemoryStore) (id : ProjectId) (n : Node) : Except StorageError MemoryStore := do
  let p ← s.get id
  if p.hasBlock n.id then throw (.integrity (.blockExists n.id))
  return s.put id { p with blocks := p.blocks ++ [.ofNode n] }

def getNode (s : MemoryStore) (id : ProjectId) (node : NodeId) : Except StorageError Node := do
  let p ← s.get id
  match p.blocks.find? (·.id = node) with
  | some row => row.toNode
  | none => throw (.nodeNotFound id node)

def updateNode (s : MemoryStore) (id : ProjectId) (n : Node) : Except StorageError MemoryStore := do
  let p ← s.get id
  if !p.hasBlock n.id then throw (.nodeNotFound id n.id)
  return s.put id { p with
    blocks := p.blocks.map fun row => if row.id = n.id then .ofNode n else row }

def deleteNode (s : MemoryStore) (id : ProjectId) (node : NodeId) :
    Except StorageError MemoryStore := do
  let p ← s.get id
  if !p.hasBlock node then throw (.nodeNotFound id node)
  return s.put id { p with
    blocks := p.blocks.filter (·.id ≠ node)
    edges := p.edges.filter fun row => row.edge.source ≠ node ∧ row.edge.target ≠ node }

def insertEdge (s : MemoryStore) (id : ProjectId) (e : Edge) : Except StorageError MemoryStore := do
  let p ← s.get id
  p.checkEdge e
  return s.put id { p with
    edges := p.edges ++ [⟨e, p.nextOrdinal⟩], nextOrdinal := p.nextOrdinal + 1 }

def getEdge (s : MemoryStore) (id : ProjectId) (edge : EdgeId) : Except StorageError Edge := do
  let p ← s.get id
  match p.edges.find? (·.edge.id = edge) with
  | some row => return row.edge
  | none => throw (.edgeNotFound id edge)

def deleteEdge (s : MemoryStore) (id : ProjectId) (edge : EdgeId) :
    Except StorageError MemoryStore := do
  let p ← s.get id
  if !p.hasEdge edge then throw (.edgeNotFound id edge)
  return s.put id { p with edges := p.edges.filter (·.edge.id ≠ edge) }

def nodesOfKind (s : MemoryStore) (id : ProjectId) (kind : String) :
    Except StorageError (List Node) := do
  ((← s.get id).blocks.filter (·.kind = kind)).mapM (·.toNode)

instance : ProjectStore MemoryStore where
  create s name owner := .ok (s.create name owner)
  load := load
  save := save
  delete := delete
  list s owner := .ok (s.list owner)
  insertNode := insertNode
  getNode := getNode
  updateNode := updateNode
  deleteNode := deleteNode
  insertEdge := insertEdge
  getEdge := getEdge
  deleteEdge := deleteEdge
  edgesFrom s id node := return (← s.get id).edgesWhere (·.source = node)
  edgesTo s id node := return (← s.get id).edgesWhere (·.target = node)
  nodesOfKind := nodesOfKind
  training s id := return (← s.get id).training
  setTraining s id training := return s.put id { ← s.get id with training }

end MemoryStore

end LayerGraph
