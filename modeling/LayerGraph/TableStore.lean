import LayerGraph.ProjectStore
import LayerGraph.StoredRow

namespace LayerGraph

structure ProjectRow where
  id : ProjectId
  name : String
  owner : String
  /-- JSON text. -/
  training : String
  deriving DecidableEq, Inhabited

/-- The rows are in the order of insertion. Those that refer to a deleted row go with it. -/
structure TableStore where
  projects : List ProjectRow := []
  blocks : List (ProjectId × StoredBlock) := []
  edges : List (ProjectId × StoredEdge) := []
  /-- Ids count up and are not used twice. -/
  nextId : Int := 1
  deriving DecidableEq, Inhabited

namespace TableStore

def rowsOf {α : Type} (id : ProjectId) (table : List (ProjectId × α)) : List α :=
  table.filterMap fun (p, row) => if p = id then some row else none

def project (s : TableStore) (id : ProjectId) : Except StorageError ProjectRow :=
  match s.projects.find? (·.id = id) with
  | some row => .ok row
  | none => .error (.projectNotFound id)

def blockRows (s : TableStore) (id : ProjectId) : List StoredBlock := rowsOf id s.blocks

def edgeRows (s : TableStore) (id : ProjectId) : List StoredEdge := rowsOf id s.edges

def hasBlock (s : TableStore) (id : ProjectId) (node : NodeId) : Bool :=
  (s.blockRows id).any (·.id = node)

def hasEdge (s : TableStore) (id : ProjectId) (edge : EdgeId) : Bool :=
  (s.edgeRows id).any (·.edge.id = edge)

/-- A column of numbers does not keep the sign of zero, and takes what is no number for no value. -/
def columnValue (x : Float) : Option Float :=
  if x.isNaN then none else if x == 0 then some 0 else some x

/-- A position as two columns keep it; it is gone when one of them has no value. -/
def columnPosition (p : Position) : Option Position :=
  return ⟨← columnValue p.x, ← columnValue p.y⟩

def blockRow (row : StoredBlock) : StoredBlock :=
  { row with position := row.position.bind columnPosition }

def trainingOf (row : ProjectRow) : Except StorageError Training :=
  (Decoder.ofText Training.decoder row.training).mapError fun _ => .unreadableText

def nextOrdinal (s : TableStore) (id : ProjectId) : Int :=
  -- read off the rows: the greatest ordinal is given again once its connection is deleted
  match (s.edgeRows id).map (·.ordinal) with
  | [] => 0
  | n :: ns => ns.foldl max n + 1

def writeTraining (s : TableStore) (id : ProjectId) (t : Training) : TableStore :=
  { s with projects := s.projects.map fun row =>
      if row.id = id then { row with training := t.toJson.text } else row }

def create (s : TableStore) (name owner : String) : ProjectId × TableStore :=
  let id : ProjectId := ⟨s.nextId⟩
  let default : Training := {}
  (id, { s with
    projects := s.projects ++ [⟨id, name, owner, default.toJson.text⟩]
    nextId := s.nextId + 1 })

def load (s : TableStore) (id : ProjectId) : Except StorageError Project := do
  let row ← s.project id
  let training ← trainingOf row
  let graph ← GraphRows.toGraph ⟨s.blockRows id, s.edgeRows id⟩
  return ⟨id, row.name, row.owner, graph, training⟩

def save (s : TableStore) (id : ProjectId) (g : Graph) (training : Training) :
    Except StorageError TableStore := do
  let _ ← s.project id
  let rows := g.toRows
  return { s.writeTraining id training with
    blocks := s.blocks.filter (·.1 ≠ id) ++ rows.blocks.map fun row => (id, blockRow row)
    edges := s.edges.filter (·.1 ≠ id) ++ rows.edges.map fun row => (id, row) }

def delete (s : TableStore) (id : ProjectId) : Except StorageError TableStore := do
  let _ ← s.project id
  return { s with
    projects := s.projects.filter (·.id ≠ id)
    blocks := s.blocks.filter (·.1 ≠ id)
    edges := s.edges.filter (·.1 ≠ id) }

def list (s : TableStore) (owner : Option String) : List ProjectSummary :=
  (s.projects.filter fun row => owner.all (row.owner = ·)).map fun row =>
    ⟨row.id, row.name, row.owner⟩

def insertNode (s : TableStore) (id : ProjectId) (n : Node) : Except StorageError TableStore := do
  let _ ← s.project id
  if s.hasBlock id n.id then throw (.integrity (.blockExists n.id))
  return { s with blocks := s.blocks ++ [(id, blockRow (.ofNode n))] }

def getNode (s : TableStore) (id : ProjectId) (node : NodeId) : Except StorageError Node := do
  let _ ← s.project id
  match (s.blockRows id).find? (·.id = node) with
  | some row => row.toNode
  | none => throw (.nodeNotFound id node)

def updateNode (s : TableStore) (id : ProjectId) (n : Node) : Except StorageError TableStore := do
  let _ ← s.project id
  if !s.hasBlock id n.id then throw (.nodeNotFound id n.id)
  return { s with blocks := s.blocks.map fun (p, row) =>
    if p = id ∧ row.id = n.id then (p, blockRow (.ofNode n)) else (p, row) }

def deleteNode (s : TableStore) (id : ProjectId) (node : NodeId) :
    Except StorageError TableStore := do
  let _ ← s.project id
  if !s.hasBlock id node then throw (.nodeNotFound id node)
  return { s with
    blocks := s.blocks.filter fun (p, row) => ¬(p = id ∧ row.id = node)
    edges := s.edges.filter fun (p, row) =>
      ¬(p = id ∧ (row.edge.source = node ∨ row.edge.target = node)) }

def insertEdge (s : TableStore) (id : ProjectId) (e : Edge) : Except StorageError TableStore := do
  let _ ← s.project id
  if s.hasEdge id e.id then throw (.integrity (.edgeExists e.id))
  if !s.hasBlock id e.source then throw (.integrity (.missingBlock e.id e.source))
  if !s.hasBlock id e.target then throw (.integrity (.missingBlock e.id e.target))
  return { s with edges := s.edges ++ [(id, ⟨e, s.nextOrdinal id⟩)] }

def getEdge (s : TableStore) (id : ProjectId) (edge : EdgeId) : Except StorageError Edge := do
  let _ ← s.project id
  match (s.edgeRows id).find? (·.edge.id = edge) with
  | some row => return row.edge
  | none => throw (.edgeNotFound id edge)

def deleteEdge (s : TableStore) (id : ProjectId) (edge : EdgeId) :
    Except StorageError TableStore := do
  let _ ← s.project id
  if !s.hasEdge id edge then throw (.edgeNotFound id edge)
  return { s with edges := s.edges.filter fun (p, row) => ¬(p = id ∧ row.edge.id = edge) }

def edgesWhere (s : TableStore) (id : ProjectId) (holds : Edge → Bool) :
    Except StorageError (List Edge) := do
  let _ ← s.project id
  return (StoredEdge.sorted ((s.edgeRows id).filter (holds ·.edge))).map (·.edge)

def nodesOfKind (s : TableStore) (id : ProjectId) (kind : String) :
    Except StorageError (List Node) := do
  let _ ← s.project id
  ((s.blockRows id).filter (·.kind = kind)).mapM (·.toNode)

instance : ProjectStore TableStore where
  create s name owner := .ok (s.create name owner)
  load := load
  save := save
  delete := delete
  list s owner := .ok (s.list owner)
  insertNode := insertNode
  getNode := getNode
  updateNode := updateNode
  deleteNode := deleteNode
  insertEdge := insertEdge
  getEdge := getEdge
  deleteEdge := deleteEdge
  edgesFrom s id node := s.edgesWhere id (·.source = node)
  edgesTo s id node := s.edgesWhere id (·.target = node)
  nodesOfKind := nodesOfKind
  training s id := do trainingOf (← s.project id)
  setTraining s id training := do
    let _ ← s.project id
    return s.writeTraining id training

end TableStore

end LayerGraph
