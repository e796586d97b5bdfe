import LayerGraph.ApiError
import LayerGraph.Edit
import LayerGraph.Insert
import LayerGraph.ProjectStore
import LayerGraph.Revision

namespace LayerGraph

/-- One project is active and held in memory. Every change of it is written to the store before the
request ends. -/
structure ProjectService (σ : Type) where
  store : σ
  shape : ShapeConfig
  project : Project

/-- A request. What it has changed when it fails stays changed. -/
abbrev ServiceM (σ α : Type) := ExceptT ApiError (StateM (ProjectService σ)) α

structure GraphView where
  project : ProjectId
  document : GraphDocument
  neural : List NodeId
  spatial : List NodeId
  revision : String
  deriving DecidableEq

structure NewBlock where
  kind : String
  id : Option NodeId
  position : Option Position
  label : Option String
  deriving DecidableEq

structure NodeChange where
  param : Option String
  value : Option ParamValue
  position : Option Position
  deriving DecidableEq

structure NewEdge where
  id : Option EdgeId
  source : NodeId
  target : NodeId
  deriving DecidableEq

namespace ProjectService

variable {σ : Type}

def orFail {α ε : Type} (f : ε → ApiError) (r : Except ε α) : ServiceM σ α :=
  liftM (m := Except ApiError) (r.mapError f)

def inGraph {α : Type} (r : Except GraphError α) : ServiceM σ α := orFail .graph r

def inStore {α : Type} (r : Except StorageError α) : ServiceM σ α := orFail .storage r

def activeGraph : ServiceM σ Graph := return (← get).project.graph

def setGraph (graph : Graph) : ServiceM σ Unit :=
  modify fun s => { s with project := { s.project with graph } }

/-- Makes a write; the store stays as it is when that fails. -/
def write (f : σ → Except StorageError σ) : ServiceM σ Unit := do
  let store ← inStore (f (← get).store)
  modify ({ · with store })

def requireActive (id : ProjectId) : ServiceM σ Unit := do
  let active := (← get).project.id
  if id ≠ active then throw (.notLoaded id active)

def revision (s : ProjectService σ) : String := s.project.graph.revision s.project.training

variable [ProjectStore σ]

def persist : ServiceM σ Unit := do
  let p := (← get).project
  write (ProjectStore.save · p.id p.graph p.training)

def reconcileActive : ServiceM σ (List Adjustment) := do
  let (graph, adjustments) := (← activeGraph).reconcile (← get).shape
  setGraph graph
  if !adjustments.isEmpty then persist
  return adjustments

/-- The first stored project, or a new one when there is none. -/
def firstProject (store : σ) : Except StorageError (ProjectId × σ) := do
  match ← ProjectStore.list store none with
  | first :: _ => return (first.id, store)
  | [] => ProjectStore.create store "default" ""

def openStore (store : σ) (shape : ShapeConfig) : Except ApiError (ProjectService σ) := do
  let (id, store) ← (firstProject store).mapError .storage
  let project ← (ProjectStore.load store id).mapError .storage
  let (result, s) := reconcileActive.run.run { store, shape, project }
  let _ ← result
  return s

def create (name owner : String) : ServiceM σ ProjectSummary := do
  if isBlankText name then throw .emptyProjectName
  let (id, store) ← inStore (ProjectStore.create (← get).store name owner)
  modify ({ · with store })
  return ⟨id, name, owner⟩

def list (owner : Option String) : ServiceM σ (List ProjectSummary) := do
  inStore (ProjectStore.list (← get).store owner)

def delete (id : ProjectId) : ServiceM σ Unit := do
  if id = (← get).project.id then throw .projectInUse
  write (ProjectStore.delete · id)

def load (id : ProjectId) : ServiceM σ (ProjectSummary × List Adjustment) := do
  let project ← inStore (ProjectStore.load (← get).store id)
  modify ({ · with project })
  -- the project is active from here on, whether or not its adjustments can be written
  let adjustments ← reconcileActive
  return (project.summary, adjustments)

def graph (id : ProjectId) : ServiceM σ GraphView := do
  requireActive id
  let s ← get
  let g := s.project.graph
  return ⟨id, g.toDocument, g.neural, g.spatial, s.revision⟩

def node (id : ProjectId) (node : NodeId) : ServiceM σ Node := do
  requireActive id
  inGraph ((← activeGraph).get node)

def check (id : ProjectId) : ServiceM σ (List Violation) := do
  requireActive id
  return (← activeGraph).validate (← get).shape

def insertBlock (id : ProjectId) (new : NewBlock) : ServiceM σ Node := do
  requireActive id
  match Kind.ofName? new.kind with
  | none => throw (.graph (.unknownKind new.kind))
  | some kind =>
    let (node, g) ← inGraph ((← activeGraph).insert kind new.id (← get).shape)
    setGraph g
    if let some label := new.label then
      setGraph (← inGraph ((← activeGraph).setLabel node label))
    if new.position.isSome then
      setGraph (← inGraph ((← activeGraph).setPosition node new.position))
    let inserted ← inGraph ((← activeGraph).get node)
    -- memory has the block by now, also when the store refuses it
    persist
    return inserted

def editOf (change : NodeChange) : ServiceM σ (Option (String × ParamValue)) :=
  match change.param, change.value with
  | some param, some value => return some (param, value)
  | some param, none => throw (.missingValue param)
  | none, some _ => throw .missingParam
  | none, none => do
    if change.position.isNone then throw .nothingToChange
    return none

/-- Changes a block. A move alone is written to its row; anything else saves the project. -/
def editNode (id : ProjectId) (node : NodeId) (change : NodeChange) :
    ServiceM σ (Node × Option EditOutcome) := do
  requireActive id
  let _ ← inGraph ((← activeGraph).get node)
  let outcome : Option EditOutcome ← match ← editOf change with
    | none => pure none
    | some (param, value) => do
      let (outcome, g) ← inGraph ((← activeGraph).edit node param value (← get).shape)
      setGraph g
      pure (some outcome)
  if change.position.isSome then
    setGraph (← inGraph ((← activeGraph).setPosition node change.position))
  let changed ← inGraph ((← activeGraph).get node)
  if outcome.isSome then persist else write (ProjectStore.updateNode · id changed)
  return (changed, outcome)

def deleteNode (id : ProjectId) (node : NodeId) : ServiceM σ (Node × List Adjustment) := do
  requireActive id
  let (removed, g) ← inGraph ((← activeGraph).remove node)
  let (g, adjustments) := g.reconcile (← get).shape
  setGraph g
  persist
  return (removed, adjustments)

def addEdge (id : ProjectId) (new : NewEdge) : ServiceM σ Edge := do
  requireActive id
  let edge : Edge := match new.id with
    | some edge => ⟨edge, new.source, new.target⟩
    | none => .connect new.source new.target
  let g ← inGraph ((← activeGraph).addEdge edge)
  -- the store comes first here: what it refuses does not get into memory
  write (ProjectStore.insertEdge · id edge)
  setGraph g
  return edge

def deleteEdge (id : ProjectId) (edge : EdgeId) : ServiceM σ Edge := do
  requireActive id
  let (removed, g) ← inGraph ((← activeGraph).removeEdge edge)
  write (ProjectStore.deleteEdge · id edge)
  setGraph g
  return removed

def reconcile (id : ProjectId) : ServiceM σ (List Adjustment) := do
  requireActive id
  reconcileActive

def training (id : ProjectId) : ServiceM σ Training := do
  requireActive id
  return (← get).project.training

def setTraining (id : ProjectId) (training : Training) : ServiceM σ Unit := do
  requireActive id
  inGraph training.validate
  write (ProjectStore.setTraining · id training)
  modify fun s => { s with project := { s.project with training } }

def compile (id : ProjectId) : ServiceM σ Compilation := do
  requireActive id
  let s ← get
  orFail .compile (s.project.graph.compile s.project.training { shape := s.shape })

/-- The model to be trained; the shapes of the graph have to be right. -/
def compileForTraining (id : ProjectId) : ServiceM σ Model := do
  let c ← compile id
  if !c.warnings.isEmpty then throw (.violations c.warnings)
  return c.model

end ProjectService

end LayerGraph
