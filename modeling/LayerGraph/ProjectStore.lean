import LayerGraph.GraphCodec
import LayerGraph.StorageError

namespace LayerGraph

structure ProjectSummary where
  id : ProjectId
  name : String
  owner : String
  deriving DecidableEq, Inhabited

structure Project where
  id : ProjectId
  name : String
  owner : String
  graph : Graph
  training : Training
  deriving DecidableEq, Inhabited

def ProjectId.toJson (id : ProjectId) : Json := .int id.number

def ProjectSummary.toJson (p : ProjectSummary) : Json :=
  .object [("id", p.id.toJson), ("name", .string p.name), ("owner", .string p.owner)]

def Project.summary (p : Project) : ProjectSummary := ⟨p.id, p.name, p.owner⟩

/-- A store whose states are `σ`. A write that fails leaves the state as it was. -/
class ProjectStore (σ : Type) where
  create : σ → (name owner : String) → Except StorageError (ProjectId × σ)
  load : σ → ProjectId → Except StorageError Project
  save : σ → ProjectId → Graph → Training → Except StorageError σ
  delete : σ → ProjectId → Except StorageError σ
  list : σ → (owner : Option String) → Except StorageError (List ProjectSummary)
  insertNode : σ → ProjectId → Node → Except StorageError σ
  getNode : σ → ProjectId → NodeId → Except StorageError Node
  updateNode : σ → ProjectId → Node → Except StorageError σ
  deleteNode : σ → ProjectId → NodeId → Except StorageError σ
  insertEdge : σ → ProjectId → Edge → Except StorageError σ
  getEdge : σ → ProjectId → EdgeId → Except StorageError Edge
  deleteEdge : σ → ProjectId → EdgeId → Except StorageError σ
  edgesFrom : σ → ProjectId → NodeId → Except StorageError (List Edge)
  edgesTo : σ → ProjectId → NodeId → Except StorageError (List Edge)
  nodesOfKind : σ → ProjectId → (kind : String) → Except StorageError (List Node)
  training : σ → ProjectId → Except StorageError Training
  setTraining : σ → ProjectId → Training → Except StorageError σ

inductive StoreCall where
  | create (name owner : String)
  | load (project : ProjectId)
  | save (project : ProjectId) (graph : Graph) (training : Training)
  | delete (project : ProjectId)
  | list (owner : Option String)
  | insertNode (project : ProjectId) (node : Node)
  | getNode (project : ProjectId) (id : NodeId)
  | updateNode (project : ProjectId) (node : Node)
  | deleteNode (project : ProjectId) (id : NodeId)
  | insertEdge (project : ProjectId) (edge : Edge)
  | getEdge (project : ProjectId) (id : EdgeId)
  | deleteEdge (project : ProjectId) (id : EdgeId)
  | edgesFrom (project : ProjectId) (id : NodeId)
  | edgesTo (project : ProjectId) (id : NodeId)
  | nodesOfKind (project : ProjectId) (kind : String)
  | training (project : ProjectId)
  | setTraining (project : ProjectId) (training : Training)
  deriving DecidableEq

inductive StoreReply where
  | done
  | created (project : ProjectId)
  | project (p : Project)
  | summaries (ps : List ProjectSummary)
  | node (n : Node)
  | nodes (ns : List Node)
  | edge (e : Edge)
  | edges (es : List Edge)
  | training (t : Training)
  deriving DecidableEq

namespace StoreCall

variable {σ : Type}

def write (s : σ) : Except StorageError σ → Except StorageError StoreReply × σ
  | .ok s => (.ok .done, s)
  | .error e => (.error e, s)

def read {α : Type} (s : σ) (reply : α → StoreReply) (r : Except StorageError α) :
    Except StorageError StoreReply × σ :=
  (reply <$> r, s)

def run [ProjectStore σ] (s : σ) : StoreCall → Except StorageError StoreReply × σ
  | .create name owner =>
    match ProjectStore.create s name owner with
    | .ok (p, s) => (.ok (.created p), s)
    | .error e => (.error e, s)
  | .load p => read s .project (ProjectStore.load s p)
  | .save p g t => write s (ProjectStore.save s p g t)
  | .delete p => write s (ProjectStore.delete s p)
  | .list owner => read s .summaries (ProjectStore.list s owner)
  | .insertNode p n => write s (ProjectStore.insertNode s p n)
  | .getNode p id => read s .node (ProjectStore.getNode s p id)
  | .updateNode p n => write s (ProjectStore.updateNode s p n)
  | .deleteNode p id => write s (ProjectStore.deleteNode s p id)
  | .insertEdge p e => write s (ProjectStore.insertEdge s p e)
  | .getEdge p id => read s .edge (ProjectStore.getEdge s p id)
  | .deleteEdge p id => write s (ProjectStore.deleteEdge s p id)
  | .edgesFrom p id => read s .edges (ProjectStore.edgesFrom s p id)
  | .edgesTo p id => read s .edges (ProjectStore.edgesTo s p id)
  | .nodesOfKind p k => read s .nodes (ProjectStore.nodesOfKind s p k)
  | .training p => read s .training (ProjectStore.training s p)
  | .setTraining p t => write s (ProjectStore.setTraining s p t)

def runAll [ProjectStore σ] (s : σ) : List StoreCall → List (Except StorageError StoreReply) × σ
  | [] => ([], s)
  | c :: cs =>
    let (reply, s) := c.run s
    let (replies, s) := runAll s cs
    (reply :: replies, s)

end StoreCall

end LayerGraph
