import LayerGraph.Http
import LayerGraph.Jobs
import LayerGraph.ProjectService
import LayerGraph.Resource

namespace LayerGraph

structure Server (σ : Type) where
  service : ProjectService σ
  jobs : Jobs

/-- What answers a request; a refusal is a response too. -/
abbrev Handler (σ α : Type) := ExceptT HttpResponse (StateM (Server σ)) α

structure Surroundings where
  trainer : Service
  /-- In milliseconds. -/
  now : Nat

namespace Server

variable {σ : Type}

def refuse {α : Type} (status : Nat) : Handler σ α := throw ⟨status, none⟩

def fail {α : Type} (e : ApiError) : Handler σ α := throw ⟨e.failure.status, some e.toJson⟩

def textParam (s : String) : Handler σ String :=
  match percentDecode? s with
  | some t => return t
  | none => refuse 400

def projectParam (s : String) : Handler σ ProjectId := do
  match int64? (← textParam s).toList with
  | some n => return ⟨n⟩
  | none => refuse 400

/-- A project and something in it; both are looked at before either is refused. -/
def memberParams (id member : String) : Handler σ (ProjectId × String) := do
  let member ← textParam member
  return (← projectParam id, member)

def body {α : Type} (r : HttpRequest) (dec : Decoder α) : Handler σ α :=
  match r.decodeBody dec with
  | .ok a => return a
  | .error status => refuse status

/-- The owner that a query asks for; it may be named once. -/
def ownerParam (r : HttpRequest) : Handler σ (Option String) :=
  match (queryFields r.query).filter (·.1 = "owner") with
  | [] => return none
  | [(_, owner)] => return some owner
  | _ => refuse 400

def newProject : Decoder (String × String) :=
  Record.decoder (Prod.mk <$> .required "name" .text <*> .optional "owner" .text "")

def newBlock : Decoder NewBlock :=
  Record.decoder (NewBlock.mk <$> .required "type" .text <*> .nullable "id" NodeId.decoder
    <*> .nullable "position" Position.decoder <*> .nullable "label" .text)

def nodeChange : Decoder NodeChange :=
  Record.decoder (NodeChange.mk <$> .nullable "param" .text <*> .nullable "value" ParamValue.decoder
    <*> .nullable "position" Position.decoder)

def newEdge : Decoder NewEdge :=
  Record.decoder (NewEdge.mk <$> .nullable "id" EdgeId.decoder
    <*> .required "source" NodeId.decoder <*> .required "target" NodeId.decoder)

/-- Runs a request of the service; what it changed stays changed when it fails. -/
def run {α : Type} (request : ServiceM σ α) : Handler σ α := do
  let server ← get
  let (result, service) := request.run.run server.service
  set { server with service }
  match result with
  | .ok a => return a
  | .error e => fail e

def withRevision (ms : List (String × Json)) : Handler σ Json := do
  return .object (ms ++ [("revision", .string (← get).service.revision)])

def adjustmentsJson (as : List Adjustment) : Json := .array (as.map (·.toJson))

def graphJson (v : GraphView) : Json :=
  .object
    [("projectId", v.project.toJson), ("nodes", .array (v.document.nodes.map (·.toJson))),
     ("edges", .array (v.document.edges.map (·.toJson))),
     ("families", .object
       [("neural", NodeId.listJson v.neural), ("spatial", NodeId.listJson v.spatial)]),
     ("revision", .string v.revision)]

def nodeJson (n : Node) (edit : Option EditOutcome) : Handler σ Json :=
  withRevision ([("node", n.toJson)] ++ (edit.map fun o => ("edit", o.toJson)).toList)

variable [ProjectStore σ]

def listProjects (r : HttpRequest) : Handler σ Json := do
  let owner ← ownerParam r
  let projects ← run (ProjectService.list owner)
  return .object
    [("projects", .array (projects.map (·.toJson))),
     ("active", (← get).service.project.id.toJson)]

def loadProject (id : ProjectId) : Handler σ Json := do
  let (project, adjustments) ← run (ProjectService.load id)
  withRevision [("project", project.toJson), ("adjustments", adjustmentsJson adjustments)]

def checkGraph (id : ProjectId) : Handler σ Json := do
  let vs ← run (ProjectService.check id)
  return .object [("valid", .bool vs.isEmpty), ("violations", .array (vs.map (·.toJson)))]

def train (world : Surroundings) (id : ProjectId) : Handler σ Json := do
  let model ← run (ProjectService.compileForTraining id)
  match world.trainer.submit model with
  | .error e => fail (.service e)
  | .ok trainingId =>
    let (job, jobs) := (← get).jobs.start trainingId id
    modify ({ · with jobs })
    return .object
      [("trainingId", .string trainingId), ("layers", .int model.layers.length),
       ("job", job.toJson)]

def jobJson (id : String) : Option Job → Handler σ Json
  | some job => return job.toJson
  | none => fail (.unknownTraining id)

def cancel (world : Surroundings) (id : String) : Handler σ Json := do
  let (job, jobs) := (← get).jobs.cancel world.now id
  modify ({ · with jobs })
  jobJson id job

def classify (world : Surroundings) (model : String) (r : HttpRequest) : Handler σ Json := do
  if r.body.isEmpty then fail .emptyImage
  match world.trainer.classify model r.body r.contentType with
  | .ok c => return c.toJson
  | .error e => fail (.service e)

def answer (world : Surroundings) (r : HttpRequest) (method : String) : Resource → Handler σ Json
  | .blocks => match method with
    | "GET" => return .object [("blocks", .array (Kind.all.map (·.specJson)))]
    | _ => refuse 405
  | .projects => match method with
    | "GET" => listProjects r
    | "POST" => do
      let (name, owner) ← body r newProject
      return (← run (ProjectService.create name owner)).toJson
    | _ => refuse 405
  | .project id => match method with
    | "DELETE" => do
      run (ProjectService.delete (← projectParam id))
      return .object [("success", .bool true)]
    | _ => refuse 405
  | .load id => match method with
    | "POST" => do loadProject (← projectParam id)
    | _ => refuse 405
  | .graph id => match method with
    | "GET" => do return graphJson (← run (ProjectService.graph (← projectParam id)))
    | _ => refuse 405
  | .nodes id => match method with
    | "POST" => do
      let id ← projectParam id
      let new ← body r newBlock
      nodeJson (← run (ProjectService.insertBlock id new)) none
    | _ => refuse 405
  | .node id node => match method with
    | "GET" => do
      let (id, node) ← memberParams id node
      nodeJson (← run (ProjectService.node id ⟨node⟩)) none
    | "PATCH" => do
      let (id, node) ← memberParams id node
      let change ← body r nodeChange
      let (n, edit) ← run (ProjectService.editNode id ⟨node⟩ change)
      nodeJson n edit
    | "DELETE" => do
      let (id, node) ← memberParams id node
      let (removed, adjustments) ← run (ProjectService.deleteNode id ⟨node⟩)
      withRevision [("removed", removed.toJson), ("adjustments", adjustmentsJson adjustments)]
    | _ => refuse 405
  | .edges id => match method with
    | "POST" => do
      let id ← projectParam id
      let new ← body r newEdge
      withRevision [("edge", (← run (ProjectService.addEdge id new)).toJson)]
    | _ => refuse 405
  | .edge id edge => match method with
    | "DELETE" => do
      let (id, edge) ← memberParams id edge
      withRevision [("edge", (← run (ProjectService.deleteEdge id ⟨edge⟩)).toJson)]
    | _ => refuse 405
  | .reconcile id => match method with
    | "POST" => do
      let adjustments ← run (ProjectService.reconcile (← projectParam id))
      withRevision [("adjustments", adjustmentsJson adjustments)]
    | _ => refuse 405
  | .check id => match method with
    | "GET" => do checkGraph (← projectParam id)
    | _ => refuse 405
  | .trainingConfig id => match method with
    | "GET" => do return (← run (ProjectService.training (← projectParam id))).toJson
    | "PUT" => do
      let id ← projectParam id
      let training ← body r Training.decoder
      run (ProjectService.setTraining id training)
      return (← run (ProjectService.training id)).toJson
    | _ => refuse 405
  | .compile id => match method with
    | "POST" => do return (← run (ProjectService.compile (← projectParam id))).toJson
    | _ => refuse 405
  | .train id => match method with
    | "POST" => do train world (← projectParam id)
    | _ => refuse 405
  | .training id => match method with
    | "GET" => do
      let id ← textParam id
      jobJson id ((← get).jobs.get? id)
    | _ => refuse 405
  | .cancel id => match method with
    | "POST" => do cancel world (← textParam id)
    | _ => refuse 405
  | .classify model => match method with
    | "POST" => do classify world (← textParam model) r
    | _ => refuse 405

/--
Answers a request. Pages of any origin may ask what they are allowed, and `HEAD` is `GET` without
the body.
-/
def respond (world : Surroundings) (r : HttpRequest) (server : Server σ) :
    HttpResponse × Server σ :=
  if r.method = "OPTIONS" then (⟨200, none⟩, server)
  else
    match Resource.ofPath? r.segments with
    | none => (⟨404, none⟩, server)
    | some resource =>
      let method := if r.method = "HEAD" then "GET" else r.method
      let (result, server) := (answer world r method resource).run.run server
      let response := match result with
        | .ok json => ⟨200, some json⟩
        | .error response => response
      (if r.method = "HEAD" then { response with body := none } else response, server)

end Server

end LayerGraph
