import LayerGraph.IntegerText
import LayerGraph.UrlText

namespace LayerGraph

/-- A resource; the parameters of its path are still percent-encoded. -/
inductive Resource where
  | blocks
  | projects
  | project (id : String)
  | load (id : String)
  | graph (id : String)
  | nodes (id : String)
  | node (id node : String)
  | edges (id : String)
  | edge (id edge : String)
  | reconcile (id : String)
  | check (id : String)
  | trainingConfig (id : String)
  | compile (id : String)
  | train (id : String)
  | training (id : String)
  | cancel (id : String)
  | classify (model : String)
  deriving DecidableEq

namespace Resource

def ofProjectPath? (id : String) : List String → Option Resource
  | [] => some (.project id)
  | ["load"] => some (.load id)
  | ["graph"] => some (.graph id)
  | ["nodes"] => some (.nodes id)
  | ["nodes", name] => some (.node id name)
  | ["edges"] => some (.edges id)
  | ["edges", name] => some (.edge id name)
  | ["reconcile"] => some (.reconcile id)
  | ["check"] => some (.check id)
  | ["training-config"] => some (.trainingConfig id)
  | ["compile"] => some (.compile id)
  | ["train"] => some (.train id)
  | _ => none

def ofPath? (segments : List String) : Option Resource :=
  if segments.any (·.isEmpty) then none
  else match segments with
    | ["blocks"] => some .blocks
    | ["projects"] => some .projects
    | "projects" :: id :: rest => ofProjectPath? id rest
    | ["trainings", id] => some (.training id)
    | ["trainings", id, "cancel"] => some (.cancel id)
    | ["models", model, "classify"] => some (.classify model)
    | _ => none

end Resource

end LayerGraph
