import LayerGraph.Compile
import LayerGraph.StorageError
import LayerGraph.TrainingService

namespace LayerGraph

inductive ApiError where
  | graph (e : GraphError)
  | storage (e : StorageError)
  | compile (e : CompileError)
  | service (e : ServiceError)
  /-- The shapes of a graph that is to be trained have to be right. -/
  | violations (vs : List Violation)
  | notLoaded (project active : ProjectId)
  | emptyProjectName
  /-- The project that is being edited cannot be deleted. -/
  | projectInUse
  | missingValue (param : String)
  | missingParam
  | nothingToChange
  | emptyImage
  | unknownTraining (id : String)
  deriving DecidableEq

inductive Failure where
  | notFound
  | badRequest
  | validationFailed
  | compileFailed
  | serviceFailed
  | conflict
  | internalError
  deriving DecidableEq

namespace Failure

def status : Failure → Nat
  | .notFound => 404
  | .badRequest => 400
  | .validationFailed | .compileFailed => 422
  | .serviceFailed => 502
  | .conflict => 409
  | .internalError => 500

def code : Failure → String
  | .notFound => "NOT_FOUND"
  | .badRequest => "BAD_REQUEST"
  | .validationFailed => "VALIDATION_FAILED"
  | .compileFailed => "COMPILE_FAILED"
  | .serviceFailed => "UPSTREAM_ERROR"
  | .conflict => "CONFLICT"
  | .internalError => "INTERNAL_ERROR"

def title : Failure → String
  | .notFound => "not found"
  | .badRequest => "bad request"
  | .validationFailed => "validation failed"
  | .compileFailed => "compile failed"
  | .serviceFailed => "upstream error"
  | .conflict => "conflict"
  | .internalError => "internal error"

end Failure

def GraphError.failure : GraphError → Failure
  | .nodeNotFound _ | .edgeNotFound _ => .notFound
  | .duplicateNode _ | .duplicateEdge _ => .conflict
  | _ => .badRequest

def StorageError.failure : StorageError → Failure
  | .projectNotFound _ | .nodeNotFound _ _ | .edgeNotFound _ _ => .notFound
  | .integrity _ => .conflict
  | _ => .internalError

def CompileError.failure : CompileError → Failure
  | .graph e => e.failure
  | _ => .compileFailed

namespace ApiError

def failure : ApiError → Failure
  | .graph e => e.failure
  | .storage e => e.failure
  | .compile e => e.failure
  | .service _ => .serviceFailed
  | .violations _ => .validationFailed
  | .unknownTraining _ => .notFound
  | _ => .badRequest

def message : ApiError → String
  | .graph e => e.message
  | .storage e => e.message
  | .compile e => e.message
  | .service e => e.message
  | .violations vs => s!"{vs.length} shape violation(s)"
  | .notLoaded p active =>
    s!"project {p.number} is not loaded (active project is {active.number})"
  | .emptyProjectName => "project name must not be empty"
  | .projectInUse => "cannot delete the active project"
  | .missingValue param => s!"missing value for '{param}'"
  | .missingParam => "value given without a param"
  | .nothingToChange => "nothing to change"
  | .emptyImage => "image body is empty"
  | .unknownTraining id => s!"training {id}"

def fullMessage (e : ApiError) : String :=
  match e with
  | .violations _ => e.failure.title
  | _ => s!"{e.failure.title}: {e.message}"

def details? : ApiError → Option Json
  | .violations vs => some (.array (vs.map (·.toJson)))
  | .compile (.ambiguousStart ids) => some (.object [("candidates", NodeId.listJson ids)])
  | .compile (.invalidLayer node _) => some (.object [("node", node.toJson)])
  | _ => none

def toJson (e : ApiError) : Json :=
  .object
    [("success", .bool false),
     ("error", .object
       ([("code", .string e.failure.code), ("message", .string e.message)] ++
        (e.details?.map fun d => ("details", d)).toList))]

end ApiError

end LayerGraph
