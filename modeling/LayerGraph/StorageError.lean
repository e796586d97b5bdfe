import LayerGraph.GraphError

namespace LayerGraph

structure ProjectId where
  number : Int
  deriving DecidableEq, Inhabited

inductive IntegrityFault where
  | blockExists (id : NodeId)
  | edgeExists (id : EdgeId)
  | missingBlock (edge : EdgeId) (block : NodeId)
  deriving DecidableEq

def IntegrityFault.message : IntegrityFault → String
  | .blockExists id => s!"block '{id.text}' already exists"
  | .edgeExists id => s!"connection '{id.text}' already exists"
  | .missingBlock edge block =>
    s!"connection '{edge.text}' references missing block '{block.text}'"

inductive RowFault where
  /-- The row is not that of a block. -/
  | block (id : NodeId) (e : GraphError)
  /-- The row does not fit those before it. -/
  | graph (e : GraphError)
  deriving DecidableEq

def RowFault.message : RowFault → String
  | .block id e => s!"block '{id.text}': {e.message}"
  | .graph e => e.message

inductive StorageError where
  | unreadableText
  | unreadableArchive
  | projectNotFound (project : ProjectId)
  | nodeNotFound (project : ProjectId) (node : NodeId)
  | edgeNotFound (project : ProjectId) (edge : EdgeId)
  | integrity (fault : IntegrityFault)
  | reconstruction (fault : RowFault)
  deriving DecidableEq

def StorageError.message : StorageError → String
  | .unreadableText => "serialization error: a stored text cannot be read"
  | .unreadableArchive => "sqlite error: file is not a database"
  | .projectNotFound p => s!"project not found: {p.number}"
  | .nodeNotFound p n => s!"block not found: project={p.number}, block={n.text}"
  | .edgeNotFound p e => s!"connection not found: project={p.number}, edge={e.text}"
  | .integrity fault => s!"integrity error: {fault.message}"
  | .reconstruction fault => s!"reconstruction error: {fault.message}"

end LayerGraph
