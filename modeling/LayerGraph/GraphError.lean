import LayerGraph.ParamValue

namespace LayerGraph

structure NodeId where
  text : String
  deriving DecidableEq, Inhabited

structure EdgeId where
  text : String
  deriving DecidableEq, Inhabited

inductive Rejection where
  | notPositiveInteger (v : ParamValue)
  | notNonNegativeInteger (v : ParamValue)
  | notPositive (v : ParamValue)
  | notFraction (v : ParamValue)
  | notChoice (options : List String) (v : ParamValue)
  | notBoolean (v : ParamValue)
  | emptyName
  | notNames (v : ParamValue)
  | notText (v : ParamValue)
  deriving DecidableEq

def Rejection.message : Rejection → String
  | .notPositiveInteger v => "expected a positive integer, got " ++ v.display
  | .notNonNegativeInteger v => "expected a non-negative integer, got " ++ v.display
  | .notPositive v => "expected a positive number, got " ++ v.display
  | .notFraction v => "expected a number between 0 and 1, got " ++ v.display
  | .notChoice options v =>
    "expected one of [" ++ String.intercalate ", " options ++ "], got " ++ v.display
  | .notBoolean v => "expected a boolean, got " ++ v.display
  | .emptyName => "class names must not be empty"
  | .notNames v => "expected a list of names, got " ++ v.display
  | .notText v => "expected text, got " ++ v.display

inductive EdgeFault where
  | selfLoop (block : NodeId)
  | missingSource (block : NodeId)
  | missingTarget (block : NodeId)
  deriving DecidableEq

def EdgeFault.message : EdgeFault → String
  | .selfLoop b => s!"block '{b.text}' cannot connect to itself"
  | .missingSource b => s!"source block '{b.text}' does not exist"
  | .missingTarget b => s!"target block '{b.text}' does not exist"

inductive GraphError where
  | nodeNotFound (id : NodeId)
  | edgeNotFound (id : EdgeId)
  | duplicateNode (id : NodeId)
  | duplicateEdge (id : EdgeId)
  | invalidEdge (fault : EdgeFault)
  | unknownKind (kind : String)
  | unknownParameter (kind param : String)
  /-- The parameter follows from the shapes of other blocks. -/
  | readOnlyParameter (kind param : String)
  | invalidParameter (param : String) (why : Rejection)
  | malformedBlock (kind : String)
  deriving DecidableEq

def GraphError.message : GraphError → String
  | .nodeNotFound id => "node not found: " ++ id.text
  | .edgeNotFound id => "edge not found: " ++ id.text
  | .duplicateNode id => "duplicate node id: " ++ id.text
  | .duplicateEdge id => "duplicate edge id: " ++ id.text
  | .invalidEdge fault => "invalid edge: " ++ fault.message
  | .unknownKind kind => s!"unrecognized block kind '{kind}'"
  | .unknownParameter kind param => s!"block kind '{kind}' has no parameter '{param}'"
  | .readOnlyParameter kind param => s!"parameter '{param}' of '{kind}' is derived and cannot be edited"
  | .invalidParameter param why => s!"invalid value for '{param}': {why.message}"
  | .malformedBlock kind => s!"malformed '{kind}' block data: not the parameters of this kind"

end LayerGraph
