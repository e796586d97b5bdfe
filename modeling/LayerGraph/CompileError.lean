import LayerGraph.GraphError

namespace LayerGraph

inductive LayerFault where
  | poolingNotPositive
  | sizeCollapse
  | noFeatures
  deriving DecidableEq

def LayerFault.message : LayerFault → String
  | .poolingNotPositive => "pooling kernel size and stride must be positive"
  | .sizeCollapse => "pooling reduces the spatial size to zero"
  | .noFeatures => "layer produces zero features"

inductive CompileError where
  /-- None or several blocks have nothing leading to them. -/
  | ambiguousStart (candidates : List NodeId)
  | noLayers
  | invalidLayer (node : NodeId) (fault : LayerFault)
  | graph (e : GraphError)
  deriving DecidableEq

def CompileError.message : CompileError → String
  | .ambiguousStart candidates =>
    s!"expected exactly one start block, found {candidates.length}"
  | .noLayers => "the architecture has no layers"
  | .invalidLayer node fault => s!"invalid layer {node.text}: {fault.message}"
  | .graph e => e.message

end LayerGraph
