import LayerGraph.Graph
import LayerGraph.ShapeConfig

namespace LayerGraph

/-- The positions of a kernel along a side. A stride of zero counts as one. -/
def reduceDim (dim kernel stride : UInt32) : UInt32 :=
  if dim < kernel then 0 else (dim - kernel) / max stride 1 + 1

def Block.convolution? : Block → Option Convolution
  | .convolutional p => some p
  | _ => none

def Block.pooling? : Block → Option Pooling
  | .pooling p => some p
  | _ => none

/-- The size before the first of some pooling blocks and behind each of them. -/
def sizesAlong (dim : UInt32) : List Pooling → List UInt32
  | [] => [dim]
  | p :: ps => dim :: sizesAlong (reduceDim dim p.kernelSize p.stride) ps

namespace Graph

def convolutions (g : Graph) : List Convolution :=
  (g.members .spatial).filterMap (·.block.convolution?)

def poolings (g : Graph) : List Pooling := (g.members .spatial).filterMap (·.block.pooling?)

def spatialSizes (g : Graph) (c : ShapeConfig) : List UInt32 :=
  sizesAlong c.initialSpatialSize g.poolings

def finalSize (g : Graph) (c : ShapeConfig) : UInt32 :=
  g.poolings.foldl (fun dim p => reduceDim dim p.kernelSize p.stride) c.initialSpatialSize

def lastChannels? (g : Graph) : Option UInt32 := g.convolutions.getLast?.map (·.sizeOut)

/--
What the convolutions give when flattened. There is no such number without a convolution, nor when
the spatial size collapses to zero.
-/
def flattened? (g : Graph) (c : ShapeConfig) : Option UInt32 := do
  let channels ← g.lastChannels?
  let dim := g.finalSize c
  if dim = 0 then none else some (satMul (satMul channels dim) dim)

end Graph

end LayerGraph
