import LayerGraph.Block

namespace LayerGraph

structure Position where
  x : Float
  y : Float
  deriving DecidableEq, Inhabited

structure Node where
  id : NodeId
  /-- Orders the blocks of a family; blocks outside the families have no use for it. -/
  sequenceIndex : UInt32 := 0
  label : String := ""
  position : Option Position := none
  block : Block
  deriving DecidableEq, Inhabited

namespace Node

def new (id : NodeId) (sequenceIndex : UInt32) (block : Block) : Node where
  id
  sequenceIndex
  label := (block.kind?.map Kind.label).getD ""
  block

def kind? (n : Node) : Option Kind := n.block.kind?

def family? (n : Node) : Option Family := n.block.family?

def isLayer (n : Node) : Bool := n.block.isLayer

def isPlaceholder (n : Node) : Bool := n.block.isPlaceholder

end Node

structure Edge where
  id : EdgeId
  source : NodeId
  target : NodeId
  deriving DecidableEq, Inhabited

/-- The id of a connection that was drawn without one. -/
def EdgeId.between (source target : NodeId) : EdgeId := ⟨s!"edge-{source.text}-{target.text}"⟩

def Edge.connect (source target : NodeId) : Edge := ⟨.between source target, source, target⟩

structure GraphDocument where
  nodes : List Node := []
  edges : List Edge := []
  deriving DecidableEq, Inhabited

end LayerGraph
