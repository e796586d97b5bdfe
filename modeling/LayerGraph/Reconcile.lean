import LayerGraph.GraphCodec
import LayerGraph.SpatialSize

namespace LayerGraph

/-- A size that other blocks may determine. -/
inductive Slot where
  | sizeIn
  | channels
  deriving DecidableEq, Inhabited

def Slot.name : Slot → String
  | .sizeIn => Param.sizeIn.name
  | .channels => Param.channels.name

namespace Block

def slot? : Slot → Block → Option UInt32
  | .sizeIn, b => b.sizes?.map (·.1)
  | .channels, b => b.pooling?.map (·.channels)

def setSlot (v : UInt32) : Slot → Block → Block
  | .sizeIn, .input p => .input { p with sizeIn := v }
  | .sizeIn, .hidden p => .hidden { p with sizeIn := v }
  | .sizeIn, .output p => .output { p with sizeIn := v }
  | .sizeIn, .convolutional p => .convolutional { p with sizeIn := v }
  | .channels, .pooling p => .pooling { p with channels := v }
  | _, b => b

end Block

structure Assignment where
  node : NodeId
  slot : Slot
  value : UInt32
  deriving DecidableEq

structure Adjustment where
  node : NodeId
  param : String
  old : UInt32
  new : UInt32
  deriving DecidableEq, Inhabited

namespace Adjustment

def toJson (a : Adjustment) : Json :=
  .object
    [("node", a.node.toJson), ("param", .string a.param), ("old", .ofUInt32 a.old),
     ("new", .ofUInt32 a.new)]

def decoder : Decoder Adjustment :=
  Record.decoder (Adjustment.mk <$> .required "node" NodeId.decoder <*> .required "param" .text
    <*> .required "old" .uint32 <*> .required "new" .uint32)

end Adjustment

namespace Graph

def flattenedAssignment? (g : Graph) (c : ShapeConfig) : Option Assignment := do
  return ⟨← g.neural.head?, .sizeIn, ← g.flattened? c⟩

/-- Sets a slot; that is an adjustment when its value was another. -/
def assign (g : Graph) (a : Assignment) : Graph × Option Adjustment :=
  match (g.node? a.node).bind (·.block.slot? a.slot) with
  | none => (g, none)
  | some old =>
    if old = a.value then (g, none)
    else
      (g.mapNode a.node fun n => { n with block := n.block.setSlot a.value a.slot },
       some ⟨a.node, a.slot.name, old, a.value⟩)

def assignAll (g : Graph) : List Assignment → Graph × List Adjustment
  | [] => (g, [])
  | a :: as =>
    let (g, adjustment) := g.assign a
    let (g, adjustments) := g.assignAll as
    (g, adjustment.toList ++ adjustments)

def take (g : Graph) (id : NodeId) (slot : Slot) (incoming : Option UInt32) :
    Graph × List Adjustment :=
  g.assignAll (incoming.map (⟨id, slot, ·⟩)).toList

/-- Walks along spatial blocks, each as it stands when the walk comes to it. -/
def reconcileSpatial (g : Graph) : Option UInt32 → List NodeId → Graph × List Adjustment
  | _, [] => (g, [])
  | incoming, id :: ids =>
    match (g.node? id).map Node.block with
    | some (.convolutional p) =>
      let (g, now) := g.take id .sizeIn incoming
      let (g, later) := g.reconcileSpatial (some p.sizeOut) ids
      (g, now ++ later)
    | some (.pooling _) =>
      -- pooling keeps the channels, so what comes in goes on
      let (g, now) := g.take id .channels incoming
      let (g, later) := g.reconcileSpatial incoming ids
      (g, now ++ later)
    | _ => g.reconcileSpatial incoming ids

def reconcileNeural (g : Graph) : Option UInt32 → List NodeId → Graph × List Adjustment
  | _, [] => (g, [])
  | incoming, id :: ids =>
    let (g, now) := g.take id .sizeIn incoming
    let (g, later) := g.reconcileNeural ((g.node? id).bind (·.block.sizeOut?)) ids
    (g, now ++ later)

/-- The spatial family first, then what it gives to the first neural block, then the neural family. -/
def reconcile (g : Graph) (c : ShapeConfig) : Graph × List Adjustment :=
  let (g, spatial) := g.reconcileSpatial none g.spatial
  let (g, first) := g.assignAll (g.flattenedAssignment? c).toList
  let (g, neural) := g.reconcileNeural none g.neural
  (g, spatial ++ first ++ neural)

end Graph

end LayerGraph
