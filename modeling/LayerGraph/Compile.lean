import LayerGraph.Linearization
import LayerGraph.Model
import LayerGraph.Violation

namespace LayerGraph

structure CompileOptions where
  shape : ShapeConfig := {}
  /-- Whether a compilation lists what is wrong with the shapes of the graph. -/
  checkShapes : Bool := true
  deriving DecidableEq, Inhabited

structure Compilation where
  model : Model
  skipped : List SkippedBlock
  unreachable : List NodeId
  warnings : List Violation
  deriving DecidableEq, Inhabited

/-- The keys of the layers of a kind are numbered from 1. -/
def Kind.keyStem : Kind → String
  | .input => "fcl_input"
  | .hidden => "fcl_hidden"
  | .output => "fcl_output"
  | .convolutional => "conv"
  | .pooling => "pool"
  | k => k.stem

def Kind.layerKey (k : Kind) (number : Nat) : String := s!"{k.keyStem}{number}"

/-- The shape of the data between two layers. -/
structure Flow where
  channels : UInt32
  size : UInt32
  deriving DecidableEq

/-- The layer that a block becomes, and the shape behind it; control blocks become none. -/
def Block.emit (classes : UInt32) (flow : Flow) :
    Block → Except LayerFault (Option (Kind × Layer × Flow))
  | .input p => .ok (some (.input, .input p.sizeIn, { flow with size := p.sizeIn }))
  | .convolutional p => .ok (some (.convolutional,
      .convolution flow.channels p.sizeOut p.kernelSize p.padding .relu,
      { flow with channels := p.sizeOut }))
  | .pooling p =>
    if p.kernelSize = 0 || p.stride = 0 then .error .poolingNotPositive
    else
      -- the stride has no part in this: pooling that overlaps passes the check and may fail here
      let size := flow.size / p.kernelSize
      if size = 0 then .error .sizeCollapse
      else .ok (some (.pooling, .pooling p.kernelSize p.stride, { flow with size }))
  | .hidden p => .ok (some (.hidden, .dense flow.channels p.sizeOut p.activation,
      { flow with channels := p.sizeOut }))
  | .output _ => .ok (some (.output, .dense flow.channels classes .softmax,
      { flow with channels := classes }))
  | _ => .ok none

/-- Emits layers behind those of the kinds `before`. -/
def emitLayers (classes : UInt32) :
    (before : List Kind) → Flow → List Node → Except CompileError (List (String × Layer))
  | _, _, [] => .ok []
  | before, flow, n :: ns =>
    match n.block.emit classes flow with
    | .error fault => .error (.invalidLayer n.id fault)
    | .ok none => emitLayers classes before flow ns
    | .ok (some (k, layer, flow)) =>
      if flow.channels = 0 then .error (.invalidLayer n.id .noFeatures)
      else do
        let rest ← emitLayers classes (k :: before) flow ns
        return (k.layerKey (before.count k + 1), layer) :: rest

def compileLayers (nodes : List Node) (training : Training) (shape : ShapeConfig) :
    Except CompileError Model := do
  training.validate.mapError .graph
  let flow := ⟨shape.inputChannels, shape.initialSpatialSize⟩
  let layers ← emitLayers shape.outputClasses [] flow nodes
  if layers.isEmpty then throw .noLayers
  return { layers, training }

def Block.training? : Block → Option Training
  | .training t => some t
  | _ => none

def Block.classNames? : Block → Option (List String)
  | .classifier classes => if classes.isEmpty then none else some classes
  | _ => none

namespace Graph

def trainingOr (g : Graph) (fallback : Training) : Training :=
  (g.nodes.findSome? (·.block.training?)).getD fallback

/-- The classes that the first classifier with any names. -/
def classNames (g : Graph) : List String := (g.nodes.findSome? (·.block.classNames?)).getD []

/-- Named classes decide how many outputs the model has. -/
def compiledShape (g : Graph) (shape : ShapeConfig) : ShapeConfig :=
  if g.classNames.isEmpty then shape
  else { shape with outputClasses := saturate g.classNames.length }

def compile (g : Graph) (fallback : Training) (options : CompileOptions) :
    Except CompileError Compilation := do
  let lin ← g.linearize
  let shape := g.compiledShape options.shape
  let model ← compileLayers (lin.layers.filterMap g.node?) (g.trainingOr fallback) shape
  -- what the check finds comes with the model, and does not stop it
  return {
    model := { model with classes := g.classNames }
    skipped := lin.skipped
    unreachable := lin.unreachable
    warnings := if options.checkShapes then g.validate shape else [] }

end Graph

namespace CompileOptions

def toJson (o : CompileOptions) : Json :=
  .object [("shape", o.shape.toJson), ("checkShapes", .bool o.checkShapes)]

def decoder : Decoder CompileOptions :=
  Record.decoder (CompileOptions.mk <$> .required "shape" ShapeConfig.decoder
    <*> .required "checkShapes" .bool)

end CompileOptions

namespace Compilation

def toJson (c : Compilation) : Json :=
  .object
    [("model", c.model.toJson), ("skipped", .array (c.skipped.map (·.toJson))),
     ("unreachable", NodeId.listJson c.unreachable),
     ("warnings", .array (c.warnings.map (·.toJson)))]

def decoder : Decoder Compilation :=
  Record.decoder (Compilation.mk <$> .required "model" Model.decoder
    <*> .required "skipped" (.list SkippedBlock.decoder)
    <*> .required "unreachable" (.list NodeId.decoder)
    <*> .required "warnings" (.list Violation.decoder))

end Compilation

end LayerGraph
