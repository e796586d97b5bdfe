import LayerGraph.ShapeConfig

namespace LayerGraph

inductive Layer where
  | input (size : UInt32)
  | convolution (inChannels outChannels kernelSize padding : UInt32) (act : Activation)
  | pooling (kernelSize stride : UInt32)
  | dense (inFeatures outFeatures : UInt32) (act : Activation)
  deriving DecidableEq, Inhabited

namespace Layer

def toJson : Layer → Json
  | .input size => .object [("size", .ofUInt32 size)]
  | .convolution inChannels outChannels kernelSize padding act => .object
    [("in_channels", .ofUInt32 inChannels), ("out_channels", .ofUInt32 outChannels),
     ("kernel_size", .ofUInt32 kernelSize), ("padding", .ofUInt32 padding), ("act", act.toJson)]
  | .pooling kernelSize stride => .object
    [("kernel_size", .ofUInt32 kernelSize), ("stride", .ofUInt32 stride)]
  | .dense inFeatures outFeatures act => .object
    [("in_features", .ofUInt32 inFeatures), ("out_features", .ofUInt32 outFeatures),
     ("act", act.toJson)]

def inputDecoder : Decoder Layer := Record.ofObject (input <$> .required "size" .uint32)

def convolutionDecoder : Decoder Layer :=
  Record.ofObject (convolution <$> .required "in_channels" .uint32
    <*> .required "out_channels" .uint32 <*> .required "kernel_size" .uint32
    <*> .required "padding" .uint32 <*> .required "act" Activation.decoder)

def poolingDecoder : Decoder Layer :=
  Record.ofObject (pooling <$> .required "kernel_size" .uint32 <*> .required "stride" .uint32)

def denseDecoder : Decoder Layer :=
  Record.ofObject (dense <$> .required "in_features" .uint32 <*> .required "out_features" .uint32
    <*> .required "act" Activation.decoder)

/-- Layers have no tag: the first kind of layer whose members are all there is taken. -/
def decoder : Decoder Layer :=
  .firstOf [inputDecoder, convolutionDecoder, poolingDecoder, denseDecoder]

end Layer

structure Model where
  layers : List (String × Layer)
  training : Training
  /-- The names of the classes in the order of the outputs, when a classifier gives them. -/
  classes : List String := []
  deriving DecidableEq, Inhabited

namespace Model

def names (m : Model) : List String := m.layers.map (·.1)

def toJson (m : Model) : Json :=
  .object
    ([("layers", .object (m.layers.map fun (k, l) => (k, l.toJson))),
      ("training", m.training.toJson)] ++
     if m.classes.isEmpty then [] else [("classes", .ofNames m.classes)])

def decoder : Decoder Model :=
  Record.decoder (Model.mk <$> .required "layers" (.keyed Layer.decoder)
    <*> .required "training" Training.decoder <*> .optional "classes" (.list .text) [])

end Model

end LayerGraph
