import LayerGraph.BlockCodec

namespace LayerGraph

structure ShapeConfig where
  initialSpatialSize : UInt32 := 128
  inputChannels : UInt32 := 3
  /-- The classes of the output when no classifier names them. -/
  outputClasses : UInt32 := 10
  deriving DecidableEq, Inhabited

namespace ShapeConfig

def toJson (c : ShapeConfig) : Json :=
  .object
    [("initialSpatialSize", .ofUInt32 c.initialSpatialSize),
     ("inputChannels", .ofUInt32 c.inputChannels), ("outputClasses", .ofUInt32 c.outputClasses)]

def decoder : Decoder ShapeConfig :=
  let d : ShapeConfig := {}
  Record.decoder (ShapeConfig.mk
    <$> .optional "initialSpatialSize" .uint32 d.initialSpatialSize
    <*> .optional "inputChannels" .uint32 d.inputChannels
    <*> .optional "outputClasses" .uint32 d.outputClasses)

end ShapeConfig

end LayerGraph
