import LayerGraph.CompileError
import LayerGraph.GraphCodec
import LayerGraph.Walk

namespace LayerGraph

/-- A block that is left out of the model because its kind is not registered. -/
structure SkippedBlock where
  id : NodeId
  kind : String
  deriving DecidableEq, Inhabited

structure Linearization where
  start : NodeId
  layers : List NodeId
  /-- The placeholders, wherever they are. -/
  skipped : List SkippedBlock
  unreachable : List NodeId
  deriving DecidableEq, Inhabited

def Node.skipped? (n : Node) : Option SkippedBlock :=
  if n.isPlaceholder then some ⟨n.id, n.block.kindName⟩ else none

def Graph.linearize (g : Graph) : Except CompileError Linearization :=
  match g.findStart with
  | .error candidates => .error (.ambiguousStart candidates)
  | .ok start =>
    let reached := g.reach start
    .ok
      { start
        layers := reached.filter fun id => (g.node? id).any (·.isLayer)
        skipped := g.nodes.filterMap (·.skipped?)
        unreachable := (g.nodes.filter fun n => n.isLayer && !reached.contains n.id).map (·.id) }

def NodeId.listJson (ids : List NodeId) : Json := .array (ids.map (·.toJson))

namespace SkippedBlock

def toJson (s : SkippedBlock) : Json := .object [("id", s.id.toJson), ("kind", .string s.kind)]

def decoder : Decoder SkippedBlock :=
  Record.decoder (SkippedBlock.mk <$> .required "id" NodeId.decoder <*> .required "kind" .text)

end SkippedBlock

namespace Linearization

def toJson (l : Linearization) : Json :=
  .object
    [("start", l.start.toJson), ("layers", NodeId.listJson l.layers),
     ("skipped", .array (l.skipped.map (·.toJson))),
     ("unreachable", NodeId.listJson l.unreachable)]

def decoder : Decoder Linearization :=
  Record.decoder (Linearization.mk <$> .required "start" NodeId.decoder
    <*> .required "layers" (.list NodeId.decoder)
    <*> .required "skipped" (.list SkippedBlock.decoder)
    <*> .required "unreachable" (.list NodeId.decoder))

end Linearization

end LayerGraph
