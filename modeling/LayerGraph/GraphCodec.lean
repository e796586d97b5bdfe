import LayerGraph.BlockCodec
import LayerGraph.Graph

namespace LayerGraph

def NodeId.toJson (id : NodeId) : Json := .string id.text

def NodeId.decoder : Decoder NodeId := fun d => NodeId.mk <$> Decoder.text d

def EdgeId.toJson (id : EdgeId) : Json := .string id.text

def EdgeId.decoder : Decoder EdgeId := fun d => EdgeId.mk <$> Decoder.text d

namespace Position

def toJson (p : Position) : Json := .object [("x", .float p.x), ("y", .float p.y)]

def decoder : Decoder Position :=
  Record.decoder (Position.mk <$> .required "x" .float <*> .required "y" .float)

end Position

namespace Node

def toJson (n : Node) : Json :=
  .object
    ([("id", n.id.toJson), ("sequenceIndex", .ofUInt32 n.sequenceIndex),
      ("label", .string n.label)] ++
     (n.position.map fun p => ("position", p.toJson)).toList ++
     [("type", .string n.block.kindName), ("data", n.block.data)])

def record : Record Node :=
  Record.refine
    (Prod.mk <$> (Node.mk <$> .required "id" NodeId.decoder <*> .optional "sequenceIndex" .uint32 0
      <*> .optional "label" .text "" <*> .nullable "position" Position.decoder) <*> .others)
    fun (node, ms) => do return node (← Block.ofRawFault (← RawBlock.ofMembers ms))

def decoder : Decoder Node := record.ofObject

end Node

namespace Edge

def toJson (e : Edge) : Json :=
  .object [("id", e.id.toJson), ("source", e.source.toJson), ("target", e.target.toJson)]

def decoder : Decoder Edge :=
  Record.decoder (Edge.mk <$> .required "id" EdgeId.decoder <*> .required "source" NodeId.decoder
    <*> .required "target" NodeId.decoder)

end Edge

namespace GraphDocument

def toJson (doc : GraphDocument) : Json :=
  .object
    [("nodes", .array (doc.nodes.map (·.toJson))), ("edges", .array (doc.edges.map (·.toJson)))]

def record : Record GraphDocument :=
  GraphDocument.mk <$> .required "nodes" (.list Node.decoder)
    <*> .required "edges" (.list Edge.decoder)

def decoder : Decoder GraphDocument := record.decoder

end GraphDocument

def Graph.decoder : Decoder Graph :=
  (GraphDocument.record.refine fun doc => (Graph.ofDocument doc).mapError fun _ => .mismatch).decoder

end LayerGraph
