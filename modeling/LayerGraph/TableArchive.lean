import LayerGraph.TableStore

namespace LayerGraph

def ProjectId.decoder : Decoder ProjectId := fun d => ProjectId.mk <$> Decoder.int64 d

namespace ProjectRow

def toJson (p : ProjectRow) : Json :=
  .object
    [("id", p.id.toJson), ("name", .string p.name), ("owner", .string p.owner),
     ("training", .string p.training)]

def decoder : Decoder ProjectRow :=
  Record.decoder (ProjectRow.mk <$> .required "id" ProjectId.decoder <*> .required "name" .text
    <*> .required "owner" .text <*> .required "training" .text)

end ProjectRow

namespace StoredBlock

def toJson (b : StoredBlock) : Json :=
  .object
    [("id", b.id.toJson), ("kind", .string b.kind), ("sequenceIndex", .ofUInt32 b.sequenceIndex),
     ("label", .string b.label), ("position", .ofOption Position.toJson b.position),
     ("data", .string b.data)]

def decoder : Decoder StoredBlock :=
  Record.decoder (StoredBlock.mk <$> .required "id" NodeId.decoder <*> .required "kind" .text
    <*> .required "sequenceIndex" .uint32 <*> .required "label" .text
    <*> .nullable "position" Position.decoder <*> .required "data" .text)

end StoredBlock

namespace StoredEdge

def toJson (e : StoredEdge) : Json := .object [("edge", e.edge.toJson), ("ordinal", .int e.ordinal)]

def decoder : Decoder StoredEdge :=
  Record.decoder (StoredEdge.mk <$> .required "edge" Edge.decoder <*> .required "ordinal" .int64)

end StoredEdge

namespace TableStore

def rowToJson {α : Type} (f : α → Json) (row : ProjectId × α) : Json :=
  .object [("project", row.1.toJson), ("row", f row.2)]

def rowDecoder {α : Type} (dec : Decoder α) : Decoder (ProjectId × α) :=
  Record.decoder (Prod.mk <$> .required "project" ProjectId.decoder <*> .required "row" dec)

def toJson (s : TableStore) : Json :=
  .object
    [("projects", .array (s.projects.map (·.toJson))),
     ("blocks", .array (s.blocks.map (rowToJson StoredBlock.toJson))),
     ("edges", .array (s.edges.map (rowToJson StoredEdge.toJson))), ("nextId", .int s.nextId)]

def decoder : Decoder TableStore :=
  Record.decoder (TableStore.mk <$> .required "projects" (.list ProjectRow.decoder)
    <*> .required "blocks" (.list (rowDecoder StoredBlock.decoder))
    <*> .required "edges" (.list (rowDecoder StoredEdge.decoder)) <*> .required "nextId" .int64)

/-- An empty file is an archive without projects. -/
def ofText (text : String) : Except StorageError TableStore :=
  if text.isEmpty then .ok {}
  else (Decoder.ofText decoder text).mapError fun _ => .unreadableArchive

end TableStore

end LayerGraph
