import LayerGraph.GraphCodec
import LayerGraph.SpatialSize

namespace LayerGraph

inductive Violation where
  | chainMismatch (family : Family) (node previous : NodeId) (expected actual : UInt32)
  /-- A pooling block does not pass the channels of the convolution before it. -/
  | passThroughMismatch (node conv : NodeId) (expected actual : UInt32)
  /-- The first neural layer does not take the flattened output of the convolutions. -/
  | derivedSizeMismatch (node : NodeId) (expected actual : UInt32)
  | spatialCollapse (node : NodeId)
  | invalidValue (node : NodeId) (param reason : String)
  /-- Only the order of insertion decides between two blocks. -/
  | duplicateSequenceIndex (family : Family) (index : UInt32) (first second : NodeId)
  deriving DecidableEq, Inhabited

namespace Violation

def message : Violation → String
  | .chainMismatch _ node previous expected actual =>
    s!"{node.text}: sizeIn {actual} does not match {previous.text} sizeOut {expected}"
  | .passThroughMismatch node conv expected actual =>
    s!"{node.text}: channels {actual} does not match {conv.text} sizeOut {expected}"
  | .derivedSizeMismatch node expected actual =>
    s!"{node.text}: sizeIn {actual} should be {expected} (flattened convolution output)"
  | .spatialCollapse node => s!"spatial size collapses to 0 at {node.text}"
  | .invalidValue node param reason => s!"{node.text}: invalid '{param}': {reason}"
  | .duplicateSequenceIndex family index first second =>
    s!"{family.title} blocks {first.text} and {second.text} share sequence index {index}"

def toJson : Violation → Json
  | .chainMismatch family node previous expected actual => .object
    [("kind", .string "chain_mismatch"), ("family", family.toJson), ("node", node.toJson),
     ("previous", previous.toJson), ("expected", .ofUInt32 expected),
     ("actual", .ofUInt32 actual)]
  | .passThroughMismatch node conv expected actual => .object
    [("kind", .string "pass_through_mismatch"), ("node", node.toJson),
     ("conv", conv.toJson), ("expected", .ofUInt32 expected), ("actual", .ofUInt32 actual)]
  | .derivedSizeMismatch node expected actual => .object
    [("kind", .string "derived_size_mismatch"), ("node", node.toJson),
     ("expected", .ofUInt32 expected), ("actual", .ofUInt32 actual)]
  | .spatialCollapse node => .object
    [("kind", .string "spatial_collapse"), ("node", node.toJson)]
  | .invalidValue node param reason => .object
    [("kind", .string "invalid_value"), ("node", node.toJson), ("param", .string param),
     ("reason", .string reason)]
  | .duplicateSequenceIndex family index first second => .object
    [("kind", .string "duplicate_sequence_index"), ("family", family.toJson),
     ("index", .ofUInt32 index), ("first", first.toJson), ("second", second.toJson)]

def body? : String → Option (Decoder Violation)
  | "chain_mismatch" => some (Record.decoder (chainMismatch
      <$> .required "family" Family.decoder <*> .required "node" NodeId.decoder
      <*> .required "previous" NodeId.decoder <*> .required "expected" .uint32
      <*> .required "actual" .uint32))
  | "pass_through_mismatch" => some (Record.decoder (passThroughMismatch
      <$> .required "node" NodeId.decoder <*> .required "conv" NodeId.decoder
      <*> .required "expected" .uint32 <*> .required "actual" .uint32))
  | "derived_size_mismatch" => some (Record.decoder (derivedSizeMismatch
      <$> .required "node" NodeId.decoder <*> .required "expected" .uint32
      <*> .required "actual" .uint32))
  | "spatial_collapse" => some (Record.decoder (spatialCollapse
      <$> .required "node" NodeId.decoder))
  | "invalid_value" => some (Record.decoder (invalidValue
      <$> .required "node" NodeId.decoder <*> .required "param" .text
      <*> .required "reason" .text))
  | "duplicate_sequence_index" => some (Record.decoder (duplicateSequenceIndex
      <$> .required "family" Family.decoder <*> .required "index" .uint32
      <*> .required "first" NodeId.decoder <*> .required "second" NodeId.decoder))
  | _ => none

/-- The tag is a member of an object, or the first item of an array. -/
def ofJson? : Json → Option Violation
  | .object ms => do
    let dec ← body? (← Decoder.text.decode? (← ms.lookup "kind"))
    dec.decode? (.object (ms.filter (·.1 ≠ "kind")))
  | .array (.string tag :: items) => do (← body? tag).decode? (.array items)
  | _ => none

def decoder : Decoder Violation := .ofJson? ofJson?

end Violation

def neighbours {α : Type} (as : List α) : List (α × α) := as.zip as.tail

def Node.invalidValues (n : Node) : List Violation :=
  n.block.rejections.map fun (param, why) => .invalidValue n.id param.name why.message

/-- Along the spatial family, with the last convolution and the size that the blocks get. -/
def spatialViolations : Option (NodeId × UInt32) → UInt32 → List Node → List Violation
  | _, _, [] => []
  | before, dim, n :: ns =>
    match n.block with
    | .convolutional p =>
      let mismatch := match before with
        | some (conv, out) =>
          if p.sizeIn = out then [] else [.chainMismatch .spatial n.id conv out p.sizeIn]
        | none => []
      mismatch ++ spatialViolations (some (n.id, p.sizeOut)) dim ns
    | .pooling p =>
      let mismatch := match before with
        | some (conv, out) =>
          if p.channels = out then [] else [.passThroughMismatch n.id conv out p.channels]
        | none => []
      let reduced := reduceDim dim p.kernelSize p.stride
      let collapse := if reduced = 0 ∧ dim ≠ 0 then [.spatialCollapse n.id] else []
      mismatch ++ collapse ++ spatialViolations before reduced ns
    | _ => spatialViolations before dim ns

namespace Graph

def duplicates (g : Graph) (f : Family) : List Violation :=
  (neighbours (g.members f)).filterMap fun (m, n) =>
    if m.sequenceIndex = n.sequenceIndex then
      some (.duplicateSequenceIndex f m.sequenceIndex m.id n.id)
    else none

def derivedViolation? (g : Graph) (c : ShapeConfig) : Option Violation := do
  let first ← (g.members .neural).head?
  let expected ← g.flattened? c
  let (actual, _) ← first.block.sizes?
  if actual = expected then none else some (.derivedSizeMismatch first.id expected actual)

def neuralViolations (g : Graph) : List Violation :=
  (neighbours (g.members .neural)).filterMap fun (m, n) => do
    let (_, out) ← m.block.sizes?
    let (sizeIn, _) ← n.block.sizes?
    if sizeIn = out then none else some (.chainMismatch .neural n.id m.id out sizeIn)

def validate (g : Graph) (c : ShapeConfig) : List Violation :=
  g.nodes.flatMap (·.invalidValues) ++ g.duplicates .neural ++ g.duplicates .spatial ++
    spatialViolations none c.initialSpatialSize (g.members .spatial) ++
    (g.derivedViolation? c).toList ++ g.neuralViolations

end Graph

end LayerGraph
