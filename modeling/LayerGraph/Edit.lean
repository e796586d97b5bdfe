import LayerGraph.Reconcile

namespace LayerGraph

structure EditOutcome where
  node : NodeId
  param : String
  previous : Option ParamValue
  value : ParamValue
  /-- The sizes that followed, in the order in which they changed. -/
  adjustments : List Adjustment
  deriving DecidableEq, Inhabited

namespace EditOutcome

def toJson (o : EditOutcome) : Json :=
  .object
    [("node", o.node.toJson), ("param", .string o.param),
     ("previous", .ofOption ParamValue.toJson o.previous), ("value", o.value.toJson),
     ("adjustments", .array (o.adjustments.map (·.toJson)))]

def decoder : Decoder EditOutcome :=
  Record.decoder (EditOutcome.mk <$> .required "node" NodeId.decoder <*> .required "param" .text
    <*> .nullable "previous" ParamValue.decoder <*> .required "value" ParamValue.decoder
    <*> .required "adjustments" (.list Adjustment.decoder))

end EditOutcome

namespace Graph

/--
Whether the input size of a block follows from others: only the first convolution is free, and the
first neural block while no convolution feeds it.
-/
def sizeInIsDerived (g : Graph) (n : Node) (c : ShapeConfig) : Bool :=
  match n.block.kind? with
  | some .convolutional =>
    ((g.members .spatial).takeWhile (·.id ≠ n.id)).any fun m => m.kind? = some .convolutional
  | some .input | some .hidden | some .output =>
    g.neural.head? ≠ some n.id || (g.flattened? c).isSome
  | _ => false

def membersAfter (g : Graph) (f : Family) (id : NodeId) : List Node :=
  ((g.members f).dropWhile (·.id ≠ id)).tail

def convolutionCascade (g : Graph) (id : NodeId) (out : UInt32) : List Assignment :=
  -- the next convolution is found behind anything, a pooling block only right behind
  let after := g.membersAfter .spatial id
  let pool := after.head?.filter (·.kind? = some .pooling)
  let conv := after.find? (·.kind? = some .convolutional)
  (pool.map (⟨·.id, .channels, out⟩)).toList ++ (conv.map (⟨·.id, .sizeIn, out⟩)).toList

/-- The assignments that follow at once from the value that a parameter of a block now has. -/
def cascade (g : Graph) (n : Node) (param : String) (c : ShapeConfig) : List Assignment :=
  match n.block with
  | .convolutional p =>
    if param = Param.sizeOut.name then
      g.convolutionCascade n.id p.sizeOut ++ (g.flattenedAssignment? c).toList
    else []
  | .pooling _ =>
    if param = Param.kernelSize.name || param = Param.stride.name then
      (g.flattenedAssignment? c).toList
    else []
  | b =>
    if param = Param.sizeOut.name then
      match b.sizeOut?, (g.membersAfter .neural n.id).head? with
      | some out, some next => [⟨next.id, .sizeIn, out⟩]
      | _, _ => []
    else []

def editParam (g : Graph) (n : Node) (param : String) (value : ParamValue) (c : ShapeConfig) :
    Except GraphError (Graph × List Adjustment) := do
  if param = Param.sizeIn.name && g.sizeInIsDerived n c then
    throw (.readOnlyParameter n.block.kindName param)
  let g ← g.modifyBlock n.id (·.set param value)
  let n ← g.get n.id
  return g.assignAll (g.cascade n param c)

/-- Makes the change that was asked for; gives the value before and what followed at once. -/
def change (g : Graph) (n : Node) (param : String) (value : ParamValue) (c : ShapeConfig) :
    Except GraphError (Option ParamValue × Graph × List Adjustment) :=
  match param with
  | "sequenceIndex" =>
    match value.uint32? with
    | none => .error (.invalidParameter param (.notNonNegativeInteger value))
    | some i => do
      return (some (.ofUInt32 n.sequenceIndex), ← g.setSequenceIndex n.id i, [])
  | "label" =>
    match value.text? with
    | none => .error (.invalidParameter param (.notText value))
    | some label => do return (some (.text n.label), ← g.setLabel n.id label, [])
  | _ => do return (n.block.get? param, ← g.editParam n param value c)

/--
Sets a parameter, the sequence index or the label of a block of a registered kind, and reconciles
the graph.
-/
def edit (g : Graph) (id : NodeId) (param : String) (value : ParamValue) (c : ShapeConfig) :
    Except GraphError (EditOutcome × Graph) := do
  let n ← g.get id
  if n.isPlaceholder then throw (.unknownKind n.block.kindName)
  let (previous, g, followed) ← g.change n param value c
  let (g, adjustments) := g.reconcile c
  return (⟨id, param, previous, value, followed ++ adjustments⟩, g)

end Graph

end LayerGraph
