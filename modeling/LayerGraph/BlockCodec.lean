import LayerGraph.Block
import LayerGraph.JsonDecoder

namespace LayerGraph

structure RawBlock where
  kind : String
  data : Json
  deriving DecidableEq, Inhabited

namespace RawBlock

def toJson (r : RawBlock) : Json := .object [("type", .string r.kind), ("data", r.data)]

def record : Record RawBlock :=
  RawBlock.mk <$> .required "type" .text <*> .optional "data" Document.json .null

def decoder : Decoder RawBlock := record.decoder

def ofMembers (ms : List (String × Json)) : Except Fault RawBlock :=
  record.ofObject (.object (Document.ofMembers ms) .closed)

end RawBlock

def Json.ofUInt32 (n : UInt32) : Json := .int n.toNat

def Json.ofNames (ns : List String) : Json := .array (ns.map .string)

def Json.ofOption {α : Type} (f : α → Json) (a : Option α) : Json := (a.map f).getD .null

def Family.toJson (f : Family) : Json := .string f.name

def Family.decoder : Decoder Family := .name ofName?

def Kind.toJson (k : Kind) : Json := .string k.name

def Kind.decoder : Decoder Kind := .name ofName?

def Activation.toJson (a : Activation) : Json := .string a.name

def Activation.decoder : Decoder Activation := .name ofName?

def PoolType.decoder : Decoder PoolType := .name ofName?

def Optimizer.decoder : Decoder Optimizer := .name ofName?

namespace ParamValue

def toJson : ParamValue → Json
  | .bool b => .bool b
  | .int n => .int n.toNat
  | .float x => .float x
  | .text s => .string s
  | .names ns => .ofNames ns

/-- The value that the JSON has the shape of. A negative integer is a decimal. -/
def ofJson? : Json → Option ParamValue
  | .bool b => some (.bool b)
  | .int n => .int <$> Decoder.uint64.decode? (.int n) <|> .float <$> Decoder.float.decode? (.int n)
  | .float x => some (.float x)
  | .string s => some (.text s)
  | .array items => (items.mapM (Decoder.text.decode? ·)).map .names
  | _ => none

def decoder : Decoder ParamValue := .ofJson? ofJson?

end ParamValue

namespace Dense

def toJson (p : Dense) : Json :=
  .object [("sizeIn", .ofUInt32 p.sizeIn), ("sizeOut", .ofUInt32 p.sizeOut)]

def record : Record Dense := Dense.mk <$> .required "sizeIn" .uint32 <*> .required "sizeOut" .uint32

end Dense

namespace Hidden

def toJson (p : Hidden) : Json :=
  .object
    [("sizeIn", .ofUInt32 p.sizeIn), ("sizeOut", .ofUInt32 p.sizeOut),
     ("activation", p.activation.toJson)]

def record : Record Hidden :=
  Hidden.mk <$> .required "sizeIn" .uint32 <*> .required "sizeOut" .uint32
    <*> .optional "activation" Activation.decoder .relu

end Hidden

/-- The side of a kernel; it has an older name too. -/
def kernelSizeRecord : Record UInt32 := .field ["kernelSize", "size"] .uint32 (.error .mismatch)

namespace Convolution

def toJson (p : Convolution) : Json :=
  .object
    [("sizeIn", .ofUInt32 p.sizeIn), ("sizeOut", .ofUInt32 p.sizeOut),
     ("kernelSize", .ofUInt32 p.kernelSize), ("padding", .ofUInt32 p.padding)]

def record : Record Convolution :=
  Convolution.mk <$> .required "sizeIn" .uint32 <*> .required "sizeOut" .uint32
    <*> kernelSizeRecord <*> .optional "padding" .uint32 0

end Convolution

namespace Pooling

def toJson (p : Pooling) : Json :=
  .object
    [("channels", .ofUInt32 p.channels), ("kernelSize", .ofUInt32 p.kernelSize),
     ("stride", .ofUInt32 p.stride), ("poolType", .string p.poolType.name)]

def record : Record Pooling :=
  Pooling.mk <$> .required "channels" .uint32 <*> kernelSizeRecord <*> .optional "stride" .uint32 2
    <*> .field ["poolType", "type"] PoolType.decoder (.ok .max)

end Pooling

namespace Training

def toJson (t : Training) : Json :=
  .object
    [("epochs", .ofUInt32 t.epochs), ("batchSize", .ofUInt32 t.batchSize),
     ("learningRate", .float t.learningRate), ("optimizer", .string t.optimizer.name),
     ("validationSplit", .float t.validationSplit), ("shuffle", .bool t.shuffle)]

def record : Record Training :=
  let d : Training := {}
  Training.mk <$> .optional "epochs" .uint32 d.epochs <*> .optional "batchSize" .uint32 d.batchSize
    <*> .optional "learningRate" .float d.learningRate
    <*> .optional "optimizer" Optimizer.decoder d.optimizer
    <*> .optional "validationSplit" .float d.validationSplit
    <*> .optional "shuffle" .bool d.shuffle

def decoder : Decoder Training := record.decoder

end Training

namespace Block

def classesRecord : Record (List String) := .optional "classes" (.list .text) []

/-- The block of a registered kind with these data. A start block has none to read. -/
def ofData? (k : Kind) (data : Json) : Option Block :=
  let data := if data = .null then .object [] else data
  match k with
  | .input => .input <$> Dense.record.decoder.decode? data
  | .hidden => .hidden <$> Hidden.record.decoder.decode? data
  | .output => .output <$> Dense.record.decoder.decode? data
  | .convolutional => .convolutional <$> Convolution.record.decoder.decode? data
  | .pooling => .pooling <$> Pooling.record.decoder.decode? data
  | .classifier => .classifier <$> classesRecord.decoder.decode? data
  | .training => .training <$> Training.decoder.decode? data
  | .start => some .start

def ofRaw (r : RawBlock) : Except GraphError Block :=
  match Kind.ofName? r.kind with
  | none => .ok (.unknown r.kind r.data)
  | some k =>
    match ofData? k r.data with
    | some b => .ok b
    | none => .error (.malformedBlock k.name)

def data : Block → Json
  | .input p | .output p => p.toJson
  | .hidden p => p.toJson
  | .convolutional p => p.toJson
  | .pooling p => p.toJson
  | .classifier classes => .object [("classes", .ofNames classes)]
  | .training t => t.toJson
  | .start => .object []
  | .unknown _ data => data

def toRaw (b : Block) : RawBlock := ⟨b.kindName, b.data⟩

def toJson (b : Block) : Json := b.toRaw.toJson

def ofRawFault (r : RawBlock) : Except Fault Block := (ofRaw r).mapError fun _ => .mismatch

def decoder : Decoder Block := (RawBlock.record.refine ofRawFault).decoder

end Block

def Domain.toJson : Domain → Json
  | .positiveInt => .object [("type", .string "positiveInt")]
  | .nonNegativeInt => .object [("type", .string "nonNegativeInt")]
  | .positiveFloat => .object [("type", .string "positiveFloat")]
  | .fraction => .object [("type", .string "fraction")]
  | .choice options => .object [("type", .string "choice"), ("options", .ofNames options)]
  | .flag => .object [("type", .string "flag")]
  | .names => .object [("type", .string "names")]

def ParamSpec.toJson (spec : ParamSpec) : Json :=
  .object
    [("name", .string spec.param.name), ("domain", spec.domain.toJson),
     ("default", if spec.default = .names [] then .null else spec.default.toJson),
     ("editable", .bool spec.editable)]

def Kind.specJson (k : Kind) : Json :=
  .object
    [("kind", k.toJson), ("label", .string k.label), ("family", .ofOption Family.toJson k.family),
     ("isLayer", .bool k.isLayer), ("params", .array (k.params.map (·.toJson)))]

end LayerGraph
