import LayerGraph.Json
import LayerGraph.Schema

namespace LayerGraph

structure Dense where
  sizeIn : UInt32
  sizeOut : UInt32
  deriving DecidableEq, Inhabited

structure Hidden where
  sizeIn : UInt32
  sizeOut : UInt32
  activation : Activation
  deriving DecidableEq, Inhabited

/-- The sizes are counts of channels. -/
structure Convolution where
  sizeIn : UInt32
  sizeOut : UInt32
  kernelSize : UInt32
  padding : UInt32
  deriving DecidableEq, Inhabited

structure Pooling where
  /-- The channels of the convolution before. -/
  channels : UInt32
  kernelSize : UInt32
  stride : UInt32
  poolType : PoolType
  deriving DecidableEq, Inhabited

structure Training where
  epochs : UInt32 := 10
  batchSize : UInt32 := 32
  learningRate : Float := 0.001
  optimizer : Optimizer := .adam
  validationSplit : Float := 0.2
  shuffle : Bool := true
  deriving DecidableEq, Inhabited

inductive Block where
  | input (p : Dense)
  | hidden (p : Hidden)
  | output (p : Dense)
  | convolutional (p : Convolution)
  | pooling (p : Pooling)
  | classifier (classes : List String)
  | training (p : Training)
  | start
  | unknown (kind : String) (data : Json)
  deriving DecidableEq, Inhabited

namespace Block

def ofKind : Kind → Block
  | .input => .input ⟨12, 12⟩
  | .hidden => .hidden ⟨12, 8, .relu⟩
  | .output => .output ⟨8, 4⟩
  | .convolutional => .convolutional ⟨3, 32, 3, 1⟩
  | .pooling => .pooling ⟨32, 2, 2, .max⟩
  | .classifier => .classifier []
  | .training => .training {}
  | .start => .start

def kind? : Block → Option Kind
  | .input _ => some .input
  | .hidden _ => some .hidden
  | .output _ => some .output
  | .convolutional _ => some .convolutional
  | .pooling _ => some .pooling
  | .classifier _ => some .classifier
  | .training _ => some .training
  | .start => some .start
  | .unknown _ _ => none

def kindName : Block → String
  | .unknown kind _ => kind
  | .input _ => Kind.name .input
  | .hidden _ => Kind.name .hidden
  | .output _ => Kind.name .output
  | .convolutional _ => Kind.name .convolutional
  | .pooling _ => Kind.name .pooling
  | .classifier _ => Kind.name .classifier
  | .training _ => Kind.name .training
  | .start => Kind.name .start

def family? (b : Block) : Option Family := b.kind?.bind Kind.family

def isLayer (b : Block) : Bool := b.family?.isSome

def isPlaceholder (b : Block) : Bool := b.kind?.isNone

def sizes? : Block → Option (UInt32 × UInt32)
  | .input p | .output p => some (p.sizeIn, p.sizeOut)
  | .hidden p => some (p.sizeIn, p.sizeOut)
  | .convolutional p => some (p.sizeIn, p.sizeOut)
  | _ => none

def sizeOut? (b : Block) : Option UInt32 := b.sizes?.map (·.2)

def get? : Block → String → Option ParamValue
  | .input p, "sizeIn" | .output p, "sizeIn" => some (.ofUInt32 p.sizeIn)
  | .input p, "sizeOut" | .output p, "sizeOut" => some (.ofUInt32 p.sizeOut)
  | .hidden p, "sizeIn" => some (.ofUInt32 p.sizeIn)
  | .hidden p, "sizeOut" => some (.ofUInt32 p.sizeOut)
  | .hidden p, "activation" => some (.text p.activation.name)
  | .convolutional p, "sizeIn" => some (.ofUInt32 p.sizeIn)
  | .convolutional p, "sizeOut" => some (.ofUInt32 p.sizeOut)
  | .convolutional p, "kernelSize" => some (.ofUInt32 p.kernelSize)
  | .convolutional p, "padding" => some (.ofUInt32 p.padding)
  | .pooling p, "channels" => some (.ofUInt32 p.channels)
  | .pooling p, "kernelSize" => some (.ofUInt32 p.kernelSize)
  | .pooling p, "stride" => some (.ofUInt32 p.stride)
  | .pooling p, "poolType" => some (.text p.poolType.name)
  | .classifier classes, "classes" => some (.names classes)
  | .training p, "epochs" => some (.ofUInt32 p.epochs)
  | .training p, "batchSize" => some (.ofUInt32 p.batchSize)
  | .training p, "learningRate" => some (.float p.learningRate)
  | .training p, "optimizer" => some (.text p.optimizer.name)
  | .training p, "validationSplit" => some (.float p.validationSplit)
  | .training p, "shuffle" => some (.bool p.shuffle)
  | _, _ => none

/-- Writes a value that passed its check; what it is not the type of starts out again. -/
def writeChecked (b : Block) (name : String) (v : ParamValue) : Block :=
  let n := v.uint32?.getD 0
  let x := v.float?.getD 0
  let s := v.text?.getD ""
  match b, name with
  | .input p, "sizeIn" => .input { p with sizeIn := n }
  | .input p, "sizeOut" => .input { p with sizeOut := n }
  | .output p, "sizeIn" => .output { p with sizeIn := n }
  | .output p, "sizeOut" => .output { p with sizeOut := n }
  | .hidden p, "sizeIn" => .hidden { p with sizeIn := n }
  | .hidden p, "sizeOut" => .hidden { p with sizeOut := n }
  | .hidden p, "activation" => .hidden { p with activation := (Activation.ofName? s).getD .relu }
  | .convolutional p, "sizeIn" => .convolutional { p with sizeIn := n }
  | .convolutional p, "sizeOut" => .convolutional { p with sizeOut := n }
  | .convolutional p, "kernelSize" => .convolutional { p with kernelSize := n }
  | .convolutional p, "padding" => .convolutional { p with padding := n }
  | .pooling p, "kernelSize" => .pooling { p with kernelSize := n }
  | .pooling p, "stride" => .pooling { p with stride := n }
  | .pooling p, "poolType" => .pooling { p with poolType := if s = "avg" then .avg else .max }
  | .classifier _, "classes" => .classifier (v.names?.getD [])
  | .training p, "epochs" => .training { p with epochs := n }
  | .training p, "batchSize" => .training { p with batchSize := n }
  | .training p, "learningRate" => .training { p with learningRate := x }
  | .training p, "optimizer" => .training { p with optimizer := (Optimizer.ofName? s).getD .adam }
  | .training p, "validationSplit" => .training { p with validationSplit := x }
  | .training p, "shuffle" => .training { p with shuffle := v.bool?.getD true }
  | b, _ => b

/-- Changes a parameter, if an editor may and the value is in its domain. -/
def set (b : Block) (name : String) (v : ParamValue) : Except GraphError Block :=
  match b.kind? with
  | none => .error (.unknownKind b.kindName)
  | some k =>
    match k.param? name with
    | none => .error (.unknownParameter k.name name)
    | some spec => do
      if !spec.editable then throw (.readOnlyParameter k.name name)
      spec.check v
      return b.writeChecked name v

/-- The parameters whose values are outside their domains, in the order of the registry. -/
def rejections (b : Block) : List (Param × Rejection) :=
  match b.kind? with
  | none => []
  | some k => k.params.filterMap fun spec => do
    let why ← spec.domain.rejection? (← b.get? spec.param.name)
    return (spec.param, why)

end Block

def Training.validate (t : Training) : Except GraphError Unit :=
  match (Block.training t).rejections.head? with
  | none => .ok ()
  | some (param, why) => .error (.invalidParameter param.name why)

end LayerGraph
