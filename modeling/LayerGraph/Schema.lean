import LayerGraph.Blank
import LayerGraph.GraphError
import LayerGraph.Kind

namespace LayerGraph

inductive Param where
  | sizeIn
  | sizeOut
  | activation
  | kernelSize
  | padding
  | channels
  | stride
  | poolType
  | classes
  | epochs
  | batchSize
  | learningRate
  | optimizer
  | validationSplit
  | shuffle
  deriving DecidableEq

def Param.name : Param → String
  | .sizeIn => "sizeIn"
  | .sizeOut => "sizeOut"
  | .activation => "activation"
  | .kernelSize => "kernelSize"
  | .padding => "padding"
  | .channels => "channels"
  | .stride => "stride"
  | .poolType => "poolType"
  | .classes => "classes"
  | .epochs => "epochs"
  | .batchSize => "batchSize"
  | .learningRate => "learningRate"
  | .optimizer => "optimizer"
  | .validationSplit => "validationSplit"
  | .shuffle => "shuffle"

inductive Activation where
  | relu
  | sigmoid
  | tanh
  | softmax
  | linear
  deriving DecidableEq, Inhabited

namespace Activation

def name : Activation → String
  | .relu => "relu"
  | .sigmoid => "sigmoid"
  | .tanh => "tanh"
  | .softmax => "softmax"
  | .linear => "linear"

def ofName? : String → Option Activation
  | "relu" => some .relu
  | "sigmoid" => some .sigmoid
  | "tanh" => some .tanh
  | "softmax" => some .softmax
  | "linear" => some .linear
  | _ => none

end Activation

inductive PoolType where
  | max
  | avg
  deriving DecidableEq, Inhabited

namespace PoolType

def name : PoolType → String
  | .max => "max"
  | .avg => "avg"

def ofName? : String → Option PoolType
  | "max" => some .max
  | "avg" => some .avg
  | _ => none

end PoolType

inductive Optimizer where
  | adam
  | sgd
  | rmsprop
  | adagrad
  deriving DecidableEq, Inhabited

namespace Optimizer

def name : Optimizer → String
  | .adam => "adam"
  | .sgd => "sgd"
  | .rmsprop => "rmsprop"
  | .adagrad => "adagrad"

def ofName? : String → Option Optimizer
  | "adam" => some .adam
  | "sgd" => some .sgd
  | "rmsprop" => some .rmsprop
  | "adagrad" => some .adagrad
  | _ => none

end Optimizer

inductive Domain where
  | positiveInt
  | nonNegativeInt
  | positiveFloat
  /-- Strictly between 0 and 1. -/
  | fraction
  | choice (options : List String)
  | flag
  /-- Names that are not blank. -/
  | names
  deriving DecidableEq

def Domain.rejection? (d : Domain) (v : ParamValue) : Option Rejection :=
  match d with
  | .positiveInt =>
    match v.uint32? with
    | some n => if 1 ≤ n then none else some (.notPositiveInteger v)
    | none => some (.notPositiveInteger v)
  | .nonNegativeInt => if v.uint32?.isSome then none else some (.notNonNegativeInteger v)
  | .positiveFloat =>
    match v.float? with
    | some x => if x.isFinite && 0 < x then none else some (.notPositive v)
    | none => some (.notPositive v)
  | .fraction =>
    match v.float? with
    | some x => if x.isFinite && 0 < x && x < 1 then none else some (.notFraction v)
    | none => some (.notFraction v)
  | .choice options =>
    match v.text? with
    | some s => if options.contains s then none else some (.notChoice options v)
    | none => some (.notChoice options v)
  | .flag => if v.bool?.isSome then none else some (.notBoolean v)
  | .names =>
    match v.names? with
    | some ns => if ns.all (!isBlankText ·) then none else some .emptyName
    | none => some (.notNames v)

structure ParamSpec where
  param : Param
  domain : Domain
  default : ParamValue
  /-- Other parameters follow from the shapes of neighbouring blocks. -/
  editable : Bool
  deriving DecidableEq

def ParamSpec.check (spec : ParamSpec) (v : ParamValue) : Except GraphError Unit :=
  match spec.domain.rejection? v with
  | none => .ok ()
  | some why => .error (.invalidParameter spec.param.name why)

def activations : List String := ["relu", "sigmoid", "tanh", "softmax", "linear"]

def poolTypes : List String := ["max", "avg"]

def optimizers : List String := ["adam", "sgd", "rmsprop", "adagrad"]

def sizeSpec (param : Param) (default : UInt32) : ParamSpec :=
  ⟨param, .positiveInt, .ofUInt32 default, true⟩

namespace Kind

def params : Kind → List ParamSpec
  | .input => [sizeSpec .sizeIn 12, sizeSpec .sizeOut 12]
  | .hidden =>
    [sizeSpec .sizeIn 12, sizeSpec .sizeOut 8,
     ⟨.activation, .choice activations, .text "relu", true⟩]
  | .output => [sizeSpec .sizeIn 8, sizeSpec .sizeOut 4]
  | .convolutional =>
    [sizeSpec .sizeIn 3, sizeSpec .sizeOut 32, sizeSpec .kernelSize 3,
     ⟨.padding, .nonNegativeInt, .ofUInt32 1, true⟩]
  | .pooling =>
    [⟨.channels, .positiveInt, .ofUInt32 32, false⟩, sizeSpec .kernelSize 2, sizeSpec .stride 2,
     ⟨.poolType, .choice poolTypes, .text "max", true⟩]
  | .classifier => [⟨.classes, .names, .names [], true⟩]
  | .training =>
    [sizeSpec .epochs 10, sizeSpec .batchSize 32,
     ⟨.learningRate, .positiveFloat, .float 0.001, true⟩,
     ⟨.optimizer, .choice optimizers, .text "adam", true⟩,
     ⟨.validationSplit, .fraction, .float 0.2, true⟩,
     ⟨.shuffle, .flag, .bool true, true⟩]
  | .start => []

def param? (k : Kind) (name : String) : Option ParamSpec :=
  k.params.find? (·.param.name = name)

end Kind

end LayerGraph
