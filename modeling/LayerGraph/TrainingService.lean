import LayerGraph.JsonPrinter
import LayerGraph.Model

namespace LayerGraph

structure Metrics where
  accuracy : Float
  loss : Float
  deriving DecidableEq, Inhabited

structure ModelData where
  modelUrl : String
  finalAccuracy : Float
  finalLoss : Float
  deriving DecidableEq, Inhabited

structure TrainingStatus where
  trainingId : String
  /-- From 0 to 100. -/
  progress : Float
  currentEpoch : UInt32
  totalEpochs : UInt32
  metrics : Metrics
  isComplete : Bool
  modelData : Option ModelData
  deriving DecidableEq, Inhabited

structure ClassScore where
  name : String
  confidence : Float
  deriving DecidableEq, Inhabited

structure Classification where
  name : String
  confidence : Float
  topClasses : List ClassScore
  deriving DecidableEq, Inhabited

namespace Metrics

def toJson (m : Metrics) : Json := .object [("accuracy", .float m.accuracy), ("loss", .float m.loss)]

def decoder : Decoder Metrics :=
  Record.decoder (Metrics.mk <$> .required "accuracy" .float <*> .required "loss" .float)

end Metrics

namespace ModelData

def toJson (d : ModelData) : Json :=
  .object
    [("modelUrl", .string d.modelUrl), ("finalAccuracy", .float d.finalAccuracy),
     ("finalLoss", .float d.finalLoss)]

def decoder : Decoder ModelData :=
  Record.decoder (ModelData.mk <$> .required "modelUrl" .text <*> .required "finalAccuracy" .float
    <*> .required "finalLoss" .float)

end ModelData

namespace TrainingStatus

def toJson (s : TrainingStatus) : Json :=
  .object
    [("trainingId", .string s.trainingId), ("progress", .float s.progress),
     ("currentEpoch", .ofUInt32 s.currentEpoch), ("totalEpochs", .ofUInt32 s.totalEpochs),
     ("metrics", s.metrics.toJson), ("isComplete", .bool s.isComplete),
     ("modelData", .ofOption ModelData.toJson s.modelData)]

def decoder : Decoder TrainingStatus :=
  Record.decoder (TrainingStatus.mk <$> .required "trainingId" .text <*> .required "progress" .float
    <*> .required "currentEpoch" .uint32 <*> .required "totalEpochs" .uint32
    <*> .required "metrics" Metrics.decoder <*> .required "isComplete" .bool
    <*> .nullable "modelData" ModelData.decoder)

end TrainingStatus

namespace ClassScore

def toJson (c : ClassScore) : Json :=
  .object [("class", .string c.name), ("confidence", .float c.confidence)]

def decoder : Decoder ClassScore :=
  Record.decoder (ClassScore.mk <$> .required "class" .text <*> .required "confidence" .float)

end ClassScore

namespace Classification

def toJson (c : Classification) : Json :=
  .object
    [("class", .string c.name), ("confidence", .float c.confidence),
     ("topClasses", .array (c.topClasses.map (·.toJson)))]

def decoder : Decoder Classification :=
  Record.decoder (Classification.mk <$> .required "class" .text <*> .required "confidence" .float
    <*> .optional "topClasses" (.list ClassScore.decoder) [])

/-- Orders doubles, with minus zero below zero. -/
def rank (x : Float) : Int :=
  let bits := x.toBits.toNat
  if bits < 2 ^ 63 then bits else 2 ^ 63 - 1 - bits

def ranked (c : Classification) : Classification :=
  { c with topClasses := c.topClasses.mergeSort fun a b => rank b.confidence ≤ rank a.confidence }

/-- A classification may come inside an object. -/
def ofReply? (j : Json) : Option Classification :=
  let wrapped : Decoder Classification := Record.ofObject (.required "prediction" decoder)
  wrapped.decode? j <|> decoder.decode? j

end Classification

structure ServiceCall where
  method : String
  path : String
  contentType : Option String
  body : String
  deriving DecidableEq, Inhabited

structure ServiceReply where
  status : Nat
  body : String
  deriving DecidableEq, Inhabited

/-- The service as it answers calls, if it can be reached. -/
abbrev Service := ServiceCall → Option ServiceReply

inductive ServiceError where
  | unreachable
  | refused (status : Nat) (body : String)
  | unreadable
  deriving DecidableEq

def ServiceError.message : ServiceError → String
  | .unreachable => "request failed: the training service cannot be reached"
  | .refused status body => s!"service answered {status}: {body}"
  | .unreadable => "unexpected response: not the reply to this call"

namespace Service

def ask {α : Type} (service : Service) (call : ServiceCall) (dec : Decoder α) :
    Except ServiceError α :=
  match service call with
  | none => .error .unreachable
  | some reply =>
    if 200 ≤ reply.status && reply.status < 300 then
      (dec.ofText reply.body).mapError fun _ => .unreadable
    else .error (.refused reply.status reply.body)

def submit (service : Service) (m : Model) : Except ServiceError String :=
  let trainingId : Decoder String := Record.decoder (.required "trainingId" .text)
  service.ask ⟨"POST", "/train", some "application/json", m.toJson.text⟩ trainingId

def status (service : Service) (id : String) : Except ServiceError TrainingStatus :=
  service.ask ⟨"GET", "/training-status/" ++ id, none, ""⟩ TrainingStatus.decoder

def classify (service : Service) (modelId image : String) (contentType : Option String) :
    Except ServiceError Classification :=
  Classification.ranked <$>
    service.ask ⟨"POST", "/classify/" ++ modelId, contentType, image⟩ (.ofJson? Classification.ofReply?)

end Service

end LayerGraph
