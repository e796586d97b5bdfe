import LayerGraph.Blank
import LayerGraph.IntegerText
import LayerGraph.ShapeConfig

namespace LayerGraph

structure ServerConfig where
  databasePath : String
  listenPort : Nat := 3000
  /-- Without a slash at the end. -/
  trainingUrl : String := "http://127.0.0.1:3500"
  pollIntervalMs : Nat := 1000
  pollTimeoutSecs : Nat := 1800
  requestTimeoutSecs : Nat := 30
  jobRetentionSecs : Nat := 3600
  shape : ShapeConfig := {}
  deriving DecidableEq, Inhabited

namespace ServerConfig

def ofApplication (application : String) : ServerConfig where
  databasePath := application.toLower ++ ".db"

def trimSlashes (url : String) : String :=
  String.ofList (url.toList.reverse.dropWhile (· = '/')).reverse

/-- A number below `bound`; anything else leaves the default. -/
def number (setting : Option String) (bound default : Nat) : Nat :=
  (setting.bind fun s => natBelow? bound (trimBlank s)).getD default

def ofSettings (application : String) (get : String → Option String) : ServerConfig :=
  let d := ofApplication application
  let setting (name : String) := get (application.toUpper ++ "_" ++ name)
  let seconds (name : String) (default : Nat) := number (setting name) (2 ^ 64) default
  let size (name : String) (default : UInt32) :=
    UInt32.ofNat (number (setting name) (2 ^ 32) default.toNat)
  { databasePath := (setting "DB_PATH").getD d.databasePath
    listenPort := number (setting "PORT") (2 ^ 16) d.listenPort
    trainingUrl := ((setting "TRAINING_URL").map trimSlashes).getD d.trainingUrl
    pollIntervalMs := max 1 (seconds "POLL_INTERVAL_MS" d.pollIntervalMs)
    pollTimeoutSecs := seconds "POLL_TIMEOUT_SECS" d.pollTimeoutSecs
    requestTimeoutSecs := max 1 (seconds "REQUEST_TIMEOUT_SECS" d.requestTimeoutSecs)
    jobRetentionSecs := seconds "JOB_RETENTION_SECS" d.jobRetentionSecs
    shape :=
      { d.shape with
        initialSpatialSize := size "INITIAL_SPATIAL_SIZE" d.shape.initialSpatialSize
        outputClasses := size "OUTPUT_CLASSES" d.shape.outputClasses } }

end ServerConfig

end LayerGraph
