import LayerGraph.ProjectStore
import LayerGraph.TrainingService

namespace LayerGraph

inductive JobState where
  | running
  | completed
  | failed
  | timedOut
  | cancelled
  deriving DecidableEq, Inhabited

def JobState.name : JobState → String
  | .running => "running"
  | .completed => "completed"
  | .failed => "failed"
  | .timedOut => "timed_out"
  | .cancelled => "cancelled"

structure Job where
  trainingId : String
  project : ProjectId
  state : JobState := .running
  /-- The last one while the job was running. -/
  status : Option TrainingStatus := none
  error : Option String := none
  /-- In milliseconds, as all times are. -/
  endedAt : Option Nat := none
  deriving DecidableEq, Inhabited

namespace Job

def toJson (j : Job) : Json :=
  .object
    ([("trainingId", .string j.trainingId), ("projectId", j.project.toJson),
      ("state", .string j.state.name), ("status", .ofOption TrainingStatus.toJson j.status)] ++
     (j.error.map fun e => ("error", .string e)).toList)

/-- Ends the job, unless it has ended before. -/
def finish (now : Nat) (state : JobState) (error : Option String) (j : Job) : Job :=
  if j.state = .running then { j with state, error, endedAt := some now } else j

def record (status : TrainingStatus) (j : Job) : Job :=
  if j.state = .running then { j with status } else j

def isExpired (now retention : Nat) (j : Job) : Bool :=
  -- no time has passed where the clock has gone back
  j.endedAt.any fun t => retention ≤ now - t

end Job

/-- One job for each training id. -/
structure Jobs where
  all : List Job := []
  deriving DecidableEq, Inhabited

namespace Jobs

def get? (js : Jobs) (id : String) : Option Job := js.all.find? (·.trainingId = id)

def modify (js : Jobs) (id : String) (f : Job → Job) : Jobs :=
  ⟨js.all.map fun j => if j.trainingId = id then f j else j⟩

/-- Takes the place of a job of that id. -/
def start (js : Jobs) (id : String) (project : ProjectId) : Job × Jobs :=
  let job : Job := { trainingId := id, project }
  (job, ⟨js.all.filter (·.trainingId ≠ id) ++ [job]⟩)

def record (js : Jobs) (id : String) (status : TrainingStatus) : Jobs :=
  js.modify id (·.record status)

def finish (js : Jobs) (now : Nat) (id : String) (state : JobState) (error : Option String) : Jobs :=
  js.modify id (·.finish now state error)

def polled (js : Jobs) (now : Nat) (id : String) : Except ServiceError TrainingStatus → Jobs
  | .ok status =>
    let js := js.record id status
    if status.isComplete then js.finish now id .completed none else js
  | .error e => js.finish now id .failed (some e.message)

def timeOut (js : Jobs) (now : Nat) (id : String) : Jobs := js.finish now id .timedOut none

/-- Stops a job; one that has ended stays as it is. -/
def cancel (js : Jobs) (now : Nat) (id : String) : Option Job × Jobs :=
  let js := js.finish now id .cancelled none
  (js.get? id, js)

/-- Drops the jobs that ended at least `retention` ago; gives their ids. -/
def sweep (js : Jobs) (now retention : Nat) : List String × Jobs :=
  let (expired, kept) := js.all.partition (·.isExpired now retention)
  (expired.map (·.trainingId), ⟨kept⟩)

end Jobs

end LayerGraph
