import LayerGraph.Jobs
import LayerGraph.Proofs.Lists

namespace LayerGraph

/-- How a job stops running. -/
inductive JobEnding where
  | completed
  | failed (e : ServiceError)
  | timedOut
  | cancelled

namespace JobEnding

def state : JobEnding → JobState
  | completed => .completed
  | failed _ => .failed
  | timedOut => .timedOut
  | cancelled => .cancelled

def error : JobEnding → Option String
  | failed e => some e.message
  | _ => none

theorem state_ne_running (e : JobEnding) : e.state ≠ .running := by cases e <;> nofun

theorem isSome_error_iff (e : JobEnding) : e.error.isSome = true ↔ e.state = .failed := by
  cases e <;> simp [error, state]

end JobEnding

/-- A request, or what a task that polls a job does. -/
inductive JobStep where
  | start (id : String) (project : ProjectId)
  | get (id : String)
  | cancel (id : String)
  | sweep (retention : Nat)
  | record (id : String) (status : TrainingStatus)
  | complete (id : String)
  | fail (id : String) (e : ServiceError)
  | timeOut (id : String)

namespace JobStep

def run (now : Nat) (js : Jobs) : JobStep → Jobs
  | start id project => (js.start id project).2
  | get _ => js
  | cancel id => (js.cancel now id).2
  | sweep retention => (js.sweep now retention).2
  | record id status => js.record id status
  | complete id => js.finish now id .completed none
  | fail id e => js.finish now id .failed (some e.message)
  | timeOut id => js.timeOut now id

def starts (id : String) : JobStep → Bool
  | start i _ => i = id
  | _ => false

/-- How the step ends the job, if it is running. -/
def ending? (id : String) : JobStep → Option JobEnding
  | cancel i => if i = id then some .cancelled else none
  | complete i => if i = id then some .completed else none
  | fail i e => if i = id then some (.failed e) else none
  | timeOut i => if i = id then some .timedOut else none
  | _ => none

def recorded? (id : String) : JobStep → Option TrainingStatus
  | record i status => if i = id then some status else none
  | _ => none

/-- What the step makes of a job that is there. -/
def change (now : Nat) (id : String) (step : JobStep) (j : Job) : Job :=
  match step.ending? id, step.recorded? id with
  | some e, _ => j.finish now e.state e.error
  | none, some status => j.record status
  | none, none => j

/-- What the step makes of the job with an id. -/
def follow (now : Nat) (id : String) (job : Option Job) : JobStep → Option Job
  | start i project => if i = id then some { trainingId := id, project } else job
  | sweep retention => job.filter (!·.isExpired now retention)
  | step => job.map (step.change now id)

end JobStep

/-- What a poll task does about an answer, step by step. -/
def JobStep.ofAnswer (id : String) : Except ServiceError TrainingStatus → List JobStep
  | .ok status => .record id status :: if status.isComplete then [.complete id] else []
  | .error e => [.fail id e]

/-- Steps, each with its time. -/
abbrev JobHistory := List (Nat × JobStep)

def jobsAfter (h : JobHistory) : Jobs := h.foldl (fun js (now, step) => step.run now js) {}

/-- The last status that was recorded. -/
def JobHistory.lastStatus (h : JobHistory) (id : String) : Option TrainingStatus :=
  (h.filterMap (·.2.recorded? id)).getLast?

/-- What a history tells of the job with an id. -/
inductive Told (id : String) : JobHistory → Option Job → Prop where
  | unknown {h : JobHistory} (hnever : ∀ s ∈ h, s.2.starts id = false) : Told id h none
  /-- Nothing has ended the job since its last start. -/
  | running {before since : JobHistory} {t project}
      (hsince : ∀ s ∈ since, s.2.starts id = false ∧ s.2.ending? id = none) :
      Told id (before ++ (t, .start id project) :: since)
        (some { trainingId := id, project, status := since.lastStatus id })
  /-- The first step that ends the job decides, and no sweep has come late enough. -/
  | ended {before since later : JobHistory} {t project u step e}
      (hsince : ∀ s ∈ since, s.2.starts id = false ∧ s.2.ending? id = none)
      (hend : step.ending? id = some e) (hlater : ∀ s ∈ later, s.2.starts id = false)
      (hkept : ∀ v retention, (v, .sweep retention) ∈ later → v - u < retention) :
      Told id (before ++ (t, .start id project) :: since ++ (u, step) :: later)
        (some { trainingId := id, project, state := e.state, status := since.lastStatus id,
                error := e.error, endedAt := some u })
  | swept {before since later : JobHistory} {t project u step e v retention}
      (hsince : ∀ s ∈ since, s.2.starts id = false ∧ s.2.ending? id = none)
      (hend : step.ending? id = some e) (hlater : ∀ s ∈ later, s.2.starts id = false)
      (hswept : (v, .sweep retention) ∈ later) (hage : retention ≤ v - u) :
      Told id (before ++ (t, .start id project) :: since ++ (u, step) :: later) none

/-- A task that asks for the status of a job, and ends it once it was told that all is done. -/
structure PollTask where
  id : String
  done : Bool

/-- Histories in which poll tasks, one for each start, do all recording and ending but cancelling;
with the tasks that are at work behind them. A task may also stop, at any time. -/
inductive Performed : JobHistory → List PollTask → Prop where
  | nil : Performed [] []
  | start {h tasks} (now : Nat) (id : String) (project : ProjectId) (hp : Performed h tasks) :
      Performed (h ++ [(now, .start id project)]) (⟨id, false⟩ :: tasks)
  | get {h tasks} (now : Nat) (id : String) (hp : Performed h tasks) :
      Performed (h ++ [(now, .get id)]) tasks
  | cancel {h tasks} (now : Nat) (id : String) (hp : Performed h tasks) :
      Performed (h ++ [(now, .cancel id)]) tasks
  | sweep {h tasks} (now retention : Nat) (hp : Performed h tasks) :
      Performed (h ++ [(now, .sweep retention)]) tasks
  | record {h before id after} (now : Nat) (status : TrainingStatus)
      (hp : Performed h (before ++ ⟨id, false⟩ :: after)) :
      Performed (h ++ [(now, .record id status)]) (before ++ ⟨id, status.isComplete⟩ :: after)
  | complete {h before id after} (now : Nat) (hp : Performed h (before ++ ⟨id, true⟩ :: after)) :
      Performed (h ++ [(now, .complete id)]) (before ++ after)
  | fail {h before id after} (now : Nat) (e : ServiceError)
      (hp : Performed h (before ++ ⟨id, false⟩ :: after)) :
      Performed (h ++ [(now, .fail id e)]) (before ++ after)
  | timeOut {h before id after} (now : Nat) (hp : Performed h (before ++ ⟨id, false⟩ :: after)) :
      Performed (h ++ [(now, .timeOut id)]) (before ++ after)
  | stop {h before task after} (hp : Performed h (before ++ task :: after)) :
      Performed h (before ++ after)

namespace Jobs

variable {js : Jobs} {id : String} {now : Nat}

def ids (js : Jobs) : List String := js.all.map (·.trainingId)

theorem get?_modify {f : Job → Job} (hf : ∀ j, (f j).trainingId = j.trainingId) (js : Jobs)
    (i id : String) :
    (js.modify i f).get? id = if i = id then (js.get? id).map f else js.get? id := by
  unfold get? modify
  rw [List.find?_map]
  have hid : (fun j : Job => decide (j.trainingId = id)) ∘
      (fun j => if j.trainingId = i then f j else j) = fun j => decide (j.trainingId = id) := by
    funext j
    dsimp only [Function.comp_apply]
    split <;> simp [hf]
  rw [hid]
  cases hj : js.all.find? (·.trainingId = id) with
  | none => simp
  | some j =>
    have hji : j.trainingId = id := by simpa using List.find?_some hj
    by_cases hi : i = id
    · simp [hi, hji]
    · simp [hi, hji, Ne.symm hi]

theorem ids_modify {f : Job → Job} (hf : ∀ j, (f j).trainingId = j.trainingId) (js : Jobs)
    (i : String) : (js.modify i f).ids = js.ids := by
  unfold ids modify
  rw [List.map_map]
  apply List.map_congr_left
  intro j _
  dsimp only [Function.comp_apply]
  split <;> simp [hf]

theorem trainingId_finish (now : Nat) (state : JobState) (error : Option String) (j : Job) :
    (j.finish now state error).trainingId = j.trainingId := by
  unfold Job.finish
  split <;> rfl

theorem trainingId_record (status : TrainingStatus) (j : Job) :
    (j.record status).trainingId = j.trainingId := by
  unfold Job.record
  split <;> rfl

theorem get?_start (js : Jobs) (i id : String) (project : ProjectId) :
    (js.start i project).2.get? id =
      if i = id then some { trainingId := id, project } else js.get? id := by
  unfold get? start
  rw [List.find?_append, List.find?_filter, List.find?_singleton]
  by_cases hi : i = id
  · subst hi
    rw [List.find?_eq_none.mpr (by simp)]
    simp
  · have hothers : (fun j : Job => decide (decide (j.trainingId ≠ i) = true ∧
        decide (j.trainingId = id) = true)) = fun j => decide (j.trainingId = id) := by
      funext j
      by_cases hj : j.trainingId = id
      · simp [hj, Ne.symm hi]
      · simp [hj]
    rw [hothers]
    simp [hi]

theorem nodup_ids_start (h : js.ids.Nodup) (i : String) (project : ProjectId) :
    (js.start i project).2.ids.Nodup := by
  unfold ids start at *
  apply nodup_map_concat ((List.filter_sublist.map _).nodup h)
  intro j hj
  simpa using (List.mem_filter.mp hj).2

theorem sweep_snd (js : Jobs) (now retention : Nat) :
    (js.sweep now retention).2 = ⟨js.all.filter (!·.isExpired now retention)⟩ := by
  unfold sweep
  rw [List.partition_eq_filter_filter]
  rfl

theorem sweep_fst (js : Jobs) (now retention : Nat) :
    (js.sweep now retention).1 =
      (js.all.filter (·.isExpired now retention)).map (·.trainingId) := by
  unfold sweep
  rw [List.partition_eq_filter_filter]

theorem get?_eq_some_iff (h : js.ids.Nodup) {j : Job} :
    js.get? id = some j ↔ j ∈ js.all ∧ j.trainingId = id := by
  constructor
  · intro hj
    exact ⟨List.mem_of_find?_eq_some hj, by simpa using List.find?_some hj⟩
  · rintro ⟨hj, rfl⟩
    exact find?_eq_some_of_nodup h hj

theorem get?_sweep (h : js.ids.Nodup) (now retention : Nat) (id : String) :
    (js.sweep now retention).2.get? id = (js.get? id).filter (!·.isExpired now retention) := by
  have hkept : (js.sweep now retention).2.ids.Nodup := by
    unfold ids at *
    rw [sweep_snd]
    exact (List.filter_sublist.map _).nodup h
  apply Option.ext
  intro j
  rw [get?_eq_some_iff hkept, Option.filter_eq_some_iff, get?_eq_some_iff h, sweep_snd,
    List.mem_filter]
  exact and_right_comm

theorem mem_sweep_iff (h : js.ids.Nodup) {retention : Nat} :
    id ∈ (js.sweep now retention).1 ↔
      ∃ j, js.get? id = some j ∧ j.isExpired now retention = true := by
  simp only [sweep_fst, List.mem_map, List.mem_filter, get?_eq_some_iff h]
  constructor
  · rintro ⟨j, ⟨hj, hexpired⟩, rfl⟩
    exact ⟨j, ⟨hj, rfl⟩, hexpired⟩
  · rintro ⟨j, ⟨hj, rfl⟩, hexpired⟩
    exact ⟨j, ⟨hj, hexpired⟩, rfl⟩

theorem nodup_sweep (h : js.ids.Nodup) (now retention : Nat) :
    (js.sweep now retention).1.Nodup := by
  rw [sweep_fst]
  exact (List.filter_sublist.map _).nodup h

/-- Ending a job that is not running changes nothing. -/
theorem finish_finish (js : Jobs) (id : String) (now later : Nat) (state state' : JobState)
    (error error' : Option String) (hstate : state ≠ .running) :
    (js.finish now id state error).finish later id state' error' =
      js.finish now id state error := by
  unfold finish modify
  rw [List.map_map]
  congr 1
  apply List.map_congr_left
  intro j _
  by_cases hj : j.trainingId = id
  · by_cases hr : j.state = .running <;> simp [Job.finish, hj, hr, hstate]
  · simp [hj]

/-- To cancel again, whenever, is to be told the same. -/
theorem cancel_cancel (js : Jobs) (id : String) (now later : Nat) :
    (js.cancel now id).2.cancel later id = js.cancel now id := by
  unfold cancel
  dsimp only
  rw [finish_finish js id now later .cancelled .cancelled none none nofun]

theorem get?_finish (js : Jobs) (now : Nat) (i id : String) (state : JobState)
    (error : Option String) : (js.finish now i state error).get? id =
      if i = id then (js.get? id).map (·.finish now state error) else js.get? id :=
  get?_modify (trainingId_finish now state error) js i id

theorem cancel_fst_eq_none_iff : (js.cancel now id).1 = none ↔ js.get? id = none := by
  have hget := get?_finish js now id id .cancelled none
  rw [if_pos rfl] at hget
  exact (congrArg (· = none) hget).to_iff.trans Option.map_eq_none_iff

end Jobs

namespace JobStep

variable {js : Jobs} {id : String} {step : JobStep} {j : Job}

theorem nodup_ids_run (h : js.ids.Nodup) (now : Nat) (step : JobStep) :
    (step.run now js).ids.Nodup := by
  cases step with
  | start i project => exact Jobs.nodup_ids_start h i project
  | get i => exact h
  | sweep retention =>
    unfold Jobs.ids at *
    rw [run, Jobs.sweep_snd]
    exact (List.filter_sublist.map _).nodup h
  | record i status => exact (Jobs.ids_modify (Jobs.trainingId_record status) js i).symm ▸ h
  | cancel i | complete i | fail i e | timeOut i =>
    exact (Jobs.ids_modify (Jobs.trainingId_finish now _ _) js i).symm ▸ h

theorem get?_run (h : js.ids.Nodup) (now : Nat) (step : JobStep) (id : String) :
    (step.run now js).get? id = step.follow now id (js.get? id) := by
  cases step with
  | start i project => exact Jobs.get?_start js i id project
  | get i => exact Option.map_id'.symm
  | sweep retention => exact Jobs.get?_sweep h now retention id
  | record i status =>
    refine (Jobs.get?_modify (Jobs.trainingId_record status) js i id).trans ?_
    unfold follow
    cases js.get? id <;> by_cases hi : i = id <;> simp [change, ending?, recorded?, hi]
  | cancel i | complete i | fail i e | timeOut i =>
    refine (Jobs.get?_finish js now i id _ _).trans ?_
    unfold follow
    cases js.get? id <;> by_cases hi : i = id <;>
      simp [change, ending?, recorded?, hi, JobEnding.state, JobEnding.error]

theorem follow_none (now : Nat) (hs : step.starts id = false) : step.follow now id none = none := by
  cases step with
  | start i project =>
    have hi : i ≠ id := by simpa [starts] using hs
    simp [follow, hi]
  | _ => rfl

/-- A step ends a running job, or records its status, or leaves it. -/
theorem follow_of_running (now : Nat) (hs : step.starts id = false) (hj : j.state = .running)
    (hended : j.endedAt = none) : step.follow now id (some j) = some (match step.ending? id with
      | some e => { j with state := e.state, error := e.error, endedAt := some now }
      | none => { j with status := (step.recorded? id).or j.status }) := by
  obtain ⟨_, _, _, _, _, _⟩ := j
  subst hj hended
  cases step with
  | start i project =>
    have hi : i ≠ id := by simpa [starts] using hs
    simp [follow, ending?, recorded?, hi]
  | sweep retention => simp [follow, ending?, recorded?, Job.isExpired]
  | get i => rfl
  | record i status =>
    by_cases hi : i = id <;> simp [follow, change, ending?, recorded?, Job.record, hi]
  | cancel i | complete i | fail i e | timeOut i =>
    by_cases hi : i = id <;> simp [follow, change, ending?, recorded?, Job.finish, hi]

/-- Of a job that has ended, a step leaves all, or nothing when it sweeps it away. -/
theorem follow_of_ended (now : Nat) (hs : step.starts id = false) (hj : j.state ≠ .running) :
    (step.follow now id (some j) = some j ∧
      ∀ retention, step = .sweep retention → j.isExpired now retention = false) ∨
    step.follow now id (some j) = none ∧
      ∃ retention, step = .sweep retention ∧ j.isExpired now retention = true := by
  cases step with
  | start i project =>
    have hi : i ≠ id := by simpa [starts] using hs
    simp [follow, hi]
  | sweep retention =>
    cases hexpired : j.isExpired now retention <;> simp [follow, hexpired]
  | get i => exact .inl ⟨rfl, nofun⟩
  | record i status =>
    by_cases hi : i = id <;> simp [follow, change, ending?, recorded?, Job.record, hi, hj]
  | cancel i | complete i | fail i e | timeOut i =>
    by_cases hi : i = id <;> simp [follow, change, ending?, recorded?, Job.finish, hi, hj]

end JobStep

section History

variable {h before rest : JobHistory} {id : String} {j : Job} {job : Option Job}

theorem jobsAfter_concat (h : JobHistory) (s : Nat × JobStep) :
    jobsAfter (h ++ [s]) = s.2.run s.1 (jobsAfter h) := by
  unfold jobsAfter
  rw [List.foldl_append]
  rfl

theorem nodup_ids_jobsAfter (h : JobHistory) : (jobsAfter h).ids.Nodup := by
  induction h using List.reverseRecOn with
  | nil => exact List.nodup_nil
  | append_singleton h s ih =>
    rw [jobsAfter_concat]
    exact JobStep.nodup_ids_run ih s.1 s.2

theorem get?_jobsAfter_concat (h : JobHistory) (s : Nat × JobStep) (id : String) :
    (jobsAfter (h ++ [s])).get? id = s.2.follow s.1 id ((jobsAfter h).get? id) := by
  rw [jobsAfter_concat, JobStep.get?_run (nodup_ids_jobsAfter h)]

theorem lastStatus_concat (h : JobHistory) (s : Nat × JobStep) (id : String) :
    JobHistory.lastStatus (h ++ [s]) id = (s.2.recorded? id).or (h.lastStatus id) := by
  unfold JobHistory.lastStatus
  rw [List.filterMap_append]
  cases hs : s.2.recorded? id <;> simp [hs]

/-- What is told goes along with the job. -/
theorem Told.follow (ht : Told id h job) (now : Nat) (step : JobStep) :
    Told id (h ++ [(now, step)]) (step.follow now id job) := by
  cases hs : step.starts id with
  | true =>
    cases step with
    | start i project =>
      obtain rfl : i = id := by simpa [JobStep.starts] using hs
      rw [JobStep.follow, if_pos rfl]
      exact .running (List.forall_mem_nil _)
    | _ => cases hs
  | false =>
    have hmore : ∀ {l : JobHistory}, (∀ s ∈ l, s.2.starts id = false) →
        ∀ s ∈ l ++ [(now, step)], s.2.starts id = false := by
      intro l hl
      exact List.forall_mem_append.mpr ⟨hl, by simpa using hs⟩
    cases ht with
    | unknown hnever =>
      rw [JobStep.follow_none now hs]
      exact .unknown (hmore hnever)
    | running hsince =>
      rw [JobStep.follow_of_running now hs rfl rfl]
      cases he : step.ending? id with
      | some e => exact .ended hsince he (List.forall_mem_nil _) nofun
      | none =>
        rw [List.append_assoc, List.cons_append, ← lastStatus_concat _ (now, step)]
        exact .running (List.forall_mem_append.mpr ⟨hsince, by simpa using ⟨hs, he⟩⟩)
    | @ended _ since _ _ project u _ e hsince hend hlater hkept =>
      rw [List.append_assoc, List.cons_append]
      have hf := JobStep.follow_of_ended
        (j := ⟨id, project, e.state, since.lastStatus id, e.error, some u⟩) now hs
        e.state_ne_running
      rcases hf with ⟨hf, hsweep⟩ | ⟨hf, retention, rfl, hexpired⟩
      · rw [hf]
        refine .ended hsince hend (hmore hlater) ?_
        intro v retention hv
        rcases List.mem_append.mp hv with hv | hv
        · exact hkept v retention hv
        · obtain ⟨rfl, rfl⟩ := Prod.mk.inj (List.mem_singleton.mp hv)
          simpa [Job.isExpired] using hsweep retention rfl
      · rw [hf]
        exact .swept hsince hend (hmore hlater)
          (List.mem_append_right _ (List.mem_singleton_self _))
          (by simpa [Job.isExpired] using hexpired)
    | swept hsince hend hlater hswept hage =>
      rw [List.append_assoc, List.cons_append, JobStep.follow_none now hs]
      exact .swept hsince hend (hmore hlater) (List.mem_append_left _ hswept) hage

theorem told_get?_jobsAfter (h : JobHistory) (id : String) :
    Told id h ((jobsAfter h).get? id) := by
  induction h using List.reverseRecOn with
  | nil => exact .unknown nofun
  | append_singleton h s ih =>
    rw [get?_jobsAfter_concat]
    exact ih.follow s.1 s.2

/-- A job is running, or has ended in one of the ways in which jobs end. -/
theorem Told.running_or_ended (ht : Told id h (some j)) :
    (j.state = .running ∧ j.error = none ∧ j.endedAt = none) ∨
      ∃ (e : JobEnding) (u : Nat), j.state = e.state ∧ j.error = e.error ∧ j.endedAt = some u := by
  cases ht with
  | running => exact .inl ⟨rfl, rfl, rfl⟩
  | @ended _ _ _ _ _ u _ e => exact .inr ⟨e, u, rfl, rfl, rfl⟩

theorem Told.isSome_error_iff (ht : Told id h (some j)) :
    j.error.isSome = true ↔ j.state = .failed := by
  rcases ht.running_or_ended with ⟨hstate, herror, -⟩ | ⟨e, -, hstate, herror, -⟩
  · simp [hstate, herror]
  · rw [hstate, herror]
    exact e.isSome_error_iff

theorem Told.endedAt_of_running (ht : Told id h (some j)) (hj : j.state = .running) :
    j.endedAt = none := by
  rcases ht.running_or_ended with ⟨-, -, hended⟩ | ⟨e, -, hstate, -, -⟩
  · exact hended
  · exact absurd (hstate.symm.trans hj) e.state_ne_running

theorem Told.isExpired_iff (ht : Told id h (some j)) (now retention : Nat) :
    j.isExpired now retention = true ↔
      j.state ≠ .running ∧ ∃ u, j.endedAt = some u ∧ retention ≤ now - u := by
  unfold Job.isExpired
  rcases ht.running_or_ended with ⟨hstate, -, hended⟩ | ⟨e, u, hstate, -, hended⟩
  · simp [hstate, hended]
  · simp [hstate, hended, e.state_ne_running]

/-- Only a sweep takes a job away that has ended, and nothing changes it. -/
theorem get?_jobsAfter_append_of_ended (hj : (jobsAfter before).get? id = some j)
    (hended : j.state ≠ .running) (hrest : ∀ s ∈ rest, s.2.starts id = false) :
    (jobsAfter (before ++ rest)).get? id = some j ∨
      (jobsAfter (before ++ rest)).get? id = none ∧
        ∃ now retention, (now, .sweep retention) ∈ rest ∧ j.isExpired now retention = true := by
  induction rest using List.reverseRecOn with
  | nil =>
    rw [List.append_nil]
    exact .inl hj
  | append_singleton rest s ih =>
    obtain ⟨hrest, hs⟩ := List.forall_mem_append.mp hrest
    have hs : s.2.starts id = false := hs s (List.mem_singleton_self s)
    rw [← List.append_assoc, get?_jobsAfter_concat]
    rcases ih hrest with hkept | ⟨hgone, now, retention, hmem, hexpired⟩
    · rw [hkept]
      rcases JobStep.follow_of_ended s.1 hs hended with ⟨hf, -⟩ | ⟨hf, retention, he, hexpired⟩
      · exact .inl hf
      · refine .inr ⟨hf, s.1, retention, ?_, hexpired⟩
        rw [← he]
        exact List.mem_append_right _ (List.mem_singleton_self s)
    · rw [hgone]
      exact .inr ⟨JobStep.follow_none s.1 hs, now, retention, List.mem_append_left _ hmem, hexpired⟩

end History

/-- The last status that was recorded says that all is done. -/
def Job.StatusComplete (j : Job) : Prop :=
  ∃ status, j.status = some status ∧ status.isComplete = true

section Polling

variable {h : JobHistory} {tasks tasks' : List PollTask} {id : String} {now : Nat}
  {step : JobStep} {j : Job}

theorem exists_get?_of_concat (hs : step.starts id = false)
    (hj : (jobsAfter (h ++ [(now, step)])).get? id = some j) :
    ∃ i, (jobsAfter h).get? id = some i ∧ (i.state ≠ .running ∧ j = i ∨
      i.state = .running ∧ j = match step.ending? id with
        | some e => { i with state := e.state, error := e.error, endedAt := some now }
        | none => { i with status := (step.recorded? id).or i.status }) := by
  rw [get?_jobsAfter_concat] at hj
  have ht := told_get?_jobsAfter h id
  cases hi : (jobsAfter h).get? id with
  | none =>
    rw [hi, JobStep.follow_none now hs] at hj
    cases hj
  | some i =>
    rw [hi] at hj ht
    refine ⟨i, rfl, ?_⟩
    by_cases hrunning : i.state = .running
    · rw [JobStep.follow_of_running now hs hrunning (ht.endedAt_of_running hrunning)] at hj
      exact .inr ⟨hrunning, (Option.some.inj hj).symm⟩
    · rcases JobStep.follow_of_ended now hs hrunning with ⟨hf, -⟩ | ⟨hf, -⟩
      · exact .inl ⟨hrunning, (Option.some.inj (hf.symm.trans hj)).symm⟩
      · cases hf.symm.trans hj

/-- There are no more tasks for a job than it had starts. -/
theorem Performed.countP_tasks_le (hp : Performed h tasks) (id : String) :
    tasks.countP (·.id = id) ≤ h.countP (·.2.starts id) := by
  induction hp with
  | nil => exact Nat.le_refl 0
  | start now i project _ ih => simpa [List.countP_cons, JobStep.starts] using ih
  | get _ _ _ ih | cancel _ _ _ ih | sweep _ _ _ ih => simpa [JobStep.starts] using ih
  | record _ _ _ ih => simpa [List.countP_cons, JobStep.starts] using ih
  | complete _ _ ih | fail _ _ _ ih | timeOut _ _ ih =>
    simp only [List.countP_append, List.countP_cons, List.countP_nil, JobStep.starts] at ih ⊢
    omega
  | stop _ ih =>
    simp only [List.countP_append, List.countP_cons] at ih ⊢
    omega

/-- The only task for a job is the one that is done. -/
theorem done_of_countP_le {before after : List PollTask} {done : Bool}
    (hone : (before ++ ⟨id, false⟩ :: after).countP (·.id = id) ≤ 1)
    (hmem : ⟨id, true⟩ ∈ before ++ ⟨id, done⟩ :: after) : done = true := by
  simp only [List.countP_append, List.countP_cons, decide_true, if_true] at hone
  have hnone : ∀ {l : List PollTask}, l.countP (·.id = id) = 0 → ⟨id, true⟩ ∉ l := by
    intro l hl hmem
    exact absurd (List.countP_eq_zero.mp hl _ hmem) (by simp)
  rcases List.mem_append.mp hmem with hmem | hmem
  · exact absurd hmem (hnone (by omega))
  · rcases List.mem_cons.mp hmem with heq | hmem
    · exact (PollTask.mk.inj heq).2.symm
    · exact absurd hmem (hnone (by omega))

/-- A job is completed behind a complete status only if its task completes it, once it was told that
all is done, and if it is told so only when it is. -/
theorem statusComplete_of_step
    (ih : ∀ i, (jobsAfter h).get? id = some i →
      (i.state = .completed ∨ i.state = .running ∧ ⟨id, true⟩ ∈ tasks) → i.StatusComplete)
    (hs : step.starts id = false)
    (hcompletes : step.ending? id = some .completed → ⟨id, true⟩ ∈ tasks)
    (hrecords : ⟨id, true⟩ ∈ tasks' → (∃ status, step.recorded? id = some status ∧
      status.isComplete = true) ∨ step.recorded? id = none ∧ ⟨id, true⟩ ∈ tasks)
    (hj : (jobsAfter (h ++ [(now, step)])).get? id = some j)
    (hdone : j.state = .completed ∨ j.state = .running ∧ ⟨id, true⟩ ∈ tasks') :
    j.StatusComplete := by
  obtain ⟨i, hi, ⟨hended, rfl⟩ | ⟨hrunning, hstep⟩⟩ := exists_get?_of_concat hs hj
  · exact ih j hi (.inl (hdone.resolve_right fun hr => hended hr.1))
  · cases he : step.ending? id with
    | some e =>
      simp only [he] at hstep
      subst hstep
      have hcompleted : e.state = .completed :=
        hdone.resolve_right fun hr => e.state_ne_running hr.1
      have he' : step.ending? id = some .completed := by
        cases e with
        | completed => exact he
        | _ => cases hcompleted
      exact ih i hi (.inr ⟨hrunning, hcompletes he'⟩)
    | none =>
      simp only [he] at hstep
      subst hstep
      have hmem := (hdone.resolve_left (by simp [hrunning])).2
      rcases hrecords hmem with ⟨status, hrecorded, hcomplete⟩ | ⟨hnone, hmem⟩
      · exact ⟨status, by simp [hrecorded], hcomplete⟩
      · obtain ⟨status, hstatus, hcomplete⟩ := ih i hi (.inr ⟨hrunning, hmem⟩)
        exact ⟨status, by simp [hnone, hstatus], hcomplete⟩

/-- Of a job that was started once, its task was told that all is done before it completed it. -/
theorem Performed.statusComplete (hp : Performed h tasks) (hone : h.countP (·.2.starts id) ≤ 1)
    (hj : (jobsAfter h).get? id = some j)
    (hdone : j.state = .completed ∨ j.state = .running ∧ ⟨id, true⟩ ∈ tasks) :
    j.StatusComplete := by
  induction hp generalizing j with
  | nil => cases hj
  | @start h tasks now i project hp ih =>
    by_cases hi : i = id
    · -- there was no task for the job before
      subst hi
      rw [get?_jobsAfter_concat, JobStep.follow, if_pos rfl] at hj
      obtain rfl := Option.some.inj hj
      have hmem : ⟨i, true⟩ ∈ tasks := by simpa using hdone
      have htask : 0 < tasks.countP (·.id = i) := List.countP_pos_iff.mpr ⟨_, hmem, by simp⟩
      have hstarts := hp.countP_tasks_le i
      have hs : (JobStep.start i project).starts i = true := by simp [JobStep.starts]
      rw [List.countP_append, List.countP_singleton, if_pos hs] at hone
      omega
    · have hs : (JobStep.start i project).starts id = false := by simpa [JobStep.starts] using hi
      have hone : h.countP (·.2.starts id) ≤ 1 := by simpa [hs] using hone
      refine statusComplete_of_step (fun _ => ih hone) hs
        (by simp [JobStep.ending?]) ?_ hj hdone
      intro hmem
      exact .inr ⟨rfl, by simpa using hmem⟩
  | get _ _ hp ih | cancel _ _ hp ih | sweep _ _ hp ih =>
    refine statusComplete_of_step
      (fun _ => ih (by simpa [JobStep.starts] using hone))
      rfl ?_ ?_ hj hdone
    · intro he
      simp [JobStep.ending?] at he
    · intro hmem
      exact .inr ⟨rfl, hmem⟩
  | @record h before i after now status hp ih =>
    have hone : h.countP (·.2.starts id) ≤ 1 := by simpa [JobStep.starts] using hone
    have htasks := (hp.countP_tasks_le id).trans hone
    refine statusComplete_of_step (fun _ => ih hone) rfl
      (by simp [JobStep.ending?]) ?_ hj hdone
    intro hmem
    by_cases hi : i = id
    · subst hi
      have hdone : status.isComplete = true := done_of_countP_le htasks hmem
      exact .inl ⟨status, by simp [JobStep.recorded?], hdone⟩
    · refine .inr ⟨by simp [JobStep.recorded?, hi], ?_⟩
      simpa [Ne.symm hi] using hmem
  | @complete h before i after now hp ih =>
    refine statusComplete_of_step
      (fun _ => ih (by simpa [JobStep.starts] using hone))
      rfl ?_ ?_ hj hdone
    · intro he
      obtain rfl : i = id := by
        by_contra hi
        simp [JobStep.ending?, hi] at he
      simp
    · intro hmem
      exact .inr ⟨rfl, by grind⟩
  | fail _ _ hp ih | timeOut _ hp ih =>
    refine statusComplete_of_step
      (fun _ => ih (by simpa [JobStep.starts] using hone))
      rfl ?_ ?_ hj hdone
    · intro he
      simp [JobStep.ending?] at he
    · intro hmem
      exact .inr ⟨rfl, by grind⟩
  | stop hp ih =>
    exact ih hone hj (by grind)

end Polling

theorem Jobs.polled_eq_foldl (js : Jobs) (now : Nat) (id : String)
    (answer : Except ServiceError TrainingStatus) :
    js.polled now id answer =
      (JobStep.ofAnswer id answer).foldl (fun js step => step.run now js) js := by
  cases answer with
  | error e => rfl
  | ok status =>
    unfold Jobs.polled JobStep.ofAnswer
    cases hs : status.isComplete <;> simp [hs, JobStep.run]

/-- A sweep takes away what it names, and nothing else. -/
theorem get?_sweep_jobsAfter (h : JobHistory) (now retention : Nat) (id : String) :
    ((jobsAfter h).sweep now retention).2.get? id =
      if id ∈ ((jobsAfter h).sweep now retention).1 then none else (jobsAfter h).get? id := by
  have hids := nodup_ids_jobsAfter h
  simp only [Jobs.get?_sweep hids, Jobs.mem_sweep_iff hids]
  cases hj : (jobsAfter h).get? id with
  | none => simp
  | some j => cases hexpired : j.isExpired now retention <;> simp [hexpired]

theorem mem_sweep_jobsAfter_iff (h : JobHistory) (now retention : Nat) (id : String) :
    id ∈ ((jobsAfter h).sweep now retention).1 ↔ ∃ j u, (jobsAfter h).get? id = some j ∧
      j.state ≠ .running ∧ j.endedAt = some u ∧ retention ≤ now - u := by
  rw [Jobs.mem_sweep_iff (nodup_ids_jobsAfter h)]
  refine exists_congr fun j => ?_
  rw [exists_and_left]
  refine and_congr_right fun hj => ?_
  have ht := told_get?_jobsAfter h id
  rw [hj] at ht
  rw [ht.isExpired_iff, exists_and_left]

/-- Whatever the order of steps, and whatever the clock reads: what is told of a job goes by its
history; once it has ended, only another start or a sweep touches it; to cancel twice is to cancel
once; a sweep takes those that ended long enough ago; and a job that its only task completed had a
complete status. -/
theorem lifecycle_jobsAfter (h : JobHistory) :
    (∀ id, Told id h ((jobsAfter h).get? id)) ∧
    (∀ before rest id j, h = before ++ rest → (jobsAfter before).get? id = some j →
      j.state ≠ .running → (∀ s ∈ rest, s.2.starts id = false) →
      (jobsAfter h).get? id = some j ∨ (jobsAfter h).get? id = none ∧
        ∃ now retention, (now, .sweep retention) ∈ rest ∧ j.isExpired now retention = true) ∧
    (∀ id j, (jobsAfter h).get? id = some j → (j.error.isSome = true ↔ j.state = .failed)) ∧
    (∀ id now later, (((jobsAfter h).cancel now id).1 = none ↔ (jobsAfter h).get? id = none) ∧
      ((jobsAfter h).cancel now id).2.cancel later id = (jobsAfter h).cancel now id) ∧
    (∀ now retention, ((jobsAfter h).sweep now retention).1.Nodup ∧ ∀ id,
      (id ∈ ((jobsAfter h).sweep now retention).1 ↔ ∃ j u, (jobsAfter h).get? id = some j ∧
        j.state ≠ .running ∧ j.endedAt = some u ∧ retention ≤ now - u) ∧
      ((jobsAfter h).sweep now retention).2.get? id =
        if id ∈ ((jobsAfter h).sweep now retention).1 then none else (jobsAfter h).get? id) ∧
    (∀ tasks id j, Performed h tasks → h.countP (·.2.starts id) ≤ 1 →
      (jobsAfter h).get? id = some j → j.state = .completed →
      ∃ status, j.status = some status ∧ status.isComplete = true) ∧
    ∀ now id answer, (jobsAfter h).polled now id answer =
      (JobStep.ofAnswer id answer).foldl (fun js step => step.run now js) (jobsAfter h) := by
  refine ⟨told_get?_jobsAfter h, ?kept, ?error, ?cancel, ?sweep, ?completed,
    fun now id answer => (jobsAfter h).polled_eq_foldl now id answer⟩
  case kept =>
    rintro before rest id j rfl hj hended hrest
    exact get?_jobsAfter_append_of_ended hj hended hrest
  case error =>
    intro id j hj
    exact (hj ▸ told_get?_jobsAfter h id).isSome_error_iff
  case cancel =>
    intro id now later
    exact ⟨Jobs.cancel_fst_eq_none_iff, Jobs.cancel_cancel _ id now later⟩
  case sweep =>
    intro now retention
    exact ⟨Jobs.nodup_sweep (nodup_ids_jobsAfter h) now retention, fun id =>
      ⟨mem_sweep_jobsAfter_iff h now retention id, get?_sweep_jobsAfter h now retention id⟩⟩
  case completed =>
    intro tasks id j hp hone hj hcompleted
    exact hp.statusComplete hone hj (.inl hcompleted)

/-- One is cancelled between its last status and its completion, and swept; the other is kept. -/
theorem lifecycle_jobsAfter_cancelled_between :
    let done : TrainingStatus := { (default : TrainingStatus) with isComplete := true }
    let before : JobHistory := [(0, .start "a" ⟨1⟩), (1, .start "b" ⟨1⟩), (5, .record "a" default),
      (9, .record "a" done), (9, .record "b" done), (10, .cancel "a"), (11, .complete "a"),
      (12, .complete "b")]
    let rest : JobHistory := [(13, .cancel "b"), (20, .sweep 10)]
    let a : Job := { trainingId := "a", project := ⟨1⟩, state := .cancelled, status := some done,
                     endedAt := some 10 }
    let b : Job := { trainingId := "b", project := ⟨1⟩, state := .completed, status := some done,
                     endedAt := some 12 }
    ((jobsAfter before).get? "a" = some a ∧ Told "a" before (some a)) ∧
    (((jobsAfter before).get? "b" = some b ∧ b.state ≠ .running ∧
        ∀ s ∈ rest, s.2.starts "b" = false) ∧
      ((jobsAfter (before ++ rest)).get? "b" = some b ∨
        (jobsAfter (before ++ rest)).get? "b" = none ∧ ∃ now retention,
          (now, .sweep retention) ∈ rest ∧ b.isExpired now retention = true)) ∧
    ((jobsAfter (before ++ rest)).get? "b" = some b ∧
      (b.error.isSome = true ↔ b.state = .failed)) ∧
    (((jobsAfter before).sweep 20 10).1 = ["a"] ∧ a.state ≠ .running) ∧
    ((Performed (before ++ rest) [] ∧ (before ++ rest).countP (·.2.starts "b") ≤ 1 ∧
        b.state = .completed) ∧ ∃ status, b.status = some status ∧ status.isComplete = true) := by
  intro done before rest a b
  obtain ⟨htold, -, -, -, hsweep, -⟩ := lifecycle_jobsAfter before
  obtain ⟨-, hkept, herror, -, -, hcompleted, -⟩ := lifecycle_jobsAfter (before ++ rest)
  have ha : (jobsAfter before).get? "a" = some a := rfl
  have hb : (jobsAfter before).get? "b" = some b := rfl
  have hrest : ∀ s ∈ rest, s.2.starts "b" = false := by decide
  have hb' : (jobsAfter (before ++ rest)).get? "b" = some b := rfl
  have hswept : ((jobsAfter before).sweep 20 10).1 = ["a"] := rfl
  have hp : Performed (before ++ rest) [] :=
    let started := Performed.start 1 "b" ⟨1⟩ (.start 0 "a" ⟨1⟩ .nil)
    let told := @Performed.record _ [⟨"b", false⟩] "a" [] 5 default started
    let told := @Performed.record _ [⟨"b", false⟩] "a" [] 9 done told
    let told := @Performed.record _ [] "b" [⟨"a", true⟩] 9 done told
    let ended := @Performed.complete _ [⟨"b", true⟩] "a" [] 11 (.cancel 10 "a" told)
    let ended := @Performed.complete _ [] "b" [] 12 ended
    .sweep 20 10 (.cancel 13 "b" ended)
  have hone : (before ++ rest).countP (·.2.starts "b") ≤ 1 := by decide
  obtain ⟨j, u, hj, hstate, -⟩ := ((hsweep 20 10).2 "a").1.mp (hswept ▸ List.mem_singleton_self "a")
  obtain rfl : a = j := Option.some.inj (ha.symm.trans hj)
  exact ⟨⟨ha, ha ▸ htold "a"⟩,
    ⟨⟨hb, nofun, hrest⟩, hkept before rest "b" b rfl hb nofun hrest⟩, ⟨hb', herror "b" b hb'⟩,
    ⟨hswept, hstate⟩, ⟨hp, hone, rfl⟩, hcompleted [] "b" b hp hone hb' rfl⟩

end LayerGraph
