import Glean.Database.Types
import Glean.Database.WorkQueue
import Glean.Library.Machine

/-! The tasks that index a database (`Glean.Database.Work`, `Glean.Database.Work.Controller`). Each
event is one transaction; what it defers, such as starting a tailer, is left out.
-/

namespace Glean.Database.Indexing

inductive Executor where
  | workQueue
  | external
  | manual
  /-- A value that the server does not know. -/
  | unknown (value : Int)

/-- `Recipe`; a number of parcels that is not positive counts as none. -/
structure Recipe where
  dependencies : List TaskName
  parcels : Nat
  retries : Int
  heartbeat : Int
  executor : Executor
  settings : List (String × String)

inductive ParcelState where
  | waiting (retries : Nat)
  | running (retries : Nat) (handle : Handle)
  | finished

def ParcelState.isFinished : ParcelState → Bool
  | .finished => true
  | _ => false

inductive TaskState where
  | waiting
  | running (parcels : List ParcelState)
  | finished

structure Task where
  recipe : Recipe
  state : TaskState

/-- `Tasks`, with one task for each name. -/
abbrev Tasks := List (TaskName × Task)

/-- `Completeness` of a database that has not been finalized. -/
inductive Completeness where
  | incomplete (tasks : Tasks)
  | finalizing
  | broken

/-- `Thrift.Work`, for one database. -/
structure Work where
  task : TaskName
  index : Nat
  handle : Handle

/-- The metadata, the work queue and the heartbeats. -/
structure State where
  completeness : Completeness
  queue : WorkQueue
  /-- `Heartbeats`, without the times. -/
  heartbeats : Handle → Option Work
  /-- The last tasks that the database had; it has none when it is finalizing or broken. -/
  lastTasks : Tasks

inductive Controller where
  | workQueue
  | tailer
  | externalBinary
  | manual
  | fail
  deriving DecidableEq

def getController (recipe : Recipe) : Controller :=
  match recipe.executor with
  | .workQueue => .workQueue
  | .external =>
      if (recipe.settings.lookup "category").isSome then .tailer else .externalBinary
  | .manual => .manual
  | .unknown _ => .fail

/-- The handle that the settings give. -/
def Recipe.handle (recipe : Recipe) : Handle := (recipe.settings.lookup "handle").getD ""

/-- `startParcel`, which throws if there is no command. -/
def startParcel (recipe : Recipe) : Option ParcelState :=
  if (recipe.settings.lookup "command").isSome then some (.running 0 "") else none

/-- The parcels of a task that is scheduled, or `none` for a `FailedTaskError`. -/
def scheduleTask (recipe : Recipe) : Option (List ParcelState) :=
  match getController recipe with
  | .workQueue => some (List.replicate recipe.parcels (.waiting 0))
  | .tailer => some [.running 0 recipe.handle]
  | .externalBinary => (List.replicate recipe.parcels ()).mapM (fun _ => startParcel recipe)
  | .manual => some [.running 0 recipe.handle]
  | .fail => none

/-- The queue after `scheduleTask`. -/
def enqueueTask (queue : WorkQueue) (name : TaskName) (recipe : Recipe) : WorkQueue :=
  match getController recipe with
  | .workQueue => queue.insertWorkQueue name recipe.parcels
  | _ => queue

/-- Enter all parcels that are waiting into the queue again. -/
def enqueueWaiting (queue : WorkQueue) (name : TaskName) (parcels : List ParcelState) : WorkQueue :=
  parcels.zipIdx.foldl
    (fun queue (parcel, index) =>
      match parcel with
      | .waiting _ => queue.writeWorkQueue name index
      | _ => queue)
    queue

/-- The queue after `resumeTask`, or `none` for a `FailedTaskError`. -/
def resumeTask (queue : WorkQueue) (name : TaskName) (recipe : Recipe) (parcels : List ParcelState)
    : Option WorkQueue :=
  match getController recipe with
  | .workQueue => some (enqueueWaiting queue name parcels)
  | .tailer => some queue
  | .externalBinary =>
      parcels.foldlM
        (fun queue parcel =>
          match parcel with
          | .running _ _ => (startParcel recipe).map (fun _ => queue)
          | _ => some queue)
        queue
  | .manual => some queue
  | .fail => none

def taskComplete (task : Task) : Bool :=
  match task.state with
  | .finished => true
  | _ => false

def Tasks.complete (tasks : Tasks) (name : TaskName) : Bool :=
  ((tasks.lookup name).map taskComplete).getD false

def Tasks.ready (tasks : Tasks) (task : Task) : Bool :=
  match task.state with
  | .waiting => task.recipe.dependencies.all tasks.complete
  | _ => false

def schedule (tasks : Tasks) (entry : TaskName × Task) : Option (TaskName × Task) :=
  if tasks.ready entry.2 then
    (scheduleTask entry.2.recipe).map (fun parcels => (entry.1, { entry.2 with state := .running parcels }))
  else
    some entry

/-- The queue after all tasks that are ready have been scheduled. -/
def enqueueReady (tasks : Tasks) (queue : WorkQueue) : WorkQueue :=
  tasks.foldl
    (fun queue (name, task) => if tasks.ready task then enqueueTask queue name task.recipe else queue)
    queue

/-- `HashMap.insert` for a task that is there. -/
def insertTask (tasks : Tasks) (name : TaskName) (task : Task) : Tasks :=
  tasks.map (fun entry => if entry.1 = name then (name, task) else entry)

/-- `ParcelInfo`; an index that is out of bounds is an error in the state of the parcel only. -/
structure ParcelInfo where
  tasks : Tasks
  task : Task
  parcels : List ParcelState

namespace State

/-- `scheduleTasks`; a `FailedTaskError` takes back what was queued. -/
def scheduleTasks (state : State) (tasks : Tasks) : State :=
  if tasks.all (fun entry => taskComplete entry.2) then
    { state with completeness := .finalizing, lastTasks := tasks }
  else
    match tasks.mapM (schedule tasks) with
    | some scheduled =>
        { state with
          completeness := .incomplete scheduled
          queue := enqueueReady tasks state.queue
          lastTasks := scheduled }
    | none => { state with completeness := .broken, lastTasks := tasks }

/-- `failTask`, which does not clean up the work queue. -/
def failTask (state : State) : State := { state with completeness := .broken }

/-- `parcelInfo`, or `none` for `AbortWork`. -/
def parcelInfo (state : State) (name : TaskName) : Option ParcelInfo :=
  match state.completeness with
  | .incomplete tasks =>
      match tasks.lookup name with
      | some task =>
          match task.state with
          | .running parcels => some ⟨tasks, task, parcels⟩
          | _ => none
      | none => none
  | _ => none

/-- `updateParcel`; it throws if the database is to be finalized while `writesQueued`. -/
def updateParcel (state : State) (name : TaskName) (index : Nat) (info : ParcelInfo)
    (parcel : ParcelState) (writesQueued : Bool) : Option State :=
  let parcels := info.parcels.set index parcel
  let finished := parcels.all ParcelState.isFinished
  let tasks := insertTask info.tasks name
    { info.task with state := if finished then .finished else .running parcels }
  let updated :=
    if finished then
      state.scheduleTasks tasks
    else
      { state with completeness := .incomplete tasks, lastTasks := tasks }
  match updated.completeness with
  | .finalizing => if writesQueued then none else some updated
  | _ => some updated

/-- `runningParcelInfo`, with the retries of the parcel, or `none` for `AbortWork`. -/
def runningParcelInfo (state : State) (work : Work) : Option (ParcelInfo × Nat) :=
  match state.parcelInfo work.task with
  | some info =>
      match info.parcels[work.index]? with
      | some (.running retries handle) => if work.handle = handle then some (info, retries) else none
      | _ => none
  | none => none

def expectHeartbeat (state : State) (work : Work) : State :=
  match state.heartbeats work.handle with
  | some _ => state
  | none =>
      { state with
        heartbeats := fun handle => if handle = work.handle then some work else state.heartbeats handle }

def deleteHeartbeat (state : State) (handle : Handle) : State :=
  { state with
    heartbeats := fun other => if other = handle then none else state.heartbeats other }

def listenForHeartbeat (state : State) (recipe : Recipe) (work : Work) : State :=
  if recipe.heartbeat = 0 then state else state.expectHeartbeat work

def writeWorkQueue (state : State) (work : Work) : State :=
  { state with queue := state.queue.writeWorkQueue work.task work.index }

end State

/-- Without an outcome the work counts as failed. -/
inductive Outcome where
  | success
  | failure

inductive Event where
  /-- `reads` are the queues that are read, with the previous parcel of the worker if one near it is
  preferred, and `handle` is a new UUID.
  -/
  | getWork (reads : List (TaskName × Option Nat)) (handle : Handle)
  | workCancelled (work : Work)
  | workHeartbeat (work : Work)
  | workFinished (work : Work) (outcome : Outcome) (writesQueued : Bool)
  /-- The heartbeats that have timed out, in any order. -/
  | reapHeartbeats (expired : List Handle)
  /-- The server restarts, with an empty work queue and no heartbeats. -/
  | resumeWork

namespace State

/-- Read parcels until one is waiting. With none there is no work available, and an index that is out
of bounds throws: the transaction changes nothing.
-/
def grab (state : State)
    : List (TaskName × Option Nat) → Option (State × TaskName × Nat × ParcelInfo × Nat)
  | [] => none
  | (name, near) :: rest =>
      match state.queue.readWorkQueue name near with
      | none => none
      | some (index, queue) =>
          match state.parcelInfo name with
          | some info =>
              match info.parcels[index]? with
              | some (.waiting retries) => some ({ state with queue }, name, index, info, retries)
              | some _ => grab { state with queue } rest
              | none => none
          | none => grab { state with queue } rest

def getWork (state : State) (reads : List (TaskName × Option Nat)) (handle : Handle) : State :=
  match state.grab reads with
  | some (grabbed, name, index, info, retries) =>
      match grabbed.updateParcel name index info (.running retries handle) false with
      | some updated => updated.listenForHeartbeat info.task.recipe ⟨name, index, handle⟩
      | none => state
  | none => state

/-- Enter a running parcel into the work queue again. -/
def requeue (state : State) (work : Work) (info : ParcelInfo) (retries : Nat) : State :=
  match state.updateParcel work.task work.index info (.waiting retries) false with
  | some updated => updated.writeWorkQueue work
  | none => state

def workCancelled (state : State) (work : Work) : State :=
  match state.runningParcelInfo work with
  | some (info, retries) => (state.deleteHeartbeat work.handle).requeue work info retries
  | none => state

def workHeartbeat (state : State) (work : Work) : State :=
  match state.runningParcelInfo work with
  | some (info, _) =>
      if info.task.recipe.heartbeat = 0 then state else state.expectHeartbeat work
  | none => state

def workFinished (state : State) (work : Work) (outcome : Outcome) (writesQueued : Bool) : State :=
  match state.runningParcelInfo work with
  | some (info, _) =>
      let deleted := state.deleteHeartbeat work.handle
      match outcome with
      | .success =>
          (deleted.updateParcel work.task work.index info .finished writesQueued).getD state
      | .failure => deleted.failTask
  | none => state

/-- What `reapHeartbeats` does for one heartbeat that has timed out. -/
def reap (state : State) (work : Work) : State :=
  match state.runningParcelInfo work with
  | some (info, retries) =>
      if (retries : Int) < info.task.recipe.retries then
        state.requeue work info (retries + 1)
      else
        state.failTask
  | none => state

def reapHeartbeats (state : State) (expired : List Handle) : State :=
  let checked :=
    { state with
      heartbeats := fun handle => if handle ∈ expired then none else state.heartbeats handle }
  (expired.filterMap state.heartbeats).foldl reap checked

/-- `resumeHeartbeats` -/
def resumeHeartbeats (state : State) (name : TaskName) (recipe : Recipe) (parcels : List ParcelState)
    : State :=
  parcels.zipIdx.foldl
    (fun state (parcel, index) =>
      match parcel with
      | .running _ handle => state.listenForHeartbeat recipe ⟨name, index, handle⟩
      | _ => state)
    state

/-- Resume one task, if it is running. -/
def resume (state : State) (entry : TaskName × Task) : Option State :=
  match entry.2.state with
  | .running parcels =>
      (resumeTask state.queue entry.1 entry.2.recipe parcels).map (fun queue =>
        { state with queue }.resumeHeartbeats entry.1 entry.2.recipe parcels)
  | _ => some state

def resumeWork (state : State) : State :=
  let fresh := { state with queue := .empty, heartbeats := fun _ => none }
  match state.completeness with
  | .incomplete tasks => (tasks.foldlM resume fresh).getD fresh.failTask
  | _ => fresh

end State

/-- An operation that throws changes nothing. -/
def step (state : State) : Event → Option State
  | .getWork reads handle => some (state.getWork reads handle)
  | .workCancelled work => some (state.workCancelled work)
  | .workHeartbeat work => some (state.workHeartbeat work)
  | .workFinished work outcome writesQueued => some (state.workFinished work outcome writesQueued)
  | .reapHeartbeats expired => some (state.reapHeartbeats expired)
  | .resumeWork => some state.resumeWork

/-- `tasksFromRecipes` -/
def tasksFromRecipes (recipes : List (TaskName × Recipe)) : Tasks :=
  recipes.map (fun (name, recipe) => (name, ⟨recipe, .waiting⟩))

/-- A database that has just been created. -/
def created (recipes : List (TaskName × Recipe)) : State :=
  let tasks := tasksFromRecipes recipes
  State.scheduleTasks ⟨.incomplete tasks, .empty, fun _ => none, tasks⟩ tasks

end Glean.Database.Indexing
