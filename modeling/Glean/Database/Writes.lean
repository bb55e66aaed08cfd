import Mathlib.Logic.Function.Basic
import Glean.Database.Types
import Glean.Library.Machine

/-! Writing to one database while it is opened, closed and finalized (`Glean.Database.Open`,
`Glean.Database.Writes`, `Glean.Database.Work`). Each event is one transaction or one action of
a thread.
-/

namespace Glean.Database.Writes

/-- A job of a write queue. The size of a write is that of its facts. -/
inductive WriteJob where
  | write (size : Nat)
  | checkpoint

def WriteJob.size : WriteJob → Nat
  | .write size => size
  | .checkpoint => 0

/-- `WriteQueue` -/
structure WriteQueue where
  jobs : List WriteJob
  active : Nat
  size : Nat

def WriteQueue.empty : WriteQueue := ⟨[], 0, 0⟩

/-- `DBState`. A queue is named by a number; `opening` has the mode its opener was given. -/
inductive DBState where
  | opening (mode : Mode)
  | open (writing : Option Nat)
  | closing
  | closed
  deriving DecidableEq

/-- A thread in `withOpenDatabase`, which has acquired the database. -/
inductive Stage where
  | acquired
  /-- It has started an opener and waits for the result. -/
  | waiting
  | opened (writing : Option Nat)
  deriving DecidableEq

inductive Thread where
  /-- `enqueueWrite` or `enqueueCheckpoint` -/
  | enqueuer (job : WriteJob) (stage : Stage)
  /-- A writer thread with a job of a queue; it acquires the database for itself. -/
  | writer (queue size : Nat) (stage : Option Stage)
  /-- The writer thread has executed the job. -/
  | done (queue size : Nat)
  /-- Any other use of the database. -/
  | reader (stage : Stage)
  | over

namespace Thread

/-- Whether the thread counts in `dbUsers`. -/
def holds : Thread → Bool
  | .enqueuer _ _ => true
  | .writer _ _ stage => stage.isSome
  | .done _ _ => false
  | .reader _ => true
  | .over => false

def stage? : Thread → Option Stage
  | .enqueuer _ stage => some stage
  | .writer _ _ stage => stage
  | .reader stage => some stage
  | .done _ _ | .over => none

def setStage (stage : Stage) : Thread → Thread
  | .enqueuer job _ => .enqueuer job stage
  | .writer queue size _ => .writer queue size (some stage)
  | .reader _ => .reader stage
  | thread => thread

/-- The thread leaves `withOpenDatabase`. -/
def release : Thread → Thread
  | .writer queue size _ => .done queue size
  | .done queue size => .done queue size
  | _ => .over

/-- The opener a thread waits for has finished. -/
def wake (result : Option (Option Nat)) (thread : Thread) : Thread :=
  if thread.stage? = some .waiting then
    match result with
    | some writing => thread.setStage (.opened writing)
    | none => thread.release
  else
    thread

end Thread

/-- A database and the threads that use it. `finalized` tells whether it became finalizing or
complete since it was created or unfinished last.
-/
structure State where
  envReadOnly : Bool
  completeness : Completeness
  finalized : Bool
  dbState : DBState
  queues : Nat → WriteQueue
  nextQueue : Nat
  threads : List Thread

namespace State

def setThread (state : State) (index : Nat) (thread : Thread) : State :=
  { state with threads := state.threads.set index thread }

def setQueue (state : State) (name : Nat) (queue : WriteQueue) : State :=
  { state with queues := Function.update state.queues name queue }

/-- `isIdle` for the only user: no other thread holds the database and its queue has no
bytes left.
-/
def Idle (state : State) (writing : Option Nat) : Prop :=
  state.threads.all (fun thread => !thread.holds)
    ∧ ∀ name, writing = some name → (state.queues name).size = 0

instance (state : State) (writing : Option Nat) : Decidable (state.Idle writing) :=
  match writing with
  | none => decidable_of_iff (state.threads.all (fun thread => !thread.holds)) (by simp [Idle])
  | some name =>
      decidable_of_iff (state.threads.all (fun thread => !thread.holds)
        ∧ (state.queues name).size = 0) (by simp [Idle])

/-- `makeReadOnly`; it throws if there are queued writes or writes in progress. -/
def makeReadOnly (state : State) : Option State :=
  match state.dbState with
  | .open (some name) =>
      if (state.queues name).active = 0 ∧ (state.queues name).jobs.isEmpty then
        some { state with dbState := .open none }
      else
        none
  | _ => some state

end State

inductive Event where
  /-- A thread acquires the database to enqueue a job, or for something else. -/
  | request (job : WriteJob)
  | read
  /-- The transaction of `withOpenDatabase` that reads the state of the database. -/
  | openDatabase (thread : Nat)
  /-- The opener finishes, or fails. -/
  | opened
  | openFails
  /-- A thread leaves `withOpenDatabase`, by an exception or at the end. -/
  | release (thread : Nat)
  | enqueue (thread : Nat)
  | dequeue (queue : Nat)
  | acquire (thread : Nat)
  /-- `writeDatabase` commits the facts of a job. -/
  | commit (thread : Nat)
  | jobDone (thread : Nat)
  | close
  | closed
  /-- `workFinished` for a parcel; `last` is whether all tasks are finished with it. -/
  | workFinished (last : Bool)
  /-- The last transaction of `doFinalize`. -/
  | finalizeFinished
  | unfinishDatabase
  /-- A failed task, derivation or completion. -/
  | markBroken (task reason : String)

def step (state : State) : Event → Option State
  | .request job => some { state with threads := state.threads ++ [.enqueuer job .acquired] }
  | .read => some { state with threads := state.threads ++ [.reader .acquired] }
  | .openDatabase index =>
      match state.threads[index]? with
      | some thread =>
          if thread.stage? = some .acquired then
            match state.dbState with
            | .open writing => some (state.setThread index (thread.setStage (.opened writing)))
            | .closed =>
                some { state.setThread index (thread.setStage .waiting) with
                  dbState := .opening (openMode state.envReadOnly state.completeness) }
            | .opening _ | .closing => none
          else
            none
      | none => none
  | .opened =>
      match state.dbState with
      | .opening .readOnly =>
          some { state with
            dbState := .open none
            threads := state.threads.map (Thread.wake (some none)) }
      | .opening _ =>
          -- a queue of a new name is empty
          some { state with
            dbState := .open (some state.nextQueue)
            nextQueue := state.nextQueue + 1
            threads := state.threads.map (Thread.wake (some (some state.nextQueue))) }
      | _ => none
  | .openFails =>
      match state.dbState with
      | .opening _ =>
          some { state with
            dbState := .closed
            threads := state.threads.map (Thread.wake none) }
      | _ => none
  | .release index =>
      match state.threads[index]? with
      | some thread => some (state.setThread index thread.release)
      | none => none
  | .enqueue index =>
      match state.threads[index]? with
      | some (.enqueuer job (.opened (some name))) =>
          let queue := state.queues name
          some ((state.setThread index .over).setQueue name
            ⟨queue.jobs ++ [job], queue.active, queue.size + job.size⟩)
      | _ => none
  | .dequeue name =>
      let queue := state.queues name
      match queue.jobs with
      | [] => none
      | .write size :: rest =>
          some { state.setQueue name ⟨rest, queue.active + 1, queue.size⟩ with
            threads := state.threads ++ [.writer name size none] }
      | .checkpoint :: rest =>
          if queue.active = 0 then
            some (state.setQueue name { queue with jobs := rest })
          else
            none
  | .acquire index =>
      match state.threads[index]? with
      | some (.writer name size none) =>
          some (state.setThread index (.writer name size (some .acquired)))
      | _ => none
  | .commit index =>
      match state.threads[index]? with
      | some (.writer name size (some (.opened (some _)))) =>
          some (state.setThread index (.done name size))
      | _ => none
  | .jobDone index =>
      match state.threads[index]? with
      | some (.done name size) =>
          let queue := state.queues name
          some ((state.setThread index .over).setQueue name
            ⟨queue.jobs, queue.active - 1, queue.size - size⟩)
      | _ => none
  | .close =>
      match state.dbState with
      | .open writing =>
          if state.Idle writing then
            -- `closeDatabase` flushes the queue
            match writing with
            | some name =>
                some { state.setQueue name { state.queues name with jobs := [] } with
                  dbState := .closing }
            | none => some { state with dbState := .closing }
          else
            none
      | _ => none
  | .closed =>
      match state.dbState with
      | .closing => some { state with dbState := .closed }
      | _ => none
  | .workFinished last =>
      if state.completeness = .incomplete then
        if last then
          { state with completeness := .finalizing, finalized := true }.makeReadOnly
        else
          some state
      else
        none
  | .finalizeFinished => some { state with completeness := .complete, finalized := true }
  | .unfinishDatabase =>
      match state.completeness with
      | .incomplete => some state
      | .finalizing | .complete =>
          some { state with completeness := .incomplete, finalized := false }
      | .broken _ _ => none
  | .markBroken task reason => some { state with completeness := .broken task reason }

/-- The event enqueues a write or commits a fact. A write without bytes has no facts. -/
def Accepts (state : State) : Event → Prop
  | .enqueue index =>
      ∃ size name, state.threads[index]? = some (.enqueuer (.write size) (.opened (some name)))
  | .commit index =>
      ∃ name size writing, 0 < size
        ∧ state.threads[index]? = some (.writer name size (some (.opened (some writing))))
  | _ => False

/-- A database when the server starts or when it is created. -/
structure Starts (state : State) : Prop where
  dbState : state.dbState = .closed ∨ (state.dbState = .opening .create ∧ state.finalized = false)
  queues : ∀ name, state.queues name = .empty
  threads : state.threads = []
  finalized
    : state.finalized = true
      ↔ state.completeness = .finalizing ∨ state.completeness = .complete

end Glean.Database.Writes
