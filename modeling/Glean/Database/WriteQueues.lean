import Mathlib.Logic.Function.Basic
import Mathlib.Algebra.GroupWithZero.Nat
import Glean.Library.Machine

/-! The write queues of all databases and the threads that process them
(`Glean.Database.Writes`, `Glean.Database.Close`). Each event is one transaction.
-/

namespace Glean.Database.WriteQueues

/-- What a job does: a write with its size, or a checkpoint. -/
inductive Task where
  | write (size : Nat)
  | checkpoint
  deriving DecidableEq

/-- `WriteJob`, with a number that grows in the order in which jobs are enqueued. -/
structure WriteJob where
  number : Nat
  task : Task
  deriving DecidableEq

namespace WriteJob

def isWrite (job : WriteJob) : Bool :=
  match job.task with
  | .write _ => true
  | .checkpoint => false

def size (job : WriteJob) : Nat :=
  match job.task with
  | .write size => size
  | .checkpoint => 0

end WriteJob

/-- `WriteQueue` -/
structure WriteQueue where
  jobs : List WriteJob
  active : Int
  count : Int
  size : Int

def WriteQueue.new : WriteQueue := ⟨[], 0, 0, 0⟩

/-- A writer thread. -/
inductive Writer where
  | waiting
  /-- It took a job from a queue and executes it. -/
  | executing (queue : Nat) (job : WriteJob)

/-- `WriteQueues` with the queues by name, the writer threads, and what has happened so far: for
each queue the jobs in the order in which they were enqueued and started, the numbers of those
completed and of those discarded by `deleteWriteQueues`; and the queues that was applied to.
-/
structure State where
  queues : Nat → WriteQueue
  writeQueues : List Nat
  writeQueuesSize : Int
  writers : List Writer
  nextJob : Nat
  enqueued : Nat → List WriteJob
  started : Nat → List WriteJob
  completed : Nat → List Nat
  discarded : Nat → List Nat
  deleted : List Nat

namespace State

def setQueue (state : State) (name : Nat) (queue : WriteQueue) : State :=
  { state with queues := Function.update state.queues name queue }

def isEmpty (state : State) (name : Nat) : Bool :=
  (state.queues name).jobs.isEmpty

/-- `addToWriteQueue` -/
def addToWriteQueue (state : State) (name : Nat) (task : Task) : State :=
  let queue := state.queues name
  let job := ⟨state.nextJob, task⟩
  { state.setQueue name { queue with jobs := queue.jobs ++ [job] } with
    writeQueues := if queue.jobs.isEmpty then state.writeQueues ++ [name] else state.writeQueues
    nextJob := state.nextJob + 1
    enqueued := Function.update state.enqueued name (state.enqueued name ++ [job]) }

end State

def mb : Int := 1024 * 1024

def roundUp (unit size : Int) : Int := (size + unit - 1) / unit

/-- What `dequeueLoop` takes from the round-robin: the queue it stopped at, the queues with a
checkpoint that is not ready before it, and the rest. It retries at the end.
-/
def dequeueLoop (queues : Nat → WriteQueue) : List Nat → Option (List Nat × Nat × List Nat)
  | [] => none
  | name :: rest =>
      match (queues name).jobs with
      | [] => some ([], name, rest)
      | job :: _ =>
          if job.isWrite ∨ (queues name).active = 0 then
            some ([], name, rest)
          else do
            let (skipped, found, rest) ← dequeueLoop queues rest
            return (name :: skipped, found, rest)

/-- A thread takes the first job of a queue. The queue and those that were passed go to the back
of the round-robin if they have jobs left.
-/
def State.take (state : State) (thread name : Nat) (job : WriteJob) (jobs : List WriteJob)
    (skipped rest : List Nat) : State :=
  let queue := state.queues name
  let after := state.setQueue name
    { queue with jobs, active := if job.isWrite then queue.active + 1 else queue.active }
  { after with
    writeQueues := rest ++ (skipped ++ [name]).filter (fun other => !after.isEmpty other)
    writers := state.writers.set thread (.executing name job)
    started := Function.update state.started name (state.started name ++ [job]) }

/-- `dequeue` for a thread. A queue without jobs is dropped from the round-robin. -/
def dequeue (state : State) (thread : Nat) : Option State := do
  let (skipped, name, rest) ← dequeueLoop state.queues state.writeQueues
  match (state.queues name).jobs with
  | [] =>
      return { state with
        writeQueues := rest ++ skipped.filter (fun other => !state.isEmpty other) }
  | job :: jobs => return state.take thread name job jobs skipped rest

inductive Event where
  | enqueueWrite (queue : Nat) (size : Nat)
  | enqueueCheckpoint (queue : Nat)
  | dequeue (thread : Nat)
  /-- The job of a thread has succeeded or failed. -/
  | done (thread : Nat) (ok : Bool)
  /-- The transaction of `closeDatabase`. -/
  | closeDatabase (queue : Nat)

/-- The limit is `config_db_write_queue_limit_mb`. -/
def step (limit : Int) (state : State) : Event → Option State
  | .enqueueWrite name size =>
      let newSize := state.writeQueuesSize + size
      if roundUp mb newSize > limit then
        some state
      else
        let added := state.addToWriteQueue name (.write size)
        let queue := added.queues name
        some { added.setQueue name
            { queue with count := queue.count + 1, size := queue.size + size } with
          writeQueuesSize := newSize }
  | .enqueueCheckpoint name => some (state.addToWriteQueue name .checkpoint)
  | .dequeue thread =>
      match state.writers[thread]? with
      | some .waiting => WriteQueues.dequeue state thread
      | _ => none
  | .done thread _ =>
      match state.writers[thread]? with
      | some (.executing name job) =>
          let finished := { state with
            writers := state.writers.set thread .waiting
            completed := Function.update state.completed name (job.number :: state.completed name) }
          match job.task with
          | .write size =>
              let queue := state.queues name
              some { finished.setQueue name
                  ⟨queue.jobs, queue.active - 1, queue.count - 1, queue.size - size⟩ with
                writeQueuesSize := state.writeQueuesSize - size }
          | .checkpoint => some finished
      | _ => none
  | .closeDatabase name =>
      let queue := state.queues name
      -- `deleteWriteQueues` leaves the size of the queue, which `isIdle` compares with zero
      if queue.size = 0 then
        some { state.setQueue name { queue with jobs := [] } with
          writeQueuesSize := state.writeQueuesSize - queue.size
          discarded := Function.update state.discarded name
            (queue.jobs.map WriteJob.number ++ state.discarded name)
          deleted := name :: state.deleted }
      else
        none

/-- Some threads, and no jobs. -/
structure Starts (state : State) : Prop where
  queues : ∀ name, state.queues name = .new
  writeQueues : state.writeQueues = []
  writeQueuesSize : state.writeQueuesSize = 0
  writers : ∀ writer ∈ state.writers, writer = .waiting
  enqueued : ∀ name, state.enqueued name = []
  started : ∀ name, state.started name = []
  completed : ∀ name, state.completed name = []
  discarded : ∀ name, state.discarded name = []
  deleted : state.deleted = []

end Glean.Database.WriteQueues
