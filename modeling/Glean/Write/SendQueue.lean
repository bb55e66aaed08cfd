import Mathlib.Data.List.Nodup
import Glean.Library.Machine

/-! Send queues (`Glean.Write.SendQueue`): the threads that send batches and wait for the server to
commit them. Each event is one transaction or one action of a thread.
-/

namespace Glean.Write.SendQueue

/-- `QueueStatus` -/
inductive QueueStatus where
  | open
  | closed
  | failed
  deriving DecidableEq

/-- A batch and its callback. -/
structure Item where
  id : Nat
  size : Nat
  deriving DecidableEq

/-- A thread in `sendFromQueue` or `pollFromWaitQueue`. -/
inductive Stage where
  /-- Before it reads from its queue. -/
  | reading
  /-- A sender has read a batch, and sends it. -/
  | sending (item : Item)
  /-- The batch is in the wait queue, and the sender has not left its bracket. -/
  | handedOver (item : Item)
  /-- The poller has read a batch, and waits for the server. -/
  | waiting (item : Item)
  /-- The callback has the result, and the poller has not left its bracket. -/
  | reported (item : Item)
  /-- An exception was thrown; the handler comes next. -/
  | failing (item : Item)
  | stopped
  deriving DecidableEq

inductive Role where
  | sender
  | poller
  deriving DecidableEq

structure Thread where
  role : Role
  stage : Stage
  deriving DecidableEq

/-- `SendQueue` with its threads, the batches `writeSendQueue` has accepted, those that the server
has committed, and the calls of callbacks: a batch, and whether it was called with `Right`.
-/
structure State where
  status : QueueStatus
  outQueue : List Item
  waitQueue : List Item
  memory : Int
  count : Int
  threads : List Thread
  accepted : List Item
  committed : List Nat
  results : List (Nat × Bool)

/-- `sqMaxMemory` and `sqMaxCount` -/
structure Limits where
  maxMemory : Int
  maxCount : Int

namespace State

def setStage (state : State) (index : Nat) (thread : Thread) (stage : Stage) : State :=
  { state with threads := state.threads.set index { thread with stage } }

def call (state : State) (item : Item) (ok : Bool) : State :=
  { state with results := (item.id, ok) :: state.results }

/-- `failSendQueue` -/
def fail (state : State) : State :=
  { state with
    status := .failed
    waitQueue := []
    outQueue := []
    results := (state.waitQueue ++ state.outQueue).map (fun item => (item.id, false))
      ++ state.results }

/-- `readSendQueue`, which may retry; there is no batch in a queue that is closed. -/
def readSendQueue (state : State) : Option (State × Option Item) :=
  match state.outQueue with
  | item :: rest =>
      some ({ state with outQueue := rest, memory := state.memory - item.size }, some item)
  | [] => if state.status = .closed then some (state, none) else none

/-- `readWaitQueue` -/
def readWaitQueue (state : State) : Option (State × Option Item) :=
  if state.status = .closed ∧ state.count = 0 then
    some (state, none)
  else
    match state.waitQueue with
    | item :: rest => some ({ state with waitQueue := rest }, some item)
    | [] => none

end State

inductive Event where
  | writeSendQueue (size : Nat)
  | closeSendQueue
  /-- A thread reads from its queue. -/
  | read (thread : Nat)
  /-- A sender has sent its batch, and adds it to the wait queue. -/
  | handOver (thread : Nat)
  /-- The server commits a batch. -/
  | commit (id : Nat)
  /-- The poller calls the callback with what `waitBatch` has returned. -/
  | report (thread : Nat)
  /-- A thread leaves its bracket, and goes on. -/
  | leave (thread : Nat)
  /-- An exception in the bracket: of the backend, of the log callback, or a cancellation. -/
  | raise (thread : Nat)
  /-- The transaction of the handler. -/
  | fail (thread : Nat)
  /-- A thread is cancelled before it has read a batch. -/
  | cancel (thread : Nat)

def step (limits : Limits) (state : State) : Event → Option State
  | .writeSendQueue size =>
      if state.status = .open ∧ ¬ (state.memory > limits.maxMemory ∨ state.count > limits.maxCount)
      then
        let item := ⟨state.accepted.length, size⟩
        some { state with
          outQueue := state.outQueue ++ [item]
          memory := state.memory + size
          count := state.count + 1
          accepted := state.accepted ++ [item] }
      else
        none
  | .closeSendQueue =>
      match state.status with
      | .open => some { state with status := .closed }
      | .closed | .failed => some state
  | .read index =>
      match state.threads[index]? with
      | some ⟨role, .reading⟩ =>
          if state.status = .failed then
            some (state.setStage index ⟨role, .reading⟩ .stopped)
          else
            match role with
            | .sender => do
                let (after, item) ← state.readSendQueue
                match item with
                | some item => return after.setStage index ⟨role, .reading⟩ (.sending item)
                | none => return after.setStage index ⟨role, .reading⟩ .stopped
            | .poller => do
                let (after, item) ← state.readWaitQueue
                match item with
                | some item => return after.setStage index ⟨role, .reading⟩ (.waiting item)
                | none => return after.setStage index ⟨role, .reading⟩ .stopped
      | _ => none
  | .handOver index =>
      match state.threads[index]? with
      | some ⟨role, .sending item⟩ =>
          some { state.setStage index ⟨role, .sending item⟩ (.handedOver item) with
            waitQueue := state.waitQueue ++ [item] }
      | _ => none
  | .commit id => some { state with committed := id :: state.committed }
  | .report index =>
      match state.threads[index]? with
      | some ⟨role, .waiting item⟩ =>
          if item.id ∈ state.committed then
            some { (state.setStage index ⟨role, .waiting item⟩ (.reported item)).call item true with
              count := state.count - 1 }
          else
            none
      | _ => none
  | .leave index =>
      match state.threads[index]? with
      | some ⟨role, .handedOver item⟩ =>
          some (state.setStage index ⟨role, .handedOver item⟩ .reading)
      | some ⟨role, .reported item⟩ => some (state.setStage index ⟨role, .reported item⟩ .reading)
      | _ => none
  | .raise index =>
      match state.threads[index]? with
      | some ⟨role, .sending item⟩ =>
          some (state.setStage index ⟨role, .sending item⟩ (.failing item))
      | some ⟨role, .handedOver item⟩ =>
          some (state.setStage index ⟨role, .handedOver item⟩ (.failing item))
      | some ⟨role, .waiting item⟩ =>
          some (state.setStage index ⟨role, .waiting item⟩ (.failing item))
      | some ⟨role, .reported item⟩ =>
          some (state.setStage index ⟨role, .reported item⟩ (.failing item))
      | _ => none
  | .fail index =>
      match state.threads[index]? with
      | some ⟨role, .failing item⟩ =>
          some ((state.setStage index ⟨role, .failing item⟩ .stopped).call item false).fail
      | _ => none
  | .cancel index =>
      match state.threads[index]? with
      | some ⟨role, .reading⟩ => some (state.setStage index ⟨role, .reading⟩ .stopped)
      | _ => none

/-- `withSendQueue`: one poller, some senders, and no batches. -/
structure Starts (state : State) : Prop where
  status : state.status = .open
  outQueue : state.outQueue = []
  waitQueue : state.waitQueue = []
  memory : state.memory = 0
  count : state.count = 0
  threads : ∃ senders, state.threads = ⟨.poller, .reading⟩ :: List.replicate senders ⟨.sender, .reading⟩
  accepted : state.accepted = []
  results : state.results = []

end Glean.Write.SendQueue
