import Glean.Library.Threads
import Glean.Write.SendQueue

/-! How often callbacks of a send queue are called, over all interleavings of clients, senders and
the poller, with failures and cancellations.
-/

namespace Glean.Write.SendQueue

open Threads

variable {limits : Limits} {state after : State}

/-- The steps that do not go wrong: no exception reaches a thread that has passed its batch on or
has reported it, but has not left its bracket; a sender does not pass a batch on when the queue
has failed; and a thread is cancelled between two batches only if the queue has failed, or is
closed and has no batches.
-/
def Sound (state : State) : Event → Prop
  | .raise index =>
      ∀ thread, state.threads[index]? = some thread → ∀ item,
        thread.stage ≠ .handedOver item ∧ thread.stage ≠ .reported item
  | .handOver _ => state.status ≠ .failed
  | .cancel _ => state.status = .failed ∨ (state.status = .closed ∧ state.count = 0)
  | _ => True

/-- Whether a thread has a batch that is in no queue, and whose callback has to be called. -/
def Thread.held (id : Nat) (thread : Thread) : Nat :=
  match thread.stage with
  | .sending item | .waiting item | .failing item => if item.id = id then 1 else 0
  | _ => 0

def waits (id : Nat) (items : List Item) : Nat :=
  items.countP (fun item => item.id = id)

def calls (id : Nat) (results : List (Nat × Bool)) : Nat :=
  results.countP (fun result => result.1 = id)

/-- The batches without a call. -/
def State.unreported (state : State) : List Nat :=
  (state.accepted.map Item.id).filter (fun id => id ∉ state.results.map Prod.fst)

/-- Every accepted batch is in one queue, with one thread, or its callback was called once. -/
structure Placed (state : State) : Prop where
  ids : state.accepted.map Item.id = List.range state.accepted.length
  placed
    : ∀ id, waits id state.outQueue + waits id state.waitQueue + total (Thread.held id) state.threads
        + calls id state.results = if id < state.accepted.length then 1 else 0

structure Inv (state : State) : Prop where
  placed : Placed state
  drained : state.status = .failed → state.outQueue = [] ∧ state.waitQueue = []
  counted : state.status ≠ .failed → state.count = state.unreported.length
  memory
    : state.status ≠ .failed → state.memory = ((state.outQueue.map Item.size).sum : Nat)
  pollers
    : ∀ thread ∈ state.threads, thread.role = .poller → thread.stage = .stopped →
        state.status = .failed ∨ (state.status = .closed ∧ state.count = 0)
  hasPoller : ∃ thread ∈ state.threads, thread.role = .poller
  committed : ∀ id, (id, true) ∈ state.results → id ∈ state.committed

@[simp]
theorem waits_nil (id : Nat) : waits id [] = 0 := rfl

theorem waits_append (id : Nat) (left right : List Item)
    : waits id (left ++ right) = waits id left + waits id right :=
  List.countP_append

theorem waits_cons (id : Nat) (item : Item) (items : List Item)
    : waits id (item :: items) = (if item.id = id then 1 else 0) + waits id items := by
  rw [waits, List.countP_cons, Nat.add_comm]
  simp [waits]

theorem calls_cons (id : Nat) (item : Item) (ok : Bool) (results : List (Nat × Bool))
    : calls id ((item.id, ok) :: results) = (if item.id = id then 1 else 0) + calls id results := by
  rw [calls, List.countP_cons, Nat.add_comm]
  simp [calls]

theorem calls_map (id : Nat) (items : List Item) (results : List (Nat × Bool))
    : calls id (items.map (fun item => (item.id, false)) ++ results)
      = waits id items + calls id results := by
  rw [calls, List.countP_append, List.countP_map]
  rfl

theorem calls_of_mem {id : Nat} {results : List (Nat × Bool)} (member : id ∈ results.map Prod.fst)
    : 0 < calls id results := by
  obtain ⟨result, isResult, rfl⟩ := List.mem_map.mp member
  exact List.countP_pos_iff.mpr ⟨result, isResult, by simp⟩

namespace Placed

theorem nodup (placed : Placed state) : (state.accepted.map Item.id).Nodup := by
  rw [placed.ids]
  exact List.nodup_range

/-- A batch that is somewhere has been accepted, and its callback has not been called. -/
theorem unreported (placed : Placed state) {id : Nat}
    (somewhere : 0 < waits id state.outQueue + waits id state.waitQueue
      + total (Thread.held id) state.threads)
    : id ∈ state.unreported := by
  have once := placed.placed id
  split at once
  next inside =>
    rw [State.unreported, List.mem_filter, placed.ids, List.mem_range]
    refine ⟨inside, ?_⟩
    simp only [decide_eq_true_eq]
    intro called
    have positive := calls_of_mem called
    omega
  next => omega

/-- Reporting a batch leaves one batch less without a call. -/
theorem length_unreported (placed : Placed state) {item : Item} {ok : Bool}
    (isUnreported : item.id ∈ state.unreported)
    (isAccepted : after.accepted = state.accepted)
    (isResults : after.results = (item.id, ok) :: state.results)
    : after.unreported.length + 1 = state.unreported.length := by
  have erased : after.unreported = state.unreported.erase item.id := by
    have nodup : state.unreported.Nodup := placed.nodup.filter _
    rw [nodup.erase_eq_filter, State.unreported, State.unreported, isAccepted, isResults,
      List.filter_filter]
    refine List.filter_congr (fun id _ => ?_)
    by_cases same : id = item.id
    · simp [same]
    · simp [same, bne_iff_ne]
  rw [erased, List.length_erase_of_mem isUnreported]
  have positive := List.length_pos_of_mem isUnreported
  omega

end Placed

theorem Starts.inv (starts : Starts state) : Inv state := by
  obtain ⟨senders, threads⟩ := starts.threads
  have reading : ∀ thread ∈ state.threads, thread.stage = .reading := by
    intro thread member
    rw [threads] at member
    rcases List.mem_cons.mp member with rfl | isSender
    · rfl
    · rw [(List.mem_replicate.mp isSender).2]
  have nothing (id : Nat) : total (Thread.held id) state.threads = 0 := by
    refine total_eq_zero (fun thread member => ?_)
    rw [Thread.held, reading thread member]
  refine ⟨⟨?_, fun id => ?_⟩, fun _ => ⟨starts.outQueue, starts.waitQueue⟩, fun _ => ?_, fun _ => ?_, ?_,
    ?_, ?_⟩
  · simp [starts.accepted]
  · simp [starts.outQueue, starts.waitQueue, starts.results, starts.accepted, nothing, calls]
  · simp [starts.count, State.unreported, starts.accepted]
  · simp [starts.memory, starts.outQueue]
  · intro thread member _ isStopped
    rw [reading thread member] at isStopped
    cases isStopped
  · exact ⟨⟨.poller, .reading⟩, by simp [threads], rfl⟩
  · simp [starts.results]

namespace Inv

/-- A thread moves a batch, or none. -/
theorem move {index : Nat} {thread : Thread} {stage : Stage} (inv : Inv state)
    (isThread : state.threads[index]? = some thread)
    (isThreads : after.threads = state.threads.set index { thread with stage })
    (isStatus : after.status = state.status) (isCount : after.count = state.count)
    (isAccepted : after.accepted = state.accepted) (isResults : after.results = state.results)
    (isCommitted : after.committed = state.committed)
    (moved : ∀ id, waits id after.outQueue + waits id after.waitQueue
        + Thread.held id { thread with stage }
      = waits id state.outQueue + waits id state.waitQueue + thread.held id)
    (drained : state.status = .failed → after.outQueue = [] ∧ after.waitQueue = [])
    (memory : state.status ≠ .failed → after.memory = ((after.outQueue.map Item.size).sum : Nat))
    (poller : thread.role = .poller → stage = .stopped →
      state.status = .failed ∨ (state.status = .closed ∧ state.count = 0))
    : Inv after := by
  refine ⟨⟨isAccepted ▸ inv.placed.ids, fun id => ?_⟩, ?_, ?_, ?_, ?_, ?_, ?_⟩
  · have before := inv.placed.placed id
    have changed := total_set (Thread.held id) isThread { thread with stage }
    have same := moved id
    rw [isThreads, isAccepted, isResults]
    omega
  · rw [isStatus]
    exact drained
  · rw [isStatus, isCount, State.unreported, isAccepted, isResults]
    exact inv.counted
  · rw [isStatus]
    exact memory
  · rw [isThreads, isStatus, isCount]
    exact forall_set inv.pollers poller
  · obtain ⟨known, member, isPoller⟩ := inv.hasPoller
    rw [isThreads]
    rcases mem_set_or { thread with stage } isThread member with kept | rfl
    · exact ⟨known, kept, isPoller⟩
    · exact ⟨_, List.mem_set (List.getElem?_eq_some_iff.mp isThread).1 _, isPoller⟩
  · rw [isResults, isCommitted]
    exact inv.committed

/-- A thread goes on with its batch, or stops without one. -/
theorem setStage {index : Nat} {thread : Thread} {stage : Stage} (inv : Inv state)
    (isThread : state.threads[index]? = some thread)
    (held : ∀ id, Thread.held id { thread with stage } = thread.held id)
    (poller : thread.role = .poller → stage = .stopped →
      state.status = .failed ∨ (state.status = .closed ∧ state.count = 0))
    : Inv (state.setStage index thread stage) := by
  refine inv.move isThread rfl rfl rfl rfl rfl rfl (fun id => ?_) inv.drained inv.memory poller
  rw [held id]
  rfl

theorem readSender {index : Nat} {item : Item} {rest : List Item} (inv : Inv state)
    (isThread : state.threads[index]? = some ⟨.sender, .reading⟩)
    (isOpen : state.status ≠ .failed) (isNext : state.outQueue = item :: rest)
    : Inv ({ state with outQueue := rest, memory := state.memory - item.size }.setStage index
        ⟨.sender, .reading⟩ (.sending item)) := by
  refine inv.move isThread rfl rfl rfl rfl rfl rfl (fun id => ?_) ?_ (fun _ => ?_) ?_
  · change waits id rest + waits id state.waitQueue + (if item.id = id then 1 else 0)
      = waits id state.outQueue + waits id state.waitQueue + 0
    rw [isNext, waits_cons]
    omega
  · exact fun isFailed => absurd isFailed isOpen
  · have before := inv.memory isOpen
    rw [isNext, List.map_cons, List.sum_cons] at before
    change state.memory - item.size = (((rest.map Item.size).sum : Nat) : Int)
    omega
  · rintro ⟨⟩

theorem readPoller {index : Nat} {item : Item} {rest : List Item} (inv : Inv state)
    (isThread : state.threads[index]? = some ⟨.poller, .reading⟩)
    (isOpen : state.status ≠ .failed) (isNext : state.waitQueue = item :: rest)
    : Inv ({ state with waitQueue := rest }.setStage index ⟨.poller, .reading⟩ (.waiting item)) := by
  refine inv.move isThread rfl rfl rfl rfl rfl rfl (fun id => ?_) ?_ inv.memory ?_
  · change waits id state.outQueue + waits id rest + (if item.id = id then 1 else 0)
      = waits id state.outQueue + waits id state.waitQueue + 0
    rw [isNext, waits_cons]
    omega
  · exact fun isFailed => absurd isFailed isOpen
  · rintro - ⟨⟩

theorem read {index : Nat} (inv : Inv state)
    (next : SendQueue.step limits state (.read index) = some after)
    : Inv after := by
  simp only [SendQueue.step] at next
  split at next
  next role isThread =>
    split at next
    next isFailed =>
      cases next
      exact inv.setStage isThread (fun _ => rfl) (fun _ _ => .inl isFailed)
    next isOpen =>
      cases role with
      | sender =>
          obtain ⟨⟨middle, item⟩, isRead, isResult⟩ := Option.bind_eq_some_iff.mp next
          rw [State.readSendQueue] at isRead
          split at isRead
          next head rest isNext =>
            cases isRead
            cases isResult
            exact inv.readSender isThread isOpen isNext
          next =>
            split at isRead
            next =>
              cases isRead
              cases isResult
              exact inv.setStage isThread (fun _ => rfl) (by rintro ⟨⟩)
            next => cases isRead
      | poller =>
          obtain ⟨⟨middle, item⟩, isRead, isResult⟩ := Option.bind_eq_some_iff.mp next
          rw [State.readWaitQueue] at isRead
          split at isRead
          next isOver =>
            cases isRead
            cases isResult
            exact inv.setStage isThread (fun _ => rfl) (fun _ _ => .inr isOver)
          next =>
            split at isRead
            next head rest isNext =>
              cases isRead
              cases isResult
              exact inv.readPoller isThread isOpen isNext
            next => cases isRead
  next => cases next

theorem handOver {index : Nat} (inv : Inv state) (isOpen : state.status ≠ .failed)
    (next : SendQueue.step limits state (.handOver index) = some after)
    : Inv after := by
  simp only [SendQueue.step] at next
  split at next
  next role item isThread =>
    cases next
    refine inv.move isThread rfl rfl rfl rfl rfl rfl (fun id => ?_) ?_ inv.memory ?_
    · change waits id state.outQueue + waits id (state.waitQueue ++ [item]) + 0
        = waits id state.outQueue + waits id state.waitQueue + (if item.id = id then 1 else 0)
      rw [waits_append, waits_cons, waits_nil]
      omega
    · exact fun isFailed => absurd isFailed isOpen
    · rintro - ⟨⟩
  next => cases next

/-- The poller reports a batch that the server has committed. -/
theorem reports {index : Nat} {role : Role} {item : Item} (inv : Inv state)
    (isThread : state.threads[index]? = some ⟨role, .waiting item⟩)
    (hasCommitted : item.id ∈ state.committed)
    (isThreads : after.threads = state.threads.set index ⟨role, .reported item⟩)
    (isStatus : after.status = state.status) (isCount : after.count = state.count - 1)
    (isAccepted : after.accepted = state.accepted)
    (isResults : after.results = (item.id, true) :: state.results)
    (isCommitted : after.committed = state.committed) (isMemory : after.memory = state.memory)
    (isOut : after.outQueue = state.outQueue) (isWait : after.waitQueue = state.waitQueue)
    : Inv after := by
  have isHeld : Thread.held item.id ⟨role, .waiting item⟩ = 1 := if_pos rfl
  have isUnreported : item.id ∈ state.unreported := by
    refine inv.placed.unreported ?_
    have held := weight_le_total (Thread.held item.id) (List.mem_of_getElem? isThread)
    omega
  refine ⟨⟨isAccepted ▸ inv.placed.ids, fun id => ?_⟩, ?_, fun isOpen => ?_, ?_, ?_, ?_, ?_⟩
  · have before := inv.placed.placed id
    have moved := total_set (Thread.held id) isThread ⟨role, .reported item⟩
    change _ + (if item.id = id then 1 else 0) = _ + 0 at moved
    rw [isOut, isWait, isThreads, isResults, isAccepted, calls_cons]
    omega
  · rw [isStatus, isOut, isWait]
    exact inv.drained
  · have before := inv.counted (isStatus ▸ isOpen)
    have fewer := inv.placed.length_unreported isUnreported isAccepted isResults
    omega
  · rw [isStatus, isMemory, isOut]
    exact inv.memory
  · rw [isThreads, isStatus, isCount]
    refine forall_set (fun thread member isPoller isStopped => ?_) ?_
    · rcases inv.pollers thread member isPoller isStopped with isFailed | ⟨isClosed, isZero⟩
      · exact .inl isFailed
      · -- a batch that is waited for is counted
        have counted := inv.counted (by rw [isClosed]; simp)
        have positive := List.length_pos_of_mem isUnreported
        omega
    · rintro - ⟨⟩
  · obtain ⟨known, member, isPoller⟩ := inv.hasPoller
    rw [isThreads]
    rcases mem_set_or ⟨role, .reported item⟩ isThread member with kept | rfl
    · exact ⟨known, kept, isPoller⟩
    · exact ⟨_, List.mem_set (List.getElem?_eq_some_iff.mp isThread).1 _, isPoller⟩
  · rw [isResults, isCommitted]
    intro id member
    rcases List.mem_cons.mp member with same | old
    · cases same
      exact hasCommitted
    · exact inv.committed id old

theorem report {index : Nat} (inv : Inv state)
    (next : SendQueue.step limits state (.report index) = some after)
    : Inv after := by
  simp only [SendQueue.step] at next
  split at next
  next role item isThread =>
    split at next
    next hasCommitted =>
      cases next
      exact inv.reports isThread hasCommitted rfl rfl rfl rfl rfl rfl rfl rfl rfl
    next => cases next
  next => cases next

/-- The handler calls the callback of its batch and those of all batches in the queues. -/
theorem fails {index : Nat} {role : Role} {item : Item} (inv : Inv state)
    (isThread : state.threads[index]? = some ⟨role, .failing item⟩)
    : Inv ((state.setStage index ⟨role, .failing item⟩ .stopped).call item false).fail := by
  refine ⟨⟨inv.placed.ids, fun id => ?_⟩, fun _ => ⟨rfl, rfl⟩, ?_, ?_, fun _ _ _ _ => .inl rfl, ?_, ?_⟩
  · have before := inv.placed.placed id
    have moved := total_set (Thread.held id) isThread ⟨role, .stopped⟩
    change _ + (if item.id = id then 1 else 0) = _ + 0 at moved
    change waits id [] + waits id [] + total (Thread.held id) (state.threads.set index ⟨role, .stopped⟩)
      + calls id ((state.waitQueue ++ state.outQueue).map (fun item => (item.id, false))
        ++ (item.id, false) :: state.results) = if id < state.accepted.length then 1 else 0
    rw [calls_map, calls_cons, waits_append, waits_nil]
    omega
  · exact fun isOpen => absurd rfl isOpen
  · exact fun isOpen => absurd rfl isOpen
  · obtain ⟨known, member, isPoller⟩ := inv.hasPoller
    rcases mem_set_or ⟨role, .stopped⟩ isThread member with kept | rfl
    · exact ⟨known, kept, isPoller⟩
    · exact ⟨_, List.mem_set (List.getElem?_eq_some_iff.mp isThread).1 _, isPoller⟩
  · intro id member
    rcases List.mem_append.mp member with flushed | own
    · obtain ⟨_, -, same⟩ := List.mem_map.mp flushed
      cases same
    · rcases List.mem_cons.mp own with same | old
      · cases same
      · exact inv.committed id old

theorem writeSendQueue {size : Nat} (inv : Inv state)
    (next : SendQueue.step limits state (.writeSendQueue size) = some after)
    : Inv after := by
  simp only [SendQueue.step] at next
  split at next
  next isAccepted =>
    obtain ⟨isOpen, -⟩ := isAccepted
    cases next
    have notFailed : state.status ≠ .failed := by rw [isOpen]; simp
    have isNew : state.accepted.length ∉ state.results.map Prod.fst := by
      intro called
      have positive := calls_of_mem called
      have before := inv.placed.placed state.accepted.length
      rw [if_neg (Nat.lt_irrefl _)] at before
      omega
    refine ⟨⟨?_, fun id => ?_⟩, ?_, fun _ => ?_, fun _ => ?_, ?_, inv.hasPoller, inv.committed⟩
    · simp [inv.placed.ids, List.range_succ]
    · have before := inv.placed.placed id
      simp only [waits_append, waits_cons, waits_nil, List.length_append, List.length_singleton]
      split_ifs at before ⊢ <;> omega
    · exact fun isFailed => absurd isFailed notFailed
    · have before := inv.counted notFailed
      have grows : ((state.accepted ++ [Item.mk state.accepted.length size]).map Item.id).filter
          (fun id => id ∉ state.results.map Prod.fst)
          = state.unreported ++ [state.accepted.length] := by
        rw [List.map_append, List.filter_append, State.unreported]
        congr 1
        exact List.filter_eq_self.mpr (by simpa using isNew)
      have longer := congrArg List.length grows
      rw [List.length_append, List.length_singleton] at longer
      dsimp only [State.unreported] at before longer ⊢
      omega
    · have before := inv.memory notFailed
      simp [before]
    · intro thread member isPoller isStopped
      rcases inv.pollers thread member isPoller isStopped with isFailed | ⟨isClosed, -⟩
      · exact absurd isFailed notFailed
      · rw [isOpen] at isClosed
        cases isClosed
  next => cases next

theorem closeSendQueue (inv : Inv state)
    (next : SendQueue.step limits state .closeSendQueue = some after)
    : Inv after := by
  simp only [SendQueue.step] at next
  split at next
  next isOpen =>
    cases next
    have notFailed : state.status ≠ .failed := by rw [isOpen]; simp
    refine ⟨⟨inv.placed.ids, inv.placed.placed⟩, by simp, fun _ => inv.counted notFailed, fun _ => inv.memory notFailed, ?_,
      inv.hasPoller, inv.committed⟩
    intro thread member isPoller isStopped
    rcases inv.pollers thread member isPoller isStopped with isFailed | ⟨isClosed, -⟩
    · exact absurd isFailed notFailed
    · rw [isOpen] at isClosed
      cases isClosed
  next =>
    cases next
    exact inv
  next =>
    cases next
    exact inv

/-- Every step keeps the invariant, if it is sound. -/
theorem step {event : Event} (inv : Inv state) (sound : Sound state event)
    (next : SendQueue.step limits state event = some after)
    : Inv after := by
  cases event with
  | writeSendQueue => exact inv.writeSendQueue next
  | closeSendQueue => exact inv.closeSendQueue next
  | read => exact inv.read next
  | handOver => exact inv.handOver sound next
  | commit id =>
      cases next
      exact { inv with
        placed := ⟨inv.placed.ids, inv.placed.placed⟩
        committed := fun other member => List.mem_cons_of_mem _ (inv.committed other member) }
  | report => exact inv.report next
  | leave index =>
      simp only [SendQueue.step] at next
      split at next
      next isThread =>
        cases next
        exact inv.setStage isThread (fun _ => rfl) (by rintro - ⟨⟩)
      next isThread =>
        cases next
        exact inv.setStage isThread (fun _ => rfl) (by rintro - ⟨⟩)
      next => cases next
  | raise index =>
      simp only [SendQueue.step] at next
      split at next
      next isThread =>
        cases next
        exact inv.setStage isThread (fun _ => rfl) (by rintro - ⟨⟩)
      next item isThread => exact absurd rfl (sound _ isThread item).1
      next isThread =>
        cases next
        exact inv.setStage isThread (fun _ => rfl) (by rintro - ⟨⟩)
      next item isThread => exact absurd rfl (sound _ isThread item).2
      next => cases next
  | fail index =>
      simp only [SendQueue.step] at next
      split at next
      next isThread =>
        cases next
        exact inv.fails isThread
      next => cases next
  | cancel index =>
      simp only [SendQueue.step] at next
      split at next
      next isThread =>
        cases next
        exact inv.setStage isThread (fun _ => rfl) (fun _ _ => sound)
      next => cases next

end Inv

/-- Every callback is called once at most, and has been called when the queue is closed or has
failed and all its threads have stopped. It gets `Right` only for a batch that was committed.
While the queue is open, its counters count the batches without a call and the bytes in the out
queue.
-/
structure Delivers (state : State) : Prop where
  atMostOnce : ∀ id, calls id state.results ≤ 1
  called
    : state.status ≠ .open → (∀ thread ∈ state.threads, thread.stage = .stopped) →
        ∀ item ∈ state.accepted, calls item.id state.results = 1
  committed : ∀ id, (id, true) ∈ state.results → id ∈ state.committed
  count : state.status = .open → state.count = state.unreported.length
  memory : state.status = .open → state.memory = ((state.outQueue.map Item.size).sum : Nat)

namespace Inv

theorem calls_le_one (inv : Inv state) (id : Nat) : calls id state.results ≤ 1 := by
  have once := inv.placed.placed id
  split at once <;> omega

/-- When all threads have stopped, no batch is left. -/
theorem called (inv : Inv state)
    (stopped : ∀ thread ∈ state.threads, thread.stage = .stopped) {item : Item}
    (isAccepted : item ∈ state.accepted)
    : calls item.id state.results = 1 := by
  have inside : item.id < state.accepted.length := by
    have listed : item.id ∈ state.accepted.map Item.id := List.mem_map_of_mem isAccepted
    rw [inv.placed.ids] at listed
    exact List.mem_range.mp listed
  have once := inv.placed.placed item.id
  rw [if_pos inside] at once
  have nothing : total (Thread.held item.id) state.threads = 0 := by
    refine total_eq_zero (fun thread member => ?_)
    rw [Thread.held, stopped thread member]
  obtain ⟨poller, member, isPoller⟩ := inv.hasPoller
  rcases inv.pollers poller member isPoller (stopped poller member) with isFailed | ⟨isClosed, isZero⟩
  · obtain ⟨noOut, noWait⟩ := inv.drained isFailed
    rw [noOut, noWait, waits_nil] at once
    omega
  · by_contra notCalled
    have isUnreported : item.id ∈ state.unreported := inv.placed.unreported (by omega)
    have counted := inv.counted (by rw [isClosed]; simp)
    have positive := List.length_pos_of_mem isUnreported
    omega

theorem delivers (inv : Inv state) : Delivers state where
  atMostOnce := inv.calls_le_one
  called := fun _ stopped _ isAccepted => inv.called stopped isAccepted
  committed := inv.committed
  count := fun isOpen => inv.counted (by rw [isOpen]; simp)
  memory := fun isOpen => inv.memory (by rw [isOpen]; simp)

end Inv

/-- In every run with sound steps, callbacks are called as they should be. -/
theorem sendQueue_delivers (run : Machine.Run (step limits) Sound Starts state) : Delivers state := by
  have inv : Inv state :=
    run.invariant (fun _ => Starts.inv) (fun _ _ _ inv sound next => inv.step sound next)
  exact inv.delivers

/-- A queue with one sender. -/
def oneSender : State where
  status := .open
  outQueue := []
  waitQueue := []
  memory := 0
  count := 0
  threads := [⟨.poller, .reading⟩, ⟨.sender, .reading⟩]
  accepted := []
  committed := []
  results := []

theorem starts_oneSender : Starts oneSender :=
  ⟨rfl, rfl, rfl, rfl, rfl, ⟨1, rfl⟩, rfl, rfl⟩

/-- A batch that is written, sent, committed and reported before the queue is closed. -/
theorem sendQueue_delivers_oneBatch
    : ∃ state, Machine.Run (step ⟨100, 10⟩) Sound Starts state ∧ state.results = [(0, true)]
        ∧ Delivers state := by
  have start : Machine.Run (step ⟨100, 10⟩) Sound Starts oneSender := .start starts_oneSender
  have sound : Machine.SoundEvents (step ⟨100, 10⟩) Sound oneSender
      [.writeSendQueue 5, .read 1, .handOver 1, .leave 1, .read 0, .commit 0, .report 0, .leave 0,
        .closeSendQueue, .read 0, .read 1] :=
    ⟨trivial, trivial, by simp [Sound, oneSender, State.setStage], trivial, trivial, trivial, trivial,
      trivial, trivial, trivial, trivial, trivial⟩
  obtain ⟨state, executed, isReported⟩ : ∃ state, Machine.runEvents (step ⟨100, 10⟩) oneSender
        [.writeSendQueue 5, .read 1, .handOver 1, .leave 1, .read 0, .commit 0, .report 0, .leave 0,
          .closeSendQueue, .read 0, .read 1] = some state
      ∧ state.results = [(0, true)] :=
    ⟨_, rfl, rfl⟩
  have run := start.of_runEvents sound executed
  exact ⟨state, run, isReported, sendQueue_delivers run⟩

/-- The log callback throws after a batch was reported, and the handler calls the callback once
more. And: the poller fails while the sender sends another batch, which is then passed on to a
queue that nobody reads; all threads stop, and its callback is never called.
-/
theorem sendQueue_misdelivers
    : (∃ state, Machine.Run (step ⟨100, 10⟩) (fun _ _ => True) Starts state
        ∧ calls 0 state.results = 2)
      ∧ ∃ state, Machine.Run (step ⟨100, 10⟩) (fun _ _ => True) Starts state
        ∧ state.status = .failed ∧ (∀ thread ∈ state.threads, thread.stage = .stopped)
        ∧ (∃ item ∈ state.accepted, item.id = 1) ∧ calls 1 state.results = 0 := by
  have start : Machine.Run (step ⟨100, 10⟩) (fun _ _ => True) Starts oneSender :=
    .start starts_oneSender
  constructor
  · obtain ⟨state, executed, isTwice⟩ : ∃ state, Machine.runEvents (step ⟨100, 10⟩) oneSender
          [.writeSendQueue 5, .read 1, .handOver 1, .leave 1, .read 0, .commit 0, .report 0, .raise 0,
            .fail 0] = some state
        ∧ calls 0 state.results = 2 :=
      ⟨_, rfl, rfl⟩
    exact ⟨state, start.of_runEvents (Machine.soundEvents_true _ _ _) executed, isTwice⟩
  · obtain ⟨state, executed, isFailed, stopped, isAccepted, never⟩ : ∃ state,
          Machine.runEvents (step ⟨100, 10⟩) oneSender
            [.writeSendQueue 5, .writeSendQueue 5, .read 1, .handOver 1, .leave 1, .read 0, .read 1,
              .raise 0, .fail 0, .handOver 1, .leave 1, .read 1] = some state
        ∧ state.status = .failed ∧ (∀ thread ∈ state.threads, thread.stage = .stopped)
        ∧ (∃ item ∈ state.accepted, item.id = 1) ∧ calls 1 state.results = 0 :=
      ⟨_, rfl, rfl, by decide, by decide, rfl⟩
    exact ⟨state, start.of_runEvents (Machine.soundEvents_true _ _ _) executed, isFailed, stopped,
      isAccepted, never⟩

end Glean.Write.SendQueue
