import Glean.Write.SendAndRebaseQueueSteps

/-! A rebasing queue keeps its senders, sends every fact once, and calls every callback once. -/

namespace Glean.Write.SendAndRebaseQueue

open RTS Threads

/-- The events of the threads. -/
def Event.OfThread : Event → Prop
  | .write _ | .shutdown | .reply _ _ _ | .fail => False
  | _ => True

def Event.IsReply : Event → Prop
  | .reply _ _ _ => True
  | _ => False

/-- How many steps a thread has before it at most, with the answer to what it sends. -/
def Thread.weight (thread : Thread) : Nat :=
  match thread.stage with
  | .holding _ => 8
  | .appending _ _ => 7
  | .checking _ => 6
  | .rebasing _ _ => 5
  | .flushing _ => 4
  | .returning _ => 2
  | .servicing => 1
  | .finished | .failed => 0

def Send.weight (send : Send) : Nat :=
  if send.answer = none then 1 else 0

def State.work (state : State) : Nat :=
  8 * state.rebaseQueue.length + total Thread.weight state.threads + total Send.weight state.sends
    + 8 * state.closing.getD 0

section Work

variable {varint : Varint} {u8 : U8Next} {inventory : Inventory} {state after : State} {event : Event}

/-- A thread goes on, and nothing else that has weight changes. -/
theorem work_lt {index : Nat} {old new : Thread} (isThread : state.threads[index]? = some old)
    (queue : after.rebaseQueue = state.rebaseQueue)
    (threads : after.threads = state.threads.set index new) (sends : after.sends = state.sends)
    (closing : after.closing = state.closing) (less : new.weight < old.weight)
    : after.work < state.work := by
  have moved := total_set Thread.weight isThread new
  rw [State.work, State.work, queue, threads, sends, closing]
  omega

/-- Without new calls and failures, only finitely many steps can follow. -/
theorem step_work (isEvent : event.OfThread ∨ event.IsReply)
    (next : step varint u8 inventory state event = some after)
    : after.work < state.work := by
  cases event with
  | write batch => exact isEvent.elim False.elim False.elim
  | shutdown => exact isEvent.elim False.elim False.elim
  | fail => exact isEvent.elim False.elim False.elim
  | service index =>
      simp only [step] at next
      split at next
      next isThread =>
        split at next
        next =>
          cases next
          exact work_lt isThread rfl rfl rfl rfl (by decide)
        next batch rest isQueue =>
          cases next
          have moved := total_set Thread.weight isThread ⟨.writer, .holding batch⟩
          simp only [Thread.weight] at moved
          simp only [State.work, State.setStage, isQueue, List.length_cons]
          omega
      next isThread =>
        split at next
        next remaining sender rest isClosing isPool =>
          cases next
          have moved := total_set Thread.weight isThread ⟨.closer, .checking sender⟩
          simp only [Thread.weight] at moved
          simp only [State.work, State.setStage, isClosing, Option.getD_some]
          omega
        next =>
          cases next
          exact work_lt isThread rfl rfl rfl rfl (by decide)
        next => cases next
      next => cases next
  | acquire index =>
      simp only [step] at next
      split at next
      next isThread _ =>
        cases next
        exact work_lt isThread rfl rfl rfl rfl (Nat.lt_succ_self 7)
      next => cases next
  | append index evicted =>
      simp only [step] at next
      split at next
      next isThread =>
        split at next
        next =>
          split at next
          next =>
            split at next
            next =>
              cases next
              exact work_lt isThread rfl rfl rfl rfl (Nat.lt_succ_self 6)
            next =>
              cases next
              exact work_lt isThread rfl rfl rfl rfl (Nat.succ_pos 6)
          next =>
            cases next
            exact work_lt isThread rfl rfl rfl rfl (Nat.succ_pos 6)
        next => cases next
      next => cases next
  | check index =>
      simp only [step] at next
      split at next
      next isThread =>
        split at next
        next =>
          split at next
          next =>
            split at next
            next =>
              cases next
              exact work_lt isThread rfl rfl rfl rfl (by decide : 2 < 6)
            next => cases next
          next =>
            cases next
            exact work_lt isThread rfl rfl rfl rfl (by decide : 4 < 6)
          next =>
            cases next
            exact work_lt isThread rfl rfl rfl rfl (by decide : 5 < 6)
        next => cases next
      next => cases next
  | rebase index =>
      simp only [step] at next
      split at next
      next isThread =>
        split at next
        next =>
          split at next
          next =>
            cases next
            exact work_lt isThread rfl rfl rfl rfl (by decide : 4 < 5)
          next =>
            cases next
            exact work_lt isThread rfl rfl rfl rfl (by decide : 0 < 5)
        next => cases next
      next => cases next
  | flush index =>
      simp only [step] at next
      split at next
      next role number isThread =>
        split at next
        next =>
          split at next
          next =>
            cases next
            exact work_lt isThread rfl rfl rfl rfl (by decide : 0 < 4)
          next =>
            cases next
            have moved := total_set Thread.weight isThread ⟨role, role.done number⟩
            simp only [Thread.weight] at moved
            cases role with
            | writer =>
                simp only [State.work, State.drop, State.setStage, State.setSender, total_append,
                  Role.done, Send.weight, if_true] at moved ⊢
                omega
            | closer =>
                simp only [State.work, State.drop, State.setStage, State.setSender, total_append,
                  Role.done, Send.weight, if_true] at moved ⊢
                omega
        next => cases next
      next => cases next
  | release index =>
      simp only [step] at next
      split at next
      next isThread =>
        cases next
        exact work_lt isThread rfl rfl rfl rfl (by decide : 1 < 2)
      next => cases next
  | reply index subst server =>
      simp only [step] at next
      split at next
      next number facts callbacks isSend =>
        split at next
        next =>
          split at next
          next =>
            cases next
            have moved := total_set Send.weight isSend ⟨number, facts, callbacks, some true⟩
            have before : Send.weight ⟨number, facts, callbacks, none⟩ = 1 := rfl
            have after : Send.weight ⟨number, facts, callbacks, some true⟩ = 0 := rfl
            rw [before, after] at moved
            simp only [State.work, State.setSender]
            omega
          next => cases next
        next => cases next
      next => cases next

end Work

/-- The server has answered all sends, and no thread can go on. -/
structure AtRest (varint : Varint) (u8 : U8Next) (inventory : Inventory) (state : State) : Prop where
  answered : ∀ send ∈ state.sends, send.answer ≠ none
  still : ∀ event, event.OfThread → step varint u8 inventory state event = none

namespace Inv

variable {varint : Varint} {u8 : U8Next} {inventory : Inventory} {count : Nat} {state : State}
  {thread : Thread}

theorem exists_sender (inv : Inv varint u8 inventory count state) (member : thread ∈ state.threads)
    {number : Nat} (holds : thread.holds number = 1)
    : ∃ sender, state.senders[number]? = some sender := by
  obtain ⟨index, isThread⟩ := List.mem_iff_getElem?.mp member
  have inside := (inv.owned.of_holds isThread holds).1
  rw [← inv.length] at inside
  exact ⟨_, List.getElem?_eq_getElem inside⟩

theorem exists_batch (inv : Inv varint u8 inventory count state) (member : thread ∈ state.threads)
    {number : Nat} (carries : thread.carries number = 1)
    : ∃ batch, state.batches[number]? = some batch := by
  have once := inv.placed number
  have least := weight_le_total (Thread.carries number) member
  have inside : number < state.batches.length := by
    split at once
    next inside => exact inside
    next => omega
  exact ⟨_, List.getElem?_eq_getElem inside⟩

/-- The threads that could not be blocked are not there. -/
theorem idle_of_atRest (inv : Inv varint u8 inventory count state)
    (atRest : AtRest varint u8 inventory state) (member : thread ∈ state.threads)
    : (∀ number batch, thread.stage ≠ .appending number batch)
      ∧ (∀ number subst, thread.stage ≠ .rebasing number subst)
      ∧ (∀ number, thread.stage ≠ .flushing number) ∧ ∀ number, thread.stage ≠ .returning number := by
  obtain ⟨role, stage⟩ := thread
  obtain ⟨index, isThread⟩ := List.mem_iff_getElem?.mp member
  refine ⟨?_, ?_, ?_, ?_⟩
  · rintro number batch rfl
    obtain ⟨sender, isSender⟩ := inv.exists_sender member (if_pos rfl)
    obtain ⟨isBatch, batchFound⟩ := inv.exists_batch member (if_pos rfl)
    have blocked := atRest.still (.append index (fun _ _ => false)) trivial
    simp only [SendAndRebaseQueue.step, isThread, isSender, batchFound] at blocked
    split at blocked
    next => split at blocked <;> cases blocked
    next => cases blocked
  · rintro number subst rfl
    obtain ⟨sender, isSender⟩ := inv.exists_sender member (if_pos rfl)
    have blocked := atRest.still (.rebase index) trivial
    simp only [SendAndRebaseQueue.step, isThread, isSender] at blocked
    split at blocked <;> cases blocked
  · rintro number rfl
    obtain ⟨sender, isSender⟩ := inv.exists_sender member (if_pos rfl)
    have blocked := atRest.still (.flush index) trivial
    simp only [SendAndRebaseQueue.step, isThread, isSender] at blocked
    split at blocked <;> cases blocked
  · rintro number rfl
    have blocked := atRest.still (.release index) trivial
    simp only [SendAndRebaseQueue.step, isThread] at blocked
    cases blocked

/-- Nobody waits for a substitution that nobody sends. -/
theorem not_checking (inv : Inv varint u8 inventory count state)
    (atRest : AtRest varint u8 inventory state) (isUp : state.failed = false)
    (member : thread ∈ state.threads) (number : Nat)
    : thread.stage ≠ .checking number := by
  obtain ⟨role, stage⟩ := thread
  obtain ⟨index, isThread⟩ := List.mem_iff_getElem?.mp member
  rintro rfl
  obtain ⟨sender, isSender⟩ := inv.exists_sender member (if_pos rfl)
  have blocked := atRest.still (.check index) trivial
  simp only [SendAndRebaseQueue.step, isThread, isSender] at blocked
  split at blocked
  next isEmpty =>
    have one := (inv.tokens number sender isSender).2 isUp
    have noThread : total (Thread.took number) state.threads = 0 := by
      refine total_eq_zero (fun other isOther => ?_)
      obtain ⟨-, noRebase, noFlush, -⟩ := inv.idle_of_atRest atRest isOther
      rw [Thread.took]
      split
      next subst isStage => exact absurd isStage (noRebase _ _)
      next isStage => exact absurd isStage (noFlush _)
      next => rfl
    have noSend : total (Send.inFlight number) state.sends = 0 :=
      total_eq_zero (fun send isSend => if_neg (fun open_ => atRest.answered send isSend open_.1))
    rw [Sender.full, isEmpty, noThread, noSend] at one
    exact absurd one (by decide)
  next => cases blocked
  next => cases blocked

/-- A queue comes to rest when all its threads have finished. -/
theorem finished_of_atRest (inv : Inv varint u8 inventory count state)
    (atRest : AtRest varint u8 inventory state) (isUp : state.failed = false)
    (hasSender : 0 < count ∨ state.closing ≠ none)
    : ∀ thread ∈ state.threads, thread.stage = .finished := by
  intro thread member
  obtain ⟨role, stage⟩ := thread
  obtain ⟨index, isThread⟩ := List.mem_iff_getElem?.mp member
  obtain ⟨noAppend, noRebase, noFlush, noReturn⟩ := inv.idle_of_atRest atRest member
  cases stage with
  | finished => rfl
  | failed => exact absurd rfl (inv.healthy _ member)
  | appending number batch => exact absurd rfl (noAppend number batch)
  | rebasing number subst => exact absurd rfl (noRebase number subst)
  | flushing number => exact absurd rfl (noFlush number)
  | returning number => exact absurd rfl (noReturn number)
  | checking number => exact absurd rfl (inv.not_checking atRest isUp member number)
  | servicing =>
      have blocked := atRest.still (.service index) trivial
      cases role with
      | writer =>
          simp only [SendAndRebaseQueue.step, isThread] at blocked
          split at blocked <;> cases blocked
      | closer =>
          cases isClosing : state.closing with
          | none => cases (inv.closes.before isClosing).2 _ member
          | some remaining =>
              obtain ⟨isLength, -⟩ := inv.closes.during remaining isClosing
              simp only [SendAndRebaseQueue.step, isThread, isClosing] at blocked
              cases remaining with
              | zero => cases blocked
              | succ remaining =>
                  obtain ⟨sender, rest, isPool⟩ := List.exists_cons_of_length_eq_add_one isLength
                  simp only [isPool] at blocked
                  cases blocked
  | holding batch =>
      have isOpen := inv.closes.isOpen isThread (.inr (fun closing => closing))
      have noThread : total (Thread.holds 0) state.threads = 0 := by
        refine total_eq_zero (fun other isOther => ?_)
        obtain ⟨noAppend, noRebase, noFlush, noReturn⟩ := inv.idle_of_atRest atRest isOther
        rw [Thread.holds]
        split
        next isStage => exact absurd isStage (noAppend _ _)
        next isStage => exact absurd isStage (inv.not_checking atRest isUp isOther _)
        next isStage => exact absurd isStage (noRebase _ _)
        next isStage => exact absurd isStage (noFlush _)
        next isStage => exact absurd isStage (noReturn _)
        next => rfl
      have once := inv.owned 0
      rw [noThread, (inv.closes.before isOpen).1, List.count_nil,
        if_pos (hasSender.resolve_right (fun isClosed => isClosed isOpen))] at once
      obtain ⟨sender, rest, isPool⟩ : ∃ sender rest, state.pool = sender :: rest := by
        refine List.exists_cons_of_ne_nil (fun isEmpty => ?_)
        rw [isEmpty] at once
        cases once
      have blocked := atRest.still (.acquire index) trivial
      simp only [SendAndRebaseQueue.step, isThread, isPool] at blocked
      cases blocked

/-- No callback is left in a queue that failed, or that was shut down. -/
theorem drained_of_atRest (inv : Inv varint u8 inventory count state)
    (atRest : AtRest varint u8 inventory state)
    (isOver : state.failed = true ∨ state.closing ≠ none)
    : Drained state.rebaseQueue state.threads state.senders := by
  cases isFailed : state.failed with
  | true => exact inv.drained isFailed
  | false =>
      have isClosed : state.closing ≠ none := by
        refine isOver.resolve_left (fun failed => ?_)
        rw [isFailed] at failed
        cases failed
      obtain ⟨remaining, isClosing⟩ := Option.ne_none_iff_exists'.mp isClosed
      obtain ⟨isLength, noQueue, ⟨closer, isCloser, role⟩, all⟩ := inv.closes.during remaining isClosing
      have finished := inv.finished_of_atRest atRest isFailed (.inr isClosed)
      obtain rfl := (all closer isCloser).2.2 role (finished closer isCloser)
      refine ⟨noQueue, fun thread member batch => ?_, fun sender member => ?_⟩
      · rw [Thread.carries, finished thread member]
      · obtain ⟨number, isSender⟩ := List.mem_iff_getElem?.mp member
        have inside := (List.getElem?_eq_some_iff.mp isSender).1
        have noThread : total (Thread.holds number) state.threads = 0 := by
          refine total_eq_zero (fun thread isThread => ?_)
          rw [Thread.holds, finished thread isThread]
        have once := inv.owned number
        rw [List.eq_nil_of_length_eq_zero isLength, noThread, if_pos (inv.length ▸ inside),
          List.count_nil] at once
        refine inv.cleared number (List.count_pos_iff.mp ?_) sender isSender
        omega

theorem called_of_atRest (inv : Inv varint u8 inventory count state)
    (atRest : AtRest varint u8 inventory state)
    (isOver : state.failed = true ∨ state.closing ≠ none) {batch : Nat}
    (isWritten : batch < state.batches.length)
    : calls batch state.results = 1 := by
  obtain ⟨noQueue, threads, senders⟩ := inv.drained_of_atRest atRest isOver
  have once := inv.placed batch
  have noSender : total (Sender.waits batch) state.senders = 0 := by
    refine total_eq_zero (fun sender member => ?_)
    rw [Sender.waits, senders sender member]
    rfl
  have noSend : total (Send.waits batch) state.sends = 0 := by
    refine total_eq_zero (fun send member => ?_)
    rw [Send.waits, Send.pending]
    split
    next => rfl
    next isNone => exact absurd isNone (atRest.answered send member)
  rw [noQueue, total_eq_zero (fun thread member => threads thread member batch), noSender, noSend,
    if_pos isWritten] at once
  simpa using once

end Inv

/-- What a rebasing queue with some senders promises. -/
structure Delivers (varint : Varint) (u8 : U8Next) (inventory : Inventory) (count : Nat) (state : State)
    : Prop where
  /-- Every sender is in the pool or in use until the shutdown deletes it. -/
  senders
    : ∀ number, state.pool.count number + total (Thread.holds number) state.threads
        + state.deleted.count number = if number < count then 1 else 0
  /-- The facts of a sender are sent one after the other, each once. -/
  sent : ∀ sender ∈ state.senders, sender.sent = List.range sender.sent.length
  /-- What is sent refers to facts by their ids on the server, or by their place in the batch. -/
  terms
    : ∀ send ∈ state.sends, ∀ fact ∈ send.facts.facts,
        fact.WellTyped varint u8 inventory (Known state.server send.facts)
  atMostOnce : ∀ batch, calls batch state.results ≤ 1
  /-- A callback is called after a send that completes the facts of its batch. -/
  answered
    : ∀ result ∈ state.results, ∃ send ∈ state.sends, send.answer = some result.2
        ∧ ∃ batch subst place, state.batches[result.1]? = some batch
          ∧ DenotesBatch varint u8 inventory (Known state.server send.facts) batch subst place
  stored
    : ∀ number, (number, true) ∈ state.results → ∃ batch subst place,
        state.batches[number]? = some batch
        ∧ DenotesBatch varint u8 inventory state.server batch subst place
  /-- If calls stop, the queue comes to rest. -/
  rests
    : ∀ event after, event.OfThread ∨ event.IsReply → step varint u8 inventory state event = some after →
        after.work < state.work
  returns
    : AtRest varint u8 inventory state → state.failed = false → 0 < count →
        ∀ thread ∈ state.threads, thread.stage = .finished
  /-- At the end, all facts have been sent and all callbacks called. -/
  complete
    : AtRest varint u8 inventory state → state.failed = true ∨ state.closing ≠ none →
        (∀ batch < state.batches.length, calls batch state.results = 1)
        ∧ ∀ sender ∈ state.senders, sender.sent = List.range sender.created

section Runs

variable {varint : Varint} {u8 : U8Next} {inventory : Inventory} {count : Nat} {state : State}

theorem Inv.delivers (inv : Inv varint u8 inventory count state)
    : Delivers varint u8 inventory count state where
  senders := inv.owned
  sent sender member := (inv.senders sender member).sent
  terms send member := (inv.sends send member).2.typed
  atMostOnce batch := by
    have once := inv.placed batch
    split at once <;> omega
  answered result member := by
    obtain ⟨send, isSend, isCalled, isAnswer⟩ := inv.reported result member
    exact ⟨send, isSend, isAnswer, (inv.sends send isSend).2.denotes result.1 isCalled⟩
  stored := inv.stored
  rests _ _ isEvent next := step_work isEvent next
  returns atRest isUp hasSender := inv.finished_of_atRest atRest isUp (.inl hasSender)
  complete atRest isOver := by
    refine ⟨fun batch isWritten => inv.called_of_atRest atRest isOver isWritten,
      fun sender member => ?_⟩
    have ok := inv.senders sender member
    rw [← ok.flushed ((inv.drained_of_atRest atRest isOver).senders sender member)]
    exact ok.sent

/-- The states of a queue whose server has some facts. -/
def Starts (varint : Varint) (u8 : U8Next) (inventory : Inventory) (count : Nat) (state : State)
    : Prop :=
  ∃ server, Store varint u8 inventory server ∧ state = opened count server

/-- In every run with sound steps, facts and callbacks are delivered and senders kept. -/
theorem sendAndRebaseQueue_delivers
    (run : Machine.Run (step varint u8 inventory) (Sound varint u8 inventory)
      (Starts varint u8 inventory count) state)
    : Delivers varint u8 inventory count state := by
  have inv : Inv varint u8 inventory count state := by
    refine run.invariant ?_ (fun _ _ _ inv sound next => inv.step sound next)
    rintro _ ⟨server, store, rfl⟩
    exact .start store
  exact inv.delivers

end Runs

/-- The node of a batch. -/
def newNode : Fact :=
  ⟨1024, 1024, ⟨[1], [0]⟩⟩

theorem newNode_store : Store .folly .ascii nodeInventory {newNode} where
  typed := by
    rintro fact rfl
    exact ⟨⟨"example.Node", 1, .byte, .maybe (.predicate 1024)⟩, .byte 1, .alt 0 (.tuple []), rfl,
      .byte, .alt (by decide) rfl (.tuple .nil), rfl⟩
  unique := by
    rintro _ rfl _ rfl _
    rfl
  valid := by
    rintro _ rfl
    exact ⟨by decide, by decide⟩
  small := by
    rintro _ rfl
    decide

/-- A call with one batch, and the shutdown, which sends an empty batch. -/
def oneBatch : List Event :=
  [.write ⟨1024, fun _ => Id.invalid, 1, nodeBatch⟩, .service 0, .acquire 0,
    .append 0 (fun _ _ => false), .check 0, .flush 0, .reply 0 ⟨1024, [1024]⟩ {newNode}, .release 0,
    .service 0, .shutdown, .service 1, .check 1, .rebase 1, .flush 1,
    .reply 1 ⟨1025, []⟩ {newNode}, .service 1]

theorem sendAndRebaseQueue_delivers_oneBatch
    : ∃ state, Machine.Run (step .folly .ascii nodeInventory) (Sound .folly .ascii nodeInventory)
          (Starts .folly .ascii nodeInventory 1) state
        ∧ state.results = [(0, true)] ∧ state.deleted = [0]
        ∧ Delivers .folly .ascii nodeInventory 1 state := by
  have isStore : Store .folly .ascii nodeInventory ∅ :=
    ⟨by rintro _ ⟨⟩, by rintro _ ⟨⟩, by rintro _ ⟨⟩, by rintro _ ⟨⟩⟩
  have start : Machine.Run (step .folly .ascii nodeInventory) (Sound .folly .ascii nodeInventory)
      (Starts .folly .ascii nodeInventory 1) (opened 1 ∅) := .start ⟨∅, isStore, rfl⟩
  have sound : Machine.SoundEvents (step .folly .ascii nodeInventory)
      (Sound .folly .ascii nodeInventory) (opened 1 ∅) oneBatch := by
    refine ⟨⟨rfl, rfl⟩, trivial, trivial, ?_, trivial, rfl, ?_, trivial, trivial, ?_, trivial, trivial,
      ?_, rfl, ?_, trivial, trivial⟩
    · intro role number batchNumber sender batch isThread isSender isBatch
      cases isThread
      cases isSender
      cases isBatch
      exact ⟨by decide, _, _, _, rfl, rfl⟩
    · intro send isSend
      cases isSend
      refine ⟨by rintro _ ⟨⟩, newNode_store, rfl, rfl, le_rfl, ?_⟩
      intro index fact id isFact isItem
      cases index with
      | zero =>
          cases isFact
          cases isItem
          exact ⟨newNode, rfl, rfl, rfl, rfl⟩
      | succ index => cases isItem
    · intro thread member
      cases List.mem_singleton.mp member
      rfl
    · intro role number subst sender isThread isSender
      cases isThread
      cases isSender
      exact ⟨by decide, _, rfl⟩
    · intro send isSend
      cases isSend
      refine ⟨fun _ member => member, newNode_store, rfl, rfl, le_rfl, ?_⟩
      rintro index fact id isFact ⟨⟩
  obtain ⟨state, executed, isReported, isDeleted⟩ : ∃ state,
      Machine.runEvents (step .folly .ascii nodeInventory) (opened 1 ∅) oneBatch = some state
        ∧ state.results = [(0, true)] ∧ state.deleted = [0] :=
    ⟨_, rfl, rfl, rfl⟩
  have run := start.of_runEvents sound executed
  exact ⟨state, run, isReported, isDeleted, sendAndRebaseQueue_delivers run⟩

/-- A call with a batch without facts that claims to have one. The call throws, and the sender and
the callback are lost; the shutdown waits for the sender forever.
-/
theorem sendAndRebaseQueue_loses
    : ∃ state, Machine.Run (step .folly .ascii nodeInventory) (fun _ _ => True)
          (Starts .folly .ascii nodeInventory 1) state
        ∧ state.pool.count 0 + total (Thread.holds 0) state.threads + state.deleted.count 0 = 0
        ∧ AtRest .folly .ascii nodeInventory state ∧ state.closing ≠ none
        ∧ state.batches.length = 1 ∧ calls 0 state.results = 0 := by
  have isStore : Store .folly .ascii nodeInventory ∅ :=
    ⟨by rintro _ ⟨⟩, by rintro _ ⟨⟩, by rintro _ ⟨⟩, by rintro _ ⟨⟩⟩
  have start : Machine.Run (step .folly .ascii nodeInventory) (fun _ _ => True)
      (Starts .folly .ascii nodeInventory 1) (opened 1 ∅) := .start ⟨∅, isStore, rfl⟩
  obtain ⟨state, executed, isLost, isStill, isClosing, isWritten, isSilent⟩ : ∃ state,
      Machine.runEvents (step .folly .ascii nodeInventory) (opened 1 ∅)
          [.write ⟨1024, fun _ => Id.invalid, 1, []⟩, .service 0, .acquire 0,
            .append 0 (fun _ _ => false), .shutdown] = some state
        ∧ state.pool.count 0 + total (Thread.holds 0) state.threads + state.deleted.count 0 = 0
        ∧ AtRest .folly .ascii nodeInventory state ∧ state.closing ≠ none
        ∧ state.batches.length = 1 ∧ calls 0 state.results = 0 := by
    refine ⟨_, rfl, rfl, ⟨by rintro _ ⟨⟩, ?_⟩, by rintro ⟨⟩, rfl, rfl⟩
    intro event isEvent
    cases event with
    | write | shutdown | reply | fail => cases isEvent
    | service index | acquire index | check index | rebase index | flush index | release index
    | append index =>
        match index with
        | 0 | 1 | index + 2 => rfl
  exact ⟨state, start.of_runEvents (Machine.soundEvents_true _ _ _) executed, isLost, isStill, isClosing,
    isWritten, isSilent⟩

end Glean.Write.SendAndRebaseQueue
