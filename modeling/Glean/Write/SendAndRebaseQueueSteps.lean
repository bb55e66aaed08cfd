import Glean.Write.SendAndRebaseQueueRun

/-! The invariant of a rebasing queue, and what it says about whole runs. -/

namespace Glean.Write.SendAndRebaseQueue

open RTS Threads

/-- The stages of the shutdown. -/
def Stage.Closing : Stage → Prop
  | .holding _ | .appending _ _ | .returning _ => False
  | _ => True

/-- The shutdown starts when all calls have returned, and goes on until the pool is empty. -/
structure Closes (closing : Option Nat) (pool rebaseQueue : List Nat) (threads : List Thread)
    (deleted : List Nat) : Prop where
  before : closing = none → deleted = [] ∧ ∀ thread ∈ threads, thread.role = .writer
  during
    : ∀ remaining, closing = some remaining →
        pool.length = remaining ∧ rebaseQueue = [] ∧ (∃ thread ∈ threads, thread.role = .closer)
          ∧ ∀ thread ∈ threads, (thread.role = .writer → thread.stage = .finished)
            ∧ (thread.role = .closer → thread.stage.Closing)
            ∧ (thread.role = .closer → thread.stage = .finished → remaining = 0)

/-- Nothing is left that would have to be sent. -/
structure Drained (rebaseQueue : List Nat) (threads : List Thread) (senders : List Sender) : Prop where
  rebaseQueue : rebaseQueue = []
  threads : ∀ thread ∈ threads, ∀ batch, thread.carries batch = 0
  senders : ∀ sender ∈ senders, sender.callbacks = []

structure Inv (varint : Varint) (u8 : U8Next) (inventory : Inventory) (count : Nat) (state : State)
    : Prop where
  length : state.senders.length = count
  owned : Owned count state.pool state.threads state.deleted
  placed
    : Placed state.batches.length state.rebaseQueue state.threads state.senders state.sends
        state.results
  tokens : Tokens state.failed state.senders state.threads state.sends
  fits : Fits varint u8 inventory state.server state.senders state.threads state.sends
  store : Store varint u8 inventory state.server
  inserted : ∀ fact ∈ state.inserted, fact ∈ state.server
  senders : ∀ sender ∈ state.senders, SenderOk varint u8 inventory state.batches state.server sender
  sends
    : ∀ send ∈ state.sends, send.facts.firstFreeId < 2 ^ 64
        ∧ Carries varint u8 inventory state.batches state.server send.facts send.callbacks
  reported
    : ∀ result ∈ state.results, ∃ send ∈ state.sends,
        result.1 ∈ send.callbacks ∧ send.answer = some result.2
  stored
    : ∀ number, (number, true) ∈ state.results → ∃ batch subst place,
        state.batches[number]? = some batch
        ∧ DenotesBatch varint u8 inventory state.server batch subst place
  healthy : ∀ thread ∈ state.threads, thread.stage ≠ .failed
  busy : state.rebaseQueue = [] ∨ ∃ thread ∈ state.threads, thread.stage ≠ .finished
  closes : Closes state.closing state.pool state.rebaseQueue state.threads state.deleted
  cleared
    : ∀ number ∈ state.deleted, ∀ sender, state.senders[number]? = some sender → sender.callbacks = []
  drained : state.failed = true → Drained state.rebaseQueue state.threads state.senders

variable {varint : Varint} {u8 : U8Next} {inventory : Inventory} {count index : Nat} {role : Role}
  {old new : Stage}

section Closes

variable {closing : Option Nat} {pool rebaseQueue deleted : List Nat} {threads : List Thread}

/-- A call that has not returned excludes the shutdown. -/
theorem Closes.isOpen (closes : Closes closing pool rebaseQueue threads deleted)
    (isThread : threads[index]? = some ⟨role, old⟩)
    (calls : role = .writer ∧ old ≠ .finished ∨ ¬ old.Closing)
    : closing = none := by
  cases isClosing : closing with
  | none => rfl
  | some remaining =>
      obtain ⟨-, -, -, all⟩ := closes.during remaining isClosing
      obtain ⟨writer, closer, -⟩ := all _ (List.mem_of_getElem? isThread)
      rcases calls with ⟨isWriter, unfinished⟩ | notClosing
      · exact absurd (writer isWriter) unfinished
      · cases role with
        | writer =>
            have isFinished : old = .finished := writer rfl
            rw [isFinished] at notClosing
            exact absurd trivial notClosing
        | closer => exact absurd (closer rfl) notClosing

/-- Before the shutdown, threads go on with any pool and queue. -/
theorem Closes.work {afterPool afterQueue : List Nat}
    (closes : Closes closing pool rebaseQueue threads deleted) (isNone : closing = none)
    (isThread : threads[index]? = some ⟨role, old⟩)
    : Closes closing afterPool afterQueue (threads.set index ⟨role, new⟩) deleted where
  before _ := by
    obtain ⟨isEmpty, writers⟩ := closes.before isNone
    have isWriter : role = .writer := writers _ (List.mem_of_getElem? isThread)
    exact ⟨isEmpty, forall_set writers isWriter⟩
  during remaining isSome := by
    rw [isNone] at isSome
    cases isSome

/-- A thread of the shutdown goes on. -/
theorem Closes.setStage {afterDeleted : List Nat}
    (closes : Closes closing pool rebaseQueue threads deleted)
    (isThread : threads[index]? = some ⟨role, old⟩) (unfinished : old ≠ .finished)
    (isDeleted : role = .writer → afterDeleted = deleted)
    (closer : role = .closer → new.Closing ∧ (new = .finished → closing = some 0))
    : Closes closing pool rebaseQueue (threads.set index ⟨role, new⟩) afterDeleted where
  before isNone := by
    obtain ⟨isEmpty, writers⟩ := closes.before isNone
    have isWriter : role = .writer := writers _ (List.mem_of_getElem? isThread)
    exact ⟨(isDeleted isWriter).trans isEmpty, forall_set writers isWriter⟩
  during remaining isSome := by
    obtain ⟨isLength, noQueue, ⟨thread, member, isCloser⟩, all⟩ := closes.during remaining isSome
    have isRole : role = .closer := by
      cases role with
      | writer => exact absurd ((all _ (List.mem_of_getElem? isThread)).1 rfl) unfinished
      | closer => rfl
    refine ⟨isLength, noQueue, ?_, forall_set all ⟨?_, fun _ => (closer isRole).1, fun _ isFinished => ?_⟩⟩
    · refine ⟨⟨role, new⟩, List.mem_set ?_ _, isRole⟩
      exact (List.getElem?_eq_some_iff.mp isThread).1
    · rintro ⟨⟩
      cases isRole
    · have isZero := (closer isRole).2 isFinished
      rw [isSome] at isZero
      exact Option.some.inj isZero

end Closes

theorem Drained.setStage {rebaseQueue : List Nat} {threads : List Thread} {senders : List Sender}
    (drained : Drained rebaseQueue threads senders) (idle : ∀ batch, Thread.carries batch ⟨role, new⟩ = 0)
    : Drained rebaseQueue (threads.set index ⟨role, new⟩) senders :=
  ⟨drained.rebaseQueue, forall_set drained.threads idle, drained.senders⟩

theorem busy_setStage {rebaseQueue : List Nat} {threads : List Thread} {thread : Thread}
    (isThread : threads[index]? = some thread) (unfinished : new ≠ .finished)
    : rebaseQueue = [] ∨ ∃ thread ∈ threads.set index ⟨role, new⟩, thread.stage ≠ .finished :=
  .inr ⟨⟨role, new⟩, List.mem_set (List.getElem?_eq_some_iff.mp isThread).1 _, unfinished⟩

namespace Inv

variable {state : State} {number : Nat}

theorem write (inv : Inv varint u8 inventory count state) (batch : Batch)
    (isUp : state.failed = false) (isOpen : state.closing = none)
    : Inv varint u8 inventory count
        { state with
          batches := state.batches ++ [batch]
          rebaseQueue := state.rebaseQueue ++ [state.batches.length]
          threads := state.threads ++ [⟨.writer, .servicing⟩] } where
  length := inv.length
  owned := inv.owned.spawn (fun _ => rfl)
  placed := by
    change Placed (state.batches ++ [batch]).length _ _ _ _ _
    rw [List.length_append]
    exact inv.placed.write.spawn (fun _ => rfl)
  tokens := inv.tokens.spawn (fun _ => rfl)
  fits := inv.fits.spawn (fun _ => rfl)
  store := inv.store
  inserted := inv.inserted
  senders sender member := (inv.senders sender member).write batch
  sends send member :=
    have ⟨words, carries⟩ := inv.sends send member
    ⟨words, carries.write batch⟩
  reported := inv.reported
  stored other member := by
    obtain ⟨otherBatch, subst, place, isBatch, denotes⟩ := inv.stored other member
    refine ⟨otherBatch, subst, place, ?_, denotes⟩
    change (state.batches ++ [batch])[other]? = _
    rw [List.getElem?_append_left (List.getElem?_eq_some_iff.mp isBatch).1, isBatch]
  healthy := by
    intro thread member
    rcases List.mem_append.mp member with before | isNew
    · exact inv.healthy thread before
    · rw [List.mem_singleton.mp isNew]
      rintro ⟨⟩
  busy := .inr ⟨_, List.mem_append_right _ (List.mem_singleton_self _), by rintro ⟨⟩⟩
  closes :=
    { before := by
        intro _
        obtain ⟨isEmpty, writers⟩ := inv.closes.before isOpen
        refine ⟨isEmpty, fun thread member => ?_⟩
        rcases List.mem_append.mp member with before | isNew
        · exact writers thread before
        · rw [List.mem_singleton.mp isNew]
      during := by
        intro remaining isSome
        rw [show state.closing = none from isOpen] at isSome
        cases isSome }
  cleared := inv.cleared
  drained isFailed := by
    rw [show state.failed = false from isUp] at isFailed
    cases isFailed

/-- A thread goes on with the batch and the sender that it has. -/
theorem setStage (inv : Inv varint u8 inventory count state)
    (isThread : state.threads[index]? = some ⟨role, old⟩)
    (holds : ∀ number, Thread.holds number ⟨role, new⟩ = Thread.holds number ⟨role, old⟩)
    (carries : ∀ batch, Thread.carries batch ⟨role, new⟩ = Thread.carries batch ⟨role, old⟩)
    (tookOld : ∀ number, Thread.took number ⟨role, old⟩ = 0)
    (tookNew : ∀ number, Thread.took number ⟨role, new⟩ = 0)
    (healthy : new ≠ .failed) (busy : new = .finished → state.rebaseQueue = [])
    (unfinished : old ≠ .finished)
    (closer : role = .closer → new.Closing ∧ (new = .finished → state.closing = some 0))
    : Inv varint u8 inventory count (state.setStage index role new) :=
  { inv with
    owned := inv.owned.setStage isThread holds
    placed := inv.placed.setStage isThread carries
    tokens := inv.tokens.setStage isThread (fun number => (tookNew number).trans (tookOld number).symm)
    fits := inv.fits.setIdle tookNew
    healthy := forall_set inv.healthy healthy
    busy := by
      by_cases isFinished : new = .finished
      · exact .inl (busy isFinished)
      · exact busy_setStage isThread isFinished
    closes := inv.closes.setStage isThread unfinished (fun _ => rfl) closer
    drained := by
      intro isFailed
      refine (inv.drained isFailed).setStage (fun batch => ?_)
      rw [carries]
      exact (inv.drained isFailed).threads _ (List.mem_of_getElem? isThread) batch }

/-- A call reads a batch. -/
theorem read {batch : Nat} {rest : List Nat} (inv : Inv varint u8 inventory count state)
    (isThread : state.threads[index]? = some ⟨.writer, .servicing⟩)
    (isQueue : state.rebaseQueue = batch :: rest)
    : Inv varint u8 inventory count
        ({ state with rebaseQueue := rest }.setStage index .writer (.holding batch)) :=
  { inv with
    owned := inv.owned.setStage isThread (fun _ => rfl)
    placed := by
      have placed := inv.placed
      rw [isQueue] at placed
      exact placed.read isThread (fun _ => rfl) (fun _ => rfl)
    tokens := inv.tokens.setStage isThread (fun _ => rfl)
    fits := inv.fits.setIdle (fun _ => rfl)
    healthy := forall_set inv.healthy (by rintro ⟨⟩)
    busy := busy_setStage isThread (by rintro ⟨⟩)
    closes := inv.closes.work (inv.closes.isOpen isThread (.inl ⟨rfl, by rintro ⟨⟩⟩)) isThread
    drained := by
      intro isFailed
      have isEmpty := (inv.drained isFailed).rebaseQueue
      rw [isQueue] at isEmpty
      cases isEmpty }

/-- The shutdown reads a sender. -/
theorem takeSender {remaining : Nat} {rest : List Nat} (inv : Inv varint u8 inventory count state)
    (isThread : state.threads[index]? = some ⟨.closer, .servicing⟩)
    (isClosing : state.closing = some (remaining + 1)) (isPool : state.pool = number :: rest)
    : Inv varint u8 inventory count
        ({ state with pool := rest, closing := some remaining }.setStage index .closer
          (.checking number)) :=
  { inv with
    owned := by
      have owned := inv.owned
      rw [isPool] at owned
      exact owned.take isThread (fun _ => rfl) (fun _ => rfl)
    placed := inv.placed.setStage isThread (fun _ => rfl)
    tokens := inv.tokens.setStage isThread (fun _ => rfl)
    fits := inv.fits.setIdle (fun _ => rfl)
    healthy := forall_set inv.healthy (by rintro ⟨⟩)
    busy := busy_setStage isThread (by rintro ⟨⟩)
    closes := by
      have same : Closes _ _ _ (state.threads.set index ⟨.closer, .checking number⟩) state.deleted :=
        inv.closes.setStage isThread (by rintro ⟨⟩) (fun _ => rfl) (fun _ => ⟨trivial, by rintro ⟨⟩⟩)
      obtain ⟨isLength, noQueue, hasCloser, all⟩ := same.during _ isClosing
      refine ⟨by rintro ⟨⟩, ?_⟩
      rintro _ ⟨⟩
      refine ⟨?_, noQueue, hasCloser, fun thread member => ?_⟩
      · rw [isPool] at isLength
        exact Nat.succ.inj isLength
      · obtain ⟨writer, closer, finished⟩ := all thread member
        exact ⟨writer, closer, fun isCloser isFinished => absurd (finished isCloser isFinished) (by simp)⟩
    drained := by
      intro isFailed
      exact (inv.drained isFailed).setStage (fun _ => rfl) }

theorem acquire {batch : Nat} {rest : List Nat} (inv : Inv varint u8 inventory count state)
    (isThread : state.threads[index]? = some ⟨role, .holding batch⟩)
    (isPool : state.pool = number :: rest)
    : Inv varint u8 inventory count
        ({ state with pool := rest }.setStage index role (.appending number batch)) :=
  { inv with
    owned := by
      have owned := inv.owned
      rw [isPool] at owned
      exact owned.take isThread (fun _ => rfl) (fun _ => rfl)
    placed := inv.placed.setStage isThread (fun _ => rfl)
    tokens := inv.tokens.setStage isThread (fun _ => rfl)
    fits := inv.fits.setIdle (fun _ => rfl)
    healthy := forall_set inv.healthy (by rintro ⟨⟩)
    busy := busy_setStage isThread (by rintro ⟨⟩)
    closes := inv.closes.work (inv.closes.isOpen isThread (.inr (fun closing => closing))) isThread
    drained := by
      intro isFailed
      have idle := (inv.drained isFailed).threads _ (List.mem_of_getElem? isThread) batch
      simp [Thread.carries] at idle }

theorem release (inv : Inv varint u8 inventory count state)
    (isThread : state.threads[index]? = some ⟨role, .returning number⟩)
    : Inv varint u8 inventory count
        ({ state with pool := state.pool ++ [number] }.setStage index role .servicing) :=
  { inv with
    owned := inv.owned.release isThread (fun _ => rfl) (fun _ => rfl)
    placed := inv.placed.setStage isThread (fun _ => rfl)
    tokens := inv.tokens.setStage isThread (fun _ => rfl)
    fits := inv.fits.setIdle (fun _ => rfl)
    healthy := forall_set inv.healthy (by rintro ⟨⟩)
    busy := busy_setStage isThread (by rintro ⟨⟩)
    closes := inv.closes.work (inv.closes.isOpen isThread (.inr (fun closing => closing))) isThread
    drained := by
      intro isFailed
      exact (inv.drained isFailed).setStage (fun _ => rfl) }

theorem mem_sender {senders : List Sender} {sender : Sender} (isSender : senders[number]? = some sender)
    : sender ∈ senders :=
  List.mem_of_getElem? isSender

/-- The facts of a batch are appended to those of a sender. -/
theorem append {batchNumber : Nat} {sender : Sender} {batch : Batch} {factSet after : FactSet}
    {subst : Substitution} (inv : Inv varint u8 inventory count state)
    (isThread : state.threads[index]? = some ⟨role, .appending number batchNumber⟩)
    (isSender : state.senders[number]? = some sender) (isBatch : state.batches[batchNumber]? = some batch)
    (appended : Appended varint u8 inventory state.server sender.facts factSet after batch subst)
    (room : sender.facts.firstFreeId + batch.count < 2 ^ 64)
    : Inv varint u8 inventory count
        ((state.setSender number
          { sender with
            facts := after
            callbacks := sender.callbacks ++ [batchNumber]
            created := sender.created + factSet.facts.length }).setStage index role
          (.checking number)) := by
  have isPrefix : sender.facts.facts <+: after.facts := ⟨_, appended.facts.symm⟩
  have isLength : after.facts.length = sender.facts.facts.length + factSet.facts.length := by
    rw [appended.facts, List.length_append]
  have pending : ∀ inFlight, sender.Pending inFlight →
      sender.sent.length + after.facts.length
        = sender.created + factSet.facts.length + inFlight := by
    intro inFlight isPending
    rw [Sender.Pending] at isPending
    lia
  have answered : ∀ subst, Answered varint u8 inventory state.server sender subst →
      Answered varint u8 inventory state.server
        { sender with
          facts := after
          callbacks := sender.callbacks ++ [batchNumber]
          created := sender.created + factSet.facts.length } subst :=
    fun _ isAnswered => ⟨isAnswered.replied.grow appended.startingId isPrefix,
      pending _ isAnswered.pending⟩
  exact
    { inv with
      length := List.length_set.trans inv.length
      owned := inv.owned.setStage isThread (fun _ => rfl)
      placed := inv.placed.append isThread (fun _ => rfl) (fun _ => rfl) isSender rfl
      tokens := Tokens.setStage (inv.tokens.setSender isSender rfl) isThread (fun _ => rfl)
      fits := by
        refine Fits.setIdle (inv.fits.setSender isSender (fun isFresh => ?_) (fun _ isSubst => ?_)
          (pending 0) answered (fun facts isInFlight => ?_)) (fun _ => rfl)
        · exact pending 0 (inv.fits.fresh isSender isFresh)
        · exact answered _ (inv.fits.answered isSender isSubst)
        · exact ⟨isInFlight.startingId.trans appended.startingId.symm,
            isInFlight.isPrefix.trans isPrefix, pending _ isInFlight.pending⟩
      senders := forall_set inv.senders
        ((inv.senders sender (mem_sender isSender)).append inv.store appended room isBatch)
      healthy := forall_set inv.healthy (by rintro ⟨⟩)
      busy := busy_setStage isThread (by rintro ⟨⟩)
      closes := inv.closes.work (inv.closes.isOpen isThread (.inr (fun closing => closing))) isThread
      cleared := by
        intro other isDeleted otherSender isOther
        rcases getElem?_set_cases isSender isOther with ⟨rfl, rfl⟩ | ⟨-, before⟩
        · have notDeleted := (inv.owned.of_holds isThread (if_pos rfl)).2.2
          exact absurd isDeleted notDeleted
        · exact inv.cleared other isDeleted otherSender before
      drained := by
        intro isFailed
        have idle := (inv.drained isFailed).threads _ (List.mem_of_getElem? isThread) batchNumber
        simp [Thread.carries] at idle }

/-- A sender changes without its callbacks. -/
theorem cleared_set {sender changed : Sender} (inv : Inv varint u8 inventory count state)
    (isSender : state.senders[number]? = some sender) (same : changed.callbacks = sender.callbacks)
    : ∀ other ∈ state.deleted, ∀ result, (state.senders.set number changed)[other]? = some result →
        result.callbacks = [] := by
  intro other isDeleted result isResult
  rcases getElem?_set_cases isSender isResult with ⟨rfl, rfl⟩ | ⟨-, before⟩
  · rw [same]
    exact inv.cleared other isDeleted sender isSender
  · exact inv.cleared other isDeleted result before

theorem drained_set {sender changed : Sender} {thread : Thread}
    (inv : Inv varint u8 inventory count state)
    (isSender : state.senders[number]? = some sender) (same : changed.callbacks = sender.callbacks)
    (idle : ∀ batch, thread.carries batch = 0) (isFailed : state.failed = true)
    : Drained state.rebaseQueue (state.threads.set index thread) (state.senders.set number changed) := by
  obtain ⟨noQueue, threads, senders⟩ := inv.drained isFailed
  refine ⟨noQueue, forall_set threads idle, forall_set senders ?_⟩
  rw [same]
  exact senders sender (mem_sender isSender)

/-- A thread empties the variable of a sender. -/
theorem takeVar {sender : Sender} {content : Option Substitution}
    (inv : Inv varint u8 inventory count state)
    (isThread : state.threads[index]? = some ⟨role, .checking number⟩)
    (isSender : state.senders[number]? = some sender) (isVar : sender.substVar = some content)
    (isNew : (content = none ∧ new = .flushing number)
      ∨ ∃ subst, content = some subst ∧ new = .rebasing number subst)
    : Inv varint u8 inventory count
        ((state.setSender number { sender with substVar := none }).setStage index role new) := by
  have took : ∀ other, Thread.took other ⟨role, new⟩ = if number = other then 1 else 0 := by
    rcases isNew with ⟨-, rfl⟩ | ⟨_, -, rfl⟩ <;> exact fun _ => rfl
  have holds : ∀ other, Thread.holds other ⟨role, new⟩ = if number = other then 1 else 0 := by
    rcases isNew with ⟨-, rfl⟩ | ⟨_, -, rfl⟩ <;> exact fun _ => rfl
  have carries : ∀ batch, Thread.carries batch ⟨role, new⟩ = 0 := by
    rcases isNew with ⟨-, rfl⟩ | ⟨_, -, rfl⟩ <;> exact fun _ => rfl
  have stage : new ≠ .failed ∧ new ≠ .finished ∧ new.Closing := by
    rcases isNew with ⟨-, rfl⟩ | ⟨_, -, rfl⟩ <;> exact ⟨by rintro ⟨⟩, by rintro ⟨⟩, trivial⟩
  exact
    { inv with
      length := List.length_set.trans inv.length
      owned := inv.owned.setStage isThread holds
      placed := Placed.setStage (inv.placed.setSender isSender rfl) isThread carries
      tokens := by
        refine inv.tokens.move isSender ?_ (fun other different => ⟨?_, rfl⟩)
        · have moved := total_set (Thread.took number) isThread ⟨role, new⟩
          rw [took, if_pos rfl] at moved
          have isFull : sender.full = 1 := by
            rw [Sender.full, isVar]
            rfl
          have isEmpty : ({ sender with substVar := none } : Sender).full = 0 := rfl
          have before : Thread.took number ⟨role, .checking number⟩ = 0 := rfl
          rw [isFull, isEmpty]
          rw [before] at moved
          change 0 + total (Thread.took number) (state.threads.set index ⟨role, new⟩)
            + total (Send.inFlight number) state.sends = _
          omega
        · have moved := total_set (Thread.took other) isThread ⟨role, new⟩
          rw [took, if_neg (Ne.symm different)] at moved
          exact moved
      fits := by
        have emptied : Fits varint u8 inventory state.server
            (state.senders.set number { sender with substVar := none }) state.threads state.sends :=
          inv.fits.setSender isSender (by rintro ⟨⟩) (by rintro _ ⟨⟩) (fun pending => pending)
            (fun _ answered => ⟨answered.replied, answered.pending⟩)
            (fun _ isInFlight => ⟨isInFlight.startingId, isInFlight.isPrefix, isInFlight.pending⟩)
        refine emptied.setStage (fun isStage isOther => ?_) (fun isStage isOther => ?_)
        · rcases isNew with ⟨-, rfl⟩ | ⟨subst, rfl, rfl⟩
          · cases isStage
          · cases isStage
            have isAnswered := inv.fits.answered isSender isVar
            rcases getElem?_set_cases isSender isOther with ⟨-, rfl⟩ | ⟨different, -⟩
            · exact ⟨isAnswered.replied, isAnswered.pending⟩
            · exact absurd rfl different
        · rcases isNew with ⟨rfl, rfl⟩ | ⟨_, -, rfl⟩
          · cases isStage
            rcases getElem?_set_cases isSender isOther with ⟨-, rfl⟩ | ⟨different, -⟩
            · have isPending := inv.fits.fresh isSender isVar
              exact isPending
            · exact absurd rfl different
          · cases isStage
      senders := by
        have ok := inv.senders sender (mem_sender isSender)
        exact forall_set inv.senders ⟨ok.carries, ok.words, ok.sent, ok.flushed⟩
      healthy := forall_set inv.healthy stage.1
      busy := busy_setStage isThread stage.2.1
      closes := inv.closes.setStage isThread (by rintro ⟨⟩) (fun _ => rfl)
        (fun _ => ⟨stage.2.2, fun isFinished => absurd isFinished stage.2.1⟩)
      cleared := inv.cleared_set isSender rfl
      drained := inv.drained_set isSender rfl carries }

theorem took_flushing (role : Role) (number other : Nat)
    : Thread.took other ⟨role, .flushing number⟩ = if number = other then 1 else 0 :=
  rfl

/-- The facts of a sender get new ids, and the server's facts are cached. -/
theorem rebase {sender : Sender} {subst : Substitution} {inserted : List Fact} {after : FactSet}
    (inv : Inv varint u8 inventory count state)
    (isThread : state.threads[index]? = some ⟨role, .rebasing number subst⟩)
    (isSender : state.senders[number]? = some sender)
    (rebased : Rebased varint u8 inventory state.server sender.facts subst inserted after)
    (room : subst.firstFreeId + sender.facts.facts.length < 2 ^ 64)
    : Inv varint u8 inventory count
        (({ state with inserted := state.inserted ++ inserted }.setSender number
          { sender with facts := after }).setStage index role (.flushing number)) := by
  obtain ⟨replied, isPending⟩ := inv.fits.rebasing (List.mem_of_getElem? isThread) rfl isSender
  have pending : ({ sender with facts := after } : Sender).Pending 0 := by
    have length := rebased.length
    have less := replied.length
    rw [Sender.Pending] at isPending ⊢
    change sender.sent.length + after.facts.length = sender.created + 0
    lia
  exact
    { inv with
      length := List.length_set.trans inv.length
      owned := inv.owned.setStage isThread (fun _ => rfl)
      placed := Placed.setStage (inv.placed.setSender isSender rfl) isThread (fun _ => rfl)
      tokens := Tokens.setStage (inv.tokens.setSender isSender rfl) isThread (fun _ => rfl)
      fits := inv.fits.setAlone inv.tokens isSender isThread (if_pos rfl) rfl (by rintro _ _ ⟨⟩)
        (by rintro _ ⟨⟩; exact ⟨rfl, pending⟩)
      inserted := by
        intro fact member
        rcases List.mem_append.mp member with before | isNew
        · exact inv.inserted fact before
        · exact rebased.inserted fact isNew
      senders := forall_set inv.senders
        ((inv.senders sender (mem_sender isSender)).rebase inv.store rebased room)
      healthy := forall_set inv.healthy (by rintro ⟨⟩)
      busy := busy_setStage isThread (by rintro ⟨⟩)
      closes := inv.closes.setStage isThread (by rintro ⟨⟩) (fun _ => rfl)
        (fun _ => ⟨trivial, by rintro ⟨⟩⟩)
      cleared := inv.cleared_set isSender rfl
      drained := inv.drained_set isSender rfl (fun _ => rfl) }

/-- The facts of a sender are sent with its callbacks. -/
theorem flush {sender : Sender} (inv : Inv varint u8 inventory count state)
    (isThread : state.threads[index]? = some ⟨role, .flushing number⟩)
    (isSender : state.senders[number]? = some sender) (isUp : state.failed = false)
    : Inv varint u8 inventory count
        ((({ state with
            sends := state.sends ++ [Send.mk number sender.facts sender.callbacks none]
          }.setSender number sender.flushed).setStage index role (role.done number)).drop role
            number) := by
  have member := List.mem_of_getElem? isThread
  have pending := inv.fits.flushing member rfl isSender
  have ok := inv.senders sender (mem_sender isSender)
  have carries : ∀ batch, Thread.carries batch ⟨role, role.done number⟩ = 0 := by
    cases role <;> exact fun _ => rfl
  have took : ∀ other, Thread.took other ⟨role, role.done number⟩ = 0 := by
    cases role <;> exact fun _ => rfl
  have stage : role.done number ≠ .failed ∧ role.done number ≠ .finished := by
    cases role <;> exact ⟨by rintro ⟨⟩, by rintro ⟨⟩⟩
  -- what does not depend on whether the sender is deleted
  have tokens : Tokens state.failed (state.senders.set number sender.flushed)
      (state.threads.set index ⟨role, role.done number⟩)
      (state.sends ++ [Send.mk number sender.facts sender.callbacks none]) := by
    refine inv.tokens.move isSender ?_ (fun other different => ⟨?_, ?_⟩)
    · have moved := total_set (Thread.took number) isThread ⟨role, role.done number⟩
      rw [took, took_flushing, if_pos rfl] at moved
      rw [total_append, Send.inFlight, if_pos ⟨rfl, rfl⟩]
      change sender.full + _ + _ = _
      omega
    · have moved := total_set (Thread.took other) isThread ⟨role, role.done number⟩
      rw [took, took_flushing, if_neg (Ne.symm different)] at moved
      exact moved
    · rw [total_append, Send.inFlight, if_neg (fun same => different same.2.symm), Nat.add_zero]
  have fits : Fits varint u8 inventory state.server (state.senders.set number sender.flushed)
      (state.threads.set index ⟨role, role.done number⟩)
      (state.sends ++ [Send.mk number sender.facts sender.callbacks none]) := by
    refine Fits.flush (inv.fits.setAlone inv.tokens isSender isThread (if_pos rfl) rfl
      (fun other => (Thread.stage_of_idle took other).1) (fun other isStage => ?_))
      (fun other isOther => ?_)
    · exact absurd isStage (Thread.stage_of_idle took other).2
    · rcases getElem?_set_cases isSender isOther with ⟨-, rfl⟩ | ⟨different, -⟩
      · exact inFlight_flushed pending
      · exact absurd rfl different
  have placed : Placed state.batches.length state.rebaseQueue
      (state.threads.set index ⟨role, role.done number⟩) (state.senders.set number sender.flushed)
      (state.sends ++ [Send.mk number sender.facts sender.callbacks none]) state.results :=
    Placed.setStage (inv.placed.flush isSender rfl rfl) isThread carries
  have sends : ∀ send ∈ state.sends ++ [Send.mk number sender.facts sender.callbacks none],
      send.facts.firstFreeId < 2 ^ 64
        ∧ Carries varint u8 inventory state.batches state.server send.facts send.callbacks := by
    intro send isSend
    rcases List.mem_append.mp isSend with before | isNew
    · exact inv.sends send before
    · rw [List.mem_singleton.mp isNew]
      exact ⟨ok.words, ok.carries⟩
  have reported : ∀ result ∈ state.results,
      ∃ send ∈ state.sends ++ [Send.mk number sender.facts sender.callbacks none],
        result.1 ∈ send.callbacks ∧ send.answer = some result.2 := by
    intro result isResult
    obtain ⟨send, isSend, isReported⟩ := inv.reported result isResult
    exact ⟨send, List.mem_append_left _ isSend, isReported⟩
  have cleared : ∀ other, (other ∈ state.deleted ∨ other = number) → ∀ result,
      (state.senders.set number sender.flushed)[other]? = some result → result.callbacks = [] := by
    intro other isDeleted result isResult
    rcases getElem?_set_cases isSender isResult with ⟨-, rfl⟩ | ⟨different, before⟩
    · rfl
    · exact inv.cleared other (isDeleted.resolve_right different) result before
  have drained : state.failed = true → Drained state.rebaseQueue
      (state.threads.set index ⟨role, role.done number⟩) (state.senders.set number sender.flushed) := by
    intro isFailed
    rw [isUp] at isFailed
    cases isFailed
  cases role with
  | writer =>
      exact
        { inv with
          length := List.length_set.trans inv.length
          owned := inv.owned.setStage isThread (fun _ => rfl)
          placed
          tokens
          fits
          senders := forall_set inv.senders (ok.flush pending)
          sends
          reported
          healthy := forall_set inv.healthy stage.1
          busy := busy_setStage isThread stage.2
          closes := inv.closes.setStage isThread (by rintro ⟨⟩) (fun _ => rfl) (by rintro ⟨⟩)
          cleared := fun other isDeleted => cleared other (.inl isDeleted)
          drained }
  | closer =>
      exact
        { inv with
          length := List.length_set.trans inv.length
          owned := inv.owned.drop isThread (fun _ => rfl) (fun _ => rfl)
          placed
          tokens
          fits
          senders := forall_set inv.senders (ok.flush pending)
          sends
          reported
          healthy := forall_set inv.healthy stage.1
          busy := busy_setStage isThread stage.2
          closes := inv.closes.setStage isThread (by rintro ⟨⟩) (by rintro ⟨⟩)
            (fun _ => ⟨trivial, by rintro ⟨⟩⟩)
          cleared := fun other isDeleted => cleared other ((List.mem_cons.mp isDeleted).symm)
          drained }

/-- When all calls have returned, all senders are in the pool. -/
theorem length_pool (inv : Inv varint u8 inventory count state) (isOpen : state.closing = none)
    (returned : ∀ thread ∈ state.threads, thread.stage = .finished)
    : state.pool.length = count := by
  have isPerm : state.pool.Perm (List.range count) := by
    refine List.perm_iff_count.mpr (fun number => ?_)
    have once := inv.owned number
    have none : total (Thread.holds number) state.threads = 0 := by
      refine total_eq_zero (fun thread member => ?_)
      rw [Thread.holds, returned thread member]
    rw [(inv.closes.before isOpen).1, none, List.count_nil] at once
    rw [List.nodup_range.count]
    simpa using once
  rw [isPerm.length_eq, List.length_range]

theorem shutdown (inv : Inv varint u8 inventory count state) (isOpen : state.closing = none)
    (returned : ∀ thread ∈ state.threads, thread.stage = .finished)
    : Inv varint u8 inventory count
        { state with
          closing := some state.senders.length
          threads := state.threads ++ [⟨.closer, .servicing⟩] } := by
  have noQueue : state.rebaseQueue = [] := by
    rcases inv.busy with isEmpty | ⟨thread, member, unfinished⟩
    · exact isEmpty
    · exact absurd (returned thread member) unfinished
  exact
    { inv with
      owned := inv.owned.spawn (fun _ => rfl)
      placed := inv.placed.spawn (fun _ => rfl)
      tokens := inv.tokens.spawn (fun _ => rfl)
      fits := inv.fits.spawn (fun _ => rfl)
      healthy := by
        intro thread member
        rcases List.mem_append.mp member with before | isNew
        · exact inv.healthy thread before
        · rw [List.mem_singleton.mp isNew]
          rintro ⟨⟩
      busy := .inl noQueue
      closes := by
        refine ⟨by rintro ⟨⟩, ?_⟩
        rintro _ ⟨⟩
        refine ⟨(inv.length_pool isOpen returned).trans inv.length.symm, noQueue,
          ⟨_, List.mem_append_right _ (List.mem_singleton_self _), rfl⟩, fun thread member => ?_⟩
        rcases List.mem_append.mp member with before | isNew
        · have isWriter := (inv.closes.before isOpen).2 thread before
          rw [isWriter]
          exact ⟨fun _ => returned thread before, by rintro ⟨⟩, by rintro ⟨⟩⟩
        · rw [List.mem_singleton.mp isNew]
          exact ⟨by rintro ⟨⟩, fun _ => trivial, by rintro _ ⟨⟩⟩
      drained := by
        intro isFailed
        obtain ⟨-, threads, senders⟩ := inv.drained isFailed
        refine ⟨noQueue, fun thread member => ?_, senders⟩
        rcases List.mem_append.mp member with before | isNew
        · exact threads thread before
        · rw [List.mem_singleton.mp isNew]
          exact fun _ => rfl }

/-- The server answers, and the callbacks of the send are called. -/
theorem reply {position : Nat} {facts : FactSet} {callbacks : List Nat} {sender : Sender}
    {subst : Substitution} {server : Set Fact} (inv : Inv varint u8 inventory count state)
    (isSend : state.sends[position]? = some ⟨number, facts, callbacks, none⟩)
    (isSender : state.senders[number]? = some sender) (isEmpty : sender.substVar = none)
    (answers : Answers varint u8 inventory state.server server facts subst)
    : Inv varint u8 inventory count
        { state.setSender number { sender with substVar := some (some subst) } with
          sends := state.sends.set position ⟨number, facts, callbacks, some true⟩
          server
          results := state.results ++ callbacks.map (fun batch => (batch, true)) } := by
  have member := List.mem_of_getElem? isSend
  obtain ⟨words, carries⟩ := inv.sends _ member
  have inFlight : InFlight sender facts := inv.fits.inFlight member rfl isSender
  have isAnswered : Answered varint u8 inventory server
      { sender with substVar := some (some subst) } subst := by
    refine ⟨answers.replied.grow inFlight.startingId.symm inFlight.isPrefix, ?_⟩
    rw [answers.length]
    exact inFlight.pending
  have kept : ∀ send ∈ state.sends.set position ⟨number, facts, callbacks, some true⟩,
      send.answer = none → send ∈ state.sends := by
    intro send isOther isOpen
    rcases List.mem_or_eq_of_mem_set isOther with before | rfl
    · exact before
    · cases isOpen
  exact
    { inv with
      length := List.length_set.trans inv.length
      placed := Placed.setSender (inv.placed.reply isSend rfl true) isSender rfl
      tokens := by
        refine inv.tokens.move isSender ?_ (fun other different => ⟨rfl, ?_⟩)
        · have moved := total_set (Send.inFlight number) isSend ⟨number, facts, callbacks, some true⟩
          have before : Send.inFlight number ⟨number, facts, callbacks, none⟩ = 1 := if_pos ⟨rfl, rfl⟩
          have after : Send.inFlight number ⟨number, facts, callbacks, some true⟩ = 0 :=
            if_neg (by rintro ⟨⟨⟩, -⟩)
          have wasEmpty : sender.full = 0 := by
            rw [Sender.full, isEmpty]
            rfl
          rw [before, after] at moved
          rw [wasEmpty]
          change 1 + total (Thread.took number) state.threads
            + total (Send.inFlight number) (state.sends.set position _) = _
          omega
        · have moved := total_set (Send.inFlight other) isSend ⟨number, facts, callbacks, some true⟩
          have before : Send.inFlight other ⟨number, facts, callbacks, none⟩ = 0 :=
            if_neg (fun same => different same.2.symm)
          have after : Send.inFlight other ⟨number, facts, callbacks, some true⟩ = 0 :=
            if_neg (by rintro ⟨⟨⟩, -⟩)
          rw [before, after] at moved
          exact moved
      fits := by
        refine Fits.answer (Fits.setSender (inv.fits.mono answers.grows) isSender ?_ ?_ ?_ ?_ ?_) kept
        · rintro ⟨⟩
        · rintro _ ⟨⟩
          exact isAnswered
        · exact fun pending => pending
        · exact fun _ answered => ⟨answered.replied, answered.pending⟩
        · exact fun _ other => ⟨other.startingId, other.isPrefix, other.pending⟩
      store := answers.store
      inserted fact isInserted := answers.grows (inv.inserted fact isInserted)
      senders := by
        have ok := (inv.senders sender (mem_sender isSender)).mono inv.store answers.grows
        refine forall_set (fun other isOther => ?_) ⟨ok.carries, ok.words, ok.sent, ok.flushed⟩
        exact (inv.senders other isOther).mono inv.store answers.grows
      sends := by
        refine forall_set (fun other isOther => ?_) ⟨words, carries.mono inv.store answers.grows⟩
        obtain ⟨otherWords, otherCarries⟩ := inv.sends other isOther
        exact ⟨otherWords, otherCarries.mono inv.store answers.grows⟩
      reported := by
        intro result isResult
        rcases List.mem_append.mp isResult with before | isNew
        · obtain ⟨send, isOther, isCalled, isAnswer⟩ := inv.reported result before
          refine ⟨send, (mem_set_or _ isSend isOther).resolve_right ?_, isCalled, isAnswer⟩
          rintro rfl
          cases isAnswer
        · obtain ⟨batch, isCalled, rfl⟩ := List.mem_map.mp isNew
          exact ⟨_, List.mem_set (List.getElem?_eq_some_iff.mp isSend).1 _, isCalled, rfl⟩
      stored := by
        intro other isResult
        rcases List.mem_append.mp isResult with before | isNew
        · obtain ⟨batch, otherSubst, place, isBatch, denotes⟩ := inv.stored other before
          refine ⟨batch, otherSubst, place, isBatch, denotes.mono answers.grows ?_⟩
          exact fun fact isFact => (inv.store.valid fact isFact).1
        · obtain ⟨_, isCalled, ⟨⟩⟩ := List.mem_map.mp isNew
          obtain ⟨batch, otherSubst, place, isBatch, denotes⟩ := carries.denotes other isCalled
          refine ⟨batch, otherSubst, subst.subst ∘ place, isBatch, denotes.move (fun _ _ _ _ => ?_)⟩
          exact answers.replied.denotes answers.length words
            (Known.basis inv.store carries.typed).typed answers.store answers.grows
      cleared := inv.cleared_set isSender rfl
      drained := by
        intro isFailed
        obtain ⟨noQueue, threads, senders⟩ := inv.drained isFailed
        exact ⟨noQueue, threads, forall_set senders (senders sender (mem_sender isSender))⟩ }

theorem fail (inv : Inv varint u8 inventory count state)
    (drained : Drained state.rebaseQueue state.threads state.senders)
    : Inv varint u8 inventory count
        { state with
          failed := true
          sends := state.sends.map Send.fail
          results := state.results
            ++ (state.sends.flatMap Send.pending).map (fun batch => (batch, false)) } :=
  { inv with
    placed := inv.placed.fail
    tokens := by
      intro number sender isSender
      have none : total (Send.inFlight number) (state.sends.map Send.fail) = 0 := by
        refine total_eq_zero (fun send member => ?_)
        obtain ⟨⟨_, _, _, answer⟩, _, rfl⟩ := List.mem_map.mp member
        cases answer <;> exact if_neg (by rintro ⟨⟨⟩, -⟩)
      have one := (inv.tokens number sender isSender).1
      refine ⟨?_, by rintro ⟨⟩⟩
      change sender.full + total (Thread.took number) state.threads
        + total (Send.inFlight number) (state.sends.map Send.fail) ≤ 1
      omega
    fits := by
      refine inv.fits.answer (fun send member isOpen => ?_)
      obtain ⟨⟨_, _, _, answer⟩, _, rfl⟩ := List.mem_map.mp member
      cases answer <;> cases isOpen
    sends := by
      intro send member
      obtain ⟨before, isBefore, rfl⟩ := List.mem_map.mp member
      have ok := inv.sends before isBefore
      rw [Send.fail]
      split <;> exact ok
    reported := by
      intro result isResult
      rcases List.mem_append.mp isResult with before | isNew
      · obtain ⟨send, isSend, isCalled, isAnswer⟩ := inv.reported result before
        refine ⟨send.fail, List.mem_map_of_mem isSend, ?_⟩
        rw [Send.fail, isAnswer]
        exact ⟨isCalled, isAnswer⟩
      · obtain ⟨batch, isPending, rfl⟩ := List.mem_map.mp isNew
        obtain ⟨send, isSend, isCalled⟩ := List.mem_flatMap.mp isPending
        refine ⟨send.fail, List.mem_map_of_mem isSend, ?_⟩
        rw [Send.pending] at isCalled
        split at isCalled
        next => cases isCalled
        next isNone =>
          rw [Send.fail, isNone]
          exact ⟨isCalled, rfl⟩
    stored := by
      intro number isResult
      rcases List.mem_append.mp isResult with before | isNew
      · exact inv.stored number before
      · obtain ⟨_, _, ⟨⟩⟩ := List.mem_map.mp isNew
    drained := fun _ => drained }

theorem step {event : Event} {after : State} (inv : Inv varint u8 inventory count state)
    (sound : Sound varint u8 inventory state event)
    (next : SendAndRebaseQueue.step varint u8 inventory state event = some after)
    : Inv varint u8 inventory count after := by
  cases event with
  | write batch =>
      cases next
      exact inv.write batch sound.1 sound.2
  | service index =>
      simp only [SendAndRebaseQueue.step] at next
      split at next
      next isThread =>
        split at next
        next isEmpty =>
          cases next
          exact inv.setStage isThread (fun _ => rfl) (fun _ => rfl) (fun _ => rfl) (fun _ => rfl)
            (by rintro ⟨⟩) (fun _ => isEmpty) (by rintro ⟨⟩) (by rintro ⟨⟩)
        next isQueue =>
          cases next
          exact inv.read isThread isQueue
      next isThread =>
        split at next
        next isClosing isPool =>
          cases next
          exact inv.takeSender isThread isClosing isPool
        next isClosing =>
          cases next
          obtain ⟨-, noQueue, -⟩ := inv.closes.during 0 isClosing
          exact inv.setStage isThread (fun _ => rfl) (fun _ => rfl) (fun _ => rfl) (fun _ => rfl)
            (by rintro ⟨⟩) (fun _ => noQueue) (by rintro ⟨⟩) (fun _ => ⟨trivial, fun _ => isClosing⟩)
        next => cases next
      next => cases next
  | acquire index =>
      simp only [SendAndRebaseQueue.step] at next
      split at next
      next isThread isPool =>
        cases next
        exact inv.acquire isThread isPool
      next => cases next
  | append index evicted =>
      simp only [SendAndRebaseQueue.step] at next
      split at next
      next role number batchNumber isThread =>
        split at next
        next sender batch isSender isBatch =>
          obtain ⟨room, factSet, subst, facts, isRebased, isAppended⟩ :=
            sound role number batchNumber sender batch isThread isSender isBatch
          simp only [isRebased, isAppended] at next
          cases next
          have ok := inv.senders sender (mem_sender isSender)
          have areCached : ∀ position, ∀ fact ∈ state.cached evicted position, fact ∈ state.server :=
            fun position fact isCached => inv.inserted fact (List.mem_of_mem_filter isCached)
          have appended := appended_rebaseBatch inv.store ok.carries.typed areCached room.le isRebased
            isAppended
          exact inv.append isThread isSender isBatch appended room
        next => cases next
      next => cases next
  | check index =>
      simp only [SendAndRebaseQueue.step] at next
      split at next
      next role number isThread =>
        split at next
        next sender isSender =>
          split at next
          next =>
            split at next
            next =>
              cases next
              exact inv.setStage isThread (fun _ => rfl) (fun _ => rfl) (fun _ => rfl) (fun _ => rfl)
                (by rintro ⟨⟩) (by rintro ⟨⟩) (by rintro ⟨⟩) (by rintro ⟨⟩)
            next => cases next
          next isVar =>
            cases next
            exact inv.takeVar isThread isSender isVar (.inl ⟨rfl, rfl⟩)
          next subst isVar =>
            cases next
            exact inv.takeVar isThread isSender isVar (.inr ⟨subst, rfl, rfl⟩)
        next => cases next
      next => cases next
  | rebase index =>
      simp only [SendAndRebaseQueue.step] at next
      split at next
      next role number subst isThread =>
        split at next
        next sender isSender =>
          obtain ⟨room, ⟨inserted, facts⟩, isRebased⟩ := sound role number subst sender isThread isSender
          simp only [isRebased] at next
          cases next
          have ok := inv.senders sender (mem_sender isSender)
          have answered := inv.fits.rebasing (List.mem_of_getElem? isThread) rfl isSender
          have rebased := rebase_rebased inv.store answered.replied ok.words room ok.carries.typed isRebased
          exact inv.rebase isThread isSender rebased room
        next => cases next
      next => cases next
  | flush index =>
      simp only [SendAndRebaseQueue.step] at next
      split at next
      next role number isThread =>
        split at next
        next sender isSender =>
          have isUp : state.failed = false := sound
          rw [if_neg (by rw [isUp]; exact Bool.false_ne_true)] at next
          cases next
          exact inv.flush isThread isSender isUp
        next => cases next
      next => cases next
  | release index =>
      simp only [SendAndRebaseQueue.step] at next
      split at next
      next isThread =>
        cases next
        exact inv.release isThread
      next => cases next
  | shutdown =>
      simp only [SendAndRebaseQueue.step] at next
      split at next
      next isOpen =>
        cases next
        exact inv.shutdown isOpen sound
      next => cases next
  | reply index subst server =>
      simp only [SendAndRebaseQueue.step] at next
      split at next
      next number facts callbacks isSend =>
        split at next
        next sender isSender =>
          split at next
          next isEmpty =>
            cases next
            exact inv.reply isSend isSender isEmpty (sound _ isSend)
          next => cases next
        next => cases next
      next => cases next
  | fail =>
      cases next
      exact inv.fail ⟨sound.1, sound.2.1, sound.2.2⟩

theorem start {server : Set Fact} (store : Store varint u8 inventory server)
    : Inv varint u8 inventory count (opened count server) where
  length := List.length_replicate
  owned := by
    intro number
    change (List.range count).count number + 0 + 0 = _
    rw [List.nodup_range.count]
    simp
  placed := by
    intro batch
    have none : total (Sender.waits batch) (List.replicate count newSender) = 0 :=
      total_eq_zero (fun sender member => by rw [List.eq_of_mem_replicate member]; rfl)
    change 0 + 0 + total (Sender.waits batch) (List.replicate count newSender) + 0 + 0 = 0
    rw [none]
  tokens := by
    intro number sender isSender
    rw [List.eq_of_mem_replicate (List.mem_of_getElem? isSender)]
    exact ⟨le_rfl, fun _ => le_rfl⟩
  fits :=
    { fresh := by
        intro number sender isSender _
        rw [List.eq_of_mem_replicate (List.mem_of_getElem? isSender)]
        rfl
      answered := by
        intro number sender subst isSender isVar
        rw [List.eq_of_mem_replicate (List.mem_of_getElem? isSender)] at isVar
        cases isVar
      rebasing := by rintro _ _ _ _ ⟨⟩
      flushing := by rintro _ _ _ ⟨⟩
      inFlight := by rintro _ _ ⟨⟩ }
  store := store
  inserted := by rintro _ ⟨⟩
  senders := by
    intro sender member
    rw [List.eq_of_mem_replicate member]
    exact ⟨⟨by rintro _ ⟨⟩, by rintro _ ⟨⟩⟩, by decide, rfl, fun _ => rfl⟩
  sends := by rintro _ ⟨⟩
  reported := by rintro _ ⟨⟩
  stored := by rintro _ ⟨⟩
  healthy := by rintro _ ⟨⟩
  busy := .inl rfl
  closes := ⟨fun _ => ⟨rfl, by rintro _ ⟨⟩⟩, by rintro _ ⟨⟩⟩
  cleared := by rintro _ ⟨⟩
  drained := by rintro ⟨⟩

end Inv

end Glean.Write.SendAndRebaseQueue
