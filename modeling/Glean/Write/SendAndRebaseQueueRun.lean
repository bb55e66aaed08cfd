import Glean.Library.Threads
import Glean.Write.SendAndRebaseQueue

/-! Where the batches, the senders and the facts of a rebasing queue are, over all interleavings of
calls, replies and the shutdown.
-/

namespace Glean.Write.SendAndRebaseQueue

open RTS Threads

-- Sound steps

section Sound

variable (varint : Varint) (u8 : U8Next) (inventory : Inventory)

/-- A batch typechecks, and its new facts can be appended. -/
structure CanAppend (cached : Nat → List Fact) (facts : FactSet) (batch : Batch) : Prop where
  room : facts.firstFreeId + batch.count < 2 ^ 64
  appends
    : ∃ factSet subst after, rebaseBatch varint u8 inventory facts cached batch = .ok (factSet, subst)
        ∧ facts.append factSet = some after

/-- No check of `FactSet::rebase` fails. -/
structure CanRebase (facts : FactSet) (subst : Substitution) : Prop where
  room : subst.firstFreeId + facts.facts.length < 2 ^ 64
  rebases : ∃ result, facts.rebase varint u8 inventory subst = .ok result

/-- The server has stored the facts of a batch, and tells their ids. -/
structure Answers (server larger : Set Fact) (facts : FactSet) (subst : Substitution) : Prop where
  grows : server ⊆ larger
  store : Store varint u8 inventory larger
  length : subst.items.length = facts.facts.length
  replied : Replied varint u8 inventory larger facts subst

/-- Whether a thread has a batch that no sender has. -/
def Thread.carries (batch : Nat) (thread : Thread) : Nat :=
  match thread.stage with
  | .holding other | .appending _ other => if other = batch then 1 else 0
  | _ => 0

/-- The steps that do not go wrong: nothing throws, the server answers as it should, nothing is
written during the shutdown or after a failure, which happens only when all callbacks have been
passed to the send queue.
-/
def Sound (state : State) : Event → Prop
  | .write _ => state.failed = false ∧ state.closing = none
  | .append index evicted =>
      ∀ role number batchNumber sender batch,
        state.threads[index]? = some ⟨role, .appending number batchNumber⟩ →
        state.senders[number]? = some sender → state.batches[batchNumber]? = some batch →
        CanAppend varint u8 inventory (state.cached evicted) sender.facts batch
  | .rebase index =>
      ∀ role number subst sender, state.threads[index]? = some ⟨role, .rebasing number subst⟩ →
        state.senders[number]? = some sender → CanRebase varint u8 inventory sender.facts subst
  | .flush _ => state.failed = false
  | .shutdown => ∀ thread ∈ state.threads, thread.stage = .finished
  | .reply index subst server =>
      ∀ send, state.sends[index]? = some send →
        Answers varint u8 inventory state.server server send.facts subst
  | .fail =>
      state.rebaseQueue = [] ∧ (∀ thread ∈ state.threads, ∀ batch, thread.carries batch = 0)
        ∧ ∀ sender ∈ state.senders, sender.callbacks = []
  | _ => True

end Sound

variable {varint : Varint} {u8 : U8Next} {inventory : Inventory}

-- Senders

/-- Whether a thread uses a sender. -/
def Thread.holds (number : Nat) (thread : Thread) : Nat :=
  match thread.stage with
  | .appending other _ | .checking other | .rebasing other _ | .flushing other | .returning other =>
      if other = number then 1 else 0
  | _ => 0

/-- Every sender is in the pool, with one thread, or was deleted by the shutdown. -/
def Owned (count : Nat) (pool : List Nat) (threads : List Thread) (deleted : List Nat) : Prop :=
  ∀ number, pool.count number + total (Thread.holds number) threads + deleted.count number
    = if number < count then 1 else 0

section Owned

variable {count index number : Nat} {pool deleted rest : List Nat} {threads : List Thread}
  {old new : Thread}

theorem Owned.setStage (owned : Owned count pool threads deleted)
    (isThread : threads[index]? = some old) (same : ∀ number, new.holds number = old.holds number)
    : Owned count pool (threads.set index new) deleted := by
  intro number
  have once := owned number
  have moved := total_set (Thread.holds number) isThread new
  rw [same] at moved
  omega

theorem Owned.spawn (owned : Owned count pool threads deleted)
    (idle : ∀ number, new.holds number = 0)
    : Owned count pool (threads ++ [new]) deleted := by
  intro number
  rw [total_append, idle]
  exact owned number

theorem Owned.take (owned : Owned count (number :: rest) threads deleted)
    (isThread : threads[index]? = some old) (idle : ∀ number, old.holds number = 0)
    (takes : ∀ other, new.holds other = if number = other then 1 else 0)
    : Owned count rest (threads.set index new) deleted := by
  intro other
  have once := owned other
  have moved := total_set (Thread.holds other) isThread new
  rw [idle, takes] at moved
  rw [List.count_cons] at once
  simp only [beq_iff_eq] at once
  omega

theorem Owned.release (owned : Owned count pool threads deleted)
    (isThread : threads[index]? = some old) (idle : ∀ number, new.holds number = 0)
    (holds : ∀ other, old.holds other = if number = other then 1 else 0)
    : Owned count (pool ++ [number]) (threads.set index new) deleted := by
  intro other
  have once := owned other
  have moved := total_set (Thread.holds other) isThread new
  rw [idle, holds] at moved
  rw [List.count_append, List.count_singleton]
  simp only [beq_iff_eq]
  omega

theorem Owned.drop (owned : Owned count pool threads deleted)
    (isThread : threads[index]? = some old) (idle : ∀ number, new.holds number = 0)
    (holds : ∀ other, old.holds other = if number = other then 1 else 0)
    : Owned count pool (threads.set index new) (number :: deleted) := by
  intro other
  have once := owned other
  have moved := total_set (Thread.holds other) isThread new
  rw [idle, holds] at moved
  rw [List.count_cons]
  simp only [beq_iff_eq]
  omega

/-- A sender that a thread uses. -/
theorem Owned.of_holds (owned : Owned count pool threads deleted) (isThread : threads[index]? = some old)
    (holds : old.holds number = 1)
    : number < count ∧ number ∉ pool ∧ number ∉ deleted := by
  have once := owned number
  have used := weight_le_total (Thread.holds number) (List.mem_of_getElem? isThread)
  rw [holds] at used
  split at once
  next inside =>
    exact ⟨inside, List.count_eq_zero.mp (by omega), List.count_eq_zero.mp (by omega)⟩
  next => omega

end Owned

-- Callbacks

def Sender.waits (batch : Nat) (sender : Sender) : Nat :=
  sender.callbacks.count batch

/-- How often a send has to call the callback of a batch. -/
def Send.waits (batch : Nat) (send : Send) : Nat :=
  send.pending.count batch

def calls (batch : Nat) (results : List (Nat × Bool)) : Nat :=
  results.countP (fun result => result.1 = batch)

/-- Every callback is in one place, or was called once. -/
def Placed (written : Nat) (rebaseQueue : List Nat) (threads : List Thread) (senders : List Sender)
    (sends : List Send) (results : List (Nat × Bool)) : Prop :=
  ∀ batch, rebaseQueue.count batch + total (Thread.carries batch) threads
      + total (Sender.waits batch) senders + total (Send.waits batch) sends + calls batch results
    = if batch < written then 1 else 0

theorem calls_append (batch : Nat) (left right : List (Nat × Bool))
    : calls batch (left ++ right) = calls batch left + calls batch right :=
  List.countP_append

theorem calls_map (batch : Nat) (batches : List Nat) (ok : Bool)
    : calls batch (batches.map (fun other => (other, ok))) = batches.count batch := by
  rw [calls, List.countP_map, List.count]
  exact List.countP_congr (fun other _ => by simp)

theorem total_fail (batch : Nat) (sends : List Send)
    : total (Send.waits batch) (sends.map Send.fail) = 0 := by
  refine total_eq_zero (fun send member => ?_)
  obtain ⟨⟨sender, facts, callbacks, answer⟩, _, rfl⟩ := List.mem_map.mp member
  cases answer <;> rfl

theorem count_pending (batch : Nat) (sends : List Send)
    : (sends.flatMap Send.pending).count batch = total (Send.waits batch) sends := by
  rw [List.count_flatMap]
  rfl

section Placed

variable {written index position batch number : Nat} {rebaseQueue rest : List Nat}
  {threads : List Thread} {senders : List Sender} {sends : List Send} {results : List (Nat × Bool)}
  {old new : Thread} {sender changed : Sender} {send : Send}

theorem Placed.setStage (placed : Placed written rebaseQueue threads senders sends results)
    (isThread : threads[index]? = some old) (same : ∀ batch, new.carries batch = old.carries batch)
    : Placed written rebaseQueue (threads.set index new) senders sends results := by
  intro batch
  have once := placed batch
  have moved := total_set (Thread.carries batch) isThread new
  rw [same] at moved
  omega

theorem Placed.setSender (placed : Placed written rebaseQueue threads senders sends results)
    (isSender : senders[number]? = some sender) (same : changed.callbacks = sender.callbacks)
    : Placed written rebaseQueue threads (senders.set number changed) sends results := by
  intro batch
  have once := placed batch
  have moved := total_set (Sender.waits batch) isSender changed
  rw [Sender.waits, Sender.waits, same] at moved
  omega

theorem Placed.spawn (placed : Placed written rebaseQueue threads senders sends results)
    (idle : ∀ batch, new.carries batch = 0)
    : Placed written rebaseQueue (threads ++ [new]) senders sends results := by
  intro batch
  rw [total_append, idle]
  exact placed batch

theorem Placed.write (placed : Placed written rebaseQueue threads senders sends results)
    : Placed (written + 1) (rebaseQueue ++ [written]) threads senders sends results := by
  intro batch
  have once := placed batch
  rw [List.count_append, List.count_singleton]
  simp only [beq_iff_eq]
  split at once <;> split <;> split <;> omega

theorem Placed.read (placed : Placed written (batch :: rest) threads senders sends results)
    (isThread : threads[index]? = some old) (idle : ∀ batch, old.carries batch = 0)
    (takes : ∀ other, new.carries other = if batch = other then 1 else 0)
    : Placed written rest (threads.set index new) senders sends results := by
  intro other
  have once := placed other
  have moved := total_set (Thread.carries other) isThread new
  rw [idle, takes] at moved
  rw [List.count_cons] at once
  simp only [beq_iff_eq] at once
  omega

/-- A thread passes its batch to a sender. -/
theorem Placed.append (placed : Placed written rebaseQueue threads senders sends results)
    (isThread : threads[index]? = some old) (idle : ∀ batch, new.carries batch = 0)
    (carries : ∀ other, old.carries other = if batch = other then 1 else 0)
    (isSender : senders[number]? = some sender)
    (isChanged : changed.callbacks = sender.callbacks ++ [batch])
    : Placed written rebaseQueue (threads.set index new) (senders.set number changed) sends results := by
  intro other
  have once := placed other
  have moved := total_set (Thread.carries other) isThread new
  have waits := total_set (Sender.waits other) isSender changed
  rw [idle, carries] at moved
  rw [Sender.waits, Sender.waits, isChanged, List.count_append, List.count_singleton] at waits
  simp only [beq_iff_eq] at waits
  omega

/-- A sender passes its callbacks to the send queue. -/
theorem Placed.flush (placed : Placed written rebaseQueue threads senders sends results)
    (isSender : senders[number]? = some sender) (isChanged : changed.callbacks = [])
    (isSend : send.pending = sender.callbacks)
    : Placed written rebaseQueue threads (senders.set number changed) (sends ++ [send]) results := by
  intro other
  have once := placed other
  have waits := total_set (Sender.waits other) isSender changed
  rw [Sender.waits, Sender.waits, isChanged, List.count_nil] at waits
  rw [total_append, Send.waits, isSend]
  omega

theorem Placed.reply (placed : Placed written rebaseQueue threads senders sends results)
    (isSend : sends[position]? = some send) {answered : Send} (isAnswered : answered.pending = [])
    (ok : Bool)
    : Placed written rebaseQueue threads senders (sends.set position answered)
        (results ++ send.pending.map (fun batch => (batch, ok))) := by
  intro other
  have once := placed other
  have moved := total_set (Send.waits other) isSend answered
  rw [Send.waits, Send.waits, isAnswered, List.count_nil] at moved
  rw [calls_append, calls_map]
  omega

theorem Placed.fail (placed : Placed written rebaseQueue threads senders sends results)
    : Placed written rebaseQueue threads senders (sends.map Send.fail)
        (results ++ (sends.flatMap Send.pending).map (fun batch => (batch, false))) := by
  intro other
  have once := placed other
  rw [calls_append, calls_map, count_pending, total_fail]
  omega

end Placed

-- Tokens

/-- Whether the variable of a sender is full. -/
def Sender.full (sender : Sender) : Nat :=
  if sender.substVar.isSome then 1 else 0

/-- Whether a thread has emptied the variable of a sender, and has not sent its facts. -/
def Thread.took (number : Nat) (thread : Thread) : Nat :=
  match thread.stage with
  | .rebasing other _ | .flushing other => if other = number then 1 else 0
  | _ => 0

/-- A thread without a token. -/
theorem Thread.stage_of_idle {thread : Thread} (idle : ∀ number, thread.took number = 0) (number : Nat)
    : (∀ subst, thread.stage ≠ .rebasing number subst) ∧ thread.stage ≠ .flushing number := by
  refine ⟨fun subst isStage => ?_, fun isStage => ?_⟩
  all_goals
    have isZero := idle number
    rw [Thread.took, isStage] at isZero
    simp at isZero

/-- Whether the facts of a sender are in flight. -/
def Send.inFlight (number : Nat) (send : Send) : Nat :=
  if send.answer = none ∧ send.sender = number then 1 else 0

/-- The variable of a sender is full, or one thread has emptied it, or one send will fill it. -/
def Tokens (failed : Bool) (senders : List Sender) (threads : List Thread) (sends : List Send) : Prop :=
  ∀ number sender, senders[number]? = some sender →
    sender.full + total (Thread.took number) threads + total (Send.inFlight number) sends ≤ 1
      ∧ (failed = false →
        1 ≤ sender.full + total (Thread.took number) threads + total (Send.inFlight number) sends)

section Tokens

variable {failed : Bool} {index position number : Nat} {threads : List Thread} {senders : List Sender}
  {sends : List Send} {old new thread : Thread} {sender changed : Sender} {send : Send}

theorem Tokens.setStage (tokens : Tokens failed senders threads sends)
    (isThread : threads[index]? = some old) (same : ∀ number, new.took number = old.took number)
    : Tokens failed senders (threads.set index new) sends := by
  intro number sender isSender
  have moved := total_set (Thread.took number) isThread new
  rw [same] at moved
  rw [Nat.add_right_cancel moved]
  exact tokens number sender isSender

theorem Tokens.spawn (tokens : Tokens failed senders threads sends)
    (idle : ∀ number, new.took number = 0)
    : Tokens failed senders (threads ++ [new]) sends := by
  intro number sender isSender
  rw [total_append, idle]
  exact tokens number sender isSender

/-- A token moves between a sender, a thread and a send. -/
theorem Tokens.move (tokens : Tokens failed senders threads sends)
    {afterThreads : List Thread} {afterSends : List Send} (isSender : senders[number]? = some sender)
    (moved : changed.full + total (Thread.took number) afterThreads
        + total (Send.inFlight number) afterSends
      = sender.full + total (Thread.took number) threads + total (Send.inFlight number) sends)
    (others : ∀ other, other ≠ number →
      total (Thread.took other) afterThreads = total (Thread.took other) threads
        ∧ total (Send.inFlight other) afterSends = total (Send.inFlight other) sends)
    : Tokens failed (senders.set number changed) afterThreads afterSends := by
  intro other otherSender isOther
  by_cases same : number = other
  · subst same
    rw [List.getElem?_set_self (List.getElem?_eq_some_iff.mp isSender).1] at isOther
    obtain rfl := Option.some.inj isOther
    rw [moved]
    exact tokens number sender isSender
  · rw [List.getElem?_set_ne same] at isOther
    obtain ⟨sameThreads, sameSends⟩ := others other (Ne.symm same)
    rw [sameThreads, sameSends]
    exact tokens other otherSender isOther

theorem Tokens.setSender (tokens : Tokens failed senders threads sends)
    (isSender : senders[number]? = some sender) (same : changed.substVar = sender.substVar)
    : Tokens failed (senders.set number changed) threads sends := by
  refine tokens.move isSender ?_ (fun _ _ => ⟨rfl, rfl⟩)
  rw [Sender.full, Sender.full, same]

/-- A thread that has emptied the variable of a sender is the only one. -/
theorem Tokens.alone (tokens : Tokens failed senders threads sends)
    (isSender : senders[number]? = some sender) (isThread : threads[index]? = some old)
    (took : old.took number = 1) (new : Thread)
    : sender.substVar = none
      ∧ (∀ thread ∈ threads.set index new, thread.took number = 0 ∨ thread = new)
      ∧ ∀ send ∈ sends, send.inFlight number = 0 := by
  have one := (tokens number sender isSender).1
  have used := weight_le_total (Thread.took number) (List.mem_of_getElem? isThread)
  rw [took] at used
  refine ⟨?_, fun thread member => ?_, fun send member => ?_⟩
  · by_contra isFull
    rw [Sender.full, if_pos (Option.isSome_iff_ne_none.mpr isFull)] at one
    omega
  · rcases eq_or_mem_set ⟨.writer, .finished⟩ member with isNew | isOther
    · exact .inr isNew
    · have moved := total_set (Thread.took number) isThread ⟨.writer, .finished⟩
      have least := weight_le_total (Thread.took number) isOther
      have isZero : Thread.took number ⟨.writer, .finished⟩ = 0 := rfl
      rw [took, isZero] at moved
      exact .inl (by omega)
  · have least := weight_le_total (Send.inFlight number) member
    omega

end Tokens

-- Facts

/-- The facts of a sender that were created, but were not sent, come after some that were sent. -/
def Sender.Pending (sender : Sender) (inFlight : Nat) : Prop :=
  sender.sent.length + sender.facts.facts.length = sender.created + inFlight

section Contents

variable (varint : Varint) (u8 : U8Next) (inventory : Inventory) (batches : List Batch)
  (server : Set Fact)

/-- The server has numbered the first facts of a sender. -/
structure Answered (sender : Sender) (subst : Substitution) : Prop where
  replied : Replied varint u8 inventory server sender.facts subst
  pending : sender.Pending subst.items.length

/-- The first facts of a sender are in flight. -/
structure InFlight (sender : Sender) (facts : FactSet) : Prop where
  startingId : facts.startingId = sender.facts.startingId
  isPrefix : facts.facts <+: sender.facts.facts
  pending : sender.Pending facts.facts.length

/-- What the tokens of the senders say about their facts. -/
structure Fits (senders : List Sender) (threads : List Thread) (sends : List Send) : Prop where
  fresh
    : ∀ {number : Nat} {sender : Sender}, senders[number]? = some sender → sender.substVar = some none →
        sender.Pending 0
  answered
    : ∀ {number : Nat} {sender : Sender} {subst}, senders[number]? = some sender →
        sender.substVar = some (some subst) →
        Answered varint u8 inventory server sender subst
  rebasing
    : ∀ {thread} {number : Nat} {sender : Sender} {subst}, thread ∈ threads → thread.stage = .rebasing number subst →
        senders[number]? = some sender → Answered varint u8 inventory server sender subst
  flushing
    : ∀ {thread} {number : Nat} {sender : Sender}, thread ∈ threads → thread.stage = .flushing number →
        senders[number]? = some sender → sender.Pending 0
  inFlight
    : ∀ {send} {sender : Sender}, send ∈ sends → send.answer = none → senders[send.sender]? = some sender →
        InFlight sender send.facts

/-- Facts refer to each other and to those of the server, and have those of some batches. -/
structure Carries (facts : FactSet) (callbacks : List Nat) : Prop where
  typed : ∀ fact ∈ facts.facts, fact.WellTyped varint u8 inventory (Known server facts)
  denotes
    : ∀ number ∈ callbacks, ∃ batch subst place, batches[number]? = some batch
        ∧ DenotesBatch varint u8 inventory (Known server facts) batch subst place

structure SenderOk (sender : Sender) : Prop where
  carries : Carries varint u8 inventory batches server sender.facts sender.callbacks
  words : sender.facts.firstFreeId < 2 ^ 64
  sent : sender.sent = List.range sender.sent.length
  flushed : sender.callbacks = [] → sender.sent.length = sender.created

end Contents

section Facts

variable {batches : List Batch} {server larger : Set Fact} {senders : List Sender}
  {threads : List Thread} {sends : List Send} {index number : Nat} {old new : Thread}
  {sender changed : Sender} {send : Send} {facts : FactSet} {callbacks : List Nat}

theorem Carries.mono (carries : Carries varint u8 inventory batches server facts callbacks)
    (store : Store varint u8 inventory server) (grows : server ⊆ larger)
    : Carries varint u8 inventory batches larger facts callbacks where
  typed := fun fact member => (carries.typed fact member).mono (Known.mono grows facts)
  denotes := by
    intro number member
    obtain ⟨batch, subst, place, isBatch, denotes⟩ := carries.denotes number member
    refine ⟨batch, subst, place, isBatch, denotes.mono (Known.mono grows facts) ?_⟩
    exact fun fact known => ((Known.basis store carries.typed).valid fact known).1

theorem Carries.write (carries : Carries varint u8 inventory batches server facts callbacks)
    (batch : Batch)
    : Carries varint u8 inventory (batches ++ [batch]) server facts callbacks where
  typed := carries.typed
  denotes := by
    intro number member
    obtain ⟨other, subst, place, isBatch, denotes⟩ := carries.denotes number member
    refine ⟨other, subst, place, ?_, denotes⟩
    rw [List.getElem?_append_left (List.getElem?_eq_some_iff.mp isBatch).1, isBatch]

theorem getElem?_set_cases {other : Nat} {result : Sender} (isSender : senders[number]? = some sender)
    (isResult : (senders.set number changed)[other]? = some result)
    : (other = number ∧ result = changed) ∨ (other ≠ number ∧ senders[other]? = some result) := by
  by_cases same : number = other
  · subst same
    rw [List.getElem?_set_self (List.getElem?_eq_some_iff.mp isSender).1] at isResult
    exact .inl ⟨rfl, (Option.some.inj isResult).symm⟩
  · rw [List.getElem?_set_ne same] at isResult
    exact .inr ⟨Ne.symm same, isResult⟩

namespace Fits

theorem mono (fits : Fits varint u8 inventory server senders threads sends) (grows : server ⊆ larger)
    : Fits varint u8 inventory larger senders threads sends where
  fresh := fits.fresh
  answered isSender isSubst :=
    have answered := fits.answered isSender isSubst
    ⟨answered.replied.mono grows, answered.pending⟩
  rebasing member isStage isSender :=
    have answered := fits.rebasing member isStage isSender
    ⟨answered.replied.mono grows, answered.pending⟩
  flushing := fits.flushing
  inFlight := fits.inFlight

/-- The facts of a sender have changed in a way that fits all tokens. -/
theorem setSender (fits : Fits varint u8 inventory server senders threads sends)
    (isSender : senders[number]? = some sender)
    (isFresh : changed.substVar = some none → changed.Pending 0)
    (isAnswered : ∀ subst, changed.substVar = some (some subst) →
      Answered varint u8 inventory server changed subst)
    (pending : sender.Pending 0 → changed.Pending 0)
    (answered : ∀ subst, Answered varint u8 inventory server sender subst →
      Answered varint u8 inventory server changed subst)
    (inFlight : ∀ facts, InFlight sender facts → InFlight changed facts)
    : Fits varint u8 inventory server (senders.set number changed) threads sends where
  fresh isOther isVar := by
    rcases getElem?_set_cases isSender isOther with ⟨rfl, rfl⟩ | ⟨-, before⟩
    · exact isFresh isVar
    · exact fits.fresh before isVar
  answered isOther isVar := by
    rcases getElem?_set_cases isSender isOther with ⟨rfl, rfl⟩ | ⟨-, before⟩
    · exact isAnswered _ isVar
    · exact fits.answered before isVar
  rebasing member isStage isOther := by
    rcases getElem?_set_cases isSender isOther with ⟨rfl, rfl⟩ | ⟨-, before⟩
    · exact answered _ (fits.rebasing member isStage isSender)
    · exact fits.rebasing member isStage before
  flushing member isStage isOther := by
    rcases getElem?_set_cases isSender isOther with ⟨rfl, rfl⟩ | ⟨-, before⟩
    · exact pending (fits.flushing member isStage isSender)
    · exact fits.flushing member isStage before
  inFlight member isOpen isOther := by
    rcases getElem?_set_cases isSender isOther with ⟨isNumber, rfl⟩ | ⟨-, before⟩
    · exact inFlight _ (fits.inFlight member isOpen (isNumber ▸ isSender))
    · exact fits.inFlight member isOpen before

theorem setStage (fits : Fits varint u8 inventory server senders threads sends)
    (rebasing : ∀ {number sender subst}, new.stage = .rebasing number subst →
      senders[number]? = some sender → Answered varint u8 inventory server sender subst)
    (flushing : ∀ {number} {sender : Sender}, new.stage = .flushing number →
      senders[number]? = some sender → sender.Pending 0)
    : Fits varint u8 inventory server senders (threads.set index new) sends where
  fresh := fits.fresh
  answered := fits.answered
  rebasing member isStage isSender := by
    rcases List.mem_or_eq_of_mem_set member with kept | rfl
    · exact fits.rebasing kept isStage isSender
    · exact rebasing isStage isSender
  flushing member isStage isSender := by
    rcases List.mem_or_eq_of_mem_set member with kept | rfl
    · exact fits.flushing kept isStage isSender
    · exact flushing isStage isSender
  inFlight := fits.inFlight

/-- A thread without a token. -/
theorem setIdle (fits : Fits varint u8 inventory server senders threads sends)
    (idle : ∀ number, new.took number = 0)
    : Fits varint u8 inventory server senders (threads.set index new) sends := by
  refine fits.setStage (fun {number _ subst} isStage => ?_) (fun {number _} isStage => ?_)
  · exact absurd isStage ((Thread.stage_of_idle idle number).1 subst)
  · exact absurd isStage (Thread.stage_of_idle idle number).2

theorem spawn (fits : Fits varint u8 inventory server senders threads sends)
    (idle : ∀ number, new.took number = 0)
    : Fits varint u8 inventory server senders (threads ++ [new]) sends where
  fresh := fits.fresh
  answered := fits.answered
  rebasing {_ number _ subst} member isStage isSender := by
    rcases List.mem_append.mp member with old | isNew
    · exact fits.rebasing old isStage isSender
    · rw [List.mem_singleton.mp isNew] at isStage
      exact absurd isStage ((Thread.stage_of_idle idle number).1 subst)
  flushing {_ number _} member isStage isSender := by
    rcases List.mem_append.mp member with old | isNew
    · exact fits.flushing old isStage isSender
    · rw [List.mem_singleton.mp isNew] at isStage
      exact absurd isStage (Thread.stage_of_idle idle number).2
  inFlight := fits.inFlight

/-- The only thread with the token of a sender changes its facts. -/
theorem setAlone {failed : Bool} (fits : Fits varint u8 inventory server senders threads sends)
    (tokens : Tokens failed senders threads sends) (isSender : senders[number]? = some sender)
    (isThread : threads[index]? = some old) (took : old.took number = 1)
    (same : changed.substVar = sender.substVar)
    (isNew : ∀ other subst, new.stage ≠ .rebasing other subst)
    (flushing : ∀ other, new.stage = .flushing other → other = number ∧ changed.Pending 0)
    : Fits varint u8 inventory server (senders.set number changed) (threads.set index new) sends := by
  obtain ⟨isEmpty, onlyNew, noSend⟩ := tokens.alone isSender isThread took new
  have isNone : changed.substVar = none := same.trans isEmpty
  constructor
  case fresh =>
    intro other result isOther isVar
    rcases getElem?_set_cases isSender isOther with ⟨rfl, rfl⟩ | ⟨-, before⟩
    · rw [isNone] at isVar
      cases isVar
    · exact fits.fresh before isVar
  case answered =>
    intro other result subst isOther isVar
    rcases getElem?_set_cases isSender isOther with ⟨rfl, rfl⟩ | ⟨-, before⟩
    · rw [isNone] at isVar
      cases isVar
    · exact fits.answered before isVar
  case rebasing =>
    intro thread other result subst member isStage isOther
    rcases getElem?_set_cases isSender isOther with ⟨rfl, rfl⟩ | ⟨-, before⟩
    · rcases onlyNew thread member with idle | rfl
      · rw [Thread.took, isStage] at idle
        simp at idle
      · exact absurd isStage (isNew _ _)
    · rcases List.mem_or_eq_of_mem_set member with kept | rfl
      · exact fits.rebasing kept isStage before
      · exact absurd isStage (isNew _ _)
  case flushing =>
    intro thread other result member isStage isOther
    rcases getElem?_set_cases isSender isOther with ⟨rfl, rfl⟩ | ⟨different, before⟩
    · rcases onlyNew thread member with idle | rfl
      · rw [Thread.took, isStage] at idle
        simp at idle
      · exact (flushing _ isStage).2
    · rcases List.mem_or_eq_of_mem_set member with kept | rfl
      · exact fits.flushing kept isStage before
      · exact absurd (flushing _ isStage).1 different
  case inFlight =>
    intro send result member isOpen isOther
    rcases getElem?_set_cases isSender isOther with ⟨isNumber, rfl⟩ | ⟨-, before⟩
    · have idle := noSend send member
      rw [Send.inFlight, if_pos ⟨isOpen, isNumber⟩] at idle
      cases idle
    · exact fits.inFlight member isOpen before

theorem flush (fits : Fits varint u8 inventory server senders threads sends)
    (isInFlight : ∀ sender, senders[send.sender]? = some sender → InFlight sender send.facts)
    : Fits varint u8 inventory server senders threads (sends ++ [send]) where
  fresh := fits.fresh
  answered := fits.answered
  rebasing := fits.rebasing
  flushing := fits.flushing
  inFlight member isOpen isSender := by
    rcases List.mem_append.mp member with old | isNew
    · exact fits.inFlight old isOpen isSender
    · obtain rfl := List.mem_singleton.mp isNew
      exact isInFlight _ isSender

/-- Fewer sends are in flight. -/
theorem answer {after : List Send} (fits : Fits varint u8 inventory server senders threads sends)
    (fewer : ∀ send ∈ after, send.answer = none → send ∈ sends)
    : Fits varint u8 inventory server senders threads after where
  fresh := fits.fresh
  answered := fits.answered
  rebasing := fits.rebasing
  flushing := fits.flushing
  inFlight member isOpen isSender := fits.inFlight (fewer _ member isOpen) isOpen isSender

end Fits

-- One sender

namespace SenderOk

theorem mono (ok : SenderOk varint u8 inventory batches server sender)
    (store : Store varint u8 inventory server) (grows : server ⊆ larger)
    : SenderOk varint u8 inventory batches larger sender :=
  ⟨ok.carries.mono store grows, ok.words, ok.sent, ok.flushed⟩

theorem write (ok : SenderOk varint u8 inventory batches server sender) (batch : Batch)
    : SenderOk varint u8 inventory (batches ++ [batch]) server sender :=
  ⟨ok.carries.write batch, ok.words, ok.sent, ok.flushed⟩

/-- The new facts of a batch are appended. -/
theorem append {factSet after : FactSet} {batch : Batch} {subst : Substitution}
    (ok : SenderOk varint u8 inventory batches server sender)
    (store : Store varint u8 inventory server)
    (appended : Appended varint u8 inventory server sender.facts factSet after batch subst)
    (room : sender.facts.firstFreeId + batch.count < 2 ^ 64) (isBatch : batches[number]? = some batch)
    : SenderOk varint u8 inventory batches server
        { sender with
          facts := after
          callbacks := sender.callbacks ++ [number]
          created := sender.created + factSet.facts.length } where
  carries :=
    { typed := appended.typed
      denotes := by
        intro other member
        rcases List.mem_append.mp member with before | isNew
        · obtain ⟨otherBatch, otherSubst, place, isOther, denotes⟩ := ok.carries.denotes other before
          have isPrefix : sender.facts.facts <+: after.facts := ⟨_, appended.facts.symm⟩
          refine ⟨otherBatch, otherSubst, place, isOther,
            denotes.mono (Known.grow appended.startingId isPrefix) ?_⟩
          exact fun fact known => ((Known.basis store ok.carries.typed).valid fact known).1
        · obtain rfl := List.mem_singleton.mp isNew
          exact ⟨batch, subst, id, isBatch, appended.denotes⟩ }
  words := by
    have length := appended.length
    change after.firstFreeId < _
    rw [FactSet.firstFreeId] at room ⊢
    rw [appended.startingId, appended.facts, List.length_append]
    lia
  sent := ok.sent
  flushed noCallbacks := by
    exact absurd noCallbacks (List.append_ne_nil_of_right_ne_nil _ (List.cons_ne_nil _ _))

/-- The facts that the server has numbered are dropped, and the others renumbered. -/
theorem rebase {after : FactSet} {inserted : List Fact} {subst : Substitution}
    (ok : SenderOk varint u8 inventory batches server sender)
    (store : Store varint u8 inventory server)
    (rebased : Rebased varint u8 inventory server sender.facts subst inserted after)
    (room : subst.firstFreeId + sender.facts.facts.length < 2 ^ 64)
    : SenderOk varint u8 inventory batches server { sender with facts := after } := by
  have words : after.firstFreeId < 2 ^ 64 := by
    rw [FactSet.firstFreeId, rebased.startingId, rebased.length]
    lia
  refine ⟨⟨rebased.typed, fun other member => ?_⟩, words, ok.sent, ok.flushed⟩
  obtain ⟨batch, otherSubst, place, isBatch, denotes⟩ := ok.carries.denotes other member
  refine ⟨batch, otherSubst, subst.rebaser ∘ place, isBatch, ?_⟩
  exact denotes.move (fun _ _ _ _ => rebased.denotes store words.le)

/-- All facts are sent. -/
theorem flush (ok : SenderOk varint u8 inventory batches server sender) (pending : sender.Pending 0)
    : SenderOk varint u8 inventory batches server sender.flushed := by
  have isPending : sender.sent.length + sender.facts.facts.length = sender.created := pending
  have isRest : sender.created - sender.facts.facts.length = sender.sent.length := by lia
  have isSent : sender.flushed.sent = List.range sender.created := by
    change sender.sent ++ List.range' (sender.created - _) _ = _
    rw [isRest, ← isPending, List.range_add, ← List.range'_eq_map_range, ← ok.sent]
  have length : sender.flushed.sent.length = sender.created := by
    rw [isSent, List.length_range]
  refine ⟨⟨ok.carries.typed, fun other member => ?_⟩, ok.words, ?_, fun _ => length⟩
  · cases member
  · rw [length, isSent]

end SenderOk

/-- The token of a flushed sender. -/
theorem inFlight_flushed (pending : sender.Pending 0) : InFlight sender.flushed sender.facts := by
  refine ⟨rfl, List.prefix_refl _, ?_⟩
  have isPending : sender.sent.length + sender.facts.facts.length = sender.created := pending
  change (sender.sent ++ List.range' _ _).length + sender.facts.facts.length
    = sender.created + sender.facts.facts.length
  rw [List.length_append, List.length_range', isPending]

end Facts

end Glean.Write.SendAndRebaseQueue
