import Glean.Library.Machine
import Glean.RTS.RebaseBatch

/-! Queues that rebase batches before they send them (`Glean.Write.SendAndRebaseQueue`). A pool of
senders accumulates facts while an earlier part of them is in flight. Each event is one transaction
or one action of a thread.
-/

namespace Glean.Write.SendAndRebaseQueue

open RTS

/-- `Sender`. A callback is given by the number of its batch. `created` counts the facts that the
sender has got, and `sent` lists those of them that it has sent.
-/
structure Sender where
  substVar : Option (Option Substitution)
  facts : FactSet
  callbacks : List Nat
  created : Nat
  sent : List Nat

/-- A batch in the send queue, with the callbacks that it runs when the server has answered. The answer
is whether it was a substitution.
-/
structure Send where
  sender : Nat
  facts : FactSet
  callbacks : List Nat
  answer : Option Bool

inductive Stage where
  /-- Before `serviceRebaseQueue` reads a batch, or `deleteSenderPool` a sender. -/
  | servicing
  /-- With a batch, before it reads a sender. -/
  | holding (batch : Nat)
  /-- In `senderSendOrAppend` -/
  | appending (sender batch : Nat)
  /-- In `senderRebaseAndFlush`, before it reads the substitution. -/
  | checking (sender : Nat)
  | rebasing (sender : Nat) (subst : Substitution)
  /-- In `senderFlush` -/
  | flushing (sender : Nat)
  /-- Before the sender goes back to the pool. -/
  | returning (sender : Nat)
  | finished
  /-- An exception was thrown. -/
  | failed

/-- A call of `writeSendAndRebaseQueue`, or the shutdown. -/
inductive Role where
  | writer
  | closer
  deriving DecidableEq

structure Thread where
  role : Role
  stage : Stage

/-- `SendAndRebaseQueue` with its threads, the batches that were written, the facts that were inserted
into the cache, those that the server has, and the calls of callbacks: a batch, and whether it was
called with `Right`.
-/
structure State where
  batches : List Batch
  rebaseQueue : List Nat
  pool : List Nat
  senders : List Sender
  threads : List Thread
  sends : List Send
  /-- Whether the send queue has failed. -/
  failed : Bool
  /-- The senders that `deleteSenderPool` has still to read. -/
  closing : Option Nat
  /-- The senders that it has flushed. -/
  deleted : List Nat
  inserted : List Fact
  server : Set Fact
  results : List (Nat × Bool)

namespace State

def setStage (state : State) (index : Nat) (role : Role) (stage : Stage) : State :=
  { state with threads := state.threads.set index ⟨role, stage⟩ }

def setSender (state : State) (index : Nat) (sender : Sender) : State :=
  { state with senders := state.senders.set index sender }

end State

inductive Event where
  /-- A call of `writeSendAndRebaseQueue` starts. -/
  | write (batch : Batch)
  /-- Read the next batch, or the next sender to delete. -/
  | service (thread : Nat)
  /-- Read a sender. -/
  | acquire (thread : Nat)
  /-- Rebase a batch and append it; `evicted` says which facts the cache has lost at each fact. -/
  | append (thread : Nat) (evicted : Nat → Fact → Bool)
  /-- Look for a substitution; the shutdown waits for it. -/
  | check (thread : Nat)
  | rebase (thread : Nat)
  | flush (thread : Nat)
  | release (thread : Nat)
  /-- The action has returned. -/
  | shutdown
  /-- The server answers with a substitution, and has more facts. -/
  | reply (send : Nat) (subst : Substitution) (server : Set Fact)
  /-- The send queue fails, with all that is in it. -/
  | fail

section Step

variable (varint : Varint) (u8 : U8Next) (inventory : Inventory)

/-- What the cache has, without what it has lost. -/
def State.cached (state : State) (evicted : Nat → Fact → Bool) (index : Nat) : List Fact :=
  state.inserted.filter (fun fact => ¬ evicted index fact)

/-- The stage after `senderRebaseAndFlush`. -/
def Role.done (role : Role) (sender : Nat) : Stage :=
  match role with
  | .writer => .returning sender
  | .closer => .servicing

/-- A sender that was flushed by the shutdown is not returned. -/
def State.drop (state : State) (role : Role) (sender : Nat) : State :=
  match role with
  | .writer => state
  | .closer => { state with deleted := sender :: state.deleted }

def Sender.flushed (sender : Sender) : Sender :=
  { sender with
    callbacks := []
    sent := sender.sent
      ++ List.range' (sender.created - sender.facts.facts.length) sender.facts.facts.length }

def Send.fail (send : Send) : Send :=
  match send.answer with
  | some _ => send
  | none => { send with answer := some false }

/-- The callbacks that a failure runs. -/
def Send.pending (send : Send) : List Nat :=
  match send.answer with
  | some _ => []
  | none => send.callbacks

def step (state : State) : Event → Option State
  | .write batch =>
      some { state with
        batches := state.batches ++ [batch]
        rebaseQueue := state.rebaseQueue ++ [state.batches.length]
        threads := state.threads ++ [⟨.writer, .servicing⟩] }
  | .service index =>
      match state.threads[index]? with
      | some ⟨.writer, .servicing⟩ =>
          match state.rebaseQueue with
          | [] => some (state.setStage index .writer .finished)
          | batch :: rest =>
              some ({ state with rebaseQueue := rest }.setStage index .writer (.holding batch))
      | some ⟨.closer, .servicing⟩ =>
          match state.closing, state.pool with
          | some (remaining + 1), sender :: rest =>
              some ({ state with pool := rest, closing := some remaining }.setStage index .closer
                (.checking sender))
          | some 0, _ => some (state.setStage index .closer .finished)
          | _, _ => none
      | _ => none
  | .acquire index =>
      match state.threads[index]?, state.pool with
      | some ⟨role, .holding batch⟩, sender :: rest =>
          some ({ state with pool := rest }.setStage index role (.appending sender batch))
      | _, _ => none
  | .append index evicted =>
      match state.threads[index]? with
      | some ⟨role, .appending number batchNumber⟩ =>
          match state.senders[number]?, state.batches[batchNumber]? with
          | some sender, some batch =>
              match rebaseBatch varint u8 inventory sender.facts (state.cached evicted) batch with
              | .ok (factSet, _) =>
                  match sender.facts.append factSet with
                  | some facts =>
                      some ((state.setSender number
                        { sender with
                          facts
                          callbacks := sender.callbacks ++ [batchNumber]
                          created := sender.created + factSet.facts.length }).setStage index role
                        (.checking number))
                  | none => some (state.setStage index role .failed)
              | _ => some (state.setStage index role .failed)
          | _, _ => none
      | _ => none
  | .check index =>
      match state.threads[index]? with
      | some ⟨role, .checking number⟩ =>
          match state.senders[number]? with
          | some sender =>
              match sender.substVar with
              | none =>
                  match role with
                  | .writer => some (state.setStage index .writer (.returning number))
                  | .closer => none
              | some none =>
                  some ((state.setSender number { sender with substVar := none }).setStage index role
                    (.flushing number))
              | some (some subst) =>
                  some ((state.setSender number { sender with substVar := none }).setStage index role
                    (.rebasing number subst))
          | none => none
      | _ => none
  | .rebase index =>
      match state.threads[index]? with
      | some ⟨role, .rebasing number subst⟩ =>
          match state.senders[number]? with
          | some sender =>
              match sender.facts.rebase varint u8 inventory subst with
              | .ok (inserted, facts) =>
                  some (({ state with inserted := state.inserted ++ inserted }.setSender number
                    { sender with facts }).setStage index role (.flushing number))
              | _ => some (state.setStage index role .failed)
          | none => none
      | _ => none
  | .flush index =>
      match state.threads[index]? with
      | some ⟨role, .flushing number⟩ =>
          match state.senders[number]? with
          | some sender =>
              if state.failed then
                some (state.setStage index role .failed)
              else
                some ((({ state with
                    sends := state.sends ++ [Send.mk number sender.facts sender.callbacks none]
                  }.setSender number sender.flushed).setStage index role (role.done number)).drop role
                    number)
          | none => none
      | _ => none
  | .release index =>
      match state.threads[index]? with
      | some ⟨role, .returning number⟩ =>
          some ({ state with pool := state.pool ++ [number] }.setStage index role .servicing)
      | _ => none
  | .shutdown =>
      match state.closing with
      | none =>
          some { state with
            closing := some state.senders.length
            threads := state.threads ++ [⟨.closer, .servicing⟩] }
      | some _ => none
  | .reply index subst server =>
      match state.sends[index]? with
      | some ⟨number, facts, callbacks, none⟩ =>
          match state.senders[number]? with
          | some sender =>
              -- `putTMVar` waits until the variable is empty
              match sender.substVar with
              | none =>
                  some { state.setSender number { sender with substVar := some (some subst) } with
                    sends := state.sends.set index ⟨number, facts, callbacks, some true⟩
                    server
                    results := state.results ++ callbacks.map (fun batch => (batch, true)) }
              | some _ => none
          | none => none
      | _ => none
  | .fail =>
      some { state with
        failed := true
        sends := state.sends.map Send.fail
        results := state.results
          ++ (state.sends.flatMap Send.pending).map (fun batch => (batch, false)) }

end Step

/-- `createSenderPool` -/
def newSender : Sender where
  substVar := some none
  facts := .new Id.lowest (by decide)
  callbacks := []
  created := 0
  sent := []

/-- `withSendAndRebaseQueue`, with some senders. -/
def opened (senders : Nat) (server : Set Fact) : State where
  batches := []
  rebaseQueue := []
  pool := List.range senders
  senders := List.replicate senders newSender
  threads := []
  sends := []
  failed := false
  closing := none
  deleted := []
  inserted := []
  server := server
  results := []

end Glean.Write.SendAndRebaseQueue
