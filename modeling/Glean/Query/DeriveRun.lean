import Glean.Query.Derive
import Glean.Library.Threads

/-! When the catalog marks a predicate complete, over all interleavings of a derivation with
the writer threads and the reaping of write handles.
-/

namespace Glean.Query

open Glean.Database

-- What completeness should mean

namespace State

def Committed (state : State) (handle : Handle) : Prop :=
  state.results handle = some (.ok ())

/-- Every page of every batch was executed and its writes were committed. -/
def Derived (state : State) : Prop :=
  state.AllFinished ∧ ∀ handle ∈ state.issued, state.Committed handle

/-- The derivation takes no further step of its own. -/
def Over (state : State) : Prop :=
  state.phase = .ended ∨ state.phase = .abandoned ∨ state.phase = .failed

/-- A predicate is marked complete only if it was derived, and a failed write is reported. -/
structure Faithful (state : State) : Prop where
  complete : state.pred ∈ state.metadata.completePredicates → state.Derived
  reported
    : state.Over → ∀ handle ∈ state.issued, ∀ exception,
        state.results handle = some (.error exception) → state.derivation.error ≠ none

end State

/-- The steps that do not go wrong: the last page of a batch that brings no write while none is
pending is the last page of all batches; a write whose handle is unknown was committed;
`finishOwnership` throws only when all writes were committed.
-/
def Sound (state : State) : Event → Prop
  | .addProgress index =>
      match state.workers[index]? with
      | some (.answered _ false none) =>
          state.derivation.error = none → state.derivation.pendingWrites = [] →
            state.producing = false
              ∧ ∀ other worker, other ≠ index → state.workers[other]? = some worker →
                  worker = .finished
      | _ => True
  | .poll =>
      match state.phase with
      | .polling (handle :: _) _ =>
          (pollBatch (state.now + state.writesKeep) state.writes state.results handle).1
            = .error .unknownBatchHandle → state.Committed handle
      | _ => True
  | .finishOwnership false =>
      match state.phase with
      | .polled (.ok finished) =>
          state.derivation.error = none →
            ∀ handle ∈ state.derivation.pendingWrites, handle ∈ finished
      | _ => True
  | _ => True

-- The invariant

/-- The write that a worker has enqueued and not yet recorded. -/
def Worker.handle? : Worker → Option Handle
  | .enqueued _ _ handle => some handle
  | .answered _ _ written => written
  | _ => none

/-- `runDerivation` has returned. -/
def Phase.Returned : Phase → Prop
  | .running | .failed => False
  | _ => True

/-- The checkpoint has started. -/
def Phase.Started : Phase → Prop
  | .running | .failed | .returned | .waiting => False
  | _ => True

/-- The jobs behind the checkpoint. -/
def afterCheckpoint : List WriteJob → List WriteJob
  | [] => []
  | .checkpoint :: rest => rest
  | _ :: rest => afterCheckpoint rest

theorem afterCheckpoint_append_of_mem {queue : List WriteJob} (jobs : List WriteJob)
    (queued : .checkpoint ∈ queue)
    : afterCheckpoint (queue ++ jobs) = afterCheckpoint queue ++ jobs := by
  induction queue with
  | nil => cases queued
  | cons job rest ih =>
      cases job with
      | checkpoint => rfl
      | write handle => exact ih (by simpa using queued)
      | otherCheckpoint => exact ih (by simpa using queued)

theorem afterCheckpoint_append_of_not_mem {queue : List WriteJob} (jobs : List WriteJob)
    (absent : .checkpoint ∉ queue)
    : afterCheckpoint (queue ++ jobs) = afterCheckpoint jobs := by
  induction queue with
  | nil => rfl
  | cons job rest ih =>
      cases job with
      | checkpoint => simp at absent
      | write handle => exact ih (by simpa using absent)
      | otherCheckpoint => exact ih (by simpa using absent)

/-- A write of this derivation is recorded as pending, or a worker is yet to record it, or a
worker has failed.
-/
def State.Recorded (state : State) (handle : Handle) : Prop :=
  handle ∈ state.derivation.pendingWrites
    ∨ (∃ worker ∈ state.workers, worker.handle? = some handle)
    ∨ .failed ∈ state.workers

/-- What holds in every state of a run with sound steps. -/
structure Inv (state : State) : Prop where
  tracked
    : ∀ handle ∈ state.issued, .write handle ∈ state.queue ∨ handle ∈ state.executing
        ∨ (state.results handle).isSome
  recorded : state.phase ≠ .ended → ∀ handle ∈ state.issued, state.Recorded handle
  returned : state.phase.Returned → state.AllFinished
  queued : .checkpoint ∈ state.queue → state.phase = .waiting
  flushed
    : state.phase = .waiting → .checkpoint ∉ afterCheckpoint state.queue
        ∧ ∀ handle ∈ state.issued, .write handle ∉ afterCheckpoint state.queue
  settled : state.phase.Started → ∀ handle ∈ state.issued, (state.results handle).isSome
  polls
    : ∀ todo polled, state.phase = .polling todo polled →
        state.derivation.pendingWrites = polled.map Prod.fst ++ todo
          ∧ ∀ result ∈ polled, result.2 = .ok true → state.Committed result.1
  finishes
    : ∀ finished, state.phase = .polled (.ok finished) ∨ state.phase = .owned (.ok finished) →
        ∀ handle ∈ finished, state.Committed handle
  ends
    : (state.phase = .ended ∧ state.derivation.error = none) ∨ state.phase = .abandoned →
        ∀ handle ∈ state.issued, state.Committed handle
  fails : state.phase = .failed → state.derivation.error ≠ none
  complete : state.pred ∈ state.metadata.completePredicates → state.Derived

theorem Starts.inv {state : State} (starts : Starts state) : Inv state := by
  have running := starts.phase
  have none := starts.issued
  exact {
    tracked := by simp [none]
    recorded := by simp [none]
    returned := by simp [running, Phase.Returned]
    queued := fun queued => (starts.queue queued).elim
    flushed := by simp [starts.phase]
    settled := by simp [none]
    polls := by simp [running]
    finishes := by simp [running]
    ends := by simp [none]
    fails := by simp [running]
    complete := fun complete => (starts.incomplete complete).elim }

namespace Inv

variable {state : State}

/-- The invariant gives the property. -/
theorem faithful (inv : Inv state) : state.Faithful where
  complete := inv.complete
  reported := by
    rintro isOver handle issued exception failed noError
    have notCommitted : ¬ state.Committed handle := by
      simp [State.Committed, failed]
    rcases isOver with ended | abandoned | phaseFailed
    · exact notCommitted (inv.ends (.inl ⟨ended, noError⟩) handle issued)
    · exact notCommitted (inv.ends (.inr abandoned) handle issued)
    · exact inv.fails phaseFailed noError

/-- Before `runDerivation` has returned the invariant says little. -/
theorem of_not_returned (early : ¬ state.phase.Returned)
    (tracked : ∀ handle ∈ state.issued, .write handle ∈ state.queue ∨ handle ∈ state.executing
      ∨ (state.results handle).isSome)
    (recorded : ∀ handle ∈ state.issued, state.Recorded handle)
    (unqueued : .checkpoint ∉ state.queue)
    (fails : state.phase = .failed → state.derivation.error ≠ none)
    (complete : state.pred ∈ state.metadata.completePredicates → state.Derived)
    : Inv state := by
  cases phase : state.phase with
  | running | failed =>
      exact {
        tracked := tracked
        recorded := fun _ => recorded
        returned := by simp [phase, Phase.Returned]
        queued := fun queued => (unqueued queued).elim
        flushed := by simp [phase]
        settled := by simp [phase, Phase.Started]
        polls := by simp [phase]
        finishes := by simp [phase]
        ends := by simp [phase]
        fails := fails
        complete := complete }
  | _ => simp [phase, Phase.Returned] at early

/-- While a worker has pages left, `runDerivation` has not returned. -/
theorem early (inv : Inv state) (unfinished : ¬ state.AllFinished)
    : ¬ state.phase.Returned ∧ .checkpoint ∉ state.queue
      ∧ state.pred ∉ state.metadata.completePredicates := by
  have notReturned : ¬ state.phase.Returned := fun returned => unfinished (inv.returned returned)
  refine ⟨notReturned, ?_, fun complete => unfinished (inv.complete complete).1⟩
  intro queued
  rw [inv.queued queued] at notReturned
  exact notReturned trivial

theorem unqueued (inv : Inv state) (phase : state.phase ≠ .waiting)
    : .checkpoint ∉ state.queue :=
  fun queued => phase (inv.queued queued)

theorem recorded_of_early (inv : Inv state) (notReturned : ¬ state.phase.Returned)
    : ∀ handle ∈ state.issued, state.Recorded handle := by
  refine inv.recorded ?_
  intro ended
  rw [ended] at notReturned
  exact notReturned trivial

end Inv

theorem not_allFinished {state : State} {index : Nat} {worker : Worker}
    (at_index : state.workers[index]? = some worker) (unfinished : worker ≠ .finished)
    : ¬ state.AllFinished :=
  fun all => unfinished (all.2 worker (List.mem_of_getElem? at_index))

/-- A worker that takes a step keeps every write recorded, if it hands on or records its own. -/
theorem State.Recorded.set {state after : State} {index : Nat} {old new : Worker}
    {handle : Handle} (recorded : state.Recorded handle)
    (at_index : state.workers[index]? = some old) (unfailed : old ≠ .failed)
    (workers : after.workers = state.workers.set index new)
    (pending : state.derivation.pendingWrites ⊆ after.derivation.pendingWrites)
    (own : old.handle? = some handle →
      new.handle? = some handle ∨ handle ∈ after.derivation.pendingWrites ∨ new = .failed)
    : after.Recorded handle := by
  have newMember : new ∈ after.workers := by
    rw [workers]
    exact List.mem_set (List.getElem?_eq_some_iff.mp at_index).1 new
  rcases recorded with isPending | ⟨worker, member, holds⟩ | failed
  · exact .inl (pending isPending)
  · rcases Threads.mem_set_or new at_index member with kept | rfl
    · exact .inr (.inl ⟨worker, workers ▸ kept, holds⟩)
    · rcases own holds with handed | isPending | newFailed
      · exact .inr (.inl ⟨new, newMember, handed⟩)
      · exact .inl isPending
      · exact .inr (.inr (newFailed ▸ newMember))
  · rcases Threads.mem_set_or new at_index failed with kept | same
    · exact .inr (.inr (workers ▸ kept))
    · exact (unfailed same.symm).elim

/-- Once all workers are finished, all writes are pending. -/
theorem State.Recorded.pending {state : State} {handle : Handle}
    (recorded : state.Recorded handle) (all : state.AllFinished)
    : handle ∈ state.derivation.pendingWrites := by
  rcases recorded with isPending | ⟨worker, member, holds⟩ | failed
  · exact isPending
  · rw [all.2 worker member] at holds
    cases holds
  · cases all.2 _ failed

theorem finishedWrites_cons_ok (handle : Handle) (finished : Bool)
    (rest : List (Handle × Except SomeException Bool))
    : finishedWrites ((handle, .ok finished) :: rest)
      = (finishedWrites rest).map
          (fun handles => if finished then handle :: handles else handles) := by
  unfold finishedWrites
  rw [List.mapM_cons]
  cases finished <;>
    cases rest.mapM (fun result : Handle × Except SomeException Bool =>
      result.2.map (fun finished => (result.1, finished))) <;> rfl

/-- The finished writes are those whose poll said so. -/
theorem mem_of_finishedWrites {results : List (Handle × Except SomeException Bool)}
    {finished : List Handle} (isOk : finishedWrites results = .ok finished)
    : ∀ handle ∈ finished, (handle, .ok true) ∈ results := by
  induction results generalizing finished with
  | nil =>
      obtain rfl := Except.ok.inj isOk
      simp
  | cons result rest ih =>
      obtain ⟨handle, polled⟩ := result
      cases polled with
      | error exception => cases isOk
      | ok isFinished =>
          rw [finishedWrites_cons_ok] at isOk
          cases others : finishedWrites rest with
          | error exception =>
              rw [others] at isOk
              cases isOk
          | ok handles =>
              rw [others] at isOk
              obtain rfl := Except.ok.inj isOk
              intro other member
              cases isFinished with
              | false => exact List.mem_cons_of_mem _ (ih others other member)
              | true =>
                  rcases List.mem_cons.mp member with rfl | member
                  · exact List.mem_cons_self
                  · exact List.mem_cons_of_mem _ (ih others other member)

/-- What `save` changes in the catalog. -/
theorem mem_save {pred : PredicateRef} {derivation : Derivation} {metadata : Meta}
    (complete : pred ∈ (save pred derivation metadata).completePredicates)
    : pred ∈ metadata.completePredicates
      ∨ (derivation.error = none ∧ derivation.pendingWrites = []
          ∧ derivation.queryingFinished = true) := by
  unfold save at complete
  split at complete
  next => exact .inl complete
  next noError =>
    split_ifs at complete with finished
    · right
      simpa [isFinished, noError, and_comm] using finished
    · exact .inl complete

-- Steps of the workers

namespace Inv

variable {state after : State} {index : Nat}

theorem startBatch (inv : Inv state) (next : step state .startBatch = some after)
    : Inv after := by
  simp only [step] at next
  split_ifs at next with producing
  obtain rfl := Option.some.inj next
  have unfinished : ¬ state.AllFinished := by simp [State.AllFinished, producing]
  obtain ⟨early, unqueued, incomplete⟩ := inv.early unfinished
  refine of_not_returned early inv.tracked ?_ unqueued inv.fails
    (fun complete => (incomplete complete).elim)
  intro handle issued
  rcases inv.recorded_of_early early handle issued with pending | ⟨worker, member, holds⟩ | failed
  · exact .inl pending
  · exact .inr (.inl ⟨worker, List.mem_append_left _ member, holds⟩)
  · exact .inr (.inr (List.mem_append_left _ failed))

theorem producerDone (inv : Inv state) (next : step state .producerDone = some after)
    : Inv after := by
  simp only [step] at next
  split_ifs at next with producing
  obtain rfl := Option.some.inj next
  have unfinished : ¬ state.AllFinished := by simp [State.AllFinished, producing]
  obtain ⟨early, unqueued, incomplete⟩ := inv.early unfinished
  exact of_not_returned early inv.tracked (inv.recorded_of_early early) unqueued inv.fails
    (fun complete => (incomplete complete).elim)

theorem page {stats : UserQueryStats} {more : Bool} (inv : Inv state)
    (next : step state (.page index stats more) = some after)
    : Inv after := by
  simp only [step] at next
  split at next
  next at_index =>
    obtain rfl := Option.some.inj next
    obtain ⟨early, unqueued, incomplete⟩ := inv.early (not_allFinished at_index (by simp))
    refine of_not_returned early inv.tracked ?_ unqueued inv.fails
      (fun complete => (incomplete complete).elim)
    intro handle issued
    exact (inv.recorded_of_early early handle issued).set at_index (by simp) rfl
      (List.Subset.refl _) (by simp [Worker.handle?])
  next => cases next

theorem pageWrites {stats : UserQueryStats} {more : Bool} {handle : Handle} (inv : Inv state)
    (next : step state (.pageWrites index stats more handle) = some after)
    : Inv after := by
  simp only [step] at next
  split at next
  next at_index =>
    split_ifs at next with fresh
    obtain rfl := Option.some.inj next
    obtain ⟨early, unqueued, incomplete⟩ := inv.early (not_allFinished at_index (by simp))
    refine of_not_returned early ?_ ?_ ?_ inv.fails (fun complete => (incomplete complete).elim)
    · intro other issued
      rcases List.mem_append.mp issued with old | new
      · rcases inv.tracked other old with queued | running
        · exact .inl (List.mem_append_left _ queued)
        · exact .inr running
      · obtain rfl := List.mem_singleton.mp new
        exact .inl (List.mem_append_right _ (List.mem_singleton.mpr rfl))
    · intro other issued
      rcases List.mem_append.mp issued with old | new
      · exact (inv.recorded_of_early early other old).set at_index (by simp) rfl
          (List.Subset.refl _) (by simp [Worker.handle?])
      · obtain rfl := List.mem_singleton.mp new
        refine .inr (.inl ⟨.enqueued stats more other, ?_, rfl⟩)
        exact List.mem_set (List.getElem?_eq_some_iff.mp at_index).1 _
    · simpa using unqueued
  next => cases next

theorem rememberWrite (inv : Inv state)
    (next : step state (.rememberWrite index) = some after)
    : Inv after := by
  simp only [step] at next
  split at next
  next stats more handle at_index =>
    obtain rfl := Option.some.inj next
    obtain ⟨early, unqueued, incomplete⟩ := inv.early (not_allFinished at_index (by simp))
    refine of_not_returned early inv.tracked ?_ unqueued inv.fails
      (fun complete => (incomplete complete).elim)
    intro other issued
    exact (inv.recorded_of_early early other issued).set at_index (by simp) rfl
      (List.Subset.refl _) (fun holds => .inl holds)
  next => cases next

theorem workerFails (inv : Inv state)
    (next : step state (.workerFails index) = some after)
    : Inv after := by
  simp only [step] at next
  split at next
  next => cases next
  next worker unfinished at_index =>
    obtain rfl := Option.some.inj next
    have notFinished : worker ≠ .finished := by
      rintro rfl
      exact unfinished rfl
    obtain ⟨early, unqueued, incomplete⟩ := inv.early (not_allFinished at_index notFinished)
    refine of_not_returned early inv.tracked ?_ unqueued inv.fails
      (fun complete => (incomplete complete).elim)
    intro other issued
    refine .inr (.inr ?_)
    exact List.mem_set (List.getElem?_eq_some_iff.mp at_index).1 _
  next => cases next

/-- Recording a page marks the predicate complete only if it was the last one. -/
theorem addProgress (inv : Inv state) (sound : Sound state (.addProgress index))
    (next : step state (.addProgress index) = some after)
    : Inv after := by
  simp only [step] at next
  split at next
  next stats more written at_index =>
    obtain rfl := Option.some.inj next
    obtain ⟨early, unqueued, incomplete⟩ := inv.early (not_allFinished at_index (by simp))
    have recorded : ∀ handle ∈ state.issued,
        ((state.setWorker index (if more then .querying else .finished)).overDerivation
          (progress stats more written)).Recorded handle := by
      intro handle issued
      refine (inv.recorded_of_early early handle issued).set at_index (by simp) rfl
        (List.subset_append_right _ _) ?_
      intro holds
      obtain rfl : written = some handle := holds
      exact .inr (.inl (List.mem_append_left _ (List.mem_singleton.mpr rfl)))
    refine of_not_returned early inv.tracked recorded unqueued inv.fails ?_
    intro complete
    rcases mem_save complete with before | ⟨noError, noPending, last⟩
    · exact (incomplete before).elim
    · -- nothing is pending after the last page of this batch, so the step is sound only if
      -- all other batches are finished and have enqueued nothing
      have notMore : more = false := by simpa [progress] using last
      have pending := List.append_eq_nil_iff.mp noPending
      have noWrite : written = none := by simpa using pending.1
      subst notMore noWrite
      rw [Sound, at_index] at sound
      obtain ⟨notProducing, others⟩ := sound noError pending.2
      have allFinished : ∀ worker ∈ state.workers.set index .finished, worker = .finished := by
        intro worker member
        obtain ⟨position, at_position⟩ := List.mem_iff_getElem?.mp member
        by_cases same : index = position
        · subst same
          rw [List.getElem?_set_self (List.getElem?_eq_some_iff.mp at_index).1] at at_position
          exact (Option.some.inj at_position).symm
        · rw [List.getElem?_set_ne same] at at_position
          exact others position worker (Ne.symm same) at_position
      refine ⟨⟨notProducing, allFinished⟩, ?_⟩
      intro handle issued
      have isPending := (recorded handle issued).pending ⟨notProducing, allFinished⟩
      have none : handle ∈ ([] : List Handle) := noPending ▸ isPending
      cases none
  next => cases next

-- Steps of the derivation's thread and of its checkpoint

theorem onErr {exception : SomeException} (inv : Inv state)
    (next : step state (.onErr exception) = some after)
    : Inv after := by
  have fails (isRunning : state.phase = .running ∨ state.phase = .returned)
      : Inv ({ state with phase := .failed }.overDerivation
          (fun derivation => { derivation with error := some (state.now, exception) })) := by
    refine of_not_returned (by simp [State.overDerivation, Phase.Returned]) inv.tracked ?_ ?_
      (by simp [State.overDerivation]) ?_
    · exact inv.recorded (by rcases isRunning with phase | phase <;> simp [phase])
    · exact inv.unqueued (by rcases isRunning with phase | phase <;> simp [phase])
    · intro complete
      rcases mem_save complete with before | ⟨noError, -⟩
      · exact inv.complete before
      · cases noError
  simp only [step] at next
  split at next
  next phase =>
    obtain rfl := Option.some.inj next
    exact fails (.inl phase)
  next phase =>
    obtain rfl := Option.some.inj next
    exact fails (.inr phase)
  next => cases next

theorem runDerivationReturns (inv : Inv state)
    (next : step state .runDerivationReturns = some after)
    : Inv after := by
  simp only [step] at next
  split at next
  next phase =>
    split_ifs at next with finished
    obtain rfl := Option.some.inj next
    have unqueued : .checkpoint ∉ state.queue := inv.unqueued (by simp [phase])
    have all : state.AllFinished := by
      obtain ⟨notProducing, workers⟩ := Bool.and_eq_true_iff.mp finished
      refine ⟨by simpa using notProducing, fun worker member => ?_⟩
      have isFinished := List.all_eq_true.mp workers worker member
      cases worker <;> first | rfl | cases isFinished
    exact { inv with
      recorded := fun _ => inv.recorded (by simp [phase])
      returned := fun _ => all
      queued := fun queued => (unqueued queued).elim
      flushed := by simp
      settled := by simp [Phase.Started]
      polls := by simp
      finishes := by simp
      ends := by simp
      fails := by simp }
  next => cases next

theorem enqueueCheckpoint (inv : Inv state)
    (next : step state .enqueueCheckpoint = some after)
    : Inv after := by
  simp only [step] at next
  split at next
  next phase =>
    obtain rfl := Option.some.inj next
    have unqueued : .checkpoint ∉ state.queue := inv.unqueued (by simp [phase])
    exact { inv with
      tracked := fun handle issued => by
        rcases inv.tracked handle issued with queued | running
        · exact .inl (List.mem_append_left _ queued)
        · exact .inr running
      recorded := fun _ => inv.recorded (by simp [phase])
      returned := fun _ => inv.returned (by simp [phase, Phase.Returned])
      queued := fun _ => rfl
      flushed := fun _ => by
        simp [afterCheckpoint_append_of_not_mem _ unqueued, afterCheckpoint]
      settled := by simp [Phase.Started]
      polls := by simp
      finishes := by simp
      ends := by simp
      fails := by simp }
  next => cases next

theorem getDerivation (inv : Inv state) (next : step state .getDerivation = some after)
    : Inv after := by
  simp only [step] at next
  split at next
  next phase =>
    obtain rfl := Option.some.inj next
    exact { inv with
      recorded := fun _ => inv.recorded (by simp [phase])
      returned := fun _ => inv.returned (by simp [phase, Phase.Returned])
      queued := fun queued => (inv.unqueued (by simp [phase]) queued).elim
      flushed := by simp
      settled := fun _ => inv.settled (by simp [phase, Phase.Started])
      polls := by simp
      finishes := by simp
      ends := by simp
      fails := by simp }
  next => cases next

/-- A polled write counts as finished if it was committed or the handle is unknown. -/
theorem committed_of_isWriteFinished {timeout : Nat} {handle : Handle}
    (finished : isWriteFinished (pollBatch timeout state.writes state.results handle).1 = .ok true)
    : (pollBatch timeout state.writes state.results handle).1 = .error .unknownBatchHandle
      ∨ state.Committed handle := by
  unfold pollBatch at finished ⊢
  cases known : state.writes handle with
  | none => exact .inl rfl
  | some write =>
      rw [known] at finished
      cases result : state.results handle with
      | none =>
          rw [result] at finished
          cases finished
      | some outcome =>
          rw [result] at finished
          cases outcome with
          | ok _ => exact .inr result
          | error exception =>
              cases exception with
              | unknownBatchHandle => exact .inl rfl
              | retry | finishedWithPendingWrites | other => cases finished

theorem poll (inv : Inv state) (sound : Sound state .poll)
    (next : step state .poll = some after)
    : Inv after := by
  simp only [step] at next
  split at next
  next handle todo polled phase =>
    obtain rfl := Option.some.inj next
    obtain ⟨pending, committed⟩ := inv.polls _ _ phase
    rw [Sound, phase] at sound
    exact { inv with
      recorded := fun _ => inv.recorded (by simp [phase])
      returned := fun _ => inv.returned (by simp [phase, Phase.Returned])
      queued := fun queued => (inv.unqueued (by simp [phase]) queued).elim
      flushed := by simp
      settled := fun _ => inv.settled (by simp [phase, Phase.Started])
      polls := by
        rintro todo' polled' same
        obtain ⟨rfl, rfl⟩ := Phase.polling.inj same
        refine ⟨by simpa using pending, fun result member finished => ?_⟩
        rcases List.mem_append.mp member with old | new
        · exact committed result old finished
        · obtain rfl := List.mem_singleton.mp new
          exact (committed_of_isWriteFinished finished).elim sound id
      finishes := by simp
      ends := by simp
      fails := by simp }
  next polled phase =>
    obtain rfl := Option.some.inj next
    obtain ⟨-, committed⟩ := inv.polls _ _ phase
    exact { inv with
      recorded := fun _ => inv.recorded (by simp [phase])
      returned := fun _ => inv.returned (by simp [phase, Phase.Returned])
      queued := fun queued => (inv.unqueued (by simp [phase]) queued).elim
      flushed := by simp
      settled := fun _ => inv.settled (by simp [phase, Phase.Started])
      polls := by simp
      finishes := by
        intro finished same handle member
        have isOk : finishedWrites polled = .ok finished := by simpa using same
        exact committed _ (mem_of_finishedWrites isOk handle member) rfl
      ends := by simp
      fails := by simp }
  next => cases next

theorem finishOwnership {ok : Bool} (inv : Inv state) (sound : Sound state (.finishOwnership ok))
    (next : step state (.finishOwnership ok) = some after)
    : Inv after := by
  simp only [step] at next
  split at next
  next finished phase =>
    split_ifs at next with throws
    · obtain rfl := Option.some.inj next
      simp only [Bool.and_eq_true, Option.isNone_iff_eq_none, Bool.not_eq_true'] at throws
      obtain ⟨⟨noError, isOk⟩, rfl⟩ := throws
      obtain ⟨handles, rfl⟩ : ∃ handles, finished = .ok handles := by
        cases finished with
        | ok handles => exact ⟨handles, rfl⟩
        | error exception => cases isOk
      rw [Sound, phase] at sound
      exact { inv with
        recorded := fun _ => inv.recorded (by simp [phase])
        returned := fun _ => inv.returned (by simp [phase, Phase.Returned])
        queued := fun queued => (inv.unqueued (by simp [phase]) queued).elim
        flushed := by simp
        settled := fun _ => inv.settled (by simp [phase, Phase.Started])
        polls := by simp
        finishes := by simp
        ends := by
          intro _ handle issued
          have pending := (inv.recorded (by simp [phase]) handle issued).pending
            (inv.returned (by simp [phase, Phase.Returned]))
          exact inv.finishes handles (.inl phase) handle (sound noError handle pending)
        fails := by simp }
    · obtain rfl := Option.some.inj next
      exact { inv with
        recorded := fun _ => inv.recorded (by simp [phase])
        returned := fun _ => inv.returned (by simp [phase, Phase.Returned])
        queued := fun queued => (inv.unqueued (by simp [phase]) queued).elim
        flushed := by simp
        settled := fun _ => inv.settled (by simp [phase, Phase.Started])
        polls := by simp
        finishes := by
          intro handles same
          refine inv.finishes handles (.inl ?_)
          rw [phase, show finished = .ok handles by simpa using same]
        ends := by simp
        fails := by simp }
  next => cases next

/-- The checkpoint records an error unless every write was committed. -/
theorem finishDerivation (inv : Inv state) (next : step state .finishDerivation = some after)
    : Inv after := by
  simp only [step] at next
  split at next
  next finished phase =>
    obtain rfl := Option.some.inj next
    have all := inv.returned (by simp [phase, Phase.Returned])
    have committed (noError : (withProgress state.now finished state.derivation).error = none)
        : ∀ handle ∈ state.issued, state.Committed handle := by
      intro handle issued
      have pending := (inv.recorded (by simp [phase]) handle issued).pending all
      cases finished with
      | error exception =>
          simp [withProgress] at noError
      | ok handles =>
          have done : state.derivation.pendingWrites.diff handles = [] := by
            simpa [withProgress] using (Option.or_eq_none_iff.mp noError).2
          refine inv.finishes handles (.inr phase) handle ?_
          by_contra unfinished
          have left := List.mem_diff_of_mem pending unfinished
          rw [done] at left
          cases left
    exact { inv with
      recorded := by simp [State.overDerivation]
      returned := fun _ => all
      queued := fun queued => (inv.unqueued (by simp [phase]) queued).elim
      flushed := by simp [State.overDerivation]
      settled := fun _ => inv.settled (by simp [phase, Phase.Started])
      polls := by simp [State.overDerivation]
      finishes := by simp [State.overDerivation]
      ends := fun ended => by
        rcases ended with ⟨-, noError⟩ | abandoned
        · exact committed noError
        · cases abandoned
      fails := by simp [State.overDerivation]
      complete := by
        intro complete
        rcases mem_save complete with before | ⟨noError, -⟩
        · exact inv.complete before
        · exact ⟨all, committed noError⟩ }
  next => cases next

-- Steps of other threads

/-- The checkpoint starts when the writes before it are done, which are all of them. -/
theorem dequeue (inv : Inv state) (next : step state .dequeue = some after) : Inv after := by
  simp only [step] at next
  split at next
  next => cases next
  next handle rest queue =>
    obtain rfl := Option.some.inj next
    exact { inv with
      tracked := by
        intro other issued
        rcases inv.tracked other issued with queued | executing | done
        · rw [queue] at queued
          rcases List.mem_cons.mp queued with same | later
          · obtain rfl := WriteJob.write.inj same
            exact .inr (.inl List.mem_cons_self)
          · exact .inl later
        · exact .inr (.inl (List.mem_cons_of_mem _ executing))
        · exact .inr (.inr done)
      queued := fun queued => inv.queued (queue ▸ List.mem_cons_of_mem _ queued)
      flushed := fun waiting => by
        have flushed := inv.flushed waiting
        rw [queue] at flushed
        exact flushed }
  next rest queue =>
    split_ifs at next with idle
    obtain rfl := Option.some.inj next
    have waiting : state.phase = .waiting := inv.queued (by simp [queue])
    obtain ⟨unqueued, flushed⟩ := inv.flushed waiting
    rw [queue, afterCheckpoint] at unqueued flushed
    have settled : ∀ handle ∈ state.issued, (state.results handle).isSome := by
      intro handle issued
      rcases inv.tracked handle issued with queued | executing | done
      · rw [queue] at queued
        exact (flushed handle issued (by simpa using queued)).elim
      · rw [idle] at executing
        cases executing
      · exact done
    exact { inv with
      tracked := fun handle issued => .inr (.inr (settled handle issued))
      recorded := fun _ => inv.recorded (by simp [waiting])
      returned := fun _ => inv.returned (by simp [waiting, Phase.Returned])
      queued := fun queued => (unqueued queued).elim
      flushed := by simp
      settled := fun _ => settled
      polls := by simp
      finishes := by simp
      ends := by simp
      fails := by simp }
  next rest queue =>
    split_ifs at next with idle
    obtain rfl := Option.some.inj next
    exact { inv with
      tracked := by
        intro other issued
        rcases inv.tracked other issued with queued | running
        · rw [queue] at queued
          exact .inl (by simpa using queued)
        · exact .inr running
      queued := fun queued => inv.queued (queue ▸ List.mem_cons_of_mem _ queued)
      flushed := fun waiting => by
        have flushed := inv.flushed waiting
        rw [queue] at flushed
        exact flushed }

/-- A result is written once, so committed writes stay committed. -/
theorem writeCompletes {handle : Handle} {result : WriteResult} (inv : Inv state)
    (next : step state (.complete handle result) = some after)
    : Inv after := by
  simp only [step] at next
  split_ifs at next with unset
  obtain rfl := Option.some.inj next
  have keeps {other : Handle} {old : WriteResult} (known : state.results other = some old)
      : Function.update state.results handle (some result) other = some old := by
    rw [Function.update_of_ne, known]
    rintro rfl
    simp [known] at unset
  have isSome {other : Handle} (known : (state.results other).isSome)
      : (Function.update state.results handle (some result) other).isSome := by
    obtain ⟨old, isOld⟩ := Option.isSome_iff_exists.mp known
    rw [keeps isOld]
    rfl
  exact { inv with
    tracked := by
      intro other issued
      rcases inv.tracked other issued with queued | executing | done
      · exact .inl queued
      · exact .inr (.inl executing)
      · exact .inr (.inr (isSome done))
    settled := fun started other issued => isSome (inv.settled started other issued)
    polls := fun todo polled phase => by
      obtain ⟨pending, committed⟩ := inv.polls todo polled phase
      exact ⟨pending, fun result member finished => keeps (committed result member finished)⟩
    finishes := fun finished phase other member => keeps (inv.finishes finished phase other member)
    ends := fun ended other issued => keeps (inv.ends ended other issued)
    complete := fun complete => by
      obtain ⟨all, committed⟩ := inv.complete complete
      exact ⟨all, fun other issued => keeps (committed other issued)⟩ }

theorem done {handle : Handle} (inv : Inv state)
    (next : step state (.done handle) = some after)
    : Inv after := by
  simp only [step] at next
  split_ifs at next with isDone
  obtain rfl := Option.some.inj next
  exact { inv with
    tracked := by
      intro other issued
      rcases inv.tracked other issued with queued | executing | done
      · exact .inl queued
      · by_cases same : other = handle
        · subst same
          exact .inr (.inr isDone.2)
        · exact .inr (.inl ((List.mem_erase_of_ne same).mpr executing))
      · exact .inr (.inr done) }

/-- Jobs of other clients go to the end of the queue. -/
theorem appendJob {job : WriteJob} {writes : Handle → Option Write} (inv : Inv state)
    (notCheckpoint : job ≠ .checkpoint) (foreign : ∀ handle ∈ state.issued, .write handle ≠ job)
    : Inv { state with queue := state.queue ++ [job], writes := writes } where
  tracked := by
    intro handle issued
    rcases inv.tracked handle issued with queued | running
    · exact .inl (List.mem_append_left _ queued)
    · exact .inr running
  recorded := inv.recorded
  returned := inv.returned
  queued := by
    intro queued
    rcases List.mem_append.mp queued with old | new
    · exact inv.queued old
    · exact (notCheckpoint (List.mem_singleton.mp new).symm).elim
  flushed := by
    intro waiting
    obtain ⟨unqueued, flushed⟩ := inv.flushed waiting
    dsimp only
    by_cases queued : .checkpoint ∈ state.queue
    · rw [afterCheckpoint_append_of_mem _ queued]
      refine ⟨by simpa using ⟨unqueued, notCheckpoint.symm⟩, fun handle issued => ?_⟩
      simpa using ⟨flushed handle issued, foreign handle issued⟩
    · rw [afterCheckpoint_append_of_not_mem _ queued]
      cases job <;> simp [afterCheckpoint] at notCheckpoint ⊢
  settled := inv.settled
  polls := inv.polls
  finishes := inv.finishes
  ends := inv.ends
  fails := inv.fails
  complete := inv.complete

/-- Every step keeps the invariant, if it is sound. -/
theorem step {event : Event} (inv : Inv state) (sound : Sound state event)
    (next : Query.step state event = some after)
    : Inv after := by
  cases event with
  | startBatch => exact inv.startBatch next
  | producerDone => exact inv.producerDone next
  | page => exact inv.page next
  | pageWrites => exact inv.pageWrites next
  | rememberWrite => exact inv.rememberWrite next
  | addProgress => exact inv.addProgress sound next
  | workerFails => exact inv.workerFails next
  | onErr => exact inv.onErr next
  | runDerivationReturns => exact inv.runDerivationReturns next
  | enqueueCheckpoint => exact inv.enqueueCheckpoint next
  | getDerivation => exact inv.getDerivation next
  | poll => exact inv.poll sound next
  | finishOwnership => exact inv.finishOwnership sound next
  | finishDerivation => exact inv.finishDerivation next
  | dequeue => exact inv.dequeue next
  | complete => exact inv.writeCompletes next
  | done => exact inv.done next
  | reap =>
      obtain rfl := Option.some.inj next
      exact { inv with }
  | tick =>
      obtain rfl := Option.some.inj next
      exact { inv with }
  | otherWrite handle remember =>
      simp only [Query.step] at next
      split at next
      next fresh =>
        obtain rfl := Option.some.inj next
        refine inv.appendJob (by simp) ?_
        rintro other issued same
        obtain rfl := WriteJob.write.inj same
        exact fresh.2.2.2.2 issued
      next => cases next
  | otherCheckpoint =>
      obtain rfl := Option.some.inj next
      exact inv.appendJob (by simp) (by simp)
  | otherMeta completeness completed =>
      simp only [Query.step] at next
      split_ifs at next with same
      obtain rfl := Option.some.inj next
      exact { inv with complete := fun complete => inv.complete (same.mp complete) }

end Inv

-- Whole runs

/-- The state after starting the derivation of `test.P.1`. -/
def startOf (parallel : Bool) : State where
  pred := ⟨"test.P", 1⟩
  now := 0
  writesKeep := 1
  metadata := ⟨.incomplete, []⟩
  derivation := newDerivation 0 "derivation"
  producing := parallel
  workers := if parallel then [] else [.querying]
  phase := .running
  queue := []
  executing := []
  results := fun _ => none
  writes := fun _ => none
  issued := []

theorem starts_startOf (parallel : Bool) : Starts (startOf parallel) where
  derivation := ⟨0, "derivation", rfl⟩
  workers := by cases parallel <;> simp [startOf]
  phase := rfl
  queue := by simp [startOf]
  issued := rfl
  incomplete := by simp [startOf]

def someStats : UserQueryStats := (newDerivation 0 "").stats

/-- The events of a sequential derivation with one page up to the end of its write. -/
def pageWritten (result : WriteResult) : List Event :=
  [.pageWrites 0 someStats false "write", .rememberWrite 0, .addProgress 0,
    .runDerivationReturns, .enqueueCheckpoint, .dequeue, .complete "write" result,
    .done "write"]

/-- The events of the checkpoint. -/
def checkpointEvents : List Event :=
  [.dequeue, .getDerivation, .poll, .poll, .finishOwnership true, .finishDerivation]

end Glean.Query
