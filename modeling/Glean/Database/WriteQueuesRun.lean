import Mathlib.Algebra.BigOperators.Group.Finset.Basic
import Glean.Database.WriteQueues
import Glean.Library.Threads

/-! Jobs of the write queues are neither lost, reordered nor stranded, over all interleavings of
clients, writer threads and threads that close databases.
-/

namespace Glean.Database.WriteQueues

open Threads

variable {limit : Int} {state after : State}

-- Dequeueing

/-- The next job of a queue is a checkpoint that has to wait for active writes. -/
def Unready (queues : Nat → WriteQueue) (name : Nat) : Prop :=
  ∃ job jobs, (queues name).jobs = job :: jobs ∧ job.isWrite = false ∧ (queues name).active ≠ 0

/-- The scan stops at the first queue that is not waiting for its active writes. -/
theorem dequeueLoop_eq_some {queues : Nat → WriteQueue} {round skipped rest : List Nat} {name : Nat}
    (found : dequeueLoop queues round = some (skipped, name, rest))
    : round = skipped ++ name :: rest ∧ (∀ other ∈ skipped, Unready queues other)
      ∧ ¬ Unready queues name := by
  induction round generalizing skipped with
  | nil => cases found
  | cons first others ih =>
      rw [dequeueLoop] at found
      split at found
      next isEmpty =>
        cases found
        refine ⟨rfl, by simp, ?_⟩
        rintro ⟨job, jobs, isNext, -⟩
        rw [isEmpty] at isNext
        cases isNext
      next job jobs isNext =>
        split at found
        next ready =>
          cases found
          refine ⟨rfl, by simp, ?_⟩
          rintro ⟨other, others, isOther, notWrite, active⟩
          rw [isNext] at isOther
          cases isOther
          rcases ready with isWrite | inactive
          · rw [notWrite] at isWrite
            cases isWrite
          · exact active inactive
        next unready =>
          obtain ⟨⟨inner, stopped, remaining⟩, isInner, isResult⟩ := Option.bind_eq_some_iff.mp found
          cases isResult
          obtain ⟨rfl, allUnready, isReady⟩ := ih isInner
          refine ⟨rfl, ?_, isReady⟩
          rintro other (_ | member)
          · simp only [not_or] at unready
            exact ⟨job, jobs, isNext, by simpa using unready.1, unready.2⟩
          · exact allUnready other (by assumption)

/-- The scan finds nothing only if all queues wait for active writes. -/
theorem dequeueLoop_eq_none {queues : Nat → WriteQueue} {round : List Nat}
    (blocked : dequeueLoop queues round = none)
    : ∀ name ∈ round, Unready queues name := by
  induction round with
  | nil => simp
  | cons first others ih =>
      rw [dequeueLoop] at blocked
      split at blocked
      next => cases blocked
      next job jobs isNext =>
        split at blocked
        next => cases blocked
        next unready =>
          have inner : dequeueLoop queues others = none := by
            cases found : dequeueLoop queues others with
            | none => rfl
            | some result =>
                rw [found] at blocked
                cases blocked
          intro name member
          rcases List.mem_cons.mp member with rfl | later
          · simp only [not_or] at unready
            exact ⟨job, jobs, isNext, by simpa using unready.1, unready.2⟩
          · exact ih inner name later

/-- What a thread that looks for a job does. -/
theorem dequeue_cases {thread : Nat} (next : step limit state (.dequeue thread) = some after)
    : ∃ skipped name rest, state.writeQueues = skipped ++ name :: rest
        ∧ (∀ other ∈ skipped, (state.queues other).jobs ≠ [])
        ∧ (((state.queues name).jobs = []
            ∧ after = { state with
                writeQueues := rest ++ skipped.filter (fun other => !state.isEmpty other) })
          ∨ ∃ job jobs, (state.queues name).jobs = job :: jobs
            ∧ (job.isWrite = true ∨ (state.queues name).active = 0)
            ∧ state.writers[thread]? = some .waiting
            ∧ after = state.take thread name job jobs skipped rest) := by
  simp only [step] at next
  split at next
  next isWaiting =>
    obtain ⟨⟨skipped, name, rest⟩, found, isResult⟩ := Option.bind_eq_some_iff.mp next
    obtain ⟨isRound, unready, isReady⟩ := dequeueLoop_eq_some found
    have nonempty : ∀ other ∈ skipped, (state.queues other).jobs ≠ [] := by
      intro other member isEmpty
      obtain ⟨job, jobs, isNext, -⟩ := unready other member
      rw [isEmpty] at isNext
      cases isNext
    refine ⟨skipped, name, rest, isRound, nonempty, ?_⟩
    dsimp only at isResult
    split at isResult
    next isEmpty => exact .inl ⟨isEmpty, (Option.some.inj isResult).symm⟩
    next job jobs isNext =>
      refine .inr ⟨job, jobs, isNext, ?_, isWaiting, (Option.some.inj isResult).symm⟩
      by_contra neither
      simp only [not_or] at neither
      exact isReady ⟨job, jobs, isNext, by simpa using neither.1, neither.2⟩
  next => cases next

-- The round-robin

/-- Queues with jobs are on the round-robin, once. A queue that `deleteWriteQueues` was applied to
may be left there without jobs, or be there several times.
-/
structure Rotation (state : State) : Prop where
  onRound : ∀ name, (state.queues name).jobs ≠ [] → name ∈ state.writeQueues
  leftover : ∀ name ∈ state.writeQueues, (state.queues name).jobs = [] → name ∈ state.deleted
  once : ∀ name, name ∉ state.deleted → state.writeQueues.count name ≤ 1

namespace Rotation

theorem queues_take {thread name : Nat} {job : WriteJob} {jobs : List WriteJob}
    {skipped rest : List Nat} (other : Nat)
    : ((state.take thread name job jobs skipped rest).queues other).jobs
      = if other = name then jobs else (state.queues other).jobs := by
  by_cases same : other = name
  · subst same
    simp [State.take, State.setQueue]
  · simp [State.take, State.setQueue, same]

theorem addToWriteQueue (rotation : Rotation state) (name : Nat) (task : Task)
    : Rotation (state.addToWriteQueue name task) := by
  have added : ((state.addToWriteQueue name task).queues name).jobs ≠ [] := by
    simp [State.addToWriteQueue, State.setQueue]
  have others : ∀ other, other ≠ name →
      (state.addToWriteQueue name task).queues other = state.queues other := by
    intro other different
    simp [State.addToWriteQueue, State.setQueue, different]
  have isRound : (state.addToWriteQueue name task).writeQueues
      = if (state.queues name).jobs.isEmpty then state.writeQueues ++ [name]
        else state.writeQueues := rfl
  have isDeleted : (state.addToWriteQueue name task).deleted = state.deleted := rfl
  by_cases isEmpty : (state.queues name).jobs = []
  · rw [if_pos (by simp [isEmpty])] at isRound
    refine ⟨fun other nonempty => ?_, fun other member noJobs => ?_, fun other notDeleted => ?_⟩
    · rw [isRound]
      by_cases same : other = name
      · simp [same]
      · rw [others other same] at nonempty
        exact List.mem_append_left _ (rotation.onRound other nonempty)
    · by_cases same : other = name
      · exact absurd (same ▸ noJobs) added
      · rw [isRound, List.mem_append, List.mem_singleton] at member
        rw [others other same] at noJobs
        exact rotation.leftover other (member.resolve_right same) noJobs
    · rw [isRound, List.count_append]
      by_cases same : other = name
      · subst same
        -- a queue without jobs that was not deleted is not on the round-robin
        have absent : other ∉ state.writeQueues := fun member =>
          notDeleted (rotation.leftover other member isEmpty)
        simp [List.count_eq_zero.mpr absent]
      · have few := rotation.once other notDeleted
        simpa [Ne.symm same] using few
  · rw [if_neg (by simpa using isEmpty)] at isRound
    refine ⟨fun other nonempty => ?_, fun other member noJobs => ?_, fun other notDeleted => ?_⟩
    · rw [isRound]
      by_cases same : other = name
      · exact same ▸ rotation.onRound name isEmpty
      · rw [others other same] at nonempty
        exact rotation.onRound other nonempty
    · by_cases same : other = name
      · exact absurd (same ▸ noJobs) added
      · rw [others other same] at noJobs
        exact rotation.leftover other (isRound ▸ member) noJobs
    · rw [isRound]
      exact rotation.once other notDeleted

/-- Taking the round-robin apart at a queue and putting queues with jobs at its back. -/
theorem rotate {skipped rest candidates : List Nat} {name : Nat} (rotation : Rotation state)
    (isRound : state.writeQueues = skipped ++ name :: rest)
    (others : ∀ other, other ≠ name → (after.queues other).jobs = (state.queues other).jobs)
    (isAfter : after.writeQueues = rest ++ candidates.filter (fun other => !after.isEmpty other))
    (isDeleted : after.deleted = state.deleted) (all : ∀ other ∈ skipped, other ∈ candidates)
    (again : (after.queues name).jobs ≠ [] → name ∈ candidates)
    (few : ∀ other, candidates.count other ≤ (skipped ++ [name]).count other)
    : Rotation after := by
  have kept : ∀ other ∈ candidates, (after.queues other).jobs ≠ [] → other ∈ after.writeQueues := by
    intro other member nonempty
    rw [isAfter]
    exact List.mem_append_right _ (List.mem_filter.mpr ⟨member, by simpa [State.isEmpty] using nonempty⟩)
  refine ⟨fun other nonempty => ?_, fun other member noJobs => ?_, fun other notDeleted => ?_⟩
  · by_cases same : other = name
    · subst same
      exact kept other (again nonempty) nonempty
    · have before := rotation.onRound other (others other same ▸ nonempty)
      rw [isRound] at before
      rcases List.mem_append.mp before with isSkipped | inRest
      · exact kept other (all other isSkipped) nonempty
      · rw [isAfter]
        exact List.mem_append_left _ ((List.mem_cons.mp inRest).resolve_left same)
  · rw [isDeleted]
    rw [isAfter] at member
    rcases List.mem_append.mp member with inRest | isKept
    · by_contra notDeleted
      have onlyOnce := rotation.once other notDeleted
      by_cases same : other = name
      · subst same
        have twice : 0 < rest.count other := List.count_pos_iff.mpr inRest
        rw [isRound, List.count_append, List.count_cons_self] at onlyOnce
        omega
      · have before : other ∈ state.writeQueues := by
          rw [isRound]
          exact List.mem_append_right _ (List.mem_cons_of_mem _ inRest)
        exact notDeleted (rotation.leftover other before (others other same ▸ noJobs))
    · have nonempty := (List.mem_filter.mp isKept).2
      simp [State.isEmpty, noJobs] at nonempty
  · have before := rotation.once other (isDeleted ▸ notDeleted)
    have filtered : (candidates.filter (fun other => !after.isEmpty other)).count other
        ≤ candidates.count other :=
      List.filter_sublist.count_le other
    have bound := few other
    rw [isRound] at before
    rw [isAfter]
    simp only [List.count_append, List.count_cons, List.count_nil] at before bound ⊢
    omega

theorem dequeue {thread : Nat} (rotation : Rotation state)
    (next : step limit state (.dequeue thread) = some after)
    : Rotation after := by
  obtain ⟨skipped, name, rest, isRound, -, ⟨isEmpty, rfl⟩ | ⟨job, jobs, -, -, -, rfl⟩⟩ :=
    dequeue_cases next
  · refine rotation.rotate isRound (fun _ _ => rfl) rfl rfl (fun _ member => member) ?_ ?_
    · intro nonempty
      exact absurd isEmpty nonempty
    · intro other
      simp
  · refine rotation.rotate isRound ?_ rfl rfl ?_ ?_ (fun _ => le_rfl)
    · intro other different
      rw [queues_take, if_neg different]
    · intro other member
      exact List.mem_append_left _ member
    · intro _
      simp

/-- Queues keep their jobs. -/
theorem same (rotation : Rotation state)
    (jobs : ∀ name, (after.queues name).jobs = (state.queues name).jobs)
    (isRound : after.writeQueues = state.writeQueues) (isDeleted : after.deleted = state.deleted)
    : Rotation after := by
  refine ⟨fun name nonempty => ?_, fun name member noJobs => ?_, fun name notDeleted => ?_⟩
  · rw [isRound]
    exact rotation.onRound name (jobs name ▸ nonempty)
  · rw [isDeleted]
    exact rotation.leftover name (isRound ▸ member) (jobs name ▸ noJobs)
  · rw [isRound]
    exact rotation.once name (isDeleted ▸ notDeleted)

theorem step {event : Event} (rotation : Rotation state)
    (next : step limit state event = some after)
    : Rotation after := by
  cases event with
  | enqueueWrite name size =>
      simp only [WriteQueues.step] at next
      split at next
      next =>
        cases next
        exact rotation
      next =>
        cases next
        refine (rotation.addToWriteQueue name (.write size)).same (fun other => ?_) rfl rfl
        by_cases same : other = name
        · subst same
          simp [State.setQueue]
        · simp [State.setQueue, same]
  | enqueueCheckpoint name =>
      cases next
      exact rotation.addToWriteQueue name .checkpoint
  | dequeue thread => exact rotation.dequeue next
  | done thread ok =>
      simp only [WriteQueues.step] at next
      split at next
      next name job _ =>
        split at next
        next =>
          cases next
          refine rotation.same (fun other => ?_) rfl rfl
          by_cases same : other = name
          · subst same
            simp [State.setQueue]
          · simp [State.setQueue, same]
        next =>
          cases next
          exact rotation.same (fun _ => rfl) rfl rfl
      next => cases next
  | closeDatabase name =>
      simp only [WriteQueues.step] at next
      split at next
      next =>
        cases next
        refine ⟨fun other nonempty => ?_, fun other member noJobs => ?_, fun other notDeleted => ?_⟩
        · by_cases same : other = name
          · subst same
            simp [State.setQueue] at nonempty
          · simp only [State.setQueue, Function.update_of_ne same] at nonempty
            exact rotation.onRound other nonempty
        · by_cases same : other = name
          · exact List.mem_cons.mpr (.inl same)
          · simp only [State.setQueue, Function.update_of_ne same] at noJobs
            exact List.mem_cons_of_mem _ (rotation.leftover other member noJobs)
        · exact rotation.once other (fun isDeleted => notDeleted (List.mem_cons_of_mem _ isDeleted))
      next => cases next

end Rotation

-- The order of jobs

/-- The jobs of a queue that were not discarded have started, or wait, in the order in which they
were enqueued.
-/
structure History (state : State) : Prop where
  order
    : ∀ name, (state.enqueued name).filter (fun job => job.number ∉ state.discarded name)
        = state.started name ++ (state.queues name).jobs
  ascending
    : ∀ name, (state.enqueued name).Pairwise (fun left right => left.number < right.number)
  fresh : ∀ name, ∀ job ∈ state.enqueued name, job.number < state.nextJob
  past : ∀ name, ∀ number ∈ state.discarded name, number < state.nextJob

namespace History

theorem same (history : History state) (isEnqueued : after.enqueued = state.enqueued)
    (isDiscarded : after.discarded = state.discarded) (isStarted : after.started = state.started)
    (isNext : after.nextJob = state.nextJob)
    (jobs : ∀ name, (after.queues name).jobs = (state.queues name).jobs)
    : History after := by
  refine ⟨fun name => ?_, ?_, ?_, ?_⟩
  · rw [isEnqueued, isDiscarded, isStarted, jobs name]
    exact history.order name
  · rw [isEnqueued]
    exact history.ascending
  · rw [isEnqueued, isNext]
    exact history.fresh
  · rw [isDiscarded, isNext]
    exact history.past

theorem mem_enqueued (history : History state) {name : Nat} {job : WriteJob}
    (member : job ∈ state.started name ++ (state.queues name).jobs)
    : job ∈ state.enqueued name := by
  rw [← history.order name] at member
  exact (List.mem_filter.mp member).1

theorem startedAscending (history : History state) (name : Nat)
    : (state.started name ++ (state.queues name).jobs).Pairwise
        (fun left right => left.number < right.number) := by
  rw [← history.order name]
  exact (history.ascending name).filter _

theorem eq_of_number (history : History state) {name : Nat} {left right : WriteJob}
    (isLeft : left ∈ state.enqueued name) (isRight : right ∈ state.enqueued name)
    (same : left.number = right.number)
    : left = right := by
  by_contra different
  have symmetric : Std.Symm (fun left right : WriteJob => left.number ≠ right.number) :=
    ⟨fun _ _ => Ne.symm⟩
  have apart := (history.ascending name).imp (fun less => Nat.ne_of_lt less)
  exact apart.forall isLeft isRight different same

theorem addToWriteQueue (history : History state) (name : Nat) (task : Task)
    : History (state.addToWriteQueue name task) := by
  have isNew : state.nextJob ∉ state.discarded name := fun member =>
    lt_irrefl _ (history.past name _ member)
  refine ⟨fun other => ?_, fun other => ?_, fun other job member => ?_, fun other number member => ?_⟩
  · by_cases same : other = name
    · subst same
      have order := history.order other
      simp only [decide_not] at order
      simp [State.addToWriteQueue, State.setQueue, isNew, order]
    · simpa [State.addToWriteQueue, State.setQueue, same] using history.order other
  · by_cases same : other = name
    · subst same
      simp only [State.addToWriteQueue, State.setQueue, Function.update_self]
      refine List.pairwise_append.mpr ⟨history.ascending other, by simp, ?_⟩
      intro job member new isNew
      rw [List.mem_singleton.mp isNew]
      exact history.fresh other job member
    · simpa [State.addToWriteQueue, State.setQueue, same] using history.ascending other
  · by_cases same : other = name
    · subst same
      simp only [State.addToWriteQueue, State.setQueue, Function.update_self, List.mem_append,
        List.mem_singleton] at member ⊢
      rcases member with old | rfl
      · exact (history.fresh other job old).trans (Nat.lt_succ_self _)
      · exact Nat.lt_succ_self _
    · simp only [State.addToWriteQueue, State.setQueue, Function.update_of_ne same] at member ⊢
      exact (history.fresh other job member).trans (Nat.lt_succ_self _)
  · exact (history.past other number member).trans (Nat.lt_succ_self _)

theorem take {thread name : Nat} {job : WriteJob} {jobs : List WriteJob} {skipped rest : List Nat}
    (history : History state) (isNext : (state.queues name).jobs = job :: jobs)
    : History (state.take thread name job jobs skipped rest) := by
  refine ⟨fun other => ?_, history.ascending, history.fresh, history.past⟩
  have order := history.order other
  by_cases same : other = name
  · subst same
    rw [isNext] at order
    simpa [State.take, State.setQueue] using order
  · simpa [State.take, State.setQueue, same] using order

/-- `deleteWriteQueues` discards what waits in the queue. -/
theorem flush (history : History state) {name : Nat}
    (isEnqueued : after.enqueued = state.enqueued) (isStarted : after.started = state.started)
    (isNext : after.nextJob = state.nextJob)
    (isDiscarded : after.discarded = Function.update state.discarded name
      ((state.queues name).jobs.map WriteJob.number ++ state.discarded name))
    (isFlushed : (after.queues name).jobs = [])
    (others : ∀ other, other ≠ name → (after.queues other).jobs = (state.queues other).jobs)
    : History after := by
  refine ⟨fun other => ?_, isEnqueued ▸ history.ascending, ?_, fun other number member => ?_⟩
  · have order := history.order other
    rw [isEnqueued, isStarted, isDiscarded]
    by_cases same : other = name
    · subst same
      rw [Function.update_self, isFlushed, List.append_nil]
      have split : (state.enqueued other).filter (fun job => job.number ∉
            (state.queues other).jobs.map WriteJob.number ++ state.discarded other)
          = (state.started other ++ (state.queues other).jobs).filter (fun job =>
            job.number ∉ (state.queues other).jobs.map WriteJob.number) := by
        rw [← order, List.filter_filter]
        refine List.filter_congr (fun job _ => ?_)
        simp
      rw [split, List.filter_append]
      obtain ⟨-, -, apart⟩ := List.pairwise_append.mp (history.startedAscending other)
      have keepsStarted : (state.started other).filter (fun job =>
          job.number ∉ (state.queues other).jobs.map WriteJob.number) = state.started other := by
        refine List.filter_eq_self.mpr (fun job isStarted => ?_)
        simp only [List.mem_map, not_exists, not_and, decide_eq_true_eq]
        intro waiting isWaiting sameNumber
        exact (apart job isStarted waiting isWaiting).ne sameNumber.symm
      have dropsJobs : (state.queues other).jobs.filter (fun job =>
          job.number ∉ (state.queues other).jobs.map WriteJob.number) = [] := by
        refine List.filter_eq_nil_iff.mpr (fun job isWaiting => ?_)
        simp only [decide_eq_true_eq, not_not]
        exact List.mem_map_of_mem isWaiting
      rw [keepsStarted, dropsJobs, List.append_nil]
    · rw [Function.update_of_ne same, others other same]
      exact order
  · rw [isEnqueued, isNext]
    exact history.fresh
  · rw [isNext]
    rw [isDiscarded] at member
    by_cases same : other = name
    · subst same
      rw [Function.update_self] at member
      rcases List.mem_append.mp member with isWaiting | old
      · obtain ⟨job, isJob, rfl⟩ := List.mem_map.mp isWaiting
        exact history.fresh other job (history.mem_enqueued (List.mem_append_right _ isJob))
      · exact history.past other number old
    · rw [Function.update_of_ne same] at member
      exact history.past other number member

end History

-- Executions

namespace Writer

/-- Whether a thread executes a job of a queue. -/
def runs (name number : Nat) : Writer → Nat
  | .waiting => 0
  | .executing queue job => if queue = name ∧ job.number = number then 1 else 0

/-- Whether a thread executes a write of a queue. -/
def active (name : Nat) : Writer → Nat
  | .waiting => 0
  | .executing queue job => if queue = name ∧ job.isWrite then 1 else 0

/-- The size of the write of a queue that a thread executes. -/
def load (name : Nat) : Writer → Nat
  | .waiting => 0
  | .executing queue job => if queue = name then job.size else 0

end Writer

/-- A job that has started is executed by one thread, or has completed, and the counters of each
queue count its active writes and the bytes of its enqueued and active writes.
-/
structure Executions (state : State) : Prop where
  executed
    : ∀ name number, (state.started name).countP (fun job => job.number = number)
        = (state.completed name).count number + total (Writer.runs name number) state.writers
  running : ∀ name job, .executing name job ∈ state.writers → job ∈ state.started name
  active : ∀ name, (state.queues name).active = (total (Writer.active name) state.writers : Nat)
  size
    : ∀ name, (state.queues name).size
        = (total WriteJob.size (state.queues name).jobs
          + total (Writer.load name) state.writers : Nat)

namespace Executions

theorem addToWriteQueue (executions : Executions state) (name : Nat) (task : Task) (size : Nat)
    (isSize : (WriteJob.mk state.nextJob task).size = size)
    (isStarted : after.started = state.started) (isCompleted : after.completed = state.completed)
    (isWriters : after.writers = state.writers)
    (added : (after.queues name).jobs = (state.queues name).jobs ++ [⟨state.nextJob, task⟩]
      ∧ (after.queues name).active = (state.queues name).active
      ∧ (after.queues name).size = (state.queues name).size + size)
    (others : ∀ other, other ≠ name → after.queues other = state.queues other)
    : Executions after := by
  obtain ⟨isJobs, isActive, isNewSize⟩ := added
  refine ⟨?_, ?_, fun other => ?_, fun other => ?_⟩
  · rw [isStarted, isCompleted, isWriters]
    exact executions.executed
  · rw [isStarted, isWriters]
    exact executions.running
  · rw [isWriters]
    by_cases same : other = name
    · subst same
      rw [isActive]
      exact executions.active other
    · rw [others other same]
      exact executions.active other
  · rw [isWriters]
    by_cases same : other = name
    · subst same
      have before := executions.size other
      rw [isNewSize, isJobs, total_append, isSize, before]
      push_cast
      omega
    · rw [others other same]
      exact executions.size other

theorem take {thread name : Nat} {job : WriteJob} {jobs : List WriteJob} {skipped rest : List Nat}
    (executions : Executions state) (isNext : (state.queues name).jobs = job :: jobs)
    (isWaiting : state.writers[thread]? = some .waiting)
    : Executions (state.take thread name job jobs skipped rest) := by
  have writers (weight : Writer → Nat) (idle : weight .waiting = 0)
      : total weight (state.writers.set thread (.executing name job))
        = total weight state.writers + weight (.executing name job) := by
    have changed := total_set weight isWaiting (.executing name job)
    omega
  refine ⟨fun other number => ?_, fun other started isRunning => ?_, fun other => ?_, fun other => ?_⟩
  · have before := executions.executed other number
    simp only [State.take, State.setQueue]
    rw [writers _ rfl]
    by_cases same : other = name
    · subst same
      rw [Function.update_self, List.countP_append, before]
      by_cases isNumber : job.number = number
      · simp [Writer.runs, isNumber, Nat.add_assoc]
      · simp [Writer.runs, isNumber]
    · rw [Function.update_of_ne same, before]
      simp [Writer.runs, Ne.symm same]
  · simp only [State.take, State.setQueue] at isRunning ⊢
    rcases List.mem_or_eq_of_mem_set isRunning with old | new
    · have isStarted := executions.running other started old
      by_cases same : other = name
      · subst same
        rw [Function.update_self]
        exact List.mem_append_left _ isStarted
      · rw [Function.update_of_ne same]
        exact isStarted
    · cases new
      simp
  · have before := executions.active other
    simp only [State.take, State.setQueue]
    rw [writers _ rfl]
    by_cases same : other = name
    · subst same
      cases isWrite : job.isWrite <;> simp [Writer.active, isWrite, before]
    · simp [Writer.active, same, Ne.symm same, before]
  · have before := executions.size other
    simp only [State.take, State.setQueue]
    rw [writers _ rfl]
    by_cases same : other = name
    · subst same
      rw [isNext] at before
      simp only [total, List.map_cons, List.sum_cons] at before
      simp only [Function.update_self, before, Writer.load, total, if_true]
      push_cast
      omega
    · simp [Writer.load, same, Ne.symm same, before]

/-- A thread is done with its job; the counters change for a write. -/
theorem done {thread name : Nat} {job : WriteJob} (executions : Executions state)
    (isRunning : state.writers[thread]? = some (.executing name job))
    (isStarted : after.started = state.started)
    (isWriters : after.writers = state.writers.set thread .waiting)
    (isCompleted : after.completed
      = Function.update state.completed name (job.number :: state.completed name))
    (jobs : ∀ other, (after.queues other).jobs = (state.queues other).jobs)
    (isActive : ∀ other, (after.queues other).active
      = (state.queues other).active - (Writer.active other (.executing name job) : Nat))
    (isSize : ∀ other, (after.queues other).size
      = (state.queues other).size - (Writer.load other (.executing name job) : Nat))
    : Executions after := by
  have writers (weight : Writer → Nat) (idle : weight .waiting = 0)
      : total weight after.writers + weight (.executing name job) = total weight state.writers := by
    have changed := total_set weight isRunning .waiting
    rw [isWriters]
    omega
  refine ⟨fun other number => ?_, fun other started isExecuting => ?_, fun other => ?_, fun other => ?_⟩
  · have before := executions.executed other number
    have changed := writers (Writer.runs other number) rfl
    rw [isStarted, isCompleted]
    by_cases same : other = name
    · subst same
      rw [Function.update_self, List.count_cons]
      by_cases isNumber : job.number = number
      · simp only [Writer.runs, isNumber, and_self, if_true] at changed
        simp only [isNumber, BEq.rfl, if_true]
        omega
      · simp only [Writer.runs, isNumber, and_false, if_false] at changed
        simp only [beq_iff_eq, isNumber, if_false]
        omega
    · simp only [Writer.runs, Ne.symm same, false_and, if_false] at changed
      rw [Function.update_of_ne same]
      omega
  · rw [isWriters] at isExecuting
    rw [isStarted]
    rcases List.mem_or_eq_of_mem_set isExecuting with old | new
    · exact executions.running other started old
    · cases new
  · have before := executions.active other
    have changed := writers (Writer.active other) rfl
    rw [isActive other, before]
    omega
  · have before := executions.size other
    have changed := writers (Writer.load other) rfl
    rw [isSize other, jobs other, before]
    omega

/-- A queue without bytes is flushed. -/
theorem flush {name : Nat} (executions : Executions state) (isEmpty : (state.queues name).size = 0)
    (isStarted : after.started = state.started) (isCompleted : after.completed = state.completed)
    (isWriters : after.writers = state.writers)
    (flushed : after.queues name = { state.queues name with jobs := [] })
    (others : ∀ other, other ≠ name → after.queues other = state.queues other)
    : Executions after := by
  refine ⟨?_, ?_, fun other => ?_, fun other => ?_⟩
  · rw [isStarted, isCompleted, isWriters]
    exact executions.executed
  · rw [isStarted, isWriters]
    exact executions.running
  · rw [isWriters]
    by_cases same : other = name
    · subst same
      rw [flushed]
      exact executions.active other
    · rw [others other same]
      exact executions.active other
  · rw [isWriters]
    by_cases same : other = name
    · subst same
      have before := executions.size other
      rw [flushed]
      dsimp only
      rw [isEmpty] at before ⊢
      simp only [total, List.map_nil, List.sum_nil] at before ⊢
      omega
    · rw [others other same]
      exact executions.size other

end Executions

/-- Writes that were enqueued before a checkpoint that has started are completed, or were
discarded.
-/
def Checkpoints (state : State) : Prop :=
  ∀ name, ∀ checkpoint ∈ state.started name, checkpoint.isWrite = false →
    ∀ job ∈ state.enqueued name, job.isWrite = true → job.number < checkpoint.number →
      job.number ∈ state.completed name ∨ job.number ∈ state.discarded name

namespace Checkpoints

theorem addToWriteQueue (checkpoints : Checkpoints state) (history : History state) (name : Nat)
    (task : Task)
    : Checkpoints (state.addToWriteQueue name task) := by
  intro other checkpoint isStarted isCheckpoint job isJob isWrite before
  by_cases same : other = name
  · subst same
    simp only [State.addToWriteQueue, State.setQueue, Function.update_self, List.mem_append,
      List.mem_singleton] at isJob
    rcases isJob with old | rfl
    · exact checkpoints other checkpoint isStarted isCheckpoint job old isWrite before
    · -- a job that is enqueued now comes after every checkpoint
      have known := history.fresh other checkpoint
        (history.mem_enqueued (List.mem_append_left _ isStarted))
      exact absurd before (Nat.lt_asymm known)
  · simp only [State.addToWriteQueue, State.setQueue, Function.update_of_ne same] at isJob
    exact checkpoints other checkpoint isStarted isCheckpoint job isJob isWrite before

/-- A checkpoint starts when no write of its queue is active. -/
theorem ready (history : History state) (executions : Executions state) {name : Nat}
    {checkpoint : WriteJob} {jobs : List WriteJob}
    (isNext : (state.queues name).jobs = checkpoint :: jobs)
    (inactive : (state.queues name).active = 0) {job : WriteJob}
    (isJob : job ∈ state.enqueued name) (isWrite : job.isWrite = true)
    (before : job.number < checkpoint.number)
    : job.number ∈ state.completed name ∨ job.number ∈ state.discarded name := by
  by_cases discarded : job.number ∈ state.discarded name
  · exact .inr discarded
  · left
    have kept : job ∈ state.started name ++ (state.queues name).jobs := by
      rw [← history.order name]
      exact List.mem_filter.mpr ⟨isJob, by simpa using discarded⟩
    have isStarted : job ∈ state.started name := by
      rcases List.mem_append.mp kept with isStarted | isWaiting
      · exact isStarted
      · have ordered := (List.pairwise_append.mp (history.startedAscending name)).2.1
        rw [isNext] at ordered isWaiting
        rcases List.mem_cons.mp isWaiting with rfl | later
        · exact absurd before (lt_irrefl _)
        · exact absurd before (Nat.lt_asymm (List.rel_of_pairwise_cons ordered later))
    have once : 0 < (state.started name).countP (fun other => other.number = job.number) :=
      List.countP_pos_iff.mpr ⟨job, isStarted, by simp⟩
    rw [executions.executed name job.number] at once
    by_contra notCompleted
    rw [List.count_eq_zero.mpr notCompleted] at once
    -- the thread that executes the job would be active
    have noneRuns : total (Writer.runs name job.number) state.writers = 0 := by
      refine total_eq_zero (fun writer member => ?_)
      cases writer with
      | waiting => rfl
      | executing queue running =>
          by_contra isRunning
          simp only [Writer.runs, ite_eq_right_iff, one_ne_zero, imp_false, not_not] at isRunning
          obtain ⟨rfl, sameNumber⟩ := isRunning
          have known := history.mem_enqueued
            (List.mem_append_left _ (executions.running queue running member))
          obtain rfl := history.eq_of_number known isJob sameNumber
          have counted := weight_le_total (Writer.active queue) member
          have isActive := executions.active queue
          simp only [Writer.active, isWrite, and_self, if_true] at counted
          omega
    omega

theorem take (checkpoints : Checkpoints state) (history : History state)
    (executions : Executions state) {thread name : Nat} {job : WriteJob} {jobs : List WriteJob}
    {skipped rest : List Nat} (isNext : (state.queues name).jobs = job :: jobs)
    (isReady : job.isWrite = true ∨ (state.queues name).active = 0)
    : Checkpoints (state.take thread name job jobs skipped rest) := by
  intro other checkpoint isStarted isCheckpoint
  by_cases same : other = name
  · subst same
    simp only [State.take, State.setQueue, Function.update_self, List.mem_append,
      List.mem_singleton] at isStarted
    rcases isStarted with old | rfl
    · exact checkpoints other checkpoint old isCheckpoint
    · have inactive := isReady.resolve_left (by simp [isCheckpoint])
      intro job isJob isWrite before
      exact ready history executions isNext inactive isJob isWrite before
  · simp only [State.take, State.setQueue, Function.update_of_ne same] at isStarted
    exact checkpoints other checkpoint isStarted isCheckpoint

/-- What is completed and discarded grows. -/
theorem grows (checkpoints : Checkpoints state) (isStarted : after.started = state.started)
    (isEnqueued : after.enqueued = state.enqueued)
    (completed : ∀ name, state.completed name ⊆ after.completed name)
    (discarded : ∀ name, state.discarded name ⊆ after.discarded name)
    : Checkpoints after := by
  intro name checkpoint started isCheckpoint job isJob isWrite before
  rw [isStarted] at started
  rw [isEnqueued] at isJob
  rcases checkpoints name checkpoint started isCheckpoint job isJob isWrite before with
    isCompleted | isDiscarded
  · exact .inl (completed name isCompleted)
  · exact .inr (discarded name isDiscarded)

end Checkpoints

-- The size of all queues

/-- `writeQueuesSize` is the sum of the sizes of the queues, of which finitely many are used. -/
def Totals (state : State) : Prop :=
  ∃ names : Finset Nat, (∀ name, name ∉ names → (state.queues name).size = 0)
    ∧ state.writeQueuesSize = ∑ name ∈ names, (state.queues name).size

/-- The size of one queue changes. -/
theorem Totals.update (name : Nat) (totals : Totals state)
    (others : ∀ other, other ≠ name → (after.queues other).size = (state.queues other).size)
    (isTotal : after.writeQueuesSize
      = state.writeQueuesSize + ((after.queues name).size - (state.queues name).size))
    : Totals after := by
  obtain ⟨names, unused, isSum⟩ := totals
  have unchanged : ∑ other ∈ names.erase name, (after.queues other).size
      = ∑ other ∈ names.erase name, (state.queues other).size :=
    Finset.sum_congr rfl (fun other member => others other (Finset.ne_of_mem_erase member))
  have erased : ∑ other ∈ names, (state.queues other).size
      = (state.queues name).size + ∑ other ∈ names.erase name, (state.queues other).size := by
    by_cases member : name ∈ names
    · exact (Finset.add_sum_erase names _ member).symm
    · rw [unused name member, Finset.erase_eq_of_notMem member, zero_add]
  refine ⟨insert name (names.erase name), fun other notMember => ?_, ?_⟩
  · rw [Finset.mem_insert, not_or] at notMember
    obtain ⟨different, notErased⟩ := notMember
    rw [others other different]
    exact unused other (fun member => notErased (Finset.mem_erase.mpr ⟨different, member⟩))
  · rw [Finset.sum_insert (Finset.notMem_erase name names), unchanged, isTotal, isSum, erased]
    omega

-- Whole runs

structure Inv (state : State) : Prop where
  rotation : Rotation state
  history : History state
  executions : Executions state
  checkpoints : Checkpoints state
  totals : Totals state

theorem Starts.inv (starts : Starts state) : Inv state where
  rotation := by
    refine ⟨fun name nonempty => ?_, fun name member => ?_, fun name _ => ?_⟩
    · rw [starts.queues name] at nonempty
      exact absurd rfl nonempty
    · rw [starts.writeQueues] at member
      cases member
    · simp [starts.writeQueues]
  history := by
    refine ⟨fun name => ?_, fun name => ?_, fun name job member => ?_, fun name number member => ?_⟩
    · simp [starts.enqueued name, starts.started name, starts.queues name, WriteQueue.new]
    · simp [starts.enqueued name]
    · rw [starts.enqueued name] at member
      cases member
    · rw [starts.discarded name] at member
      cases member
  executions := by
    have idle (weight : Writer → Nat) (isIdle : weight .waiting = 0) : total weight state.writers = 0 :=
      total_eq_zero (fun writer member => starts.writers writer member ▸ isIdle)
    refine ⟨fun name number => ?_, fun name job member => ?_, fun name => ?_, fun name => ?_⟩
    · simp [starts.started name, starts.completed name, idle (Writer.runs name number) rfl]
    · cases starts.writers _ member
    · simp [starts.queues name, WriteQueue.new, idle (Writer.active name) rfl]
    · rw [idle (Writer.load name) rfl]
      simp [starts.queues name, WriteQueue.new, total]
  checkpoints := by
    intro name checkpoint isStarted
    rw [starts.started name] at isStarted
    cases isStarted
  totals := ⟨∅, fun name _ => by rw [starts.queues name]; rfl, by simp [starts.writeQueuesSize]⟩

namespace Inv

theorem enqueueWrite {name size : Nat} (inv : Inv state)
    (next : WriteQueues.step limit state (.enqueueWrite name size) = some after)
    : Inv after := by
  have rotation := inv.rotation.step next
  simp only [WriteQueues.step] at next
  split at next
  next =>
    cases next
    exact inv
  next =>
    cases next
    have isQueue (other : Nat) (different : other ≠ name)
        : ((state.addToWriteQueue name (.write size)).setQueue name
            { (state.addToWriteQueue name (.write size)).queues name with
              count := ((state.addToWriteQueue name (.write size)).queues name).count + 1
              size := ((state.addToWriteQueue name (.write size)).queues name).size + size }).queues
            other
          = state.queues other := by
      simp [State.setQueue, State.addToWriteQueue, different]
    refine ⟨rotation, ?_, ?_, ?_, ?_⟩
    · refine (inv.history.addToWriteQueue name (.write size)).same rfl rfl rfl rfl (fun other => ?_)
      by_cases same : other = name
      · subst same
        simp [State.setQueue]
      · simp [State.setQueue, same]
    · refine inv.executions.addToWriteQueue name (.write size) size rfl rfl rfl rfl ?_ isQueue
      simp [State.setQueue, State.addToWriteQueue]
    · exact inv.checkpoints.addToWriteQueue inv.history name (.write size)
    · refine inv.totals.update name (fun other different => by rw [isQueue other different]) ?_
      simp [State.setQueue, State.addToWriteQueue]

theorem enqueueCheckpoint (inv : Inv state) (name : Nat)
    : Inv (state.addToWriteQueue name .checkpoint) := by
  have isQueue (other : Nat) (different : other ≠ name)
      : (state.addToWriteQueue name .checkpoint).queues other = state.queues other := by
    simp [State.setQueue, State.addToWriteQueue, different]
  refine ⟨inv.rotation.addToWriteQueue name _, inv.history.addToWriteQueue name _, ?_,
    inv.checkpoints.addToWriteQueue inv.history name _, ?_⟩
  · refine inv.executions.addToWriteQueue name .checkpoint 0 rfl rfl rfl rfl ?_ isQueue
    simp [State.setQueue, State.addToWriteQueue]
  · refine inv.totals.update name (fun other different => by rw [isQueue other different]) ?_
    simp [State.setQueue, State.addToWriteQueue]

theorem dequeue {thread : Nat} (inv : Inv state)
    (next : WriteQueues.step limit state (.dequeue thread) = some after)
    : Inv after := by
  have rotation := inv.rotation.step next
  obtain ⟨skipped, name, rest, -, -, ⟨-, rfl⟩ | ⟨job, jobs, isNext, isReady, isWaiting, rfl⟩⟩ :=
    dequeue_cases next
  · refine ⟨rotation, inv.history.same rfl rfl rfl rfl (fun _ => rfl), ?_, inv.checkpoints,
      inv.totals⟩
    exact ⟨inv.executions.executed, inv.executions.running, inv.executions.active,
      inv.executions.size⟩
  · refine ⟨rotation, inv.history.take isNext, inv.executions.take isNext isWaiting,
      inv.checkpoints.take inv.history inv.executions isNext isReady, ?_⟩
    refine inv.totals.update name (fun other different => ?_) ?_
    · simp [State.take, State.setQueue, different]
    · simp [State.take, State.setQueue]

theorem done {thread : Nat} {ok : Bool} (inv : Inv state)
    (next : WriteQueues.step limit state (.done thread ok) = some after)
    : Inv after := by
  have rotation := inv.rotation.step next
  simp only [WriteQueues.step] at next
  split at next
  next name job isRunning =>
    have completed (other : Nat) : state.completed other
        ⊆ Function.update state.completed name (job.number :: state.completed name) other := by
      by_cases same : other = name
      · subst same
        simp
      · simp [same]
    split at next
    next size isWrite =>
      cases next
      have isActive : job.isWrite = true := by simp [WriteJob.isWrite, isWrite]
      have isSize : job.size = size := by simp [WriteJob.size, isWrite]
      refine ⟨rotation, ?_, ?_, ?_, ?_⟩
      · refine inv.history.same rfl rfl rfl rfl (fun other => ?_)
        by_cases same : other = name
        · subst same
          simp [State.setQueue]
        · simp [State.setQueue, same]
      · refine inv.executions.done isRunning rfl rfl rfl ?_ ?_ ?_
        all_goals
          intro other
          by_cases same : other = name
          · subst same
            simp [State.setQueue, Writer.active, Writer.load, isActive, isSize]
          · simp [State.setQueue, Writer.active, Writer.load, same, Ne.symm same]
      · exact inv.checkpoints.grows rfl rfl completed (fun _ => List.Subset.refl _)
      · refine inv.totals.update name (fun other different => ?_) ?_
        · simp [State.setQueue, different]
        · simp [State.setQueue]
          omega
    next isCheckpoint =>
      cases next
      have isActive : job.isWrite = false := by simp [WriteJob.isWrite, isCheckpoint]
      have isSize : job.size = 0 := by simp [WriteJob.size, isCheckpoint]
      refine ⟨rotation, inv.history.same rfl rfl rfl rfl (fun _ => rfl), ?_, ?_, inv.totals⟩
      · refine inv.executions.done isRunning rfl rfl rfl (fun _ => rfl) ?_ ?_
        · intro other
          simp [Writer.active, isActive]
        · intro other
          simp [Writer.load, isSize]
      · exact inv.checkpoints.grows rfl rfl completed (fun _ => List.Subset.refl _)
  next => cases next

theorem closeDatabase {name : Nat} (inv : Inv state)
    (next : WriteQueues.step limit state (.closeDatabase name) = some after)
    : Inv after := by
  have rotation := inv.rotation.step next
  simp only [WriteQueues.step] at next
  split at next
  next isEmpty =>
    cases next
    have isQueue (other : Nat) (different : other ≠ name)
        : (state.setQueue name { state.queues name with jobs := [] }).queues other
          = state.queues other := by
      simp [State.setQueue, different]
    refine ⟨rotation, ?_, ?_, ?_, ?_⟩
    · refine inv.history.flush rfl rfl rfl rfl ?_ (fun other different => ?_)
      · simp [State.setQueue]
      · exact congrArg WriteQueue.jobs (isQueue other different)
    · refine inv.executions.flush isEmpty rfl rfl rfl ?_ isQueue
      simp [State.setQueue]
    · refine inv.checkpoints.grows rfl rfl (fun _ => List.Subset.refl _) (fun other => ?_)
      by_cases same : other = name
      · subst same
        simp
      · simp [same]
    · refine inv.totals.update name (fun other different => ?_) ?_
      · exact congrArg WriteQueue.size (isQueue other different)
      · simp [State.setQueue, isEmpty]
  next => cases next

theorem step {event : Event} (inv : Inv state)
    (next : WriteQueues.step limit state event = some after)
    : Inv after := by
  cases event with
  | enqueueWrite => exact inv.enqueueWrite next
  | enqueueCheckpoint name =>
      cases next
      exact inv.enqueueCheckpoint name
  | dequeue => exact inv.dequeue next
  | done => exact inv.done next
  | closeDatabase => exact inv.closeDatabase next

end Inv

/-- The size of the enqueued and active writes of a queue. -/
def State.bytes (state : State) (name : Nat) : Nat :=
  total WriteJob.size (state.queues name).jobs + total (Writer.load name) state.writers

/-- No job is lost, reordered, executed twice or stranded, and checkpoints wait for earlier
writes.
-/
structure Orderly (limit : Int) (state : State) : Prop where
  onRound : ∀ name, (state.queues name).jobs ≠ [] → name ∈ state.writeQueues
  /-- Only a queue that `deleteWriteQueues` was applied to is on the round-robin without jobs. -/
  leftover : ∀ name ∈ state.writeQueues, (state.queues name).jobs = [] → name ∈ state.deleted
  /-- A thread that finds no job leaves only checkpoints, which wait for a write that some thread
  executes.
  -/
  progress
    : ∀ thread name, state.writers[thread]? = some .waiting →
        step limit state (.dequeue thread) = none → (state.queues name).jobs ≠ [] →
          (∃ job jobs, (state.queues name).jobs = job :: jobs ∧ job.isWrite = false)
            ∧ ∃ job, .executing name job ∈ state.writers ∧ job.isWrite = true
  distinct
    : ∀ name, (state.enqueued name).Pairwise (fun left right => left.number < right.number)
  order
    : ∀ name, (state.enqueued name).filter (fun job => job.number ∉ state.discarded name)
        = state.started name ++ (state.queues name).jobs
  once
    : ∀ name, ∀ job ∈ state.started name, (state.completed name).count job.number
        + total (Writer.runs name job.number) state.writers = 1
  checkpoints : Checkpoints state
  size
    : ∃ names : Finset Nat, (∀ name, name ∉ names → state.bytes name = 0)
        ∧ state.writeQueuesSize = ∑ name ∈ names, (state.bytes name : Int)

namespace Inv

/-- A queue with active writes has a thread that executes one. -/
theorem exists_active (inv : Inv state) {name : Nat} (active : (state.queues name).active ≠ 0)
    : ∃ job, .executing name job ∈ state.writers ∧ job.isWrite = true := by
  by_contra none
  simp only [not_exists, not_and] at none
  have idle : total (Writer.active name) state.writers = 0 := by
    refine total_eq_zero (fun writer member => ?_)
    cases writer with
    | waiting => rfl
    | executing queue job =>
        by_contra isActive
        simp only [Writer.active, ite_eq_right_iff, one_ne_zero, imp_false, not_not] at isActive
        obtain ⟨rfl, isWrite⟩ := isActive
        exact none job member isWrite
  rw [inv.executions.active name, idle] at active
  exact active rfl

theorem orderly (inv : Inv state) (limit : Int) : Orderly limit state where
  onRound := inv.rotation.onRound
  leftover := inv.rotation.leftover
  progress := by
    intro thread name isWaiting blocked nonempty
    simp only [WriteQueues.step, isWaiting] at blocked
    have nothing : dequeueLoop state.queues state.writeQueues = none := by
      cases found : dequeueLoop state.queues state.writeQueues with
      | none => rfl
      | some result =>
          rw [WriteQueues.dequeue, found] at blocked
          simp only [Option.bind_eq_bind, Option.bind_some] at blocked
          split at blocked <;> cases blocked
    obtain ⟨job, jobs, isNext, isCheckpoint, active⟩ :=
      dequeueLoop_eq_none nothing name (inv.rotation.onRound name nonempty)
    exact ⟨⟨job, jobs, isNext, isCheckpoint⟩, inv.exists_active active⟩
  distinct := inv.history.ascending
  order := inv.history.order
  once := by
    intro name job isStarted
    rw [← inv.executions.executed name job.number]
    have ordered := (List.pairwise_append.mp (inv.history.startedAscending name)).1
    have distinct : ((state.started name).map WriteJob.number).Nodup :=
      List.pairwise_map.mpr (ordered.imp (fun less => Nat.ne_of_lt less))
    have counted := List.count_eq_one_of_mem distinct (List.mem_map_of_mem isStarted)
    rw [List.count_eq_countP, List.countP_map] at counted
    simpa [Function.comp_def, beq_eq_decide] using counted
  checkpoints := inv.checkpoints
  size := by
    obtain ⟨names, unused, isSum⟩ := inv.totals
    have isBytes (name : Nat) : (state.queues name).size = (state.bytes name : Int) :=
      inv.executions.size name
    refine ⟨names, fun name notMember => ?_, ?_⟩
    · have isZero := unused name notMember
      rw [isBytes] at isZero
      exact_mod_cast isZero
    · rw [isSum]
      exact Finset.sum_congr rfl (fun name _ => isBytes name)

end Inv

/-- In every run, jobs are neither lost, reordered nor stranded. -/
theorem queues_orderly (run : Machine.Run (step limit) (fun _ _ => True) Starts state)
    : Orderly limit state := by
  have inv : Inv state :=
    run.invariant (fun _ => Starts.inv) (fun _ _ _ inv _ next => inv.step next)
  exact inv.orderly limit

/-- Two writer threads, and no jobs. -/
def twoWriters : State where
  queues := fun _ => .new
  writeQueues := []
  writeQueuesSize := 0
  writers := [.waiting, .waiting]
  nextJob := 0
  enqueued := fun _ => []
  started := fun _ => []
  completed := fun _ => []
  discarded := fun _ => []
  deleted := []

theorem starts_twoWriters : Starts twoWriters where
  queues := fun _ => rfl
  writeQueues := rfl
  writeQueuesSize := rfl
  writers := by simp [twoWriters]
  enqueued := fun _ => rfl
  started := fun _ => rfl
  completed := fun _ => rfl
  discarded := fun _ => rfl
  deleted := rfl

/-- A checkpoint behind an active write waits while a thread looks for another job. -/
theorem queues_orderly_checkpoint
    : ∃ state, Machine.Run (step 1) (fun _ _ => True) Starts state ∧ state.started 0 = [⟨0, .write 5⟩]
        ∧ Orderly 1 state := by
  have start : Machine.Run (step 1) (fun _ _ => True) Starts twoWriters := .start starts_twoWriters
  obtain ⟨state, executed, isStarted⟩ : ∃ state, Machine.runEvents (step 1) twoWriters
        [.enqueueWrite 0 5, .enqueueCheckpoint 0, .enqueueWrite 1 7, .dequeue 0] = some state
      ∧ state.started 0 = [⟨0, .write 5⟩] :=
    ⟨_, rfl, rfl⟩
  have run := start.of_runEvents (Machine.soundEvents_true _ _ _) executed
  exact ⟨state, run, isStarted, queues_orderly run⟩

/-- A queue stays on the round-robin when `closeDatabase` empties it. -/
theorem emptyQueue_onRound
    : ∃ state, Machine.Run (step 1) (fun _ _ => True) Starts state
        ∧ ¬ ∀ name, name ∈ state.writeQueues ↔ (state.queues name).jobs ≠ [] := by
  have start : Machine.Run (step 1) (fun _ _ => True) Starts twoWriters := .start starts_twoWriters
  obtain ⟨state, executed, onRound, isEmpty⟩ : ∃ state, Machine.runEvents (step 1) twoWriters
        [.enqueueCheckpoint 0, .closeDatabase 0] = some state
      ∧ 0 ∈ state.writeQueues ∧ (state.queues 0).jobs = [] :=
    ⟨_, rfl, List.mem_singleton.mpr rfl, rfl⟩
  refine ⟨state, start.of_runEvents (Machine.soundEvents_true _ _ _) executed, fun exactly => ?_⟩
  exact (exactly 0).mp onRound isEmpty

end Glean.Database.WriteQueues
