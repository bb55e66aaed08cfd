import Glean.Database.Writes
import Glean.Library.Threads

/-! Whether a database that was finalized still accepts writes, over all interleavings of its
clients, its writer threads and the threads that open, close and finalize it.
-/

namespace Glean.Database.Writes

open Threads

/-- The steps that do not go wrong: the last `workFinished` comes while no opener has the
database in a writable mode and no client has been handed its queue without having used it; a
database that was marked broken after its finalization is not opened again by a server that may
write; and `doFinalize` completes a database that is still finalizing.
-/
def Sound (state : State) : Event → Prop
  | .workFinished true =>
      state.completeness = .incomplete →
        (∀ mode, state.dbState = .opening mode → mode = .readOnly)
          ∧ ∀ thread ∈ state.threads, ∀ size name,
              thread ≠ .enqueuer (.write size) (.opened (some name))
  | .openDatabase _ =>
      state.dbState = .closed → state.finalized = true → ∀ task reason,
        state.completeness = .broken task reason → state.envReadOnly = true
  | .finalizeFinished => state.completeness = .finalizing ∨ state.completeness = .complete
  | _ => True

-- The invariant

/-- The state leads to a database with a write queue. -/
def DBState.Writable : DBState → Prop
  | .open writing => writing ≠ none
  | .opening mode => mode ≠ .readOnly
  | _ => False

namespace Thread

/-- The bytes a writer thread has taken from a queue. -/
def load (name : Nat) : Thread → Nat
  | .writer queue size _ | .done queue size => if queue = name then size else 0
  | _ => 0

/-- Whether `writeQueueActive` counts the thread. -/
def active (name : Nat) : Thread → Nat
  | .writer queue _ _ | .done queue _ => if queue = name then 1 else 0
  | _ => 0

@[simp]
theorem load_setStage (name : Nat) (stage : Stage) (thread : Thread)
    : (thread.setStage stage).load name = thread.load name := by
  cases thread <;> rfl

@[simp]
theorem active_setStage (name : Nat) (stage : Stage) (thread : Thread)
    : (thread.setStage stage).active name = thread.active name := by
  cases thread <;> rfl

@[simp]
theorem load_release (name : Nat) (thread : Thread)
    : thread.release.load name = thread.load name := by
  cases thread <;> rfl

@[simp]
theorem active_release (name : Nat) (thread : Thread)
    : thread.release.active name = thread.active name := by
  cases thread <;> rfl

@[simp]
theorem load_wake (name : Nat) (result : Option (Option Nat)) (thread : Thread)
    : (thread.wake result).load name = thread.load name := by
  unfold wake
  split_ifs
  · cases result <;> simp
  · rfl

@[simp]
theorem active_wake (name : Nat) (result : Option (Option Nat)) (thread : Thread)
    : (thread.wake result).active name = thread.active name := by
  unfold wake
  split_ifs
  · cases result <;> simp
  · rfl

theorem active_of_load {name : Nat} {thread : Thread} (loaded : 0 < thread.load name)
    : thread.active name = 1 := by
  cases thread with
  | writer queue size stage | done queue size =>
      simp only [load] at loaded
      simp only [active]
      split_ifs at loaded ⊢ with same
      · rfl
      · cases loaded
  | _ => simp [load] at loaded

/-- The queue in which a client is about to put a write. -/
def target? : Thread → Option Nat
  | .enqueuer (.write _) (.opened writing) => writing
  | _ => none

theorem target?_setStage_opened {thread : Thread} {writing : Option Nat} {name : Nat}
    (isTarget : (thread.setStage (.opened writing)).target? = some name)
    : writing = some name := by
  cases thread with
  | enqueuer job stage =>
      cases job with
      | write size => exact isTarget
      | checkpoint => cases isTarget
  | _ => cases isTarget

theorem target?_release (thread : Thread) : thread.release.target? = none := by
  cases thread <;> rfl

theorem target?_wake {thread : Thread} {result : Option (Option Nat)} {name : Nat}
    (isTarget : (thread.wake result).target? = some name)
    : thread.target? = some name ∨ result = some (some name) := by
  unfold wake at isTarget
  split_ifs at isTarget
  · cases result with
    | none => rw [target?_release] at isTarget; cases isTarget
    | some writing => exact .inr (congrArg some (target?_setStage_opened isTarget))
  · exact .inl isTarget

theorem target?_eq_some {thread : Thread} {name : Nat}
    : thread.target? = some name ↔ ∃ size, thread = .enqueuer (.write size) (.opened (some name)) := by
  unfold target?
  split <;> simp_all

end Thread

/-- What holds in every state of a run with sound steps. -/
structure Inv (state : State) : Prop where
  finalized
    : state.finalized = true → state.completeness ≠ .incomplete ∧ ¬ state.dbState.Writable
  isFinalized
    : state.completeness = .finalizing ∨ state.completeness = .complete →
        state.finalized = true
  clients
    : ∀ thread ∈ state.threads, ∀ name, thread.target? = some name →
        state.dbState = .open (some name)
  jobs
    : ∀ name, ∀ job ∈ (state.queues name).jobs, 0 < job.size →
        state.dbState = .open (some name)
  writers
    : ∀ thread ∈ state.threads, ∀ name, 0 < thread.load name →
        state.dbState = .open (some name)
  active : ∀ name, (state.queues name).active = total (Thread.active name) state.threads
  size
    : ∀ name, ((state.queues name).jobs.map WriteJob.size).sum
          + total (Thread.load name) state.threads
        ≤ (state.queues name).size

theorem Starts.inv {state : State} (starts : Starts state) : Inv state where
  finalized := by
    intro isFinalized
    refine ⟨?_, ?_⟩
    · rcases starts.finalized.mp isFinalized with completeness | completeness <;>
        simp [completeness]
    · rcases starts.dbState with closed | ⟨-, notFinalized⟩
      · simp [closed, DBState.Writable]
      · rw [notFinalized] at isFinalized
        cases isFinalized
  isFinalized := starts.finalized.mpr
  clients := by simp [starts.threads]
  jobs := by simp [starts.queues, WriteQueue.empty]
  writers := by simp [starts.threads]
  active := by simp [starts.queues, starts.threads, WriteQueue.empty, total]
  size := by simp [starts.queues, starts.threads, WriteQueue.empty, total]

/-- The invariant excludes the steps that accept something. -/
theorem Inv.not_accepts {state : State} (inv : Inv state) (isFinalized : state.finalized = true)
    (event : Event)
    : ¬ Accepts state event := by
  have notOpen (name : Nat) : state.dbState ≠ .open (some name) := by
    intro isOpen
    exact (inv.finalized isFinalized).2 (by simp [isOpen, DBState.Writable])
  intro accepts
  cases event with
  | enqueue index =>
      obtain ⟨size, name, at_index⟩ := accepts
      exact notOpen name (inv.clients _ (List.mem_of_getElem? at_index) name rfl)
  | commit index =>
      obtain ⟨name, size, writing, positive, at_index⟩ := accepts
      refine notOpen name (inv.writers _ (List.mem_of_getElem? at_index) name ?_)
      simpa [Thread.load] using positive
  | _ => exact accepts

-- Steps of a single thread

namespace Inv

variable {state after : State} {index : Nat}

/-- A thread takes a step that does not touch the queues. -/
theorem setThread {old new : Thread} (inv : Inv state)
    (at_index : state.threads[index]? = some old)
    (client : ∀ name, new.target? = some name → state.dbState = .open (some name))
    (load : ∀ name, new.load name = old.load name)
    (active : ∀ name, new.active name = old.active name)
    : Inv (state.setThread index new) := by
  have old_mem := List.mem_of_getElem? at_index
  exact { inv with
    clients := forall_set inv.clients client
    writers := forall_set inv.writers
      (fun name loaded => inv.writers old old_mem name (load name ▸ loaded))
    active := fun name => by
      have same := total_set (Thread.active name) at_index new
      rw [active name] at same
      have before := inv.active name
      simp only [State.setThread]
      omega
    size := fun name => by
      have same := total_set (Thread.load name) at_index new
      rw [load name] at same
      have before := inv.size name
      simp only [State.setThread]
      omega }

/-- A thread without a job starts. -/
theorem addThread {new : Thread} (inv : Inv state) (client : new.target? = none)
    (load : ∀ name, new.load name = 0) (active : ∀ name, new.active name = 0)
    : Inv { state with threads := state.threads ++ [new] } := by
  have all {holds : Thread → Prop} (old : ∀ thread ∈ state.threads, holds thread)
      (isNew : holds new) : ∀ thread ∈ state.threads ++ [new], holds thread := by
    intro thread member
    rcases List.mem_append.mp member with kept | isLast
    · exact old thread kept
    · exact List.mem_singleton.mp isLast ▸ isNew
  exact { inv with
    clients := all inv.clients (by simp [client])
    writers := all inv.writers (by simp [load])
    active := fun name => by
      rw [total_append, active name]
      exact inv.active name
    size := fun name => by
      rw [total_append, load name]
      exact inv.size name }

/-- The database changes its state while it has no write queue, so nobody writes. -/
theorem setDbState (inv : Inv state) (dbState : DBState) (update : Thread → Thread)
    (notOpen : ∀ name, state.dbState ≠ .open (some name))
    (finalized : state.finalized = true → ¬ dbState.Writable)
    (client : ∀ thread ∈ state.threads, ∀ name, (update thread).target? = some name →
      thread.target? = some name ∨ dbState = .open (some name))
    (load : ∀ thread name, (update thread).load name = thread.load name)
    (active : ∀ thread name, (update thread).active name = thread.active name)
    : Inv { state with dbState := dbState, threads := state.threads.map update } where
  finalized := fun isFinalized => ⟨(inv.finalized isFinalized).1, finalized isFinalized⟩
  isFinalized := inv.isFinalized
  clients := by
    intro thread member name isTarget
    obtain ⟨before, was, rfl⟩ := List.mem_map.mp member
    rcases client before was name isTarget with old | new
    · exact (notOpen name (inv.clients before was name old)).elim
    · exact new
  jobs := fun name job member positive => (notOpen name (inv.jobs name job member positive)).elim
  writers := by
    intro thread member name loaded
    obtain ⟨before, was, rfl⟩ := List.mem_map.mp member
    rw [load] at loaded
    exact (notOpen name (inv.writers before was name loaded)).elim
  active := fun name => by
    rw [total_map (fun thread => active thread name)]
    exact inv.active name
  size := fun name => by
    rw [total_map (fun thread => load thread name)]
    exact inv.size name

theorem openDatabase (inv : Inv state) (sound : Sound state (.openDatabase index))
    (next : step state (.openDatabase index) = some after)
    : Inv after := by
  simp only [step] at next
  split at next
  next thread at_index =>
    split_ifs at next with acquired
    split at next
    next writing isOpen =>
      obtain rfl := Option.some.inj next
      refine inv.setThread at_index ?_ (by simp) (by simp)
      intro name isTarget
      rw [isOpen, Thread.target?_setStage_opened isTarget]
    next isClosed =>
      obtain rfl := Option.some.inj next
      have waiting : Inv (state.setThread index (thread.setStage .waiting)) := by
        refine inv.setThread at_index (fun name isTarget => ?_) (by simp) (by simp)
        rcases thread with ⟨⟨⟩, _⟩ | _ | _ | _ | _ <;> cases isTarget
      have notOpen (name : Nat) : state.dbState ≠ .open (some name) := by simp [isClosed]
      have readOnly (isFinalized : state.finalized = true)
          : openMode state.envReadOnly state.completeness = .readOnly := by
        have notIncomplete := (inv.finalized isFinalized).1
        unfold openMode
        cases completeness : state.completeness with
        | incomplete => exact (notIncomplete completeness).elim
        | finalizing | complete => simp
        | broken task reason => simp [sound isClosed isFinalized task reason completeness]
      have opening := waiting.setDbState
        (.opening (openMode state.envReadOnly state.completeness)) id notOpen
        (fun isFinalized => by simp [DBState.Writable, readOnly isFinalized])
        (fun _ _ _ => .inl) (by simp) (by simp)
      simpa using opening
    next => cases next
    next => cases next
  next => cases next

theorem release (inv : Inv state) (next : step state (.release index) = some after)
    : Inv after := by
  simp only [step] at next
  split at next
  next thread at_index =>
    obtain rfl := Option.some.inj next
    exact inv.setThread at_index (by simp [Thread.target?_release]) (by simp) (by simp)
  next => cases next

theorem acquire (inv : Inv state) (next : step state (.acquire index) = some after)
    : Inv after := by
  simp only [step] at next
  split at next
  next at_index =>
    obtain rfl := Option.some.inj next
    exact inv.setThread at_index (by simp [Thread.target?]) (by simp [Thread.load])
      (by simp [Thread.active])
  next => cases next

theorem commit (inv : Inv state) (next : step state (.commit index) = some after)
    : Inv after := by
  simp only [step] at next
  split at next
  next at_index =>
    obtain rfl := Option.some.inj next
    exact inv.setThread at_index (by simp [Thread.target?]) (by simp [Thread.load])
      (by simp [Thread.active])
  next => cases next

-- Steps on the queues

/-- A queue and the pool change together. -/
theorem setQueue {queue : WriteQueue} {threads : List Thread} {name : Nat} (inv : Inv state)
    (clients : ∀ thread ∈ threads, ∀ other, thread.target? = some other →
      state.dbState = .open (some other))
    (jobs : ∀ job ∈ queue.jobs, 0 < job.size → state.dbState = .open (some name))
    (writers : ∀ thread ∈ threads, ∀ other, 0 < thread.load other →
      state.dbState = .open (some other))
    (active : queue.active = total (Thread.active name) threads)
    (size : (queue.jobs.map WriteJob.size).sum + total (Thread.load name) threads ≤ queue.size)
    (others : ∀ other ≠ name, total (Thread.active other) threads
        = total (Thread.active other) state.threads
      ∧ total (Thread.load other) threads = total (Thread.load other) state.threads)
    : Inv { state with
        queues := Function.update state.queues name queue
        threads := threads } where
  finalized := inv.finalized
  isFinalized := inv.isFinalized
  clients := clients
  jobs := by
    intro other job member positive
    dsimp only at member ⊢
    by_cases same : other = name
    · subst same
      rw [Function.update_self] at member
      exact jobs job member positive
    · rw [Function.update_of_ne same] at member
      exact inv.jobs other job member positive
  writers := writers
  active := by
    intro other
    dsimp only
    by_cases same : other = name
    · subst same
      rw [Function.update_self, active]
    · rw [Function.update_of_ne same, (others other same).1]
      exact inv.active other
  size := by
    intro other
    dsimp only
    by_cases same : other = name
    · subst same
      rw [Function.update_self]
      exact size
    · rw [Function.update_of_ne same, (others other same).2]
      exact inv.size other

theorem enqueue (inv : Inv state) (next : step state (.enqueue index) = some after)
    : Inv after := by
  simp only [step] at next
  split at next
  next job name at_index =>
    obtain rfl := Option.some.inj next
    have member := List.mem_of_getElem? at_index
    have active (other : Nat) := total_set (Thread.active other) at_index .over
    have load (other : Nat) := total_set (Thread.load other) at_index .over
    simp only [Thread.active, Thread.load, Nat.add_zero] at active load
    refine inv.setQueue (forall_set inv.clients (by simp [Thread.target?])) ?_
      (forall_set inv.writers (by simp [Thread.load])) ?_ ?_ (fun other _ => ⟨active other, load other⟩)
    · intro other isJob positive
      rcases List.mem_append.mp isJob with old | new
      · exact inv.jobs name other old positive
      · obtain rfl := List.mem_singleton.mp new
        refine inv.clients _ member name ?_
        cases other with
        | write size => rfl
        | checkpoint => cases positive
    · exact (inv.active name).trans (active name).symm
    · have before := inv.size name
      simp only [State.setThread, List.map_append, List.sum_append, List.map_cons, List.map_nil,
        List.sum_cons, List.sum_nil, load name]
      omega
  next => cases next

theorem dequeue {name : Nat} (inv : Inv state) (next : step state (.dequeue name) = some after)
    : Inv after := by
  have before := inv.size name
  simp only [step] at next
  split at next
  next => cases next
  next size rest queue =>
    obtain rfl := Option.some.inj next
    have isJob : WriteJob.write size ∈ (state.queues name).jobs := by simp [queue]
    have all {holds : Thread → Prop} (old : ∀ thread ∈ state.threads, holds thread)
        (isNew : holds (.writer name size none))
        : ∀ thread ∈ state.threads ++ [.writer name size none], holds thread := by
      intro thread member
      rcases List.mem_append.mp member with kept | isLast
      · exact old thread kept
      · exact List.mem_singleton.mp isLast ▸ isNew
    refine inv.setQueue (all inv.clients (by simp [Thread.target?])) ?_
      (all inv.writers ?_) ?_ ?_ ?_
    · intro job member positive
      exact inv.jobs name job (by simp [queue, member]) positive
    · intro other loaded
      simp only [Thread.load] at loaded
      split_ifs at loaded with same
      · subst same
        exact inv.jobs name _ isJob loaded
      · cases loaded
    · rw [total_append, inv.active name]
      simp [Thread.active]
    · rw [queue] at before
      simp only [total_append, Thread.load, if_true, List.map_cons, List.sum_cons,
        WriteJob.size] at before ⊢
      omega
    · intro other different
      simp [total_append, Thread.active, Thread.load, Ne.symm different]
  next rest queue =>
    split_ifs at next with idle
    obtain rfl := Option.some.inj next
    refine inv.setQueue inv.clients ?_ inv.writers (inv.active name) ?_ (by simp)
    · intro job member positive
      exact inv.jobs name job (by simp [queue, show job ∈ rest from member]) positive
    · rw [queue] at before
      simpa [WriteJob.size] using before

theorem jobDone (inv : Inv state) (next : step state (.jobDone index) = some after)
    : Inv after := by
  simp only [step] at next
  split at next
  next name size at_index =>
    obtain rfl := Option.some.inj next
    have active (other : Nat) := total_set (Thread.active other) at_index .over
    have load (other : Nat) := total_set (Thread.load other) at_index .over
    simp only [Thread.active, Thread.load, Nat.add_zero] at active load
    refine inv.setQueue (forall_set inv.clients (by simp [Thread.target?])) (inv.jobs name)
      (forall_set inv.writers (by simp [Thread.load])) ?_ ?_ ?_
    · have before := inv.active name
      have same := active name
      simp only [State.setThread, if_true] at same ⊢
      omega
    · have before := inv.size name
      have same := load name
      simp only [State.setThread, if_true] at same ⊢
      omega
    · intro other different
      have sameActive := active other
      have sameLoad := load other
      simp only [State.setThread, Ne.symm different, if_false] at sameActive sameLoad ⊢
      exact ⟨sameActive, sameLoad⟩
  next => cases next

-- Steps of the database

theorem opened (inv : Inv state) (next : step state .opened = some after) : Inv after := by
  simp only [step] at next
  split at next
  next opening =>
    obtain rfl := Option.some.inj next
    refine inv.setDbState (.open none) _ (by simp [opening]) (by simp [DBState.Writable]) ?_
      (by simp) (by simp)
    intro thread _ name isTarget
    rcases Thread.target?_wake isTarget with old | new
    · exact .inl old
    · cases new
  next mode notReadOnly opening =>
    obtain rfl := Option.some.inj next
    have writable : state.dbState.Writable := by
      rw [opening]
      exact notReadOnly
    have opened := inv.setDbState (.open (some state.nextQueue))
      (Thread.wake (some (some state.nextQueue))) (by simp [opening])
      (fun isFinalized => ((inv.finalized isFinalized).2 writable).elim) ?_ (by simp) (by simp)
    · exact { opened with }
    · intro thread _ name isTarget
      rcases Thread.target?_wake isTarget with old | new
      · exact .inl old
      · right
        rw [Option.some.inj new]
  next => cases next

theorem openFails (inv : Inv state) (next : step state .openFails = some after)
    : Inv after := by
  simp only [step] at next
  split at next
  next opening =>
    obtain rfl := Option.some.inj next
    refine inv.setDbState .closed _ (by simp [opening]) (by simp [DBState.Writable]) ?_
      (by simp) (by simp)
    intro thread _ name isTarget
    rcases Thread.target?_wake isTarget with old | new
    · exact .inl old
    · cases new
  next => cases next

/-- Nobody holds a database that is closed, and its queue has no bytes. -/
theorem close (inv : Inv state) (next : step state .close = some after) : Inv after := by
  simp only [step] at next
  split at next
  next writing isOpen =>
    split_ifs at next with idle
    obtain ⟨unused, empty⟩ := idle
    have noClient : ∀ thread ∈ state.threads, thread.target? = none := by
      intro thread member
      have notHeld := List.all_eq_true.mp unused thread member
      cases thread with
      | enqueuer => cases notHeld
      | _ => rfl
    have noJob (name : Nat) (isCurrent : writing = some name)
        : (∀ job ∈ (state.queues name).jobs, job.size = 0)
          ∧ ∀ thread ∈ state.threads, thread.load name = 0 := by
      have size := inv.size name
      rw [empty name isCurrent] at size
      refine ⟨fun job member => ?_, fun thread member => ?_⟩
      · have le := weight_le_total WriteJob.size member
        unfold total at le
        omega
      · have le := weight_le_total (Thread.load name) member
        omega
    have closing : Inv { state with dbState := .closing } := { inv with
      finalized := fun isFinalized =>
        ⟨(inv.finalized isFinalized).1, by simp [DBState.Writable]⟩
      clients := fun thread member name isTarget => by
        rw [noClient thread member] at isTarget
        cases isTarget
      jobs := fun name job member positive => by
        have current := inv.jobs name job member positive
        rw [isOpen] at current
        have none := (noJob name (DBState.open.inj current)).1 job member
        omega
      writers := fun thread member name loaded => by
        have current := inv.writers thread member name loaded
        rw [isOpen] at current
        have none := (noJob name (DBState.open.inj current)).2 thread member
        omega }
    split at next
    next name =>
      obtain rfl := Option.some.inj next
      refine closing.setQueue closing.clients (by simp) closing.writers (inv.active name) ?_
        (fun _ _ => ⟨rfl, rfl⟩)
      have before := inv.size name
      simp only [State.setQueue, List.map_nil, List.sum_nil]
      omega
    next =>
      obtain rfl := Option.some.inj next
      exact closing
  next => cases next

theorem closed (inv : Inv state) (next : step state .closed = some after) : Inv after := by
  simp only [step] at next
  split at next
  next closing =>
    obtain rfl := Option.some.inj next
    have isClosed := inv.setDbState .closed id (by simp [closing])
      (by simp [DBState.Writable]) (fun _ _ _ => .inl) (by simp) (by simp)
    simpa using isClosed
  next => cases next

/-- The last `workFinished` leaves no writer behind. -/
theorem workFinished {last : Bool} (inv : Inv state) (sound : Sound state (.workFinished last))
    (next : step state (.workFinished last) = some after)
    : Inv after := by
  simp only [step] at next
  split_ifs at next with incomplete isLast
  · subst isLast
    obtain ⟨notOpening, noClient⟩ := sound incomplete
    have noTarget : ∀ thread ∈ state.threads, ∀ name, thread.target? ≠ some name := by
      intro thread member name isTarget
      obtain ⟨size, isClient⟩ := Thread.target?_eq_some.mp isTarget
      exact noClient thread member size name isClient
    unfold State.makeReadOnly at next
    dsimp only at next
    split at next
    next name isOpen =>
      split_ifs at next with drained
      obtain rfl := Option.some.inj next
      obtain ⟨inactive, noJobs⟩ := drained
      exact { inv with
        finalized := by simp [DBState.Writable]
        isFinalized := fun _ => rfl
        clients := fun thread member other isTarget => (noTarget thread member other isTarget).elim
        jobs := fun other job member positive => by
          have current := inv.jobs other job member positive
          rw [isOpen] at current
          obtain rfl := Option.some.inj (DBState.open.inj current)
          rw [List.isEmpty_iff.mp noJobs] at member
          cases member
        writers := fun thread member other loaded => by
          have current := inv.writers thread member other loaded
          rw [isOpen] at current
          obtain rfl := Option.some.inj (DBState.open.inj current)
          have counted := weight_le_total (Thread.active name) member
          have active := inv.active name
          rw [Thread.active_of_load loaded] at counted
          dsimp only at counted inactive
          omega }
    next notWriting =>
      obtain rfl := Option.some.inj next
      exact { inv with
        finalized := fun _ => by
          refine ⟨by simp, fun writable => ?_⟩
          cases dbState : state.dbState with
          | opening mode =>
              rw [dbState] at writable
              exact writable (notOpening mode dbState)
          | «open» writing =>
              rw [dbState] at writable
              obtain ⟨name, rfl⟩ := Option.ne_none_iff_exists'.mp writable
              exact notWriting name dbState
          | closing | closed =>
              rw [dbState] at writable
              exact writable
        isFinalized := fun _ => rfl }
  · obtain rfl := Option.some.inj next
    exact inv

/-- Every step keeps the invariant, if it is sound. -/
theorem step {event : Event} (inv : Inv state) (sound : Sound state event)
    (next : Writes.step state event = some after)
    : Inv after := by
  cases event with
  | request job =>
      obtain rfl := Option.some.inj next
      exact inv.addThread (by cases job <;> rfl) (fun _ => rfl) (fun _ => rfl)
  | read =>
      obtain rfl := Option.some.inj next
      exact inv.addThread rfl (fun _ => rfl) (fun _ => rfl)
  | openDatabase => exact inv.openDatabase sound next
  | opened => exact inv.opened next
  | openFails => exact inv.openFails next
  | release => exact inv.release next
  | enqueue => exact inv.enqueue next
  | dequeue => exact inv.dequeue next
  | acquire => exact inv.acquire next
  | commit => exact inv.commit next
  | jobDone => exact inv.jobDone next
  | close => exact inv.close next
  | closed => exact inv.closed next
  | workFinished => exact inv.workFinished sound next
  | finalizeFinished =>
      obtain rfl := Option.some.inj next
      have isFinalized := inv.isFinalized sound
      exact { inv with
        finalized := fun _ => ⟨by simp, (inv.finalized isFinalized).2⟩
        isFinalized := fun _ => rfl }
  | unfinishDatabase =>
      simp only [Writes.step] at next
      split at next
      next =>
        obtain rfl := Option.some.inj next
        exact inv
      next =>
        obtain rfl := Option.some.inj next
        exact { inv with finalized := by simp, isFinalized := by simp }
      next =>
        obtain rfl := Option.some.inj next
        exact { inv with finalized := by simp, isFinalized := by simp }
      next => cases next
  | markBroken task reason =>
      obtain rfl := Option.some.inj next
      exact { inv with
        finalized := fun isFinalized => ⟨by simp, (inv.finalized isFinalized).2⟩
        isFinalized := by simp }

end Inv

-- Whole runs

/-- In every run with sound steps, no step enqueues a write for a database that became
finalizing or complete, or commits a fact to it, until it is unfinished.
-/
theorem finalized_accepts_nothing {state : State} {event : Event}
    (run : Machine.Run step Sound Starts state) (isFinalized : state.finalized = true)
    : ¬ Accepts state event := by
  have inv : Inv state :=
    run.invariant (fun _ => Starts.inv) (fun _ _ _ inv sound next => inv.step sound next)
  exact inv.not_accepts isFinalized event

/-- An incomplete database that is not open. -/
def incompleteDatabase : State where
  envReadOnly := false
  completeness := .incomplete
  finalized := false
  dbState := .closed
  queues := fun _ => .empty
  nextQueue := 0
  threads := []

theorem starts_incompleteDatabase : Starts incompleteDatabase where
  dbState := .inl rfl
  queues := fun _ => rfl
  threads := rfl
  finalized := by simp [incompleteDatabase]

/-- A write that is enqueued, executed and done. -/
def oneWrite : List Event :=
  [.request (.write 5), .openDatabase 0, .opened, .enqueue 0, .dequeue 0, .acquire 1,
    .openDatabase 1, .commit 1, .jobDone 1]

theorem finalized_accepts_nothing_afterWrite
    : ∃ state, Machine.Run step Sound Starts state ∧ state.finalized = true
        ∧ ∀ event, ¬ Accepts state event := by
  have start : Machine.Run step Sound Starts incompleteDatabase :=
    .start starts_incompleteDatabase
  have sound : Machine.SoundEvents step Sound incompleteDatabase
      (oneWrite ++ [.workFinished true]) := by
    refine ⟨trivial, fun _ isFinalized => ?_, trivial, trivial, trivial, trivial,
      fun isClosed => ?_, trivial, trivial, fun _ => ⟨?_, ?_⟩, trivial⟩
    · cases isFinalized
    · cases isClosed
    · rintro mode ⟨⟩
    · intro thread member size name same
      subst same
      simp [State.setThread, State.setQueue, incompleteDatabase, Thread.wake, Thread.stage?,
        Thread.setStage] at member
  obtain ⟨state, executed, isFinalized⟩ : ∃ state, Machine.runEvents step incompleteDatabase
        (oneWrite ++ [.workFinished true]) = some state ∧ state.finalized = true :=
    ⟨_, rfl, rfl⟩
  have run := start.of_runEvents sound executed
  exact ⟨state, run, isFinalized, fun event => finalized_accepts_nothing run isFinalized⟩

/-- A database that is being opened for writing when its last task finishes commits facts
afterwards; and a client that was handed the queue before the last task finished enqueues its
write afterwards.
-/
theorem finalized_accepts_late_writes
    : (∃ state, Machine.Run step (fun _ _ => True) Starts state ∧ state.finalized = true
        ∧ Accepts state (.commit 1) ∧ (step state (.commit 1)).isSome)
      ∧ ∃ state, Machine.Run step (fun _ _ => True) Starts state ∧ state.finalized = true
        ∧ Accepts state (.enqueue 0) ∧ (step state (.enqueue 0)).isSome := by
  have start : Machine.Run step (fun _ _ => True) Starts incompleteDatabase :=
    .start starts_incompleteDatabase
  constructor
  · obtain ⟨state, executed, isFinalized, accepts, isEnabled⟩ : ∃ state,
        Machine.runEvents step incompleteDatabase
          [.request (.write 5), .openDatabase 0, .workFinished true, .opened, .enqueue 0,
            .dequeue 0, .acquire 1, .openDatabase 1] = some state
        ∧ state.finalized = true ∧ Accepts state (.commit 1) ∧ (step state (.commit 1)).isSome :=
      ⟨_, rfl, rfl, ⟨0, 5, 0, by decide, rfl⟩, rfl⟩
    exact ⟨state, start.of_runEvents (Machine.soundEvents_true _ _ _) executed, isFinalized,
      accepts, isEnabled⟩
  · obtain ⟨state, executed, isFinalized, accepts, isEnabled⟩ : ∃ state,
        Machine.runEvents step incompleteDatabase
          [.request (.write 5), .openDatabase 0, .opened, .workFinished true] = some state
        ∧ state.finalized = true ∧ Accepts state (.enqueue 0) ∧ (step state (.enqueue 0)).isSome :=
      ⟨_, rfl, rfl, ⟨5, 0, rfl⟩, rfl⟩
    exact ⟨state, start.of_runEvents (Machine.soundEvents_true _ _ _) executed, isFinalized,
      accepts, isEnabled⟩

end Glean.Database.Writes
