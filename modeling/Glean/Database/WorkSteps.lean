import Glean.Database.WorkRun

/-! Runs of the indexing tasks of a database. -/

namespace Glean.Database.Indexing

variable {recipes : List (TaskName × Recipe)} {state after : State} {late rest : List Work}
  {name : TaskName} {index : Nat} {retries : Nat} {handle : Handle} {work : Work} {tasks : Tasks}

/-- A parcel of the queue belongs to a running task. -/
theorem Inv.waiting {tasks : Tasks} (inv : Inv recipes late state)
    (isIncomplete : state.completeness = .incomplete tasks) (member : index ∈ state.queue.available name)
    : ∃ info retries, state.parcelInfo name = some info ∧ info.parcels[index]? = some (.waiting retries) := by
  obtain ⟨_, _, agrees⟩ := inv.incomplete _ isIncomplete
  obtain ⟨recipe, retries, isWaiting⟩ := agrees.waiting name index member
  obtain ⟨task, parcels, isTask, isRunning, _, isParcel⟩ := exists_of_parcel isWaiting
  refine ⟨⟨tasks, task, parcels⟩, retries, ?_, isParcel⟩
  simp only [State.parcelInfo, isIncomplete, isTask, isRunning]

/-- A database that is not indexed has no work. -/
theorem grab_eq_none (notIncomplete : ∀ tasks, state.completeness ≠ .incomplete tasks)
    (reads : List (TaskName × Option Nat))
    : state.grab reads = none := by
  have noInfo : ∀ (queue : WorkQueue) (name : TaskName), { state with queue }.parcelInfo name = none := by
    intro queue name
    rw [State.parcelInfo]
    split
    next tasks isIncomplete => exact absurd isIncomplete (notIncomplete tasks)
    next => rfl
  have never : ∀ queue : WorkQueue, { state with queue }.grab reads = none := by
    induction reads with
    | nil => exact fun _ => rfl
    | cons read rest ih =>
        intro queue
        rw [State.grab]
        split
        next => rfl
        next index remaining isRead =>
          simp only [noInfo]
          exact ih remaining
  exact never state.queue

/-- While a database is indexed, the first parcel that is read is waiting. -/
theorem Inv.grab {reads : List (TaskName × Option Nat)} {grabbed : State} {info : ParcelInfo}
    (inv : Inv recipes late state)
    (isGrabbed : state.grab reads = some (grabbed, name, index, info, retries))
    : ∃ near queue, state.queue.readWorkQueue name near = some (index, queue)
      ∧ grabbed = { state with queue } ∧ state.parcelInfo name = some info
      ∧ info.parcels[index]? = some (.waiting retries) := by
  by_cases isIncomplete : ∃ tasks, state.completeness = .incomplete tasks
  · obtain ⟨tasks, isIncomplete⟩ := isIncomplete
    obtain ⟨_, _, agrees⟩ := inv.incomplete _ isIncomplete
    cases reads with
    | nil => cases isGrabbed
    | cons read others =>
        obtain ⟨first, near⟩ := read
        rw [State.grab] at isGrabbed
        split at isGrabbed
        next => cases isGrabbed
        next firstIndex queue isRead =>
          have available : firstIndex ∈ state.queue.available first :=
            (agrees.proper.readWorkQueue isRead).2.1.symm.subset List.mem_cons_self
          obtain ⟨firstInfo, waits, isInfo, isParcel⟩ := inv.waiting isIncomplete available
          simp only [isInfo, isParcel] at isGrabbed
          cases isGrabbed
          exact ⟨near, queue, isRead, rfl, isInfo, isParcel⟩
  · rw [grab_eq_none (fun tasks isTasks => isIncomplete ⟨tasks, isTasks⟩)] at isGrabbed
    cases isGrabbed

/-- A new UUID: no parcel runs with it, no heartbeat is expected for it and no recipe has it. -/
structure Fresh (state : State) (handle : Handle) : Prop where
  parcels
    : ∀ name index recipe retries,
        state.lastTasks.parcel name index ≠ some (recipe, .running retries handle)
  heartbeats : state.heartbeats handle = none
  recipes : ¬ Reserved (recipesOf state.lastTasks) handle

theorem Inv.getWork {reads : List (TaskName × Option Nat)} (inv : Inv recipes late state)
    (proper : ProperRecipes recipes) (fresh : Fresh state handle)
    : Inv recipes late (state.getWork reads handle) := by
  rw [State.getWork]
  split
  next grabbed name index info retries isGrabbed =>
    obtain ⟨near, queue, isRead, rfl, isInfo, isParcel⟩ := inv.grab isGrabbed
    obtain ⟨isIncomplete, isTask, isRunning⟩ := parcelInfo_some isInfo
    obtain ⟨isLast, _, agrees⟩ := inv.incomplete _ isIncomplete
    have inBounds := (List.getElem?_eq_some_iff.mp isParcel).1
    have wasWaiting : info.tasks.parcel name index = some (info.task.recipe, .waiting retries) := by
      rw [parcel_of_running isTask isRunning, isParcel]
      rfl
    obtain ⟨isNew, elsewhere⟩ :=
      parcel_setParcel { state with queue } (.running retries handle) isTask isRunning inBounds
    rw [updateParcel_of_not_finished inBounds rfl]
    have notRunning : ∀ other otherIndex otherRecipe otherRetries,
        info.tasks.parcel other otherIndex ≠ some (otherRecipe, .running otherRetries handle) := by
      rw [← isLast]
      exact fresh.parcels
    have notReserved : ¬ Reserved recipes handle := by
      rw [← inv.tasks.recipes]
      exact fresh.recipes
    simp only [State.listenForHeartbeat]
    split
    next noHeartbeat =>
      exact inv.setParcel proper isInfo rfl rfl (agrees.run isRead wasWaiting isNew elsewhere notRunning
        notReserved (fun _ _ => rfl) (fun hasHeartbeat => absurd noHeartbeat hasHeartbeat))
    next hasHeartbeat =>
      rw [State.expectHeartbeat]
      split
      next work isExpected =>
        change state.heartbeats handle = some work at isExpected
        rw [fresh.heartbeats] at isExpected
        cases isExpected
      next =>
        exact inv.setParcel proper isInfo rfl rfl (agrees.run isRead wasWaiting isNew elsewhere notRunning
          notReserved (fun _ different => if_neg different) (fun _ => if_pos rfl))
  next => exact inv

theorem Inv.workCancelled (inv : Inv recipes [] state) (proper : ProperRecipes recipes) (work : Work)
    : Inv recipes [] (state.workCancelled work) := by
  rw [State.workCancelled]
  split
  next info retries found =>
    exact inv.requeue proper found retries (fun _ different => if_neg different)
      (fun _ isLate => absurd isLate (by simp))
  next => exact inv

theorem Inv.moreHeartbeats {heartbeats : Handle → Option Work} (inv : Inv recipes late state)
    (kept : ∀ handle work, state.heartbeats handle = some work → heartbeats handle = some work)
    : Inv recipes late { state with heartbeats } := by
  refine ⟨inv.tasks, fun tasks isIncomplete => ?_, inv.finalizing, inv.broken⟩
  obtain ⟨isLast, notAll, agrees⟩ := inv.incomplete tasks isIncomplete
  exact ⟨isLast, notAll, agrees.moreHeartbeats kept⟩

theorem Inv.workHeartbeat (inv : Inv recipes late state) (work : Work)
    : Inv recipes late (state.workHeartbeat work) := by
  rw [State.workHeartbeat]
  split
  next =>
    split
    next => exact inv
    next =>
      rw [State.expectHeartbeat]
      split
      next => exact inv
      next isNone =>
        refine inv.moreHeartbeats (fun handle other isOther => ?_)
        rw [if_neg]
        · exact isOther
        · rintro rfl
          rw [isNone] at isOther
          cases isOther
  next => exact inv

theorem Inv.workFinished (inv : Inv recipes [] state) (proper : ProperRecipes recipes) (work : Work)
    (outcome : Outcome) (writesQueued : Bool)
    : Inv recipes [] (state.workFinished work outcome writesQueued) := by
  rw [State.workFinished]
  split
  next info retries found =>
    cases outcome with
    | failure => exact inv.failTask (runningParcelInfo_some found).1 rfl rfl
    | success =>
        cases updated : (state.deleteHeartbeat work.handle).updateParcel work.task work.index info
          .finished writesQueued with
        | none =>
            simp only [updated, Option.getD_none]
            exact inv
        | some after =>
            simp only [updated]
            exact inv.finish proper found (fun _ different => if_neg different)
              (fun _ isLate => absurd isLate (by simp)) updated
  next => exact inv

theorem Inv.reap (inv : Inv recipes (work :: rest) state) (proper : ProperRecipes recipes)
    : Inv recipes rest (state.reap work) := by
  rw [State.reap]
  split
  next info retries found =>
    split
    next =>
      refine inv.requeue proper found (retries + 1) (fun _ _ => rfl) (fun other isLate different => ?_)
      exact (List.mem_cons.mp isLate).resolve_left different
    next => exact inv.failTask (runningParcelInfo_some found).1 rfl rfl
  next notFound =>
    refine ⟨inv.tasks, fun tasks isIncomplete => ?_, inv.finalizing, inv.broken⟩
    obtain ⟨isLast, notAll, agrees⟩ := inv.incomplete tasks isIncomplete
    refine ⟨isLast, notAll, { agrees with expected := fun name index recipe retries handle isRunning isQueue
      hasHeartbeat => ?_ }⟩
    refine (agrees.expected _ _ _ _ _ isRunning isQueue hasHeartbeat).imp_right (fun isLate => ?_)
    refine (List.mem_cons.mp isLate).resolve_left ?_
    rintro rfl
    obtain ⟨task, parcels, isTask, isTaskRunning, _, isParcel⟩ := exists_of_parcel isRunning
    have isInfo : state.parcelInfo name = some ⟨tasks, task, parcels⟩ := by
      simp only [State.parcelInfo, isIncomplete, isTask, isTaskRunning]
    rw [runningParcelInfo_eq isInfo isParcel] at notFound
    cases notFound

/-- `checkHeartbeats`: the parcels whose heartbeats have timed out are still to be requeued. -/
theorem Inv.checkHeartbeats (inv : Inv recipes [] state) (expired : List Handle)
    : Inv recipes (expired.filterMap state.heartbeats)
        { state with
          heartbeats := fun handle => if handle ∈ expired then none else state.heartbeats handle } := by
  refine ⟨inv.tasks, fun tasks isIncomplete => ?_, inv.finalizing, inv.broken⟩
  obtain ⟨isLast, notAll, agrees⟩ := inv.incomplete tasks isIncomplete
  refine ⟨isLast, notAll, { agrees with expected := fun name index recipe retries handle isRunning isQueue
    hasHeartbeat => ?_ }⟩
  have isExpected := (agrees.expected _ _ _ _ _ isRunning isQueue hasHeartbeat).resolve_right (by simp)
  by_cases isExpired : handle ∈ expired
  · exact .inr (List.mem_filterMap.mpr ⟨handle, isExpired, isExpected⟩)
  · exact .inl ((if_neg isExpired).trans isExpected)

theorem Inv.foldl_reap {works : List Work} (inv : Inv recipes works state) (proper : ProperRecipes recipes)
    : Inv recipes [] (works.foldl State.reap state) := by
  induction works generalizing state with
  | nil => exact inv
  | cons work rest ih => exact ih (inv.reap proper)

theorem Inv.reapHeartbeats (inv : Inv recipes [] state) (proper : ProperRecipes recipes)
    (expired : List Handle)
    : Inv recipes [] (state.reapHeartbeats expired) :=
  (inv.checkHeartbeats expired).foldl_reap proper

def ParcelState.isWaiting : ParcelState → Bool
  | .waiting _ => true
  | _ => false

/-- The parcels that wait. -/
def waitingIndices (parcels : List ParcelState) : List Nat :=
  (parcels.zipIdx.filter (fun entry => entry.1.isWaiting)).map Prod.snd

theorem nodup_waitingIndices (parcels : List ParcelState) : (waitingIndices parcels).Nodup := by
  have sublist : (waitingIndices parcels).Sublist (parcels.zipIdx.map Prod.snd) :=
    List.filter_sublist.map Prod.snd
  rw [List.zipIdx_map_snd] at sublist
  exact List.Nodup.sublist sublist List.nodup_range'

theorem mem_waitingIndices {parcels : List ParcelState}
    : index ∈ waitingIndices parcels ↔ ∃ retries, parcels[index]? = some (.waiting retries) := by
  rw [waitingIndices, List.mem_map]
  constructor
  · rintro ⟨⟨parcel, _⟩, member, rfl⟩
    obtain ⟨isEntry, isWaiting⟩ := List.mem_filter.mp member
    rw [List.mem_zipIdx_iff_getElem?] at isEntry
    cases parcel with
    | waiting retries => exact ⟨retries, isEntry⟩
    | running retries handle => cases isWaiting
    | finished => cases isWaiting
  · rintro ⟨retries, isParcel⟩
    refine ⟨(.waiting retries, index), List.mem_filter.mpr ⟨?_, rfl⟩, rfl⟩
    exact List.mem_zipIdx_iff_getElem?.mpr isParcel

theorem available_enqueueWaiting (queue : WorkQueue) (name other : TaskName) (parcels : List ParcelState)
    (proper : queue.Proper)
    : (enqueueWaiting queue name parcels).Proper
      ∧ (enqueueWaiting queue name parcels).available other
        = if other = name then (waitingIndices parcels).reverse ++ queue.available name
          else queue.available other := by
  rw [enqueueWaiting, waitingIndices]
  generalize parcels.zipIdx = entries
  induction entries generalizing queue with
  | nil =>
      refine ⟨proper, ?_⟩
      split
      next same => simp [same]
      next => rfl
  | cons entry rest ih =>
      obtain ⟨parcel, index⟩ := entry
      rw [List.foldl_cons]
      cases parcel with
      | waiting retries =>
          obtain ⟨properRest, isRest⟩ := ih _ proper.writeWorkQueue
          refine ⟨properRest, isRest.trans ?_⟩
          rw [WorkQueue.available_writeWorkQueue, if_pos rfl, WorkQueue.available_writeWorkQueue]
          split
          next => simp [ParcelState.isWaiting]
          next => rfl
      | running retries handle => exact ih queue proper
      | finished => exact ih queue proper

/-- What listening for the heartbeats of some parcels does. -/
structure Listened (recipe : Recipe) (works : List Work) (state after : State) : Prop where
  same : after = { state with heartbeats := after.heartbeats }
  kept
    : ∀ handle work, state.heartbeats handle = some work → after.heartbeats handle = some work
  expected : ∀ work ∈ works, recipe.heartbeat ≠ 0 → (after.heartbeats work.handle).isSome
  origin
    : ∀ handle work, after.heartbeats handle = some work → state.heartbeats handle = some work
        ∨ work.handle = handle ∧ work ∈ works

theorem Listened.refl (recipe : Recipe) (state : State) : Listened recipe [] state state :=
  ⟨rfl, fun _ _ isWork => isWork, fun _ member => absurd member (by simp), fun _ _ isWork => .inl isWork⟩

theorem listened_listenForHeartbeat (recipe : Recipe) (state : State) (work : Work)
    : Listened recipe [work] state (state.listenForHeartbeat recipe work) := by
  rw [State.listenForHeartbeat]
  split
  next noHeartbeat =>
    exact ⟨rfl, fun _ _ isWork => isWork, fun _ _ hasHeartbeat => absurd noHeartbeat hasHeartbeat,
      fun _ _ isWork => .inl isWork⟩
  next =>
    rw [State.expectHeartbeat]
    split
    next other isOther =>
      refine ⟨rfl, fun _ _ isWork => isWork, fun new member _ => ?_, fun _ _ isWork => .inl isWork⟩
      rw [List.mem_singleton.mp member, isOther]
      rfl
    next isNone =>
      refine ⟨rfl, fun handle other isOther => ?_, fun new member _ => ?_, fun handle other isOther => ?_⟩
      · refine (if_neg ?_).trans isOther
        rintro rfl
        rw [isNone] at isOther
        cases isOther
      · rw [List.mem_singleton.mp member]
        simp
      · dsimp only at isOther
        split at isOther
        next same =>
          cases isOther
          exact .inr ⟨same.symm, List.mem_singleton.mpr rfl⟩
        next => exact .inl isOther

theorem Listened.trans {recipe : Recipe} {first second third : State} {works more : List Work}
    (left : Listened recipe works first second) (right : Listened recipe more second third)
    : Listened recipe (works ++ more) first third := by
  refine ⟨?_, fun handle work isWork => right.kept _ _ (left.kept _ _ isWork),
    fun work member hasHeartbeat => ?_, fun handle work isWork => ?_⟩
  · rw [right.same, left.same]
  · rcases List.mem_append.mp member with isLeft | isRight
    · obtain ⟨other, isOther⟩ := Option.isSome_iff_exists.mp (left.expected work isLeft hasHeartbeat)
      exact Option.isSome_of_eq_some (right.kept _ _ isOther)
    · exact right.expected work isRight hasHeartbeat
  · rcases right.origin handle work isWork with isSecond | ⟨isHandle, isRight⟩
    · rcases left.origin handle work isSecond with isFirst | ⟨isHandle, isLeft⟩
      · exact .inl isFirst
      · exact .inr ⟨isHandle, List.mem_append_left _ isLeft⟩
    · exact .inr ⟨isHandle, List.mem_append_right _ isRight⟩

/-- The parcels of a task that run. -/
def runningWorks (name : TaskName) (parcels : List ParcelState) : List Work :=
  parcels.zipIdx.flatMap (fun (parcel, index) =>
    match parcel with
    | .running _ handle => [⟨name, index, handle⟩]
    | _ => [])

theorem mem_runningWorks {parcels : List ParcelState}
    : work ∈ runningWorks name parcels
      ↔ work.task = name ∧ ∃ retries, parcels[work.index]? = some (.running retries work.handle) := by
  rw [runningWorks, List.mem_flatMap]
  constructor
  · rintro ⟨⟨parcel, index⟩, member, isWork⟩
    rw [List.mem_zipIdx_iff_getElem?] at member
    cases parcel with
    | waiting retries => cases isWork
    | running retries handle =>
        obtain rfl := List.mem_singleton.mp isWork
        exact ⟨rfl, retries, member⟩
    | finished => cases isWork
  · rintro ⟨rfl, retries, isParcel⟩
    exact ⟨(.running retries work.handle, work.index), List.mem_zipIdx_iff_getElem?.mpr isParcel,
      List.mem_singleton.mpr rfl⟩

theorem listened_resumeHeartbeats (state : State) (name : TaskName) (recipe : Recipe)
    (parcels : List ParcelState)
    : Listened recipe (runningWorks name parcels) state (state.resumeHeartbeats name recipe parcels) := by
  rw [runningWorks, State.resumeHeartbeats]
  generalize parcels.zipIdx = entries
  induction entries generalizing state with
  | nil => exact .refl recipe state
  | cons entry rest ih =>
      obtain ⟨parcel, index⟩ := entry
      rw [List.foldl_cons, List.flatMap_cons]
      cases parcel with
      | running retries handle =>
          exact (listened_listenForHeartbeat recipe state ⟨name, index, handle⟩).trans (ih _)
      | waiting retries => exact ih state
      | finished => exact ih state

def taskWorks (entry : TaskName × Task) : List Work :=
  match entry.2.state with
  | .running parcels => runningWorks entry.1 parcels
  | _ => []

/-- The parcels that resuming a task enters into the queue. -/
def requeued (task : Task) : List Nat :=
  match task.state with
  | .running parcels =>
      if getController task.recipe = .workQueue then (waitingIndices parcels).reverse else []
  | _ => []

/-- What resuming some tasks adds to the work queue and the heartbeats. -/
structure Resumed (entries : Tasks) (state after : State) : Prop where
  completeness : after.completeness = state.completeness
  lastTasks : after.lastTasks = state.lastTasks
  proper : after.queue.Proper
  available
    : ∀ name, after.queue.available name
        = ((entries.lookup name).map requeued).getD [] ++ state.queue.available name
  kept
    : ∀ handle work, state.heartbeats handle = some work → after.heartbeats handle = some work
  expected
    : ∀ entry ∈ entries, ∀ work ∈ taskWorks entry, entry.2.recipe.heartbeat ≠ 0 →
        (after.heartbeats work.handle).isSome
  origin
    : ∀ handle work, after.heartbeats handle = some work → state.heartbeats handle = some work
        ∨ work.handle = handle ∧ ∃ entry ∈ entries, work ∈ taskWorks entry

/-- Only the controller of the work queue enters parcels. -/
theorem resumeTask_some {queue queueAfter : WorkQueue} {recipe : Recipe} {parcels : List ParcelState}
    (resumed : resumeTask queue name recipe parcels = some queueAfter)
    : queueAfter = if getController recipe = .workQueue then enqueueWaiting queue name parcels else queue := by
  rw [resumeTask] at resumed
  split at resumed
  next isController =>
    cases resumed
    rw [if_pos isController]
  next isController =>
    cases resumed
    rw [if_neg (by simp [isController])]
  next isController =>
    rw [if_neg (by simp [isController])]
    induction parcels with
    | nil =>
        cases resumed
        rfl
    | cons parcel rest ih =>
        rw [List.foldlM_cons] at resumed
        obtain ⟨middle, isMiddle, isRest⟩ := Option.bind_eq_some_iff.mp resumed
        have same : middle = queue := by
          split at isMiddle
          next =>
            obtain ⟨_, _, same⟩ := Option.map_eq_some_iff.mp isMiddle
            exact same.symm
          next =>
            cases isMiddle
            rfl
        exact ih (same ▸ isRest)
  next isController =>
    cases resumed
    rw [if_neg (by simp [isController])]
  next => cases resumed

theorem resumed_resume {entry : TaskName × Task} (proper : state.queue.Proper)
    (isResumed : state.resume entry = some after)
    : Resumed [entry] state after := by
  obtain ⟨name, task⟩ := entry
  rw [State.resume] at isResumed
  split at isResumed
  next parcels isRunning =>
    obtain ⟨queue, isQueue, rfl⟩ := Option.map_eq_some_iff.mp isResumed
    have listened := listened_resumeHeartbeats { state with queue } name task.recipe parcels
    have isWorks : taskWorks (name, task) = runningWorks name parcels := by
      simp only [taskWorks] at isRunning ⊢
      rw [isRunning]
    have isRequeued : requeued task
        = if getController task.recipe = .workQueue then (waitingIndices parcels).reverse else [] := by
      simp only [requeued] at isRunning ⊢
      rw [isRunning]
    have queueSpec := resumeTask_some isQueue
    have properAfter : queue.Proper := by
      rw [queueSpec]
      split
      next => exact (available_enqueueWaiting state.queue name name parcels proper).1
      next => exact proper
    have sameQueue := congrArg State.queue listened.same
    have sameCompleteness := congrArg State.completeness listened.same
    have sameTasks := congrArg State.lastTasks listened.same
    refine ⟨sameCompleteness, sameTasks, ?_, fun other => ?_, listened.kept, fun other member work isWork hasHeartbeat => ?_,
      fun handle work isWork => ?_⟩
    · rw [sameQueue]
      exact properAfter
    · rw [sameQueue]
      change queue.available other = _
      rw [queueSpec, List.lookup_cons]
      by_cases same : other = name
      · subst same
        rw [beq_self_eq_true, Option.map_some, Option.getD_some, isRequeued]
        split
        next => rw [(available_enqueueWaiting state.queue other other parcels proper).2, if_pos rfl]
        next => rfl
      · rw [beq_false_of_ne same]
        split
        next =>
          rw [(available_enqueueWaiting state.queue name other parcels proper).2, if_neg same]
          rfl
        next => rfl
    · obtain rfl := List.mem_singleton.mp member
      rw [isWorks] at isWork
      exact listened.expected work isWork hasHeartbeat
    · refine (listened.origin handle work isWork).imp_right (fun isNew => ⟨isNew.1, _, List.mem_singleton.mpr rfl, ?_⟩)
      rw [isWorks]
      exact isNew.2
  next notRunning =>
    cases isResumed
    have noWorks : taskWorks (name, task) = [] := by
      rw [taskWorks]
      split
      next parcels isRunning => exact absurd isRunning (notRunning parcels)
      next => rfl
    have noneRequeued : requeued task = [] := by
      rw [requeued]
      split
      next parcels isRunning => exact absurd isRunning (notRunning parcels)
      next => rfl
    refine ⟨rfl, rfl, proper, fun other => ?_, fun _ _ isWork => isWork,
      fun other member work isWork _ => ?_, fun _ _ isWork => .inl isWork⟩
    · rw [List.lookup_cons]
      split
      next => rw [Option.map_some, Option.getD_some, noneRequeued, List.nil_append]
      next => rfl
    · rw [List.mem_singleton.mp member, noWorks] at isWork
      cases isWork

theorem resumed_foldlM {entries : Tasks} (names : (entries.map Prod.fst).Nodup)
    (proper : state.queue.Proper) (isResumed : entries.foldlM State.resume state = some after)
    : Resumed entries state after := by
  induction entries generalizing state with
  | nil =>
      cases isResumed
      exact ⟨rfl, rfl, proper, fun _ => rfl, fun _ _ isWork => isWork,
        fun _ member => absurd member (by simp), fun _ _ isWork => .inl isWork⟩
  | cons entry rest ih =>
      rw [List.foldlM_cons] at isResumed
      obtain ⟨middle, isMiddle, isRest⟩ := Option.bind_eq_some_iff.mp isResumed
      obtain ⟨notRest, restNames⟩ := List.nodup_cons.mp names
      have first := resumed_resume proper isMiddle
      have others := ih restNames first.proper isRest
      refine ⟨others.completeness.trans first.completeness, others.lastTasks.trans first.lastTasks,
        others.proper, fun name => ?_, fun handle work isWork => others.kept _ _ (first.kept _ _ isWork),
        fun other member work isWork hasHeartbeat => ?_, fun handle work isWork => ?_⟩
      · rw [others.available, first.available, List.lookup_cons, List.lookup_cons]
        by_cases same : name = entry.1
        · subst same
          have noRest : rest.lookup entry.1 = none := by
            refine Option.not_isSome_iff_eq_none.mp (fun isSome => notRest ?_)
            exact lookup_isSome_iff.mp isSome
          rw [noRest, beq_self_eq_true]
          rfl
        · simp [beq_false_of_ne same]
      · rcases List.mem_cons.mp member with rfl | isRest
        · obtain ⟨found, isFound⟩ := Option.isSome_iff_exists.mp
            (first.expected _ (List.mem_singleton.mpr rfl) work isWork hasHeartbeat)
          exact Option.isSome_of_eq_some (others.kept _ _ isFound)
        · exact others.expected other isRest work isWork hasHeartbeat
      · rcases others.origin handle work isWork with isMiddleWork | ⟨isHandle, other, isOther, isNew⟩
        · refine (first.origin handle work isMiddleWork).imp_right ?_
          rintro ⟨isHandle, other, isOther, isNew⟩
          rw [List.mem_singleton.mp isOther] at isNew
          exact ⟨isHandle, entry, List.mem_cons_self, isNew⟩
        · exact .inr ⟨isHandle, other, List.mem_cons_of_mem _ isOther, isNew⟩

/-- After a restart the queue and the heartbeats are as the metadata want them. -/
theorem Agrees.resumed {reserved : Handle → Prop} {queue : WorkQueue}
    {heartbeats : Handle → Option Work} {fresh : State}
    (agrees : Agrees reserved late tasks.parcel queue heartbeats) (names : (tasks.map Prod.fst).Nodup)
    (isEmpty : fresh.queue = .empty) (noHeartbeats : fresh.heartbeats = fun _ => none)
    (resumed : Resumed tasks fresh after)
    : Agrees reserved [] tasks.parcel after.queue after.heartbeats := by
  have available : ∀ name, after.queue.available name = ((tasks.lookup name).map requeued).getD [] := by
    intro name
    rw [resumed.available, isEmpty]
    exact List.append_nil _
  refine ⟨resumed.proper, fun name => ?_, fun name index member => ?_,
    fun name index recipe retries isWaiting isQueue => ?_,
    fun name index recipe retries handle isRunning isQueue hasHeartbeat => .inl ?_, agrees.unique,
    agrees.unreserved⟩
  · rw [available]
    cases tasks.lookup name with
    | none => exact List.nodup_nil
    | some task =>
        rw [Option.map_some, Option.getD_some, requeued]
        split
        next =>
          split
          next => exact List.nodup_reverse.mpr (nodup_waitingIndices _)
          next => exact List.nodup_nil
        next => exact List.nodup_nil
  · rw [available] at member
    cases isTask : tasks.lookup name with
    | none =>
        rw [isTask] at member
        cases member
    | some task =>
        rw [isTask, Option.map_some, Option.getD_some, requeued] at member
        split at member
        next parcels isRunning =>
          split at member
          next =>
            obtain ⟨retries, isParcel⟩ := mem_waitingIndices.mp (List.mem_reverse.mp member)
            refine ⟨task.recipe, retries, ?_⟩
            rw [parcel_of_running isTask isRunning, isParcel]
            rfl
          next => cases member
        next => cases member
  · obtain ⟨task, parcels, isTask, isRunning, rfl, isParcel⟩ := exists_of_parcel isWaiting
    have isRequeued : requeued task = (waitingIndices parcels).reverse := by
      simp only [requeued, isRunning, if_pos isQueue]
    rw [available, isTask, Option.map_some, Option.getD_some, isRequeued]
    exact List.mem_reverse.mpr (mem_waitingIndices.mpr ⟨retries, isParcel⟩)
  · obtain ⟨task, parcels, isTask, isTaskRunning, rfl, isParcel⟩ := exists_of_parcel isRunning
    have isWork : ⟨name, index, handle⟩ ∈ taskWorks (name, task) := by
      simp only [taskWorks, isTaskRunning]
      exact mem_runningWorks.mpr ⟨rfl, retries, isParcel⟩
    obtain ⟨work, isExpected⟩ := Option.isSome_iff_exists.mp
      (resumed.expected _ (mem_of_lookup isTask) _ isWork hasHeartbeat)
    -- a heartbeat with this handle can only be that of the parcel itself
    obtain ⟨isHandle, ⟨other, otherTask⟩, isEntry, isOther⟩ :=
      (resumed.origin handle work isExpected).resolve_left (by simp [noHeartbeats])
    rw [taskWorks] at isOther
    split at isOther
    next otherParcels otherRunning =>
      obtain ⟨rfl, otherRetries, otherParcel⟩ := mem_runningWorks.mp isOther
      have otherIs : tasks.parcel work.task work.index
          = some (otherTask.recipe, .running otherRetries handle) := by
        rw [parcel_of_running (lookup_of_mem names isEntry) otherRunning, otherParcel, isHandle]
        rfl
      obtain ⟨sameName, sameIndex⟩ := agrees.unique _ _ _ _ _ isRunning isQueue _ _ _ _ otherIs
      rw [isExpected, ← sameName, ← sameIndex, ← isHandle]
    next => cases isOther

theorem Inv.resumeWork (inv : Inv recipes late state) (proper : ProperRecipes recipes)
    : Inv recipes [] state.resumeWork := by
  rw [State.resumeWork]
  split
  next tasks isIncomplete =>
    obtain ⟨isLast, notAll, agrees⟩ := inv.incomplete tasks isIncomplete
    have ok := inv.tasks
    rw [isLast] at ok
    cases isResumed : tasks.foldlM State.resume
      { state with queue := .empty, heartbeats := fun _ => none } with
    | none =>
        simp only [Option.getD_none]
        refine ⟨inv.tasks, by simp [State.failTask], by simp [State.failTask], fun _ => ?_⟩
        change state.lastTasks.all _ = false
        rw [isLast]
        exact notAll
    | some after =>
        simp only [Option.getD_some]
        have noParcels : WorkQueue.empty.Proper := fun _ _ member => absurd member (by simp [WorkQueue.empty])
        have resumed := resumed_foldlM (ok.names proper) noParcels isResumed
        have isAfter : after.completeness = .incomplete tasks := resumed.completeness.trans isIncomplete
        have sameTasks : after.lastTasks = state.lastTasks := resumed.lastTasks
        refine ⟨sameTasks ▸ inv.tasks, ?_, by simp [isAfter], by simp [isAfter]⟩
        rw [isAfter]
        rintro _ ⟨⟩
        exact ⟨sameTasks.trans isLast, notAll, agrees.resumed (ok.names proper) rfl rfl resumed⟩
  next notIncomplete =>
    exact ⟨inv.tasks, fun tasks isIncomplete => absurd isIncomplete (notIncomplete tasks),
      fun isFinalizing => ⟨(inv.finalizing isFinalizing).1, fun _ => rfl⟩, inv.broken⟩

end Glean.Database.Indexing
