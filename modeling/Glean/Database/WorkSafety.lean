import Glean.Database.WorkSteps

/-! Which operations finish a parcel, and what holds in every run of the indexing tasks. -/

namespace Glean.Database.Indexing

variable {recipes : List (TaskName × Recipe)} {state after : State} {late rest : List Work}
  {name : TaskName} {index : Nat} {retries : Nat} {handle : Handle} {work : Work}
  {tasks scheduled : Tasks}

/-- A parcel is finished, on its own or with its whole task. -/
def Tasks.Finished (tasks : Tasks) (name : TaskName) (index : Nat) : Prop :=
  (∃ task, tasks.lookup name = some task ∧ task.state = .finished ∧ index < task.recipe.parcelCount)
    ∨ ∃ recipe, tasks.parcel name index = some (recipe, .finished)

/-- Scheduling finishes nothing. -/
theorem Tasks.Finished.of_scheduled (isScheduled : tasks.mapM (schedule tasks) = some scheduled)
    (finished : scheduled.Finished name index)
    : tasks.Finished name index := by
  rcases finished with ⟨task, found, isFinished, inBounds⟩ | ⟨recipe, isParcel⟩
  · obtain ⟨old, isOld, isNew⟩ := lookup_of_scheduled isScheduled found
    rcases schedule_cases isNew with ⟨_, _, _, rfl⟩ | ⟨_, rfl⟩
    · cases isFinished
    · exact .inl ⟨task, isOld, isFinished, inBounds⟩
  · rcases parcel_scheduled isScheduled isParcel with isOld | ⟨_, parcels, _, _, _, isParcels, isNew⟩
    · exact .inr ⟨recipe, isOld⟩
    · rcases scheduleTask_parcel isParcels isNew with ⟨_, isWaiting⟩ | ⟨_, _, isRunning, _⟩
      · cases isWaiting
      · cases isRunning

theorem Tasks.Finished.of_scheduleTasks
    (finished : (state.scheduleTasks tasks).lastTasks.Finished name index)
    : tasks.Finished name index := by
  rw [State.scheduleTasks] at finished
  split at finished
  next => exact finished
  next =>
    split at finished
    next isScheduled => exact finished.of_scheduled isScheduled
    next => exact finished

/-- A parcel of a task that goes on running is finished only by its own update. -/
theorem Tasks.Finished.of_setParcel (state : State) {info : ParcelInfo} {new : ParcelState}
    {other : TaskName} {otherIndex : Nat} (found : info.tasks.lookup name = some info.task)
    (isRunning : info.task.state = .running info.parcels) (inBounds : index < info.parcels.length)
    (finished : (state.setParcel name index info new).lastTasks.Finished other otherIndex)
    : info.tasks.Finished other otherIndex ∨ other = name ∧ otherIndex = index ∧ new = .finished := by
  obtain ⟨isNew, elsewhere⟩ := parcel_setParcel state new found isRunning inBounds
  rcases finished with ⟨task, isTask, isFinished, isIndex⟩ | ⟨recipe, isParcel⟩
  · have isTask := (lookup_insertTask _ _ _ _).symm.trans isTask
    by_cases same : other = name
    · rw [if_pos same, found] at isTask
      cases isTask
      cases isFinished
    · rw [if_neg same] at isTask
      exact .inl (.inl ⟨task, isTask, isFinished, isIndex⟩)
  · by_cases here : other = name ∧ otherIndex = index
    · rw [here.1, here.2, isNew] at isParcel
      cases isParcel
      exact .inr ⟨here.1, here.2, rfl⟩
    · rw [elsewhere other otherIndex here] at isParcel
      exact .inl (.inr ⟨recipe, isParcel⟩)

/-- When the last parcel of a task is finished, its other parcels have been finished before. -/
theorem Tasks.Finished.of_last {info : ParcelInfo} {other : TaskName} {otherIndex : Nat}
    (found : info.tasks.lookup name = some info.task) (isRunning : info.task.state = .running info.parcels)
    (count : info.parcels.length = info.task.recipe.parcelCount)
    (isAll : (info.parcels.set index .finished).all ParcelState.isFinished = true)
    (finished : (insertTask info.tasks name { info.task with state := .finished }).Finished other otherIndex)
    : info.tasks.Finished other otherIndex ∨ other = name ∧ otherIndex = index := by
  by_cases same : other = name
  · subst same
    by_cases isIndex : otherIndex = index
    · exact .inr ⟨rfl, isIndex⟩
    · rcases finished with ⟨task, isTask, _, inBounds⟩ | ⟨recipe, isParcel⟩
      · rw [lookup_insertTask, if_pos rfl, found] at isTask
        cases isTask
        change otherIndex < info.task.recipe.parcelCount at inBounds
        rw [← count] at inBounds
        have isParcel := List.getElem?_eq_getElem inBounds
        have stays : (info.parcels.set index .finished)[otherIndex]? = some info.parcels[otherIndex] := by
          rw [List.getElem?_set_ne (Ne.symm isIndex), isParcel]
        have isFinished := List.all_eq_true.mp isAll _ (List.mem_of_getElem? stays)
        have isState : info.parcels[otherIndex] = .finished := by
          cases isState : info.parcels[otherIndex] with
          | finished => rfl
          | waiting retries =>
              rw [isState] at isFinished
              cases isFinished
          | running retries handle =>
              rw [isState] at isFinished
              cases isFinished
        refine .inl (.inr ⟨info.task.recipe, ?_⟩)
        rw [parcel_of_running found isRunning, isParcel, isState]
        rfl
      · have isFinishedTask : (insertTask info.tasks other { info.task with state := .finished }).lookup other
            = some { info.task with state := .finished } := by
          rw [lookup_insertTask, if_pos rfl, found]
          rfl
        rw [parcel_of_finished isFinishedTask rfl] at isParcel
        cases isParcel
  · rcases finished with ⟨task, isTask, isFinished, inBounds⟩ | ⟨recipe, isParcel⟩
    · rw [lookup_insertTask, if_neg same] at isTask
      exact .inl (.inl ⟨task, isTask, isFinished, inBounds⟩)
    · rw [parcel_insertTask_of_ne same] at isParcel
      exact .inl (.inr ⟨recipe, isParcel⟩)

theorem Inv.lastTasks_eq {info : ParcelInfo} (inv : Inv recipes late state)
    (isInfo : state.parcelInfo name = some info)
    : state.lastTasks = info.tasks :=
  (inv.incomplete _ (parcelInfo_some isInfo).1).1

@[simp]
theorem lastTasks_listenForHeartbeat (state : State) (recipe : Recipe) (work : Work)
    : (state.listenForHeartbeat recipe work).lastTasks = state.lastTasks := by
  have same := congrArg State.lastTasks (listened_listenForHeartbeat recipe state work).same
  exact same

theorem Inv.finished_getWork {reads : List (TaskName × Option Nat)} (inv : Inv recipes late state)
    (finished : (state.getWork reads handle).lastTasks.Finished name index)
    : state.lastTasks.Finished name index := by
  rw [State.getWork] at finished
  split at finished
  next grabbed first firstIndex info retries isGrabbed =>
    obtain ⟨near, queue, _, rfl, isInfo, isParcel⟩ := inv.grab isGrabbed
    obtain ⟨_, isTask, isRunning⟩ := parcelInfo_some isInfo
    have inBounds := (List.getElem?_eq_some_iff.mp isParcel).1
    rw [updateParcel_of_not_finished inBounds rfl] at finished
    simp only [lastTasks_listenForHeartbeat] at finished
    rw [inv.lastTasks_eq isInfo]
    refine (finished.of_setParcel { state with queue } isTask isRunning inBounds).resolve_right ?_
    rintro ⟨_, _, isNew⟩
    cases isNew
  next => exact finished

theorem Inv.finished_requeue {info : ParcelInfo} {heartbeats : Handle → Option Work}
    (inv : Inv recipes late state) (found : state.runningParcelInfo work = some (info, retries))
    {newRetries : Nat}
    (finished : ({ state with heartbeats }.requeue work info newRetries).lastTasks.Finished name index)
    : state.lastTasks.Finished name index := by
  obtain ⟨isInfo, isParcel⟩ := runningParcelInfo_some found
  obtain ⟨_, isTask, isRunning⟩ := parcelInfo_some isInfo
  have inBounds := (List.getElem?_eq_some_iff.mp isParcel).1
  rw [State.requeue, updateParcel_of_not_finished inBounds rfl] at finished
  rw [inv.lastTasks_eq isInfo]
  have kept := Tasks.Finished.of_setParcel { state with heartbeats } isTask isRunning inBounds
    finished
  refine kept.resolve_right ?_
  rintro ⟨_, _, isNew⟩
  cases isNew

theorem Inv.finished_workCancelled (inv : Inv recipes late state)
    (finished : (state.workCancelled work).lastTasks.Finished name index)
    : state.lastTasks.Finished name index := by
  rw [State.workCancelled] at finished
  split at finished
  next found => exact inv.finished_requeue found finished
  next => exact finished

theorem lastTasks_workHeartbeat (state : State) (work : Work)
    : (state.workHeartbeat work).lastTasks = state.lastTasks := by
  rw [State.workHeartbeat]
  split
  next =>
    split
    next => rfl
    next =>
      rw [State.expectHeartbeat]
      split <;> rfl
  next => rfl

/-- The one operation that finishes parcels. -/
theorem Inv.finished_workFinished {outcome : Outcome} {writesQueued : Bool} (inv : Inv recipes late state)
    (finished : (state.workFinished work outcome writesQueued).lastTasks.Finished name index)
    : state.lastTasks.Finished name index
      ∨ outcome = .success ∧ work.task = name ∧ work.index = index
        ∧ ∃ recipe retries, state.lastTasks.parcel name index = some (recipe, .running retries work.handle) := by
  rw [State.workFinished] at finished
  split at finished
  next info retries found =>
    obtain ⟨isInfo, isParcel⟩ := runningParcelInfo_some found
    obtain ⟨_, isTask, isRunning⟩ := parcelInfo_some isInfo
    have inBounds := (List.getElem?_eq_some_iff.mp isParcel).1
    have isLast := inv.lastTasks_eq isInfo
    have wasRunning : state.lastTasks.parcel work.task work.index
        = some (info.task.recipe, .running retries work.handle) := by
      rw [isLast, parcel_of_running isTask isRunning, isParcel]
      rfl
    cases outcome with
    | failure => exact .inl finished
    | success =>
        cases updated : (state.deleteHeartbeat work.handle).updateParcel work.task work.index info
          .finished writesQueued with
        | none =>
            simp only [updated, Option.getD_none] at finished
            exact .inl finished
        | some after =>
            simp only [updated, Option.getD_some] at finished
            have isHere : info.tasks.Finished name index ∨ name = work.task ∧ index = work.index := by
              by_cases isAll : (info.parcels.set work.index .finished).all ParcelState.isFinished = true
              · have count := inv.tasks.counts work.task info.task info.parcels (isLast ▸ isTask) isRunning
                rw [updateParcel_of_all isAll updated] at finished
                exact finished.of_scheduleTasks.of_last isTask isRunning count isAll
              · rw [updateParcel_of_not_all (by simpa using isAll)] at updated
                cases updated
                exact (finished.of_setParcel _ isTask isRunning inBounds).imp_right
                  (fun here => ⟨here.1, here.2.1⟩)
            rcases isHere with before | ⟨rfl, rfl⟩
            · exact .inl (isLast ▸ before)
            · exact .inr ⟨rfl, rfl, rfl, _, _, wasRunning⟩
  next => exact .inl finished

theorem Inv.finished_reap (inv : Inv recipes late state)
    (finished : (state.reap work).lastTasks.Finished name index)
    : state.lastTasks.Finished name index := by
  rw [State.reap] at finished
  split at finished
  next found =>
    split at finished
    next => exact inv.finished_requeue found finished
    next => exact finished
  next => exact finished

theorem Inv.finished_foldl_reap {works : List Work} (inv : Inv recipes works state)
    (proper : ProperRecipes recipes) (finished : (works.foldl State.reap state).lastTasks.Finished name index)
    : state.lastTasks.Finished name index := by
  induction works generalizing state with
  | nil => exact finished
  | cons work rest ih => exact inv.finished_reap (ih (inv.reap proper) finished)

theorem Inv.finished_reapHeartbeats {expired : List Handle} (inv : Inv recipes [] state)
    (proper : ProperRecipes recipes)
    (finished : (state.reapHeartbeats expired).lastTasks.Finished name index)
    : state.lastTasks.Finished name index :=
  (inv.checkHeartbeats expired).finished_foldl_reap proper finished

theorem lastTasks_foldlM_resume {entries : Tasks} (isResumed : entries.foldlM State.resume state = some after)
    : after.lastTasks = state.lastTasks := by
  induction entries generalizing state with
  | nil =>
      cases isResumed
      rfl
  | cons entry rest ih =>
      rw [List.foldlM_cons] at isResumed
      obtain ⟨middle, isMiddle, isRest⟩ := Option.bind_eq_some_iff.mp isResumed
      refine (ih isRest).trans ?_
      rw [State.resume] at isMiddle
      split at isMiddle
      next parcels _ =>
        obtain ⟨queue, _, rfl⟩ := Option.map_eq_some_iff.mp isMiddle
        have same := congrArg State.lastTasks
          (listened_resumeHeartbeats { state with queue } entry.1 entry.2.recipe parcels).same
        exact same
      next =>
        cases isMiddle
        rfl

theorem lastTasks_resumeWork (state : State) : state.resumeWork.lastTasks = state.lastTasks := by
  rw [State.resumeWork]
  split
  next tasks isIncomplete =>
    cases isResumed : tasks.foldlM State.resume
      { state with queue := .empty, heartbeats := fun _ => none } with
    | none => rfl
    | some after =>
        have same := lastTasks_foldlM_resume isResumed
        exact same
  next => rfl

theorem tasksFromRecipes_waiting {task : Task} (found : (tasksFromRecipes recipes).lookup name = some task)
    : task.state = .waiting := by
  obtain ⟨entry, _, same⟩ := List.mem_map.mp (mem_of_lookup found)
  cases same
  rfl

theorem parcel_tasksFromRecipes (recipes : List (TaskName × Recipe)) (name : TaskName) (index : Nat)
    : (tasksFromRecipes recipes).parcel name index = none := by
  cases found : (tasksFromRecipes recipes).lookup name with
  | none => simp only [Tasks.parcel, found]
  | some task => exact parcel_of_waiting found (tasksFromRecipes_waiting found) index

theorem inv_created (proper : ProperRecipes recipes) : Inv recipes [] (created recipes) := by
  have ok : TasksOk recipes (tasksFromRecipes recipes) := by
    refine ⟨?_, fun name task found started => absurd (tasksFromRecipes_waiting found) started,
      fun name task parcels found isRunning => ?_⟩
    · rw [recipesOf, tasksFromRecipes, List.map_map]
      exact List.map_id recipes
    · rw [tasksFromRecipes_waiting found] at isRunning
      cases isRunning
  have noParcels := parcel_tasksFromRecipes recipes
  refine inv_scheduleTasks ok proper ⟨?_, ?_, ?_, ?_, ?_, ?_, ?_⟩
  · exact fun _ _ member => absurd member (by simp [WorkQueue.empty])
  · exact fun _ => List.nodup_nil
  · exact fun _ _ member => absurd member (by simp [WorkQueue.empty, WorkQueue.available])
  all_goals
    intro name index recipe retries
    rw [noParcels]
    simp

/-- `getWork` makes a new UUID for each piece of work. -/
def FreshHandles (state : State) : Event → Prop
  | .getWork _ handle => Fresh state handle
  | _ => True

theorem Inv.step {event : Event} (inv : Inv recipes [] state) (proper : ProperRecipes recipes)
    (fresh : FreshHandles state event) (next : step state event = some after)
    : Inv recipes [] after := by
  cases event with
  | getWork reads handle =>
      cases next
      exact inv.getWork proper fresh
  | workCancelled work =>
      cases next
      exact inv.workCancelled proper work
  | workHeartbeat work =>
      cases next
      exact inv.workHeartbeat work
  | workFinished work outcome writesQueued =>
      cases next
      exact inv.workFinished proper work outcome writesQueued
  | reapHeartbeats expired =>
      cases next
      exact inv.reapHeartbeats proper expired
  | resumeWork =>
      cases next
      exact inv.resumeWork proper

/-- A handle that can be seen to be new. -/
theorem Fresh.of_all (notRunning : (state.lastTasks.flatMap taskWorks).all (fun work => work.handle ≠ handle))
    (notExpected : state.heartbeats handle = none) (notEmpty : handle ≠ "")
    (notGiven : state.lastTasks.all (fun entry => handle ≠ entry.2.recipe.handle))
    : Fresh state handle := by
  refine ⟨fun name index recipe retries isRunning => ?_, notExpected, ?_⟩
  · obtain ⟨task, parcels, isTask, isTaskRunning, _, isParcel⟩ := exists_of_parcel isRunning
    have isWork : ⟨name, index, handle⟩ ∈ taskWorks (name, task) := by
      simp only [taskWorks, isTaskRunning]
      exact mem_runningWorks.mpr ⟨rfl, retries, isParcel⟩
    have different := List.all_eq_true.mp notRunning _
      (List.mem_flatMap.mpr ⟨_, mem_of_lookup isTask, isWork⟩)
    simp at different
  · rintro (isEmpty | ⟨entry, member, isGiven⟩)
    · exact notEmpty isEmpty
    · obtain ⟨given, isGivenTask, rfl⟩ := List.mem_map.mp member
      have different := List.all_eq_true.mp notGiven given isGivenTask
      exact absurd isGiven (by simpa using different)

theorem inv_of_run (proper : ProperRecipes recipes)
    (run : Machine.Run step FreshHandles (· = created recipes) state)
    : Inv recipes [] state := by
  refine run.invariant ?_ (fun before event after inv fresh next => inv.step proper fresh next)
  rintro state rfl
  exact inv_created proper

/-- What a parcel becomes finished by. -/
theorem Inv.finished_step {event : Event} (inv : Inv recipes [] state) (proper : ProperRecipes recipes)
    (next : Indexing.step state event = some after) (finished : after.lastTasks.Finished name index)
    : state.lastTasks.Finished name index
      ∨ ∃ work writesQueued recipe retries, event = .workFinished work .success writesQueued
          ∧ work.task = name ∧ work.index = index
          ∧ state.lastTasks.parcel name index = some (recipe, .running retries work.handle) := by
  cases event with
  | getWork reads handle =>
      cases next
      exact .inl (inv.finished_getWork finished)
  | workCancelled work =>
      cases next
      exact .inl (inv.finished_workCancelled finished)
  | workHeartbeat work =>
      cases next
      rw [lastTasks_workHeartbeat] at finished
      exact .inl finished
  | workFinished work outcome writesQueued =>
      cases next
      rcases inv.finished_workFinished finished with before | ⟨rfl, isName, isIndex, recipe, retries, wasRunning⟩
      · exact .inl before
      · exact .inr ⟨work, writesQueued, recipe, retries, rfl, isName, isIndex, wasRunning⟩
  | reapHeartbeats expired =>
      cases next
      exact .inl (inv.finished_reapHeartbeats proper finished)
  | resumeWork =>
      cases next
      rw [lastTasks_resumeWork] at finished
      exact .inl finished

/-- The tasks, the work queue and the heartbeats of a database fit together. -/
structure Safe (state : State) : Prop where
  lastTasks : ∀ tasks, state.completeness = .incomplete tasks → state.lastTasks = tasks
  /-- The parcels of the work queue that wait are available once. -/
  queued
    : ∀ tasks name index recipe retries, state.completeness = .incomplete tasks →
        tasks.parcel name index = some (recipe, .waiting retries) → getController recipe = .workQueue →
        (state.queue.available name).count index = 1
  /-- Unless the database is broken, nothing else is available than parcels that wait. -/
  available
    : state.completeness ≠ .broken → ∀ name, ∀ index ∈ state.queue.available name,
        (state.queue.available name).count index = 1
          ∧ ∃ tasks recipe retries, state.completeness = .incomplete tasks
              ∧ tasks.parcel name index = some (recipe, .waiting retries)
  dependencies
    : ∀ name task, state.lastTasks.lookup name = some task → task.state ≠ .waiting →
        ∀ dependency ∈ task.recipe.dependencies, state.lastTasks.complete dependency = true
  finalizing
    : state.completeness = .finalizing
        ↔ ∀ name task, state.lastTasks.lookup name = some task → task.state = .finished
  expected
    : ∀ tasks name index recipe retries handle, state.completeness = .incomplete tasks →
        tasks.parcel name index = some (recipe, .running retries handle) →
        getController recipe = .workQueue → recipe.heartbeat ≠ 0 →
        state.heartbeats handle = some ⟨name, index, handle⟩

theorem Inv.safe (inv : Inv recipes [] state) (proper : ProperRecipes recipes) : Safe state := by
  refine ⟨fun tasks isIncomplete => (inv.incomplete tasks isIncomplete).1,
    fun tasks name index recipe retries isIncomplete isWaiting isQueue => ?_,
    fun notBroken name index member => ?_, inv.tasks.dependencies, ?_,
    fun tasks name index recipe retries handle isIncomplete isRunning isQueue hasHeartbeat => ?_⟩
  · obtain ⟨_, _, agrees⟩ := inv.incomplete tasks isIncomplete
    exact List.count_eq_one_of_mem (agrees.once name) (agrees.queued _ _ _ _ isWaiting isQueue)
  · cases isState : state.completeness with
    | incomplete tasks =>
        obtain ⟨_, _, agrees⟩ := inv.incomplete tasks isState
        obtain ⟨recipe, retries, isWaiting⟩ := agrees.waiting name index member
        exact ⟨List.count_eq_one_of_mem (agrees.once name) member, tasks, recipe, retries, rfl, isWaiting⟩
    | finalizing =>
        rw [(inv.finalizing isState).2 name] at member
        cases member
    | broken => exact absurd isState notBroken
  · rw [← all_complete_iff (inv.tasks.names proper)]
    cases isState : state.completeness with
    | incomplete tasks =>
        obtain ⟨isLast, notAll, _⟩ := inv.incomplete tasks isState
        simp [isLast, notAll]
    | finalizing => simp [(inv.finalizing isState).1]
    | broken => simp [inv.broken isState]
  · obtain ⟨_, _, agrees⟩ := inv.incomplete tasks isIncomplete
    exact (agrees.expected _ _ _ _ _ isRunning isQueue hasHeartbeat).resolve_right (by simp)

/-- Whatever workers do, and however often the server restarts. -/
theorem indexing_safe (proper : ProperRecipes recipes)
    (run : Machine.Run step FreshHandles (· = created recipes) state)
    : Safe state
      ∧ (∀ name index, ¬ (created recipes).lastTasks.Finished name index)
      ∧ ∀ event after name index, step state event = some after →
          ¬ state.lastTasks.Finished name index → after.lastTasks.Finished name index →
          ∃ work writesQueued recipe retries, event = .workFinished work .success writesQueued
            ∧ work.task = name ∧ work.index = index
            ∧ state.lastTasks.parcel name index = some (recipe, .running retries work.handle) := by
  have inv := inv_of_run proper run
  refine ⟨inv.safe proper, fun name index finished => ?_,
    fun event after name index next notBefore finished => ?_⟩
  · rcases finished.of_scheduleTasks with ⟨task, found, isFinished, _⟩ | ⟨recipe, isParcel⟩
    · rw [tasksFromRecipes_waiting found] at isFinished
      cases isFinished
    · rw [parcel_tasksFromRecipes] at isParcel
      cases isParcel
  · exact (inv.finished_step proper next finished).resolve_left notBefore

/-- Two tasks, one of which derives facts from what the other has indexed. -/
def twoTasks : List (TaskName × Recipe) :=
  [("index", ⟨[], 2, 1, 60, .workQueue, []⟩), ("derive", ⟨["index"], 1, 1, 60, .workQueue, []⟩)]

/-- The first worker is too slow: its parcel is retried, and what it says later does not count. -/
def slowWorker : List Event :=
  [.getWork [("index", none)] "a", .reapHeartbeats ["a"], .resumeWork, .getWork [("index", none)] "b",
    .getWork [("index", some 1)] "c", .workFinished ⟨"index", 0, "a"⟩ .success false,
    .workFinished ⟨"index", 1, "b"⟩ .success false, .workFinished ⟨"index", 0, "c"⟩ .success false,
    .getWork [("derive", none)] "d", .workFinished ⟨"derive", 0, "d"⟩ .success false]

theorem properRecipes_twoTasks : ProperRecipes twoTasks := ⟨by decide, by decide⟩

theorem indexing_safe_slowWorker
    : ∃ state, Machine.Run step FreshHandles (· = created twoTasks) state
      ∧ state.completeness = .finalizing ∧ Safe state := by
  have start : Machine.Run step FreshHandles (· = created twoTasks) (created twoTasks) := .start rfl
  obtain ⟨state, executed, isFinalizing⟩ : ∃ state,
      Machine.runEvents step (created twoTasks) slowWorker = some state
        ∧ state.completeness = .finalizing :=
    ⟨_, rfl, rfl⟩
  have sound : Machine.SoundEvents step FreshHandles (created twoTasks) slowWorker := by
    refine ⟨.of_all ?_ ?_ ?_ ?_, trivial, trivial, .of_all ?_ ?_ ?_ ?_, .of_all ?_ ?_ ?_ ?_, trivial,
      trivial, trivial, .of_all ?_ ?_ ?_ ?_, trivial, trivial⟩
    all_goals decide
  have run := start.of_runEvents sound executed
  exact ⟨state, run, isFinalizing, (indexing_safe properRecipes_twoTasks run).1⟩

def manualTask : List (TaskName × Recipe) :=
  [("", ⟨[], 1, 0, 60, .manual, [("handle", "writer")]⟩)]

/-- A manual task runs without a heartbeat, and its parcel enters the queue when it is cancelled. The
other parcels of a database that breaks stay in the queue.
-/
theorem other_parcels_available
    : (∃ state tasks recipe, Machine.Run step FreshHandles (· = created manualTask) state
        ∧ state.completeness = .incomplete tasks
        ∧ tasks.parcel "" 0 = some (recipe, .running 0 "writer") ∧ recipe.heartbeat ≠ 0
        ∧ ∀ handle, state.heartbeats handle = none)
      ∧ (∃ state tasks recipe, Machine.Run step FreshHandles (· = created manualTask) state
        ∧ state.completeness = .incomplete tasks ∧ tasks.parcel "" 0 = some (recipe, .waiting 0)
        ∧ getController recipe ≠ .workQueue ∧ 0 ∈ state.queue.available "")
      ∧ ∃ state, Machine.Run step FreshHandles (· = created twoTasks) state
        ∧ state.completeness = .broken ∧ 1 ∈ state.queue.available "index" := by
  have start : ∀ recipes, Machine.Run step FreshHandles (· = created recipes) (created recipes) :=
    fun recipes => .start rfl
  have sound : Machine.SoundEvents step FreshHandles (created twoTasks)
      [.getWork [("index", none)] "a", .workFinished ⟨"index", 0, "a"⟩ .failure false] := by
    refine ⟨.of_all ?_ ?_ ?_ ?_, trivial, trivial⟩
    all_goals decide
  refine ⟨⟨_, _, _, start manualTask, rfl, rfl, by decide, fun _ => rfl⟩,
    ⟨_, _, _, .step (start manualTask) (.workCancelled ⟨"", 0, "writer"⟩) trivial rfl, rfl, rfl, ?_, ?_⟩,
    ⟨_, (start twoTasks).of_runEvents sound rfl, rfl, ?_⟩⟩
  all_goals decide

end Glean.Database.Indexing
