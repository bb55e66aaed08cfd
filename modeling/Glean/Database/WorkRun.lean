import Glean.Database.WorkTasks

/-! Parcels, the work queue and the heartbeats stay in step, in every run of the operations. -/

namespace Glean.Database.Indexing

variable {reserved : Handle → Prop} {late rest : List Work}
  {parcel after : TaskName → Nat → Option (Recipe × ParcelState)} {queue queueAfter : WorkQueue}
  {heartbeats heartbeatsAfter : Handle → Option Work} {name other : TaskName} {index : Nat}
  {recipe : Recipe} {retries : Nat} {handle : Handle}

/-- The parcels that wait are in the queue once, and heartbeats are expected from those that run. The
heartbeats in `late` have timed out, and their parcels are still to be requeued.
-/
structure Agrees (reserved : Handle → Prop) (late : List Work)
    (parcel : TaskName → Nat → Option (Recipe × ParcelState)) (queue : WorkQueue)
    (heartbeats : Handle → Option Work) : Prop where
  proper : queue.Proper
  once : ∀ name, (queue.available name).Nodup
  waiting
    : ∀ name index, index ∈ queue.available name →
        ∃ recipe retries, parcel name index = some (recipe, .waiting retries)
  queued
    : ∀ name index recipe retries, parcel name index = some (recipe, .waiting retries) →
        getController recipe = .workQueue → index ∈ queue.available name
  expected
    : ∀ name index recipe retries handle, parcel name index = some (recipe, .running retries handle) →
        getController recipe = .workQueue → recipe.heartbeat ≠ 0 →
        heartbeats handle = some ⟨name, index, handle⟩ ∨ ⟨name, index, handle⟩ ∈ late
  unique
    : ∀ name index recipe retries handle, parcel name index = some (recipe, .running retries handle) →
        getController recipe = .workQueue →
        ∀ other otherIndex otherRecipe otherRetries,
          parcel other otherIndex = some (otherRecipe, .running otherRetries handle) →
          other = name ∧ otherIndex = index
  unreserved
    : ∀ name index recipe retries handle, parcel name index = some (recipe, .running retries handle) →
        getController recipe = .workQueue → ¬ reserved handle

/-- Two tables of parcels differ in one place only. -/
def SameElsewhere (name : TaskName) (index : Nat)
    (parcel after : TaskName → Nat → Option (Recipe × ParcelState)) : Prop :=
  ∀ other otherIndex, ¬ (other = name ∧ otherIndex = index) →
    after other otherIndex = parcel other otherIndex

namespace Agrees

/-- A worker gets a parcel that was waiting. -/
theorem run {near : Option Nat} (agrees : Agrees reserved late parcel queue heartbeats)
    (read : queue.readWorkQueue name near = some (index, queueAfter))
    (isWaiting : parcel name index = some (recipe, .waiting retries))
    (isRunning : after name index = some (recipe, .running retries handle))
    (elsewhere : SameElsewhere name index parcel after)
    (fresh : ∀ other otherIndex otherRecipe otherRetries,
      parcel other otherIndex ≠ some (otherRecipe, .running otherRetries handle))
    (unreserved : ¬ reserved handle)
    (kept : ∀ other, other ≠ handle → heartbeatsAfter other = heartbeats other)
    (expected : recipe.heartbeat ≠ 0 → heartbeatsAfter handle = some ⟨name, index, handle⟩)
    : Agrees reserved late after queueAfter heartbeatsAfter := by
  obtain ⟨proper, taken, others⟩ := agrees.proper.readWorkQueue read
  have once := taken.nodup_iff.mp (agrees.once name)
  have notNew : ∀ other otherIndex otherRecipe otherRetries otherHandle,
      after other otherIndex = some (otherRecipe, .running otherRetries otherHandle) →
      (other = name ∧ otherIndex = index ∧ otherHandle = handle)
        ∨ parcel other otherIndex = some (otherRecipe, .running otherRetries otherHandle)
          ∧ otherHandle ≠ handle := by
    intro other otherIndex otherRecipe otherRetries otherHandle isAfter
    by_cases here : other = name ∧ otherIndex = index
    · obtain ⟨rfl, rfl⟩ := here
      rw [isRunning] at isAfter
      cases isAfter
      exact .inl ⟨rfl, rfl, rfl⟩
    · rw [elsewhere other otherIndex here] at isAfter
      refine .inr ⟨isAfter, ?_⟩
      rintro rfl
      exact fresh _ _ _ _ isAfter
  refine ⟨proper, fun other => ?_, fun other otherIndex member => ?_,
    fun other otherIndex otherRecipe otherRetries isAfter isQueue => ?_,
    fun other otherIndex otherRecipe otherRetries otherHandle isAfter isQueue hasHeartbeat => ?_,
    fun left leftIndex leftRecipe leftRetries leftHandle isLeft isQueue right rightIndex rightRecipe
      rightRetries isRight => ?_,
    fun other otherIndex otherRecipe otherRetries otherHandle isAfter isQueue => ?_⟩
  · by_cases same : other = name
    · rw [same]
      exact (List.nodup_cons.mp once).2
    · rw [others other same]
      exact agrees.once other
  · by_cases same : other = name
    · subst same
      have wasMember := taken.symm.subset (List.mem_cons_of_mem _ member)
      rw [elsewhere other otherIndex]
      · exact agrees.waiting other otherIndex wasMember
      · rintro ⟨-, rfl⟩
        exact (List.nodup_cons.mp once).1 member
    · rw [elsewhere other otherIndex (fun both => same both.1)]
      exact agrees.waiting other otherIndex (others other same ▸ member)
  · by_cases here : other = name ∧ otherIndex = index
    · obtain ⟨rfl, rfl⟩ := here
      rw [isRunning] at isAfter
      cases isAfter
    · rw [elsewhere other otherIndex here] at isAfter
      have member := agrees.queued other otherIndex otherRecipe otherRetries isAfter isQueue
      by_cases same : other = name
      · subst same
        rcases List.mem_cons.mp (taken.subset member) with isIndex | stays
        · exact absurd ⟨rfl, isIndex⟩ here
        · exact stays
      · rw [others other same]
        exact member
  · rcases notNew _ _ _ _ _ isAfter with ⟨rfl, rfl, rfl⟩ | ⟨wasRunning, different⟩
    · rw [isRunning] at isAfter
      cases isAfter
      exact .inl (expected hasHeartbeat)
    · rw [kept otherHandle different]
      exact agrees.expected _ _ _ _ _ wasRunning isQueue hasHeartbeat
  · rcases notNew _ _ _ _ _ isLeft with ⟨rfl, rfl, rfl⟩ | ⟨wasLeft, leftDifferent⟩
    · rcases notNew _ _ _ _ _ isRight with ⟨rfl, rfl, -⟩ | ⟨-, rightDifferent⟩
      · exact ⟨rfl, rfl⟩
      · exact absurd rfl rightDifferent
    · rcases notNew _ _ _ _ _ isRight with ⟨-, -, same⟩ | ⟨wasRight, -⟩
      · exact absurd same leftDifferent
      · exact agrees.unique _ _ _ _ _ wasLeft isQueue _ _ _ _ wasRight
  · rcases notNew _ _ _ _ _ isAfter with ⟨-, -, rfl⟩ | ⟨wasRunning, -⟩
    · exact unreserved
    · exact agrees.unreserved _ _ _ _ _ wasRunning isQueue

/-- A parcel stops running, and its heartbeat is not expected any more. -/
theorem stop (agrees : Agrees reserved late parcel queue heartbeats)
    (wasRunning : parcel name index = some (recipe, .running retries handle))
    (onlyOld : ∀ other otherIndex otherRecipe state, after other otherIndex = some (otherRecipe, state) →
      state ≠ .finished →
      parcel other otherIndex = some (otherRecipe, state) ∧ ¬ (other = name ∧ otherIndex = index))
    (stillWaiting : ∀ other otherIndex otherRecipe otherRetries,
      parcel other otherIndex = some (otherRecipe, .waiting otherRetries) →
      after other otherIndex = some (otherRecipe, .waiting otherRetries))
    (kept : ∀ other, other ≠ handle → heartbeatsAfter other = heartbeats other)
    (stillLate : ∀ work ∈ late, work ≠ ⟨name, index, handle⟩ → work ∈ rest)
    : Agrees reserved rest after queue heartbeatsAfter := by
  refine ⟨agrees.proper, agrees.once, fun other otherIndex member => ?_,
    fun other otherIndex otherRecipe otherRetries isAfter isQueue => ?_,
    fun other otherIndex otherRecipe otherRetries otherHandle isAfter isQueue hasHeartbeat => ?_,
    fun left leftIndex leftRecipe leftRetries leftHandle isLeft isQueue right rightIndex rightRecipe
      rightRetries isRight => ?_,
    fun other otherIndex otherRecipe otherRetries otherHandle isAfter isQueue => ?_⟩
  · obtain ⟨otherRecipe, otherRetries, isWaiting⟩ := agrees.waiting other otherIndex member
    exact ⟨otherRecipe, otherRetries, stillWaiting _ _ _ _ isWaiting⟩
  · exact agrees.queued _ _ _ _ (onlyOld _ _ _ _ isAfter (by simp)).1 isQueue
  · obtain ⟨isBefore, elsewhere⟩ := onlyOld _ _ _ _ isAfter (by simp)
    have different : otherHandle ≠ handle := by
      rintro rfl
      obtain ⟨sameName, sameIndex⟩ := agrees.unique _ _ _ _ _ isBefore isQueue _ _ _ _ wasRunning
      exact elsewhere ⟨sameName.symm, sameIndex.symm⟩
    rw [kept otherHandle different]
    refine (agrees.expected _ _ _ _ _ isBefore isQueue hasHeartbeat).imp_right (fun isLate => ?_)
    refine stillLate _ isLate (fun same => different ?_)
    exact congrArg Work.handle same
  · exact agrees.unique _ _ _ _ _ (onlyOld _ _ _ _ isLeft (by simp)).1 isQueue _ _ _ _
      (onlyOld _ _ _ _ isRight (by simp)).1
  · exact agrees.unreserved _ _ _ _ _ (onlyOld _ _ _ _ isAfter (by simp)).1 isQueue

/-- A parcel that is nowhere is entered into the queue. -/
theorem enqueue (agrees : Agrees reserved late parcel queue heartbeats)
    (wasAway : parcel name index = none) (isWaiting : after name index = some (recipe, .waiting retries))
    (elsewhere : SameElsewhere name index parcel after)
    : Agrees reserved late after (queue.writeWorkQueue name index) heartbeats := by
  have running : ∀ other otherIndex otherRecipe otherRetries otherHandle,
      after other otherIndex = some (otherRecipe, .running otherRetries otherHandle) →
      parcel other otherIndex = some (otherRecipe, .running otherRetries otherHandle) := by
    intro other otherIndex otherRecipe otherRetries otherHandle isAfter
    by_cases here : other = name ∧ otherIndex = index
    · obtain ⟨rfl, rfl⟩ := here
      rw [isWaiting] at isAfter
      cases isAfter
    · rwa [elsewhere other otherIndex here] at isAfter
  refine ⟨agrees.proper.writeWorkQueue, fun other => ?_, fun other otherIndex member => ?_,
    fun other otherIndex otherRecipe otherRetries isAfter isQueue => ?_,
    fun other otherIndex otherRecipe otherRetries otherHandle isAfter => ?_,
    fun left leftIndex leftRecipe leftRetries leftHandle isLeft isQueue right rightIndex rightRecipe
      rightRetries isRight => ?_,
    fun other otherIndex otherRecipe otherRetries otherHandle isAfter => ?_⟩
  · rw [WorkQueue.available_writeWorkQueue]
    split
    next =>
      refine List.nodup_cons.mpr ⟨fun member => ?_, agrees.once name⟩
      obtain ⟨_, _, isOther⟩ := agrees.waiting name index member
      rw [wasAway] at isOther
      cases isOther
    next => exact agrees.once other
  · rw [WorkQueue.available_writeWorkQueue] at member
    by_cases here : other = name ∧ otherIndex = index
    · obtain ⟨rfl, rfl⟩ := here
      exact ⟨recipe, retries, isWaiting⟩
    · rw [elsewhere other otherIndex here]
      refine agrees.waiting other otherIndex ?_
      split at member
      next same =>
        subst same
        exact (List.mem_cons.mp member).resolve_left (fun isIndex => here ⟨rfl, isIndex⟩)
      next => exact member
  · rw [WorkQueue.available_writeWorkQueue]
    by_cases here : other = name ∧ otherIndex = index
    · rw [if_pos here.1, here.2]
      exact List.mem_cons_self
    · rw [elsewhere other otherIndex here] at isAfter
      have member := agrees.queued _ _ _ _ isAfter isQueue
      split
      next same =>
        rw [same] at member
        exact List.mem_cons_of_mem _ member
      next => exact member
  · exact agrees.expected _ _ _ _ _ (running _ _ _ _ _ isAfter)
  · exact agrees.unique _ _ _ _ _ (running _ _ _ _ _ isLeft) isQueue _ _ _ _ (running _ _ _ _ _ isRight)
  · exact agrees.unreserved _ _ _ _ _ (running _ _ _ _ _ isAfter)

/-- More heartbeats may be expected. -/
theorem moreHeartbeats (agrees : Agrees reserved late parcel queue heartbeats)
    (kept : ∀ handle work, heartbeats handle = some work → heartbeatsAfter handle = some work)
    : Agrees reserved late parcel queue heartbeatsAfter :=
  { agrees with
    expected := fun _ _ _ _ _ isRunning isQueue hasHeartbeat =>
      (agrees.expected _ _ _ _ _ isRunning isQueue hasHeartbeat).imp_left (kept _ _) }

/-- New parcels are entered into the queue, or run with handles that no other parcel has. -/
theorem schedule {tasks scheduled : Tasks} (agrees : Agrees reserved late tasks.parcel queue heartbeats)
    (isScheduled : tasks.mapM (schedule tasks) = some scheduled) (names : (tasks.map Prod.fst).Nodup)
    (positive : ∀ entry ∈ tasks, getController entry.2.recipe = .workQueue → 0 < entry.2.recipe.parcels)
    (areReserved : ∀ name task, tasks.lookup name = some task →
      reserved task.recipe.handle ∧ reserved "")
    : Agrees reserved late scheduled.parcel (enqueueReady tasks queue) heartbeats := by
  have running : ∀ name index recipe retries handle,
      scheduled.parcel name index = some (recipe, .running retries handle) →
      tasks.parcel name index = some (recipe, .running retries handle)
        ∨ getController recipe ≠ .workQueue ∧ reserved handle := by
    intro name index recipe retries handle isAfter
    rcases parcel_scheduled isScheduled isAfter
      with isOld | ⟨task, parcels, found, _, rfl, isParcels, isParcel⟩
    · exact .inl isOld
    · rcases scheduleTask_parcel isParcels isParcel with ⟨_, isWaiting⟩ | ⟨notQueue, _, isRunning, isHandle⟩
      · cases isWaiting
      · cases isRunning
        refine .inr ⟨notQueue, ?_⟩
        rcases isHandle with rfl | rfl
        · exact (areReserved name task found).2
        · exact (areReserved name task found).1
  have runningQueue : ∀ name index recipe retries handle,
      scheduled.parcel name index = some (recipe, .running retries handle) →
      getController recipe = .workQueue →
      tasks.parcel name index = some (recipe, .running retries handle) := by
    intro name index recipe retries handle isAfter isQueue
    exact (running _ _ _ _ _ isAfter).resolve_right (fun isNew => isNew.1 isQueue)
  refine ⟨proper_enqueueReady agrees.proper positive, fun name => ?_, fun name index member => ?_,
    fun name index recipe retries isAfter isQueue => ?_,
    fun name index recipe retries handle isAfter isQueue hasHeartbeat => ?_,
    fun left leftIndex leftRecipe leftRetries leftHandle isLeft isQueue right rightIndex rightRecipe
      rightRetries isRight => ?_,
    fun name index recipe retries handle isAfter isQueue => ?_⟩
  · rw [available_enqueueReady names]
    cases found : tasks.lookup name with
    | none => simpa using agrees.once name
    | some task =>
        rw [Option.map_some, Option.getD_some, Tasks.newParcels]
        split
        next isNew =>
          have noneBefore : queue.available name = [] := by
            refine List.eq_nil_iff_forall_not_mem.mpr (fun index member => ?_)
            obtain ⟨_, _, isWaiting⟩ := agrees.waiting name index member
            rw [parcel_of_waiting found (ready_waiting isNew.1)] at isWaiting
            cases isWaiting
          rw [noneBefore, List.nil_append]
          exact List.nodup_range'
        next => simpa using agrees.once name
  · rw [available_enqueueReady names] at member
    rcases List.mem_append.mp member with old | isNew
    · obtain ⟨recipe, retries, isWaiting⟩ := agrees.waiting name index old
      exact ⟨recipe, retries, parcel_of_scheduled isScheduled isWaiting⟩
    · cases found : tasks.lookup name with
      | none =>
          rw [found] at isNew
          cases isNew
      | some task =>
          rw [found, Option.map_some, Option.getD_some, Tasks.newParcels] at isNew
          split at isNew
          next isReady =>
            obtain ⟨new, isScheduledTask, isFound⟩ := lookup_scheduled isScheduled found
            rcases schedule_cases isScheduledTask with ⟨_, parcels, isParcels, rfl⟩ | ⟨notReady, _⟩
            · rw [scheduleTask_workQueue isReady.2] at isParcels
              cases isParcels
              have inBounds := (List.mem_range'_1.mp isNew).2
              refine ⟨task.recipe, 0, ?_⟩
              rw [parcel_of_running isFound rfl, List.getElem?_replicate_of_lt (by omega)]
              rfl
            · rw [isReady.1] at notReady
              cases notReady
          next => cases isNew
  · rw [available_enqueueReady names]
    rcases parcel_scheduled isScheduled isAfter
      with isOld | ⟨task, parcels, found, isReady, rfl, isParcels, isParcel⟩
    · exact List.mem_append_left _ (agrees.queued _ _ _ _ isOld isQueue)
    · rw [scheduleTask_workQueue isQueue] at isParcels
      cases isParcels
      refine List.mem_append_right _ ?_
      rw [found, Option.map_some, Option.getD_some, Tasks.newParcels, if_pos ⟨isReady, isQueue⟩]
      obtain ⟨inBounds, _⟩ := List.getElem?_eq_some_iff.mp isParcel
      rw [List.length_replicate] at inBounds
      exact List.mem_range'_1.mpr ⟨Nat.zero_le _, by omega⟩
  · exact agrees.expected _ _ _ _ _ (runningQueue _ _ _ _ _ isAfter isQueue) isQueue hasHeartbeat
  · have wasLeft := runningQueue _ _ _ _ _ isLeft isQueue
    rcases running _ _ _ _ _ isRight with wasRight | ⟨_, isReserved⟩
    · exact agrees.unique _ _ _ _ _ wasLeft isQueue _ _ _ _ wasRight
    · exact absurd isReserved (agrees.unreserved _ _ _ _ _ wasLeft isQueue)
  · exact agrees.unreserved _ _ _ _ _ (runningQueue _ _ _ _ _ isAfter isQueue) isQueue

end Agrees

/-- Handles that do not come from `getWork`. -/
def Reserved (recipes : List (TaskName × Recipe)) (handle : Handle) : Prop :=
  handle = "" ∨ ∃ entry ∈ recipes, handle = entry.2.handle

/-- One recipe for each name, and some parcels for each task of the work queue. -/
structure ProperRecipes (recipes : List (TaskName × Recipe)) : Prop where
  names : (recipes.map Prod.fst).Nodup
  parcels : ∀ entry ∈ recipes, getController entry.2 = .workQueue → 0 < entry.2.parcels

structure TasksOk (recipes : List (TaskName × Recipe)) (tasks : Tasks) : Prop where
  recipes : recipesOf tasks = recipes
  dependencies
    : ∀ name task, tasks.lookup name = some task → task.state ≠ .waiting →
        ∀ dependency ∈ task.recipe.dependencies, tasks.complete dependency = true
  counts
    : ∀ name task parcels, tasks.lookup name = some task → task.state = .running parcels →
        parcels.length = task.recipe.parcelCount

variable {recipes : List (TaskName × Recipe)} {tasks scheduled : Tasks} {task : Task}
  {parcels : List ParcelState} {state : State}

theorem TasksOk.names (ok : TasksOk recipes tasks) (proper : ProperRecipes recipes)
    : (tasks.map Prod.fst).Nodup := by
  rw [← map_fst_recipesOf, ok.recipes]
  exact proper.names

theorem TasksOk.mem_recipes (ok : TasksOk recipes tasks) {entry : TaskName × Task} (member : entry ∈ tasks)
    : (entry.1, entry.2.recipe) ∈ recipes := by
  rw [← ok.recipes]
  exact List.mem_map.mpr ⟨entry, member, rfl⟩

/-- The state of one task changes, and no other task can tell. -/
theorem TasksOk.replace (ok : TasksOk recipes tasks) (proper : ProperRecipes recipes)
    (found : tasks.lookup name = some task) (isRunning : task.state = .running parcels) {new : TaskState}
    (counts : ∀ newParcels, new = .running newParcels → newParcels.length = task.recipe.parcelCount)
    : TasksOk recipes (insertTask tasks name { task with state := new }) := by
  have isNew : (insertTask tasks name { task with state := new }).lookup name
      = some { task with state := new } := by
    rw [lookup_insertTask, if_pos rfl, found]
    rfl
  have others : ∀ other, other ≠ name → (insertTask tasks name { task with state := new }).lookup other
      = tasks.lookup other := by
    intro other different
    rw [lookup_insertTask, if_neg different]
  have stillComplete : ∀ dependency, tasks.complete dependency = true →
      (insertTask tasks name { task with state := new }).complete dependency = true := by
    intro dependency isComplete
    obtain ⟨other, isOther, isFinished⟩ := complete_iff.mp isComplete
    have different : dependency ≠ name := by
      rintro rfl
      obtain rfl := Option.some.inj (found.symm.trans isOther)
      rw [isRunning] at isFinished
      cases isFinished
    refine complete_iff.mpr ⟨other, ?_, isFinished⟩
    rw [others dependency different, isOther]
  refine ⟨?_, fun other otherTask isOther started dependency member => ?_,
    fun other otherTask otherParcels isOther otherRunning => ?_⟩
  · exact (recipesOf_insertTask (ok.names proper) found { task with state := new } rfl).trans ok.recipes
  · refine stillComplete dependency ?_
    by_cases same : other = name
    · subst same
      obtain rfl := Option.some.inj (isNew.symm.trans isOther)
      exact ok.dependencies other task found (by simp [isRunning]) dependency member
    · rw [others other same] at isOther
      exact ok.dependencies other otherTask isOther started dependency member
  · by_cases same : other = name
    · subst same
      obtain rfl := Option.some.inj (isNew.symm.trans isOther)
      exact counts otherParcels otherRunning
    · rw [others other same] at isOther
      exact ok.counts other otherTask otherParcels isOther otherRunning

theorem TasksOk.mapM_schedule (ok : TasksOk recipes tasks)
    (isScheduled : tasks.mapM (schedule tasks) = some scheduled)
    : TasksOk recipes scheduled := by
  have sameComplete : ∀ dependency, tasks.complete dependency = true →
      scheduled.complete dependency = true := by
    intro dependency isComplete
    exact complete_iff.mpr ((finished_scheduled_iff isScheduled).mpr (complete_iff.mp isComplete))
  refine ⟨(recipesOf_scheduled isScheduled).trans ok.recipes,
    fun name task found started dependency member => sameComplete dependency ?_,
    fun name task parcels found isRunning => ?_⟩
  · obtain ⟨old, isOld, isNew⟩ := lookup_of_scheduled isScheduled found
    rcases schedule_cases isNew with ⟨isReady, _, _, rfl⟩ | ⟨_, rfl⟩
    · rw [Tasks.ready, ready_waiting isReady] at isReady
      exact List.all_eq_true.mp isReady dependency member
    · exact ok.dependencies name task isOld started dependency member
  · obtain ⟨old, isOld, isNew⟩ := lookup_of_scheduled isScheduled found
    rcases schedule_cases isNew with ⟨_, new, isParcels, rfl⟩ | ⟨_, rfl⟩
    · cases isRunning
      exact length_scheduleTask isParcels
    · exact ok.counts name task parcels isOld isRunning

structure Inv (recipes : List (TaskName × Recipe)) (late : List Work) (state : State) : Prop where
  tasks : TasksOk recipes state.lastTasks
  incomplete
    : ∀ tasks, state.completeness = .incomplete tasks →
        state.lastTasks = tasks ∧ tasks.all (fun entry => taskComplete entry.2) = false
          ∧ Agrees (Reserved recipes) late tasks.parcel state.queue state.heartbeats
  finalizing
    : state.completeness = .finalizing → state.lastTasks.all (fun entry => taskComplete entry.2) = true
        ∧ ∀ name, state.queue.available name = []
  broken
    : state.completeness = .broken → state.lastTasks.all (fun entry => taskComplete entry.2) = false

/-- Scheduling the tasks after one has been finished, or after the database was created. -/
theorem inv_scheduleTasks (ok : TasksOk recipes tasks) (proper : ProperRecipes recipes)
    (agrees : Agrees (Reserved recipes) late tasks.parcel state.queue state.heartbeats)
    : Inv recipes late (state.scheduleTasks tasks) := by
  rw [State.scheduleTasks]
  split
  next isComplete =>
    refine ⟨ok, by simp, fun _ => ⟨isComplete, fun name => ?_⟩, by simp⟩
    refine List.eq_nil_iff_forall_not_mem.mpr (fun index member => ?_)
    obtain ⟨_, _, isWaiting⟩ := agrees.waiting name index member
    obtain ⟨task, parcels, isTask, isRunning, _⟩ := exists_of_parcel isWaiting
    rw [(all_complete_iff (ok.names proper)).mp isComplete name task isTask] at isRunning
    cases isRunning
  next notComplete =>
    split
    next scheduled isScheduled =>
      have okScheduled := ok.mapM_schedule isScheduled
      refine ⟨okScheduled, ?_, by simp, by simp⟩
      rintro _ ⟨⟩
      refine ⟨rfl, ?_, agrees.schedule isScheduled (ok.names proper) (fun entry member => ?_)
        (fun name task found => ⟨.inr ⟨_, ok.mem_recipes (mem_of_lookup found), rfl⟩, .inl rfl⟩)⟩
      · refine Bool.eq_false_iff.mpr (fun isComplete => notComplete ?_)
        rw [all_complete_iff (okScheduled.names proper)] at isComplete
        refine (all_complete_iff (ok.names proper)).mpr (fun name task found => ?_)
        obtain ⟨new, _, isNew⟩ := lookup_scheduled isScheduled found
        obtain ⟨old, isOld, isFinished⟩ :=
          (finished_scheduled_iff isScheduled).mp ⟨new, isNew, isComplete name new isNew⟩
        obtain rfl := Option.some.inj (found.symm.trans isOld)
        exact isFinished
      · exact proper.parcels _ (ok.mem_recipes member)
    next => exact ⟨ok, by simp, by simp, fun _ => by simpa using notComplete⟩

theorem parcelInfo_some {info : ParcelInfo} (found : state.parcelInfo name = some info)
    : state.completeness = .incomplete info.tasks ∧ info.tasks.lookup name = some info.task
      ∧ info.task.state = .running info.parcels := by
  rw [State.parcelInfo] at found
  split at found
  next tasks isIncomplete =>
    split at found
    next task isTask =>
      split at found
      next parcels isRunning =>
        cases found
        exact ⟨isIncomplete, isTask, isRunning⟩
      next => cases found
    next => cases found
  next => cases found

theorem runningParcelInfo_some {info : ParcelInfo} {work : Work}
    (found : state.runningParcelInfo work = some (info, retries))
    : state.parcelInfo work.task = some info
      ∧ info.parcels[work.index]? = some (.running retries work.handle) := by
  rw [State.runningParcelInfo] at found
  split at found
  next other isInfo =>
    split at found
    next otherRetries handle isParcel =>
      split at found
      next same =>
        cases found
        exact ⟨isInfo, same ▸ isParcel⟩
      next => cases found
    next => cases found
  next => cases found

theorem runningParcelInfo_eq {info : ParcelInfo} {work : Work}
    (isInfo : state.parcelInfo work.task = some info)
    (isParcel : info.parcels[work.index]? = some (.running retries work.handle))
    : state.runningParcelInfo work = some (info, retries) := by
  rw [State.runningParcelInfo, isInfo]
  simp [isParcel]

/-- A parcel gets a new state, and its task goes on running. -/
def State.setParcel (state : State) (name : TaskName) (index : Nat) (info : ParcelInfo)
    (parcel : ParcelState) : State :=
  let tasks := insertTask info.tasks name
    { info.task with state := .running (info.parcels.set index parcel) }
  { state with completeness := .incomplete tasks, lastTasks := tasks }

theorem updateParcel_of_not_all {info : ParcelInfo} {new : ParcelState} {writesQueued : Bool}
    (notAll : (info.parcels.set index new).all ParcelState.isFinished = false)
    : state.updateParcel name index info new writesQueued = some (state.setParcel name index info new) := by
  simp only [State.updateParcel, notAll]
  rfl

/-- The last parcel of a task is finished, and others may be scheduled. -/
theorem updateParcel_of_all {info : ParcelInfo} {new : ParcelState} {writesQueued : Bool} {after : State}
    (isAll : (info.parcels.set index new).all ParcelState.isFinished = true)
    (updated : state.updateParcel name index info new writesQueued = some after)
    : after = state.scheduleTasks (insertTask info.tasks name { info.task with state := .finished }) := by
  simp only [State.updateParcel, isAll, if_true] at updated
  split at updated
  next =>
    split at updated
    next => cases updated
    next =>
      cases updated
      rfl
  next =>
    cases updated
    rfl

theorem updateParcel_of_not_finished {info : ParcelInfo} {new : ParcelState}
    (inBounds : index < info.parcels.length) (notFinished : new.isFinished = false) (writesQueued : Bool)
    : state.updateParcel name index info new writesQueued = some (state.setParcel name index info new) := by
  have notAll : (info.parcels.set index new).all ParcelState.isFinished = false := by
    rw [List.all_eq_false]
    exact ⟨new, List.mem_set inBounds new, by simp [notFinished]⟩
  exact updateParcel_of_not_all notAll

theorem parcel_setParcel (state : State) {info : ParcelInfo} (new : ParcelState)
    (found : info.tasks.lookup name = some info.task) (isRunning : info.task.state = .running info.parcels)
    (inBounds : index < info.parcels.length)
    : (state.setParcel name index info new).lastTasks.parcel name index = some (info.task.recipe, new)
      ∧ SameElsewhere name index info.tasks.parcel (state.setParcel name index info new).lastTasks.parcel := by
  constructor
  · refine (parcel_insertTask_running found index).trans ?_
    rw [List.getElem?_set_self inBounds]
    rfl
  · intro other otherIndex elsewhere
    by_cases same : other = name
    · subst same
      refine (parcel_insertTask_running found otherIndex).trans ?_
      have different : index ≠ otherIndex := fun isIndex => elsewhere ⟨rfl, isIndex.symm⟩
      rw [List.getElem?_set_ne different, parcel_of_running found isRunning]
    · exact parcel_insertTask_of_ne same _ _

/-- The invariant when a parcel waits or runs anew. -/
theorem Inv.setParcel {info : ParcelInfo} {new : ParcelState} {after : State}
    (inv : Inv recipes late state) (proper : ProperRecipes recipes)
    (isInfo : state.parcelInfo name = some info)
    (isAfter : after.completeness = .incomplete after.lastTasks)
    (isTasks : after.lastTasks = (state.setParcel name index info new).lastTasks)
    (agrees : Agrees (Reserved recipes) rest after.lastTasks.parcel after.queue after.heartbeats)
    : Inv recipes rest after := by
  obtain ⟨isIncomplete, found, isRunning⟩ := parcelInfo_some isInfo
  have isLast := (inv.incomplete _ isIncomplete).1
  have ok := inv.tasks
  rw [isLast] at ok
  have okAfter : TasksOk recipes after.lastTasks := by
    rw [isTasks]
    refine ok.replace proper found isRunning (fun newParcels isNew => ?_)
    cases isNew
    rw [List.length_set]
    exact ok.counts name info.task info.parcels found isRunning
  refine ⟨okAfter, ?_, by simp [isAfter], by simp [isAfter]⟩
  rw [isAfter]
  rintro _ ⟨⟩
  refine ⟨rfl, ?_, agrees⟩
  rw [Bool.eq_false_iff, Ne, all_complete_iff (okAfter.names proper)]
  intro allFinished
  have isNew : after.lastTasks.lookup name
      = some { info.task with state := .running (info.parcels.set index new) } := by
    rw [isTasks]
    refine (lookup_insertTask _ _ _ _).trans ?_
    rw [if_pos rfl, found]
    rfl
  cases allFinished name _ isNew

/-- A table of parcels without one of them. -/
def withoutParcel (parcel : TaskName → Nat → Option (Recipe × ParcelState)) (name : TaskName)
    (index : Nat) : TaskName → Nat → Option (Recipe × ParcelState) :=
  fun other otherIndex => if other = name ∧ otherIndex = index then none else parcel other otherIndex

/-- A database fails while some parcel is running. -/
theorem Inv.failTask {state after : State} (inv : Inv recipes late state)
    {info : ParcelInfo} (isInfo : state.parcelInfo name = some info)
    (isBroken : after.completeness = .broken) (sameTasks : after.lastTasks = state.lastTasks)
    : Inv recipes rest after := by
  obtain ⟨isIncomplete, _⟩ := parcelInfo_some isInfo
  obtain ⟨isLast, notAll, _⟩ := inv.incomplete _ isIncomplete
  refine ⟨sameTasks ▸ inv.tasks, by simp [isBroken], by simp [isBroken], fun _ => ?_⟩
  rw [sameTasks, isLast]
  exact notAll

/-- A parcel that was running waits in the queue again. -/
theorem Inv.requeue {info : ParcelInfo} {work : Work} (inv : Inv recipes late state)
    (proper : ProperRecipes recipes) (found : state.runningParcelInfo work = some (info, retries))
    (newRetries : Nat) (kept : ∀ other, other ≠ work.handle → heartbeats other = state.heartbeats other)
    (stillLate : ∀ other ∈ late, other ≠ work → other ∈ rest)
    : Inv recipes rest ({ state with heartbeats }.requeue work info newRetries) := by
  obtain ⟨isInfo, isParcel⟩ := runningParcelInfo_some found
  obtain ⟨isIncomplete, isTask, isRunning⟩ := parcelInfo_some isInfo
  obtain ⟨_, _, agrees⟩ := inv.incomplete _ isIncomplete
  have inBounds := (List.getElem?_eq_some_iff.mp isParcel).1
  obtain ⟨isWaiting, elsewhere⟩ :=
    parcel_setParcel { state with heartbeats } (.waiting newRetries) isTask isRunning inBounds
  have wasRunning : info.tasks.parcel work.task work.index
      = some (info.task.recipe, .running retries work.handle) := by
    rw [parcel_of_running isTask isRunning, isParcel]
    rfl
  rw [State.requeue, updateParcel_of_not_finished inBounds rfl]
  refine inv.setParcel proper isInfo rfl rfl ?_
  have stopped : Agrees (Reserved recipes) rest (withoutParcel info.tasks.parcel work.task work.index)
      state.queue heartbeats := by
    refine agrees.stop wasRunning (fun other otherIndex otherRecipe old isOld _ => ?_)
      (fun other otherIndex otherRecipe otherRetries isOld => ?_) kept stillLate
    · rw [withoutParcel] at isOld
      split at isOld
      next => cases isOld
      next notHere => exact ⟨isOld, notHere⟩
    · rw [withoutParcel]
      split
      next here =>
        rw [here.1, here.2, wasRunning] at isOld
        cases isOld
      next => exact isOld
  refine stopped.enqueue (if_pos ⟨rfl, rfl⟩) isWaiting (fun other otherIndex notHere => ?_)
  exact (elsewhere other otherIndex notHere).trans (if_neg notHere).symm

/-- The tasks after a parcel has finished, before others are scheduled. -/
theorem Inv.finish {info : ParcelInfo} {work : Work} (inv : Inv recipes late state)
    (proper : ProperRecipes recipes) (found : state.runningParcelInfo work = some (info, retries))
    (kept : ∀ other, other ≠ work.handle → heartbeats other = state.heartbeats other)
    (stillLate : ∀ other ∈ late, other ≠ work → other ∈ rest) {writesQueued : Bool} {after : State}
    (updated : { state with heartbeats }.updateParcel work.task work.index info .finished writesQueued
      = some after)
    : Inv recipes rest after := by
  obtain ⟨isInfo, isParcel⟩ := runningParcelInfo_some found
  obtain ⟨isIncomplete, isTask, isRunning⟩ := parcelInfo_some isInfo
  obtain ⟨isLast, _, agrees⟩ := inv.incomplete _ isIncomplete
  have inBounds := (List.getElem?_eq_some_iff.mp isParcel).1
  have wasRunning : info.tasks.parcel work.task work.index
      = some (info.task.recipe, .running retries work.handle) := by
    rw [parcel_of_running isTask isRunning, isParcel]
    rfl
  by_cases isFinished : (info.parcels.set work.index .finished).all ParcelState.isFinished = true
  · have ok := inv.tasks
    rw [isLast] at ok
    have okAfter : TasksOk recipes
        (insertTask info.tasks work.task { info.task with state := .finished }) :=
      ok.replace proper isTask isRunning (fun _ isNew => by cases isNew)
    have isFinishedTask : (insertTask info.tasks work.task { info.task with state := .finished }).lookup
        work.task = some { info.task with state := .finished } := by
      rw [lookup_insertTask, if_pos rfl, isTask]
      rfl
    have gone := fun index => parcel_of_finished isFinishedTask rfl index
    have agreesAfter : Agrees (Reserved recipes) rest
        (insertTask info.tasks work.task { info.task with state := .finished }).parcel state.queue
        heartbeats := by
      refine agrees.stop wasRunning (fun other otherIndex otherRecipe old isOld notFinished => ?_)
        (fun other otherIndex otherRecipe otherRetries isWaiting => ?_) kept stillLate
      · by_cases same : other = work.task
        · rw [same, gone] at isOld
          cases isOld
        · rw [parcel_insertTask_of_ne same] at isOld
          exact ⟨isOld, fun here => same here.1⟩
      · by_cases same : other = work.task
        · -- a parcel that waits is not finished
          rw [same, parcel_of_running isTask isRunning] at isWaiting
          obtain ⟨waiting, isWaitingParcel, isPair⟩ := Option.map_eq_some_iff.mp isWaiting
          cases isPair
          have different : work.index ≠ otherIndex := by
            rintro rfl
            rw [isParcel] at isWaitingParcel
            cases isWaitingParcel
          have stays : (info.parcels.set work.index .finished)[otherIndex]?
              = some (.waiting otherRetries) := by
            rw [List.getElem?_set_ne different, isWaitingParcel]
          have impossible := List.all_eq_true.mp isFinished _ (List.mem_of_getElem? stays)
          cases impossible
        · rwa [parcel_insertTask_of_ne same]
    have scheduled : Inv recipes rest ({ state with heartbeats }.scheduleTasks
        (insertTask info.tasks work.task { info.task with state := .finished })) :=
      inv_scheduleTasks okAfter proper agreesAfter
    rw [updateParcel_of_all isFinished updated]
    exact scheduled
  · rw [updateParcel_of_not_all (by simpa using isFinished)] at updated
    cases updated
    obtain ⟨isNew, elsewhere⟩ :=
      parcel_setParcel { state with heartbeats } .finished isTask isRunning inBounds
    refine inv.setParcel proper isInfo rfl rfl (agrees.stop wasRunning ?_ ?_ kept stillLate)
    · intro other otherIndex otherRecipe old isOld notFinished
      by_cases here : other = work.task ∧ otherIndex = work.index
      · rw [here.1, here.2, isNew] at isOld
        cases isOld
        exact absurd rfl notFinished
      · rw [elsewhere other otherIndex here] at isOld
        exact ⟨isOld, here⟩
    · intro other otherIndex otherRecipe otherRetries isWaiting
      rw [elsewhere other otherIndex]
      · exact isWaiting
      · rintro ⟨rfl, rfl⟩
        rw [wasRunning] at isWaiting
        cases isWaiting

end Glean.Database.Indexing
