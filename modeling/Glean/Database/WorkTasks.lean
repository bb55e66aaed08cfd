import Glean.Database.Work

/-! Lookups in the tasks of a database and their parcels, before and after an update or a scheduling
round.
-/

namespace Glean.Database.Indexing

variable {tasks scheduled : Tasks} {name other : TaskName} {task : Task} {parcels : List ParcelState}
  {index : Nat}

/-- The parcels that a task is split into. -/
def Recipe.parcelCount (recipe : Recipe) : Nat :=
  match getController recipe with
  | .workQueue => recipe.parcels
  | .tailer => 1
  | .externalBinary => recipe.parcels
  | .manual => 1
  | .fail => 0

/-- A parcel of a running task. -/
def Tasks.parcel (tasks : Tasks) (name : TaskName) (index : Nat) : Option (Recipe × ParcelState) :=
  match tasks.lookup name with
  | some task =>
      match task.state with
      | .running parcels => parcels[index]?.map (fun parcel => (task.recipe, parcel))
      | _ => none
  | none => none

theorem parcel_of_running (found : tasks.lookup name = some task) (isRunning : task.state = .running parcels)
    (index : Nat)
    : tasks.parcel name index = parcels[index]?.map (fun parcel => (task.recipe, parcel)) := by
  simp only [Tasks.parcel, found, isRunning]

theorem parcel_of_finished (found : tasks.lookup name = some task) (isFinished : task.state = .finished)
    (index : Nat)
    : tasks.parcel name index = none := by
  simp only [Tasks.parcel, found, isFinished]

theorem parcel_of_waiting (found : tasks.lookup name = some task) (isWaiting : task.state = .waiting)
    (index : Nat)
    : tasks.parcel name index = none := by
  simp only [Tasks.parcel, found, isWaiting]

theorem parcel_congr {left right : Tasks} (same : left.lookup name = right.lookup name) (index : Nat)
    : left.parcel name index = right.parcel name index := by
  simp only [Tasks.parcel, same]

theorem exists_of_parcel {recipe : Recipe} {parcel : ParcelState}
    (found : tasks.parcel name index = some (recipe, parcel))
    : ∃ task parcels, tasks.lookup name = some task ∧ task.state = .running parcels
      ∧ task.recipe = recipe ∧ parcels[index]? = some parcel := by
  rw [Tasks.parcel] at found
  split at found
  next task isTask =>
    split at found
    next parcels isRunning =>
      obtain ⟨state, isState, same⟩ := Option.map_eq_some_iff.mp found
      cases same
      exact ⟨task, parcels, isTask, isRunning, rfl, isState⟩
    next => cases found
  next => cases found

theorem lookup_insertTask (tasks : Tasks) (name other : TaskName) (new : Task)
    : (insertTask tasks name new).lookup other
      = if other = name then (tasks.lookup name).map (fun _ => new) else tasks.lookup other := by
  induction tasks with
  | nil => simp [insertTask]
  | cons entry rest ih =>
      obtain ⟨key, old⟩ := entry
      rw [insertTask, List.map_cons, ← insertTask]
      by_cases isKey : key = name
      · subst isKey
        rw [if_pos rfl, List.lookup_cons, List.lookup_cons]
        by_cases same : other = key
        · subst same
          simp
        · rw [beq_false_of_ne same, if_neg same, ih, if_neg same, List.lookup_cons,
            beq_false_of_ne same]
      · rw [if_neg isKey, List.lookup_cons, List.lookup_cons, List.lookup_cons,
          beq_false_of_ne (Ne.symm isKey)]
        by_cases same : other = key
        · subst same
          rw [beq_self_eq_true, if_neg isKey]
        · rw [beq_false_of_ne same, ih]

/-- A parcel of a task that keeps running. -/
theorem parcel_insertTask_running (found : tasks.lookup name = some task) {new : List ParcelState}
    (index : Nat)
    : (insertTask tasks name { task with state := .running new }).parcel name index
      = new[index]?.map (fun parcel => (task.recipe, parcel)) := by
  have isNew : (insertTask tasks name { task with state := .running new }).lookup name
      = some { task with state := .running new } := by
    rw [lookup_insertTask, if_pos rfl, found]
    rfl
  exact parcel_of_running isNew rfl index

theorem parcel_insertTask_of_ne (different : other ≠ name) (task : Task) (index : Nat)
    : (insertTask tasks name task).parcel other index = tasks.parcel other index := by
  refine parcel_congr ?_ index
  rw [lookup_insertTask, if_neg different]

theorem schedule_fst {entry new : TaskName × Task} (isScheduled : schedule tasks entry = some new)
    : new.1 = entry.1 := by
  rw [schedule] at isScheduled
  split at isScheduled
  next =>
    obtain ⟨parcels, _, rfl⟩ := Option.map_eq_some_iff.mp isScheduled
    rfl
  next =>
    cases isScheduled
    rfl

theorem map_fst_scheduled {entries scheduled : Tasks}
    (isScheduled : entries.mapM (schedule tasks) = some scheduled)
    : scheduled.map Prod.fst = entries.map Prod.fst := by
  induction entries generalizing scheduled with
  | nil =>
      cases isScheduled
      rfl
  | cons entry rest ih =>
      rw [List.mapM_cons] at isScheduled
      obtain ⟨new, isNew, isRest⟩ := Option.bind_eq_some_iff.mp isScheduled
      obtain ⟨others, isOthers, same⟩ := Option.bind_eq_some_iff.mp isRest
      cases same
      rw [List.map_cons, List.map_cons, schedule_fst isNew, ih isOthers]

/-- Every task is scheduled on its own. -/
theorem lookup_scheduled {entries scheduled : Tasks}
    (isScheduled : entries.mapM (schedule tasks) = some scheduled) (found : entries.lookup name = some task)
    : ∃ new, schedule tasks (name, task) = some (name, new) ∧ scheduled.lookup name = some new := by
  induction entries generalizing scheduled with
  | nil => cases found
  | cons entry rest ih =>
      obtain ⟨key, old⟩ := entry
      rw [List.mapM_cons] at isScheduled
      obtain ⟨⟨newKey, new⟩, isNew, isRest⟩ := Option.bind_eq_some_iff.mp isScheduled
      obtain ⟨others, isOthers, same⟩ := Option.bind_eq_some_iff.mp isRest
      cases same
      obtain rfl : newKey = key := schedule_fst isNew
      rw [List.lookup_cons] at found ⊢
      by_cases isKey : name = newKey
      · subst isKey
        rw [beq_self_eq_true] at found ⊢
        cases found
        exact ⟨new, isNew, rfl⟩
      · rw [beq_false_of_ne isKey] at found ⊢
        exact ih isOthers found

theorem lookup_isSome_iff {tasks : Tasks} : (tasks.lookup name).isSome ↔ name ∈ tasks.map Prod.fst := by
  induction tasks with
  | nil => simp
  | cons entry rest ih =>
      rw [List.lookup_cons, List.map_cons, List.mem_cons, ← ih]
      by_cases isKey : name = entry.1
      · simp [isKey]
      · rw [beq_false_of_ne isKey]
        simp [isKey]

theorem lookup_of_scheduled (isScheduled : tasks.mapM (schedule tasks) = some scheduled)
    (found : scheduled.lookup name = some task)
    : ∃ old, tasks.lookup name = some old ∧ schedule tasks (name, old) = some (name, task) := by
  have isMember : name ∈ tasks.map Prod.fst := by
    rw [← map_fst_scheduled isScheduled]
    exact lookup_isSome_iff.mp (Option.isSome_of_eq_some found)
  obtain ⟨old, isOld⟩ := Option.isSome_iff_exists.mp (lookup_isSome_iff.mpr isMember)
  obtain ⟨new, isNew, isFound⟩ := lookup_scheduled isScheduled isOld
  obtain rfl := Option.some.inj (found.symm.trans isFound)
  exact ⟨old, isOld, isNew⟩

/-- A task is scheduled with new parcels, or stays as it is. -/
theorem schedule_cases {new : Task} (isScheduled : schedule tasks (name, task) = some (name, new))
    : (tasks.ready task = true ∧ ∃ parcels, scheduleTask task.recipe = some parcels
          ∧ new = { task with state := .running parcels })
      ∨ tasks.ready task = false ∧ new = task := by
  rw [schedule] at isScheduled
  split at isScheduled
  next isReady =>
    obtain ⟨parcels, isParcels, same⟩ := Option.map_eq_some_iff.mp isScheduled
    cases same
    exact .inl ⟨isReady, parcels, isParcels, rfl⟩
  next notReady =>
    cases isScheduled
    exact .inr ⟨by simpa using notReady, rfl⟩

theorem ready_waiting (isReady : tasks.ready task = true) : task.state = .waiting := by
  rw [Tasks.ready] at isReady
  split at isReady
  next isWaiting => exact isWaiting
  next => cases isReady

theorem taskComplete_iff : taskComplete task = true ↔ task.state = .finished := by
  rw [taskComplete]
  split
  next isFinished => simp [isFinished]
  next notFinished => exact iff_of_false (by simp) notFinished

theorem complete_iff : tasks.complete name = true ↔ ∃ task, tasks.lookup name = some task
    ∧ task.state = .finished := by
  rw [Tasks.complete]
  cases found : tasks.lookup name with
  | none => simp
  | some task => simp [taskComplete_iff]

/-- Scheduling finishes no task. -/
theorem finished_scheduled_iff (isScheduled : tasks.mapM (schedule tasks) = some scheduled)
    : (∃ task, scheduled.lookup name = some task ∧ task.state = .finished)
      ↔ ∃ task, tasks.lookup name = some task ∧ task.state = .finished := by
  constructor
  · rintro ⟨task, found, isFinished⟩
    obtain ⟨old, isOld, isNew⟩ := lookup_of_scheduled isScheduled found
    rcases schedule_cases isNew with ⟨_, parcels, _, rfl⟩ | ⟨_, rfl⟩
    · cases isFinished
    · exact ⟨task, isOld, isFinished⟩
  · rintro ⟨task, found, isFinished⟩
    obtain ⟨new, isNew, isFound⟩ := lookup_scheduled isScheduled found
    rcases schedule_cases isNew with ⟨isReady, _⟩ | ⟨_, rfl⟩
    · rw [ready_waiting isReady] at isFinished
      cases isFinished
    · exact ⟨new, isFound, isFinished⟩

/-- The parcels after scheduling: those of the tasks that were ready are new. -/
theorem parcel_scheduled (isScheduled : tasks.mapM (schedule tasks) = some scheduled)
    {recipe : Recipe} {parcel : ParcelState}
    (found : scheduled.parcel name index = some (recipe, parcel))
    : tasks.parcel name index = some (recipe, parcel)
      ∨ ∃ task parcels, tasks.lookup name = some task ∧ tasks.ready task = true ∧ task.recipe = recipe
          ∧ scheduleTask recipe = some parcels ∧ parcels[index]? = some parcel := by
  obtain ⟨task, parcels, isTask, isRunning, rfl, isParcel⟩ := exists_of_parcel found
  obtain ⟨old, isOld, isNew⟩ := lookup_of_scheduled isScheduled isTask
  rcases schedule_cases isNew with ⟨isReady, new, isParcels, rfl⟩ | ⟨_, rfl⟩
  · cases isRunning
    exact .inr ⟨old, parcels, isOld, isReady, rfl, isParcels, isParcel⟩
  · left
    rw [parcel_of_running isOld isRunning, isParcel]
    rfl

/-- Scheduling changes no parcel of a running task. -/
theorem parcel_of_scheduled (isScheduled : tasks.mapM (schedule tasks) = some scheduled)
    {recipe : Recipe} {parcel : ParcelState} (found : tasks.parcel name index = some (recipe, parcel))
    : scheduled.parcel name index = some (recipe, parcel) := by
  obtain ⟨task, parcels, isTask, isRunning, rfl, isParcel⟩ := exists_of_parcel found
  obtain ⟨new, isNew, isFound⟩ := lookup_scheduled isScheduled isTask
  rcases schedule_cases isNew with ⟨isReady, _⟩ | ⟨_, rfl⟩
  · rw [ready_waiting isReady] at isRunning
    cases isRunning
  · rw [parcel_of_running isFound isRunning, isParcel]
    rfl

/-- The parcels that scheduling a task adds to the queue. -/
def Tasks.newParcels (tasks : Tasks) (task : Task) : List Nat :=
  if tasks.ready task = true ∧ getController task.recipe = .workQueue then
    List.range' 0 task.recipe.parcels
  else
    []

theorem available_enqueueTask (tasks : Tasks) (queue : WorkQueue) (name other : TaskName) (task : Task)
    : (if tasks.ready task then enqueueTask queue name task.recipe else queue).available other
      = queue.available other ++ if other = name then tasks.newParcels task else [] := by
  by_cases isReady : tasks.ready task = true
  · rw [if_pos isReady, enqueueTask]
    split
    next isQueue =>
      have isNew : tasks.newParcels task = List.range' 0 task.recipe.parcels := if_pos ⟨isReady, isQueue⟩
      rw [WorkQueue.available_insertWorkQueue, isNew]
      split
      next same => rw [same]
      next => rw [List.append_nil]
    next notQueue =>
      have noNew : tasks.newParcels task = [] := if_neg (fun both => notQueue both.2)
      rw [noNew, ite_self, List.append_nil]
  · have noNew : tasks.newParcels task = [] := if_neg (fun both => isReady both.1)
    rw [if_neg isReady, noNew, ite_self, List.append_nil]

/-- The queue has got the parcels of the tasks that were ready. -/
theorem available_foldl_enqueueTask {entries : Tasks} (names : (entries.map Prod.fst).Nodup)
    (queue : WorkQueue) (name : TaskName)
    : (entries.foldl
          (fun queue (name, task) => if tasks.ready task then enqueueTask queue name task.recipe else queue)
          queue).available name
      = queue.available name ++ ((entries.lookup name).map tasks.newParcels).getD [] := by
  induction entries generalizing queue with
  | nil => simp
  | cons entry rest ih =>
      obtain ⟨key, task⟩ := entry
      obtain ⟨notRest, restNames⟩ := List.nodup_cons.mp names
      rw [List.foldl_cons, ih restNames, available_enqueueTask, List.lookup_cons]
      by_cases isKey : name = key
      · subst isKey
        have noRest : rest.lookup name = none := by
          refine Option.not_isSome_iff_eq_none.mp (fun isSome => notRest ?_)
          exact lookup_isSome_iff.mp isSome
        simp [noRest]
      · rw [if_neg isKey, List.append_nil, beq_false_of_ne isKey]

theorem available_enqueueReady (names : (tasks.map Prod.fst).Nodup) (queue : WorkQueue) (name : TaskName)
    : (enqueueReady tasks queue).available name
      = queue.available name ++ ((tasks.lookup name).map tasks.newParcels).getD [] :=
  available_foldl_enqueueTask names queue name

theorem proper_enqueueReady {queue : WorkQueue} (proper : queue.Proper)
    (positive : ∀ entry ∈ tasks, getController entry.2.recipe = .workQueue → 0 < entry.2.recipe.parcels)
    : (enqueueReady tasks queue).Proper := by
  have folded : ∀ (entries : Tasks) (queue : WorkQueue), queue.Proper →
      (∀ entry ∈ entries, getController entry.2.recipe = .workQueue → 0 < entry.2.recipe.parcels) →
      (entries.foldl (fun queue (name, task) =>
        if tasks.ready task then enqueueTask queue name task.recipe else queue) queue).Proper := by
    intro entries
    induction entries with
    | nil => exact fun queue proper _ => proper
    | cons entry rest ih =>
        obtain ⟨name, task⟩ := entry
        intro queue proper positive
        rw [List.foldl_cons]
        refine ih _ ?_ (fun other member => positive other (List.mem_cons_of_mem _ member))
        change (if tasks.ready task then enqueueTask queue name task.recipe else queue).Proper
        split
        next =>
          rw [enqueueTask]
          split
          next isQueue =>
            exact proper.insertWorkQueue (positive (name, task) List.mem_cons_self isQueue)
          next => exact proper
        next => exact proper
  exact folded tasks queue proper positive

theorem startParcels_eq {recipe : Recipe} {parcels : List ParcelState} {count : Nat}
    (started : (List.replicate count ()).mapM (fun _ => startParcel recipe) = some parcels)
    : parcels = List.replicate count (.running 0 "") := by
  induction count generalizing parcels with
  | zero =>
      cases started
      rfl
  | succ count ih =>
      rw [List.replicate_succ, List.mapM_cons] at started
      obtain ⟨first, isFirst, isRest⟩ := Option.bind_eq_some_iff.mp started
      obtain ⟨rest, isOthers, same⟩ := Option.bind_eq_some_iff.mp isRest
      cases same
      rw [startParcel] at isFirst
      split at isFirst
      next =>
        cases isFirst
        rw [ih isOthers, List.replicate_succ]
      next => cases isFirst

theorem scheduleTask_workQueue {recipe : Recipe} (isQueue : getController recipe = .workQueue)
    : scheduleTask recipe = some (List.replicate recipe.parcels (.waiting 0)) := by
  rw [scheduleTask, isQueue]

theorem length_scheduleTask {recipe : Recipe} {parcels : List ParcelState}
    (isScheduled : scheduleTask recipe = some parcels)
    : parcels.length = recipe.parcelCount := by
  rw [scheduleTask] at isScheduled
  rw [Recipe.parcelCount]
  cases isController : getController recipe with
  | workQueue =>
      rw [isController] at isScheduled
      cases isScheduled
      exact List.length_replicate
  | externalBinary =>
      rw [isController] at isScheduled
      rw [startParcels_eq isScheduled, List.length_replicate]
  | tailer | manual =>
      rw [isController] at isScheduled
      cases isScheduled
      rfl
  | fail =>
      rw [isController] at isScheduled
      cases isScheduled

/-- Only the work queue has parcels that wait. The other controllers start theirs with a handle that is
known in advance.
-/
theorem scheduleTask_parcel {recipe : Recipe} {parcels : List ParcelState} {parcel : ParcelState}
    (isScheduled : scheduleTask recipe = some parcels) (isParcel : parcels[index]? = some parcel)
    : (getController recipe = .workQueue ∧ parcel = .waiting 0)
      ∨ getController recipe ≠ .workQueue
        ∧ ∃ handle, parcel = .running 0 handle ∧ (handle = "" ∨ handle = recipe.handle) := by
  rw [scheduleTask] at isScheduled
  have member := List.mem_of_getElem? isParcel
  split at isScheduled
  next isController =>
    cases isScheduled
    exact .inl ⟨isController, List.eq_of_mem_replicate member⟩
  next isController =>
    cases isScheduled
    exact .inr ⟨by simp [isController], recipe.handle, List.mem_singleton.mp member, .inr rfl⟩
  next isController =>
    rw [startParcels_eq isScheduled] at member
    exact .inr ⟨by simp [isController], "", List.eq_of_mem_replicate member, .inl rfl⟩
  next isController =>
    cases isScheduled
    exact .inr ⟨by simp [isController], recipe.handle, List.mem_singleton.mp member, .inr rfl⟩
  next => cases isScheduled

def recipesOf (tasks : Tasks) : List (TaskName × Recipe) := tasks.map (fun entry => (entry.1, entry.2.recipe))

theorem map_fst_recipesOf (tasks : Tasks) : (recipesOf tasks).map Prod.fst = tasks.map Prod.fst := by
  rw [recipesOf, List.map_map]
  rfl

theorem mem_of_lookup (found : tasks.lookup name = some task) : (name, task) ∈ tasks := by
  obtain ⟨before, rest, isSplit, _⟩ := List.lookup_eq_some_iff.mp found
  simp [isSplit]

theorem lookup_of_mem (names : (tasks.map Prod.fst).Nodup) (member : (name, task) ∈ tasks)
    : tasks.lookup name = some task := by
  induction tasks with
  | nil => cases member
  | cons entry rest ih =>
      obtain ⟨notRest, restNames⟩ := List.nodup_cons.mp names
      rw [List.lookup_cons]
      rcases List.mem_cons.mp member with rfl | isRest
      · rw [beq_self_eq_true]
      · have different : name ≠ entry.1 := by
          rintro rfl
          exact notRest (List.mem_map.mpr ⟨_, isRest, rfl⟩)
        rw [beq_false_of_ne different]
        exact ih restNames isRest

theorem all_complete_iff (names : (tasks.map Prod.fst).Nodup)
    : tasks.all (fun entry => taskComplete entry.2) = true
      ↔ ∀ name task, tasks.lookup name = some task → task.state = .finished := by
  rw [List.all_eq_true]
  constructor
  · intro all name task found
    exact taskComplete_iff.mp (all (name, task) (mem_of_lookup found))
  · intro all entry member
    exact taskComplete_iff.mpr (all entry.1 entry.2 (lookup_of_mem names member))

theorem recipesOf_insertTask (names : (tasks.map Prod.fst).Nodup) (found : tasks.lookup name = some task)
    (new : Task) (sameRecipe : new.recipe = task.recipe)
    : recipesOf (insertTask tasks name new) = recipesOf tasks := by
  rw [recipesOf, insertTask, List.map_map, recipesOf]
  refine List.map_congr_left (fun entry member => ?_)
  simp only [Function.comp]
  split
  next isName =>
    obtain ⟨key, old⟩ := entry
    obtain rfl : key = name := isName
    obtain rfl := Option.some.inj ((lookup_of_mem names member).symm.trans found)
    rw [sameRecipe]
  next => rfl

theorem recipesOf_scheduled {entries scheduled : Tasks}
    (isScheduled : entries.mapM (schedule tasks) = some scheduled)
    : recipesOf scheduled = recipesOf entries := by
  induction entries generalizing scheduled with
  | nil =>
      cases isScheduled
      rfl
  | cons entry rest ih =>
      rw [List.mapM_cons] at isScheduled
      obtain ⟨⟨newKey, new⟩, isNew, isRest⟩ := Option.bind_eq_some_iff.mp isScheduled
      obtain ⟨others, isOthers, same⟩ := Option.bind_eq_some_iff.mp isRest
      cases same
      obtain ⟨key, old⟩ := entry
      obtain rfl : newKey = key := schedule_fst isNew
      have sameRecipe : new.recipe = old.recipe := by
        rcases schedule_cases isNew with ⟨_, _, _, rfl⟩ | ⟨_, rfl⟩ <;> rfl
      have sameRest := ih isOthers
      rw [recipesOf] at sameRest ⊢
      rw [List.map_cons, sameRecipe, sameRest]
      rfl

end Glean.Database.Indexing
