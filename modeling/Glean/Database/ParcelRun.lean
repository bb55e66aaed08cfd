import Mathlib.Algebra.Order.Group.Multiset
import Mathlib.Data.Multiset.UnionInter
import Glean.Database.WorkQueue
import Glean.Library.AssocMap

/-! The work queue with the parcels of all databases (`Glean.Database.Work.Queue`): over every run
each parcel is handed out once for each time that it was put in.
-/

namespace Glean.Database.Parcels

open Indexing (TaskName ParcelQueue readParcelQueue deleteRange nonEmpty Takes)

structure Parcel (Repo : Type) where
  repo : Repo
  task : TaskName
  index : Nat
  deriving DecidableEq

/-- The parcel that a worker had before, as it says. -/
structure Near (Repo : Type) where
  repo : Repo
  task : TaskName
  index : Int

structure RepoTask (Repo : Type) where
  repo : Repo
  parcels : ParcelQueue

/-- `WorkQueue`: a queue for each task, the front first. -/
structure WorkQueue (Repo : Type) where
  tasks : AssocMap TaskName (List (RepoTask Repo))

/-- What a transaction comes to: `retry` blocks it, and an invalid regular expression or an empty
`ParcelQueue` makes it fail.
-/
inductive Read (Repo : Type) where
  | parcel (parcel : Parcel Repo) (after : WorkQueue Repo)
  | retry
  | error

/-- `<|>` of transactions -/
def Read.orElse {Repo : Type} : Read Repo → Read Repo → Read Repo
  | .retry, other => other
  | read, _ => read

def newParcelQueue (first count : Nat) : ParcelQueue :=
  .range first count

/-- Take the parcel behind one if a range starts with it. -/
def readParcelQueueNear (index : Int) : ParcelQueue → Option (Nat × Option ParcelQueue)
  | .range first count => readParcelQueue (.range first count)
  | .ranges sizes =>
      match if 0 ≤ index + 1 then sizes.lookup (index + 1).toNat else none with
      | some count =>
          let next := (index + 1).toNat
          let others := deleteRange next sizes
          some (next, if count > 1 then
            some (.ranges (SortedMap.insertEntries (next + 1) (count - 1) others))
          else
            nonEmpty others)
      | none => readParcelQueue (.ranges sizes)

namespace WorkQueue

variable {Repo : Type}

def newWorkQueue : WorkQueue Repo := ⟨.empty⟩

/-- `taskQueue`, which is empty for a new task. -/
def taskQueue (queue : WorkQueue Repo) (name : TaskName) : List (RepoTask Repo) :=
  (queue.tasks.lookup name).getD []

/-- Replace the queue of a task. -/
def write (queue : WorkQueue Repo) (name : TaskName) (tasks : List (RepoTask Repo))
    : WorkQueue Repo :=
  ⟨queue.tasks.insert name tasks⟩

def insertWorkQueue (queue : WorkQueue Repo) (repo : Repo) (name : TaskName) (count : Nat)
    : WorkQueue Repo :=
  queue.write name (queue.taskQueue name ++ [⟨repo, newParcelQueue 0 count⟩])

def writeWorkQueue (queue : WorkQueue Repo) (parcel : Parcel Repo) : WorkQueue Repo :=
  queue.write parcel.task
    (⟨parcel.repo, newParcelQueue parcel.index 1⟩ :: queue.taskQueue parcel.task)

/-- `get_parcel`, when `first` was read from the queue of the task and `rest` is left. -/
def getParcel (queue : WorkQueue Repo) (read : ParcelQueue → Option (Nat × Option ParcelQueue))
    (name : TaskName) (first : RepoTask Repo) (rest : List (RepoTask Repo))
    : Read Repo :=
  match read first.parcels with
  | none => .error
  | some (index, some parcels) =>
      .parcel ⟨first.repo, name, index⟩ (queue.write name (⟨first.repo, parcels⟩ :: rest))
  | some (index, none) => .parcel ⟨first.repo, name, index⟩ (queue.write name rest)

/-- `read_near` -/
def readNear [DecidableEq Repo] (queue : WorkQueue Repo) : Option (Near Repo) → Read Repo
  | none => .retry
  | some near =>
      match queue.taskQueue near.task with
      | [] => .retry
      | first :: rest =>
          if first.repo = near.repo then
            queue.getParcel (readParcelQueueNear near.index) near.task first rest
          else
            .retry

/-- A parcel from the front of the queue of a task, which blocks while the queue is empty. -/
def readTask (queue : WorkQueue Repo) (name : TaskName) : Read Repo :=
  match queue.taskQueue name with
  | [] => .retry
  | first :: rest => queue.getParcel readParcelQueue name first rest

/-- `RE.matchTest` of a pattern, which may be no regular expression. -/
abbrev MatchTest := String → TaskName → Option Bool

/-- `read_any` over the pairs that are tried. -/
def readAny (matchTest : MatchTest) (queue : WorkQueue Repo)
    : List (String × TaskName) → Read Repo
  | [] => .retry
  | (pattern, name) :: others =>
      match matchTest pattern name with
      | none => .error
      | some false => readAny matchTest queue others
      | some true => (queue.readTask name).orElse (readAny matchTest queue others)

/-- The pairs of a pattern and a task in the order in which they are tried. -/
def tries (patterns : List String) (order : List TaskName) : List (String × TaskName) :=
  patterns.flatMap (fun pattern => order.map (fun name => (pattern, name)))

/-- `order` is the order of the tasks in the hash map. -/
def readWorkQueue [DecidableEq Repo] (matchTest : MatchTest) (queue : WorkQueue Repo)
    (patterns : List String) (near : Option (Near Repo)) (order : List TaskName)
    : Read Repo :=
  (queue.readNear near).orElse 
    (queue.readAny matchTest (tries patterns order))

/-- The parcels in the queue of a task. -/
def taskParcels (name : TaskName) (tasks : List (RepoTask Repo)) : List (Parcel Repo) :=
  tasks.flatMap (fun task => task.parcels.parcels.map (fun index => ⟨task.repo, name, index⟩))

/-- The parcels held over all queues. -/
def held (queue : WorkQueue Repo) : Multiset (Parcel Repo) :=
  (queue.tasks.entries.flatMap (fun entry => taskParcels entry.1 entry.2) : List (Parcel Repo))

/-- Every `ParcelQueue` has ranges, none of them empty and no two with a common parcel. -/
def Proper (queue : WorkQueue Repo) : Prop :=
  ∀ name, ∀ task ∈ queue.taskQueue name, task.parcels.Proper

variable {queue after : WorkQueue Repo} {name other : TaskName} {parcel : Parcel Repo}

theorem taskQueue_write (queue : WorkQueue Repo) (name other : TaskName)
    (tasks : List (RepoTask Repo))
    : (queue.write name tasks).taskQueue other
      = if other = name then tasks else queue.taskQueue other := by
  rw [taskQueue, write, AssocMap.lookup_insert]
  split
  · rfl
  · rfl

theorem taskParcels_append (name : TaskName) (left right : List (RepoTask Repo))
    : taskParcels name (left ++ right) = taskParcels name left ++ taskParcels name right :=
  List.flatMap_append

/-- The parcels of all tasks but one. -/
def heldElsewhere (queue : WorkQueue Repo) (name : TaskName) : List (Parcel Repo) :=
  (queue.tasks.entries.filter (fun entry => entry.1 ≠ name)).flatMap
    (fun entry => taskParcels entry.1 entry.2)

theorem held_eq (queue : WorkQueue Repo) (name : TaskName)
    : queue.held = ↑(taskParcels name (queue.taskQueue name) ++ queue.heldElsewhere name) := by
  refine Multiset.coe_eq_coe.mpr ?_
  cases found : queue.tasks.lookup name with
  | none =>
      rw [taskQueue, found, heldElsewhere, AssocMap.filter_of_lookup_none found]
      rfl
  | some tasks =>
      rw [taskQueue, found]
      exact (AssocMap.entries_perm found).flatMap_right _

theorem held_write (queue : WorkQueue Repo) (name : TaskName) (tasks : List (RepoTask Repo))
    : (queue.write name tasks).held = ↑(taskParcels name tasks ++ queue.heldElsewhere name) :=
  rfl

theorem mem_taskParcels_task {tasks : List (RepoTask Repo)}
    (member : parcel ∈ taskParcels name tasks)
    : parcel.task = name := by
  obtain ⟨task, _, isParcel⟩ := List.mem_flatMap.mp member
  obtain ⟨index, _, rfl⟩ := List.mem_map.mp isParcel
  rfl

/-- A parcel is held in the queue of its task. -/
theorem exists_of_mem_held (member : parcel ∈ queue.held)
    : ∃ tasks, queue.tasks.lookup parcel.task = some tasks
        ∧ parcel ∈ taskParcels parcel.task tasks := by
  obtain ⟨entry, isEntry, isParcel⟩ := List.mem_flatMap.mp (Multiset.mem_coe.mp member)
  have isTask := mem_taskParcels_task isParcel
  refine ⟨entry.2, ?_, ?_⟩
  · rw [isTask]
    exact AssocMap.lookup_of_mem isEntry
  · rwa [isTask]

theorem Proper.write (proper : queue.Proper) {tasks : List (RepoTask Repo)}
    (areProper : ∀ task ∈ tasks, task.parcels.Proper)
    : (queue.write name tasks).Proper := by
  intro other
  rw [taskQueue_write]
  split
  · exact areProper
  · exact proper other

/-- The parcels of a new task. -/
def newParcels (repo : Repo) (name : TaskName) (count : Nat) : List (Parcel Repo) :=
  (List.range' 0 count).map (fun index => ⟨repo, name, index⟩)

theorem held_insertWorkQueue (queue : WorkQueue Repo) (repo : Repo) (name : TaskName)
    (count : Nat)
    : (queue.insertWorkQueue repo name count).held = queue.held + newParcels repo name count := by
  have isNew : taskParcels name [⟨repo, newParcelQueue 0 count⟩]
      = newParcels repo name count := by
    simp [taskParcels, newParcels, newParcelQueue, ParcelQueue.parcels]
  rw [insertWorkQueue, held_write, taskParcels_append, isNew, queue.held_eq name]
  simp only [← Multiset.coe_add]
  rw [Multiset.add_assoc, Multiset.add_assoc,
    Multiset.add_comm (newParcels repo name count : Multiset (Parcel Repo))]

theorem Proper.insertWorkQueue (proper : queue.Proper) (repo : Repo) {count : Nat}
    (positive : 0 < count)
    : (queue.insertWorkQueue repo name count).Proper := by
  refine proper.write (fun task member => ?_)
  rcases List.mem_append.mp member with isOld | isNew
  · exact proper name task isOld
  · rw [List.mem_singleton.mp isNew]
    exact positive

theorem held_writeWorkQueue (queue : WorkQueue Repo) (parcel : Parcel Repo)
    : (queue.writeWorkQueue parcel).held = parcel ::ₘ queue.held := by
  rw [writeWorkQueue, held_write, queue.held_eq parcel.task]
  rfl

theorem Proper.writeWorkQueue (proper : queue.Proper) (parcel : Parcel Repo)
    : (queue.writeWorkQueue parcel).Proper := by
  refine proper.write (fun task member => ?_)
  rcases List.mem_cons.mp member with isNew | isOld
  · rw [isNew]
    exact Nat.one_pos
  · exact proper _ task isOld

/-- What a read comes to: a parcel that was held, which it takes out and nothing else; it blocks
only if `Blocks` and fails only if `Fails`.
-/
structure Reads (queue : WorkQueue Repo) (read : Read Repo) (Blocks Fails : Prop) : Prop where
  parcel : ∀ parcel after, read = .parcel parcel after →
    after.Proper ∧ queue.held = parcel ::ₘ after.held
  retry : read = .retry → Blocks
  error : read = .error → Fails

theorem Reads.ofRetry {Blocks Fails : Prop} (blocks : Blocks)
    : queue.Reads .retry Blocks Fails where
  parcel := fun _ _ same => by cases same
  retry := fun _ => blocks
  error := fun same => by cases same

theorem Reads.ofParcel {Blocks Fails : Prop} (proper : after.Proper)
    (taken : queue.held = parcel ::ₘ after.held)
    : queue.Reads (.parcel parcel after) Blocks Fails where
  parcel := fun _ _ same => by
    cases same
    exact ⟨proper, taken⟩
  retry := fun same => by cases same
  error := fun same => by cases same

theorem Reads.imp {read : Read Repo} {Blocks BlocksToo Fails FailsToo : Prop}
    (reads : queue.Reads read Blocks Fails) (blocks : Blocks → BlocksToo)
    (fails : Fails → FailsToo)
    : queue.Reads read BlocksToo FailsToo where
  parcel := reads.parcel
  retry := fun same => blocks (reads.retry same)
  error := fun same => fails (reads.error same)

theorem Reads.orElse {first second : Read Repo} {Blocks BlocksToo Fails FailsToo : Prop}
    (left : queue.Reads first Blocks Fails) (right : queue.Reads second BlocksToo FailsToo)
    : queue.Reads (first.orElse second) (Blocks ∧ BlocksToo) (Fails ∨ FailsToo) := by
  cases first with
  | parcel parcel rest =>
      refine ⟨left.parcel, fun same => ?_, fun same => ?_⟩
      · cases same
      · cases same
  | error =>
      refine ⟨fun _ _ same => ?_, fun same => ?_, fun _ => Or.inl (left.error rfl)⟩
      · cases same
      · cases same
  | retry =>
      refine ⟨right.parcel, fun blocks => ?_, fun fails => Or.inr (right.error fails)⟩
      exact ⟨left.retry rfl, right.retry blocks⟩

theorem takes_readParcelQueueNear {parcels : ParcelQueue} (proper : parcels.Proper) (index : Int)
    : ∃ taken rest, readParcelQueueNear index parcels = some (taken, rest)
        ∧ Takes parcels taken rest := by
  cases parcels with
  | range first count => exact Indexing.takes_readParcelQueue proper
  | ranges sizes =>
      rw [readParcelQueueNear]
      cases found : if 0 ≤ index + 1 then sizes.lookup (index + 1).toNat else none with
      | none => exact Indexing.takes_readParcelQueue proper
      | some count =>
          split at found
          · exact ⟨_, _, rfl, Indexing.takes_first proper found⟩
          · cases found

/-- Taking a parcel from the front of the queue of a task, which goes back unless it is empty. -/
theorem reads_getParcel (proper : queue.Proper) {first : RepoTask Repo}
    {rest : List (RepoTask Repo)} (isQueue : queue.taskQueue name = first :: rest)
    {read : ParcelQueue → Option (Nat × Option ParcelQueue)}
    (takes : ∀ {parcels}, ParcelQueue.Proper parcels →
      ∃ index remaining, read parcels = some (index, remaining) ∧ Takes parcels index remaining)
    : queue.Reads (queue.getParcel read name first rest) False False := by
  have properTasks : ∀ task ∈ first :: rest, task.parcels.Proper := isQueue ▸ proper name
  rw [List.forall_mem_cons] at properTasks
  obtain ⟨index, remaining, isRead, taken⟩ := takes properTasks.1
  have heldBefore := queue.held_eq name
  rw [isQueue] at heldBefore
  -- The parcels of the first entry are the one that is taken and those of what remains.
  have split := taken.parcels.map
    (fun index => (⟨first.repo, name, index⟩ : Parcel Repo))
  have whole :=
    (split.append_right (taskParcels name rest)).append_right (queue.heldElsewhere name)
  rw [getParcel, isRead]
  cases remaining with
  | none =>
      refine .ofParcel (proper.write properTasks.2) ?_
      rw [held_write, heldBefore]
      exact Multiset.coe_eq_coe.mpr whole
  | some parcels =>
      refine .ofParcel (proper.write ?_) ?_
      · exact List.forall_mem_cons.mpr ⟨taken.proper parcels rfl, properTasks.2⟩
      · rw [held_write, heldBefore]
        exact Multiset.coe_eq_coe.mpr whole

/-- A read near a parcel blocks without harm and never fails. -/
theorem reads_readNear [DecidableEq Repo] (proper : queue.Proper) (near : Option (Near Repo))
    : queue.Reads (queue.readNear near) True False := by
  cases near with
  | none => exact .ofRetry trivial
  | some near =>
      rw [readNear]
      cases isQueue : queue.taskQueue near.task with
      | nil => exact .ofRetry trivial
      | cons first rest =>
          dsimp only
          split
          · have read := reads_getParcel proper isQueue
              (fun areProper => takes_readParcelQueueNear areProper near.index)
            exact read.imp (fun _ => trivial) id
          · exact .ofRetry trivial

/-- A read of a task blocks if its queue is empty. -/
theorem reads_readTask (proper : queue.Proper) (name : TaskName)
    : queue.Reads (queue.readTask name) (queue.taskQueue name = []) False := by
  rw [readTask]
  cases isQueue : queue.taskQueue name with
  | nil => exact .ofRetry rfl
  | cons first rest =>
      exact (reads_getParcel proper isQueue Indexing.takes_readParcelQueue).imp False.elim id

/-- The reads of all patterns and tasks, one after the other, by induction on them. -/
theorem reads_readAny (proper : queue.Proper) (matchTest : MatchTest)
    (pairs : List (String × TaskName))
    : queue.Reads (queue.readAny matchTest pairs)
        (∀ pair ∈ pairs, matchTest pair.1 pair.2 = some true → queue.taskQueue pair.2 = [])
        (∃ pair ∈ pairs, matchTest pair.1 pair.2 = none) := by
  induction pairs with
  | nil => exact .ofRetry (by simp)
  | cons pair others ih =>
      obtain ⟨pattern, name⟩ := pair
      have later (fails : ∃ pair ∈ others, matchTest pair.1 pair.2 = none)
          : ∃ pair ∈ (pattern, name) :: others, matchTest pair.1 pair.2 = none := by
        obtain ⟨pair, isOther, isNone⟩ := fails
        exact ⟨pair, List.mem_cons_of_mem _ isOther, isNone⟩
      rw [readAny]
      cases matching : matchTest pattern name with
      | none =>
          refine ⟨fun _ _ same => ?_, fun same => ?_, fun _ => ?_⟩
          · cases same
          · cases same
          · exact ⟨(pattern, name), List.mem_cons_self, matching⟩
      | some accepts =>
          cases accepts with
          | false =>
              refine ih.imp (fun blocks => ?_) later
              refine List.forall_mem_cons.mpr ⟨fun isTrue => ?_, blocks⟩
              rw [matching] at isTrue
              cases isTrue
          | true =>
              have both := (reads_readTask proper name).orElse ih
              refine both.imp (fun blocks => ?_) (fun fails => ?_)
              · exact List.forall_mem_cons.mpr ⟨fun _ => blocks.1, blocks.2⟩
              · exact later (fails.resolve_left id)

theorem mem_tries {patterns : List String} {order : List TaskName} {pair : String × TaskName}
    : pair ∈ tries patterns order ↔ pair.1 ∈ patterns ∧ pair.2 ∈ order := by
  obtain ⟨pattern, name⟩ := pair
  simp [tries]

/-- A read blocks only if no parcel of an acceptable task is held, and fails only if a pattern is
no regular expression.
-/
theorem reads_readWorkQueue [DecidableEq Repo] (proper : queue.Proper) (matchTest : MatchTest)
    (patterns : List String) (near : Option (Near Repo)) {order : List TaskName}
    (isOrder : order.Perm queue.tasks.keys)
    : queue.Reads (queue.readWorkQueue matchTest patterns near order)
        (∀ parcel ∈ queue.held, ∀ pattern ∈ patterns, matchTest pattern parcel.task ≠ some true)
        (∃ pattern ∈ patterns, ∃ name ∈ order, matchTest pattern name = none) := by
  have both := (reads_readNear proper near).orElse
    (reads_readAny proper matchTest (tries patterns order))
  refine both.imp (fun blocks => ?_) (fun fails => ?_)
  · intro parcel isHeld pattern isPattern accepts
    obtain ⟨tasks, isTask, isParcel⟩ := exists_of_mem_held isHeld
    have isKey : parcel.task ∈ order :=
      isOrder.mem_iff.mpr (AssocMap.mem_keys_iff.mpr ⟨tasks, isTask⟩)
    have nothing := blocks.2 (pattern, parcel.task) (mem_tries.mpr ⟨isPattern, isKey⟩) accepts
    rw [taskQueue, isTask, Option.getD_some] at nothing
    rw [nothing] at isParcel
    cases isParcel
  · obtain ⟨pair, isPair, isNone⟩ := fails.resolve_left id
    obtain ⟨isPattern, isName⟩ := mem_tries.mp isPair
    exact ⟨pair.1, isPattern, pair.2, isName, isNone⟩

end WorkQueue

/-- The queue with the parcels that were inserted, put back and read so far. -/
structure State (Repo : Type) where
  queue : WorkQueue Repo
  inserted : Multiset (Parcel Repo)
  putBack : Multiset (Parcel Repo)
  read : Multiset (Parcel Repo)

/-- Transactions of any workers, one after the other. Parcels that are put back have been read
before; transactions that block or fail leave everything as it is.
-/
inductive Run {Repo : Type} [DecidableEq Repo] (matchTest : WorkQueue.MatchTest)
    : State Repo → Prop
  | newWorkQueue : Run matchTest ⟨.newWorkQueue, 0, 0, 0⟩
  | insertWorkQueue {state} (run : Run matchTest state) {repo name count} (positive : 0 < count)
      (once : ∀ parcel ∈ state.inserted, ¬ (parcel.repo = repo ∧ parcel.task = name))
      : Run matchTest
          { state with
            queue := state.queue.insertWorkQueue repo name count
            inserted := state.inserted + WorkQueue.newParcels repo name count }
  | writeWorkQueue {state} (run : Run matchTest state) {parcel} (wasRead : parcel ∈ state.read)
      : Run matchTest
          { state with
            queue := state.queue.writeWorkQueue parcel
            putBack := parcel ::ₘ state.putBack }
  | readWorkQueue {state} (run : Run matchTest state) {patterns near order}
      (isOrder : order.Perm state.queue.tasks.keys) {parcel after}
      (isRead : state.queue.readWorkQueue matchTest patterns near order = .parcel parcel after)
      : Run matchTest { state with queue := after, read := parcel ::ₘ state.read }

/-- What holds in every state of a run. -/
structure Invariant {Repo : Type} (state : State Repo) : Prop where
  proper : state.queue.Proper
  balance : state.queue.held + state.read = state.inserted + state.putBack
  distinct : state.inserted.Nodup

section

variable {Repo : Type} {matchTest : WorkQueue.MatchTest} {state : State Repo}

theorem newParcels_nodup (repo : Repo) (name : TaskName) (count : Nat)
    : (WorkQueue.newParcels repo name count : Multiset (Parcel Repo)).Nodup := by
  refine Multiset.coe_nodup.mpr (List.Nodup.map (fun left right same => ?_) List.nodup_range')
  exact congrArg Parcel.index same

theorem Invariant.insertWorkQueue (invariant : Invariant state) {repo : Repo} {name : TaskName}
    {count : Nat} (positive : 0 < count)
    (once : ∀ parcel ∈ state.inserted, ¬ (parcel.repo = repo ∧ parcel.task = name))
    : Invariant
        { state with
          queue := state.queue.insertWorkQueue repo name count
          inserted := state.inserted + WorkQueue.newParcels repo name count } where
  proper := invariant.proper.insertWorkQueue repo positive
  balance := by
    dsimp only
    rw [WorkQueue.held_insertWorkQueue, add_right_comm, invariant.balance,
      add_right_comm]
  distinct := by
    refine Multiset.nodup_add.mpr
      ⟨invariant.distinct, newParcels_nodup repo name count, ?_⟩
    rw [Multiset.disjoint_left]
    intro parcel wasInserted isNew
    obtain ⟨index, _, rfl⟩ := List.mem_map.mp (Multiset.mem_coe.mp isNew)
    exact once _ wasInserted ⟨rfl, rfl⟩

theorem Invariant.writeWorkQueue (invariant : Invariant state) (parcel : Parcel Repo)
    : Invariant
        { state with
          queue := state.queue.writeWorkQueue parcel
          putBack := parcel ::ₘ state.putBack } where
  proper := invariant.proper.writeWorkQueue parcel
  balance := by
    dsimp only
    rw [WorkQueue.held_writeWorkQueue, Multiset.cons_add, invariant.balance, Multiset.add_cons]
  distinct := invariant.distinct

theorem Invariant.readWorkQueue (invariant : Invariant state) {parcel : Parcel Repo}
    {after : WorkQueue Repo} (properAfter : after.Proper)
    (taken : state.queue.held = parcel ::ₘ after.held)
    : Invariant { state with queue := after, read := parcel ::ₘ state.read } where
  proper := properAfter
  balance := by
    have balance := invariant.balance
    rw [taken, Multiset.cons_add, ← Multiset.add_cons] at balance
    exact balance
  distinct := invariant.distinct

variable [DecidableEq Repo]

/-- The invariant holds along a run, by induction on it. -/
theorem Run.invariant (run : Run matchTest state) : Invariant state := by
  induction run with
  | newWorkQueue =>
      refine ⟨fun name task member => ?_, rfl, Multiset.nodup_zero⟩
      cases member
  | insertWorkQueue run positive once ih => exact ih.insertWorkQueue positive once
  | writeWorkQueue run wasRead ih => exact ih.writeWorkQueue _
  | @readWorkQueue _ run patterns near _ isOrder _ _ isRead ih =>
      have read := WorkQueue.reads_readWorkQueue ih.proper matchTest patterns near isOrder
      obtain ⟨properAfter, taken⟩ := read.parcel _ _ isRead
      exact ih.readWorkQueue properAfter taken

/-- Parcels are handed out once: the queues hold the parcels that were inserted and put back and
not read since, each in a proper `ParcelQueue`, and a read returns one of these unless no parcel
of an acceptable task is among them.
-/
structure HandsOutOnce (matchTest : WorkQueue.MatchTest) (state : State Repo) : Prop where
  proper : ∀ name, ∀ task ∈ state.queue.taskQueue name, task.parcels.Proper
  held
    : state.read ≤ state.inserted + state.putBack
      ∧ state.queue.held = state.inserted + state.putBack - state.read
  once : ∀ parcel, state.read.count parcel ≤ state.putBack.count parcel + 1
  distinct
    : (∀ parcel, state.putBack.count parcel ≤ state.read.count parcel) → state.queue.held.Nodup
  returns
    : ∀ patterns near order, order.Perm state.queue.tasks.keys → ∀ parcel after,
        state.queue.readWorkQueue matchTest patterns near order = .parcel parcel after →
          parcel ∈ state.queue.held ∧ after.held = state.queue.held - {parcel}
  blocks
    : ∀ patterns near order, order.Perm state.queue.tasks.keys →
        state.queue.readWorkQueue matchTest patterns near order = .retry →
          ∀ parcel ∈ state.queue.held, ∀ pattern ∈ patterns,
            matchTest pattern parcel.task ≠ some true
  fails
    : ∀ patterns near order, order.Perm state.queue.tasks.keys →
        state.queue.readWorkQueue matchTest patterns near order = .error →
          ∃ pattern ∈ patterns, ∃ name ∈ order, matchTest pattern name = none

/-- The parcels held, from the balance of the invariant. -/
theorem Invariant.count_held (invariant : Invariant state) (parcel : Parcel Repo)
    : state.queue.held.count parcel + state.read.count parcel
      = state.inserted.count parcel + state.putBack.count parcel := by
  rw [← Multiset.count_add, ← Multiset.count_add, invariant.balance]

theorem handsOut_once (run : Run matchTest state) : HandsOutOnce matchTest state := by
  have invariant := run.invariant
  have insertedOnce := Multiset.nodup_iff_count_le_one.mp invariant.distinct
  refine ⟨invariant.proper, ⟨?_, ?_⟩, fun parcel => ?_, fun outstanding => ?_, ?_, ?_, ?_⟩
  · rw [← invariant.balance]
    exact Multiset.le_add_left _ _
  · rw [← invariant.balance, Multiset.add_sub_cancel_right]
  · have balance := invariant.count_held parcel
    have atMostOnce := insertedOnce parcel
    omega
  · refine Multiset.nodup_iff_count_le_one.mpr (fun parcel => ?_)
    have balance := invariant.count_held parcel
    have atMostOnce := insertedOnce parcel
    have isOutstanding := outstanding parcel
    omega
  · intro patterns near order isOrder parcel after isRead
    have read := WorkQueue.reads_readWorkQueue invariant.proper matchTest patterns near isOrder
    obtain ⟨-, taken⟩ := read.parcel parcel after isRead
    refine ⟨?_, ?_⟩
    · rw [taken]
      exact Multiset.mem_cons_self _ _
    · rw [taken, Multiset.sub_singleton, Multiset.erase_cons_head]
  · intro patterns near order isOrder isRead
    exact (WorkQueue.reads_readWorkQueue invariant.proper matchTest patterns near isOrder).retry
      isRead
  · intro patterns near order isOrder isRead
    exact (WorkQueue.reads_readWorkQueue invariant.proper matchTest patterns near isOrder).error
      isRead

end

theorem handsOut_once_inserted
    : HandsOutOnce (fun _ _ => some true)
        ⟨WorkQueue.newWorkQueue.insertWorkQueue "fbsource" "index" 2,
          0 + WorkQueue.newParcels "fbsource" "index" 2, 0, 0⟩ :=
  handsOut_once (.insertWorkQueue .newWorkQueue (by decide) (by simp))

end Glean.Database.Parcels
