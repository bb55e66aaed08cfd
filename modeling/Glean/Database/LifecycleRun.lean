import Glean.Database.Lifecycle
import Glean.Library.Threads

/-! Whether deleting a database races with opening it, over all interleavings of the threads
that open, close, create and delete it.
-/

namespace Glean.Database.Lifecycle

open Threads

namespace Thread

/-- The database a thread has acquired and not yet released. -/
def holds? : Thread → Option Nat
  | .requester db _ => some db
  | .opener _ .spawned | .opener _ (.finished _) => none
  | .opener db _ => some db
  | .closer db _ => some db
  | _ => none

/-- The database a thread has open, is opening or is using. -/
def refers? : Thread → Option Nat
  | .requester db _ => some db
  | .opener _ (.finished _) => none
  | .opener db _ => some db
  | .closer db _ => some db
  | _ => none

end Thread

/-- The number of threads that a partial function maps to a database. -/
def count (field : Thread → Option Nat) (name : Nat) (threads : List Thread) : Nat :=
  total (fun thread => if field thread = some name then 1 else 0) threads

/-- The remover deletes the catalog entry and the storage. -/
def RemoverStage.Deletes : RemoverStage → Prop
  | .closed _ | .removing _ | .removed _ | .deleted _ => True
  | _ => False

/-- Nothing of the database is open or can be opened. -/
structure Exclusive (state : State) : Prop where
  handles : ∀ name, (state.dbs name).handles = 0
  closed : ∀ name, (state.dbs name).state = .closed
  unused : ∀ thread ∈ state.threads, thread.refers? = none ∧ thread ≠ .creator
  refused : step state .request = none

structure Safe (state : State) : Prop where
  handles
    : (∀ name, (state.dbs name).handles ≤ 1)
      ∧ ∀ left right, 0 < (state.dbs left).handles → 0 < (state.dbs right).handles →
          left = right
  users : ∀ name, (state.dbs name).users = count Thread.holds? name state.threads
  exclusive : ∀ stage, .remover stage ∈ state.threads → stage.Deletes → Exclusive state

/-- The steps that do not go wrong: a remover does not find a database without users that is
being opened, the repo is not created anew while it is being deleted, and a remover takes only
its own mark from `envDeleting`.
-/
def Sound (state : State) : Event → Prop
  | .removerDrained index =>
      ∀ name, state.threads[index]? = some (.remover (.draining name)) →
        (state.dbs name).users = 0 → (state.dbs name).state ≠ .opening
  | .create => state.envDeleting = none
  | .removerEnds index => state.envDeleting = none ∨ state.envDeleting = some index
  | _ => True

namespace Thread

/-- The thread that will end the state `Opening` of a database. -/
def opening? : Thread → Option Nat
  | .requester db .starting => some db
  | .opener db .spawned | .opener db .acquired | .opener db .opened | .opener db .failing =>
      some db
  | _ => none

/-- The thread that will end the state `Closing` of a database. -/
def closing? : Thread → Option Nat
  | .closer db .closing | .closer db .closed => some db
  | _ => none

/-- The thread that has a storage handle of a database for itself. -/
def handle? : Thread → Option Nat
  | .opener db .opened | .closer db .closing => some db
  | _ => none

def creators : Thread → Nat
  | .creator => 1
  | _ => 0

end Thread

def RemoverStage.db? : RemoverStage → Option Nat
  | .unset | .nothing => none
  | .draining db | .drained db | .closed db | .removing db | .removed db | .deleted db => some db

/-- The remover has seen that the database has no users. -/
def RemoverStage.Drained : RemoverStage → Prop
  | .unset | .nothing | .draining _ => False
  | _ => True

/-- The catalog entry is still there. -/
def RemoverStage.Listed : RemoverStage → Prop
  | .draining _ | .drained _ | .closed _ => True
  | _ => False

def isState (db : DB) (state : DBState) : Nat :=
  if db.state = state then 1 else 0

theorem isState_le_one (db : DB)
    : isState db .opening + isState db .closing + isState db .open ≤ 1 := by
  unfold isState
  cases db.state <;> simp

/-- A database record agrees with the threads that work with it. -/
structure Counted (threads : List Thread) (name : Nat) (db : DB) : Prop where
  users : db.users = count Thread.holds? name threads
  opening : count Thread.opening? name threads = isState db .opening
  closing : count Thread.closing? name threads = isState db .closing
  handles : db.handles = count Thread.handle? name threads + isState db .open

def Busy (state : State) (name : Nat) : Prop :=
  (state.dbs name).state ≠ .closed ∨ ∃ thread ∈ state.threads, thread.refers? = some name

def Removes (state : State) (index name : Nat) (stage : RemoverStage) : Prop :=
  state.threads[index]? = some (.remover stage) ∧ stage.db? = some name

def Current (state : State) (name : Nat) : Prop :=
  state.envActive = some name ∨ ∃ index stage, Removes state index name stage

/-- What holds in every state of a run with sound steps. -/
structure Inv (state : State) : Prop where
  counted : ∀ name, Counted state.threads name (state.dbs name)
  current : ∀ name, Busy state name → Current state name
  active : ∀ name, state.envActive = some name → state.live = true
  removes
    : ∀ index name stage, Removes state index name stage →
        state.envDeleting = some index ∧ state.envActive = none
          ∧ (stage.Listed → state.live = true)
  drained
    : ∀ index name stage, Removes state index name stage → stage.Drained →
        (∀ thread ∈ state.threads, thread.refers? ≠ some name)
          ∧ (stage.Deletes → (state.dbs name).state = .closed)
  creates
    : .creator ∈ state.threads → state.ephemeral = true ∧ state.live = false
        ∧ state.envActive = none ∧ state.envDeleting = none
  oneCreator : total Thread.creators state.threads ≤ 1

/-- What a thread contributes to a count. -/
def weight (field : Thread → Option Nat) (name : Nat) (thread : Thread) : Nat :=
  if field thread = some name then 1 else 0

theorem count_set (field : Thread → Option Nat) (name : Nat) {index : Nat}
    {threads : List Thread} {old : Thread} (at_index : threads[index]? = some old) (new : Thread)
    : count field name (threads.set index new) + weight field name old
      = count field name threads + weight field name new :=
  total_set (weight field name) at_index new

theorem count_append (field : Thread → Option Nat) (name : Nat) (threads : List Thread)
    (new : Thread)
    : count field name (threads ++ [new]) = count field name threads + weight field name new :=
  total_append (weight field name) threads new

theorem count_pos {field : Thread → Option Nat} {name : Nat} {threads : List Thread}
    {thread : Thread} (member : thread ∈ threads) (isSome : field thread = some name)
    : 0 < count field name threads := by
  have le : weight field name thread ≤ count field name threads :=
    weight_le_total (weight field name) member
  rw [weight, if_pos isSome] at le
  omega

theorem count_eq_zero {field : Thread → Option Nat} {name : Nat} {threads : List Thread}
    (none : ∀ thread ∈ threads, field thread ≠ some name)
    : count field name threads = 0 :=
  total_eq_zero (fun thread member => if_neg (none thread member))

namespace Thread

theorem refers?_of_holds? {thread : Thread} {name : Nat} (holds : thread.holds? = some name)
    : thread.refers? = some name := by
  unfold holds? at holds
  unfold refers?
  split at holds <;> simp_all

theorem refers?_of_opening? {thread : Thread} {name : Nat}
    (opening : thread.opening? = some name)
    : thread.refers? = some name := by
  unfold opening? at opening
  split at opening <;> simp_all [refers?]

theorem refers?_of_closing? {thread : Thread} {name : Nat}
    (closing : thread.closing? = some name)
    : thread.refers? = some name := by
  unfold closing? at closing
  split at closing <;> simp_all [refers?]

theorem refers?_of_handle? {thread : Thread} {name : Nat} (handle : thread.handle? = some name)
    : thread.refers? = some name := by
  unfold handle? at handle
  split at handle <;> simp_all [refers?]

/-- A thread that has a handle is about to end the state of its database. -/
theorem weight_handle?_le (name : Nat) (thread : Thread)
    : weight handle? name thread ≤ weight opening? name thread + weight closing? name thread := by
  unfold weight handle?
  split <;> simp [opening?, closing?]

end Thread

/-- A record is counted by threads that do not refer to it as nothing. -/
theorem Counted.of_unreferred {threads : List Thread} {name : Nat}
    (unreferred : ∀ thread ∈ threads, thread.refers? ≠ some name)
    : Counted threads name .new where
  users := by
    rw [count_eq_zero (fun thread member holds =>
      unreferred thread member (Thread.refers?_of_holds? holds))]
    rfl
  opening := count_eq_zero (fun thread member opening =>
    unreferred thread member (Thread.refers?_of_opening? opening))
  closing := count_eq_zero (fun thread member closing =>
    unreferred thread member (Thread.refers?_of_closing? closing))
  handles := by
    rw [count_eq_zero (fun thread member handle =>
      unreferred thread member (Thread.refers?_of_handle? handle))]
    rfl

/-- The handles of a record: the state tells how many there can be. -/
theorem Counted.handles_le {threads : List Thread} {name : Nat} {db : DB}
    (counted : Counted threads name db)
    : db.handles ≤ isState db .opening + isState db .closing + isState db .open := by
  have le : count Thread.handle? name threads
      ≤ count Thread.opening? name threads + count Thread.closing? name threads :=
    total_le_add (Thread.weight_handle?_le name) threads
  rw [counted.handles]
  rw [counted.opening, counted.closing] at le
  omega

/-- One thread takes a step on a record. -/
theorem Counted.set {threads : List Thread} {name index : Nat} {db after : DB}
    {old new : Thread} (counted : Counted threads name db)
    (at_index : threads[index]? = some old)
    (users : after.users + weight Thread.holds? name old
      = db.users + weight Thread.holds? name new)
    (opening : isState after .opening + weight Thread.opening? name old
      = isState db .opening + weight Thread.opening? name new)
    (closing : isState after .closing + weight Thread.closing? name old
      = isState db .closing + weight Thread.closing? name new)
    (handles : after.handles + weight Thread.handle? name old + isState db .open
      = db.handles + weight Thread.handle? name new + isState after .open)
    : Counted (threads.set index new) name after where
  users := by
    have counts := count_set Thread.holds? name at_index new
    have before := counted.users
    omega
  opening := by
    have counts := count_set Thread.opening? name at_index new
    have before := counted.opening
    omega
  closing := by
    have counts := count_set Thread.closing? name at_index new
    have before := counted.closing
    omega
  handles := by
    have counts := count_set Thread.handle? name at_index new
    have before := counted.handles
    omega

/-- A new thread works with a record. -/
theorem Counted.append {threads : List Thread} {name : Nat} {db after : DB} {new : Thread}
    (counted : Counted threads name db)
    (users : after.users = db.users + weight Thread.holds? name new)
    (opening : isState after .opening = isState db .opening + weight Thread.opening? name new)
    (closing : isState after .closing = isState db .closing + weight Thread.closing? name new)
    (handles : after.handles + isState db .open
      = db.handles + weight Thread.handle? name new + isState after .open)
    : Counted (threads ++ [new]) name after where
  users := by
    rw [count_append, users, counted.users]
    omega
  opening := by
    rw [count_append, opening, counted.opening]
  closing := by
    rw [count_append, closing, counted.closing]
  handles := by
    have before := counted.handles
    rw [count_append]
    omega

/-- Threads that do not refer to a record do not count for it. -/
theorem weight_eq_zero {thread : Thread} {name : Nat} (unreferred : thread.refers? ≠ some name)
    : weight Thread.holds? name thread = 0 ∧ weight Thread.opening? name thread = 0
      ∧ weight Thread.closing? name thread = 0 ∧ weight Thread.handle? name thread = 0 :=
  ⟨if_neg (fun holds => unreferred (Thread.refers?_of_holds? holds)),
    if_neg (fun opening => unreferred (Thread.refers?_of_opening? opening)),
    if_neg (fun closing => unreferred (Thread.refers?_of_closing? closing)),
    if_neg (fun handle => unreferred (Thread.refers?_of_handle? handle))⟩

theorem Counted.set_other {threads : List Thread} {name index : Nat} {db : DB}
    {old new : Thread} (counted : Counted threads name db)
    (at_index : threads[index]? = some old) (oldElse : old.refers? ≠ some name)
    (newElse : new.refers? ≠ some name)
    : Counted (threads.set index new) name db := by
  obtain ⟨oldHolds, oldOpening, oldClosing, oldHandle⟩ := weight_eq_zero oldElse
  obtain ⟨newHolds, newOpening, newClosing, newHandle⟩ := weight_eq_zero newElse
  exact counted.set at_index (by rw [oldHolds, newHolds]) (by rw [oldOpening, newOpening])
    (by rw [oldClosing, newClosing]) (by rw [oldHandle, newHandle])

theorem Counted.append_other {threads : List Thread} {name : Nat} {db : DB} {new : Thread}
    (counted : Counted threads name db) (newElse : new.refers? ≠ some name)
    : Counted (threads ++ [new]) name db := by
  obtain ⟨newHolds, newOpening, newClosing, newHandle⟩ := weight_eq_zero newElse
  exact counted.append (by omega) (by omega) (by omega) (by omega)

namespace Inv

variable {state : State}

/-- At most one record is in use. -/
theorem current_unique (inv : Inv state) {left right : Nat} (isLeft : Current state left)
    (isRight : Current state right)
    : left = right := by
  rcases isLeft with leftActive | ⟨leftIndex, leftStage, leftRemoves⟩ <;>
    rcases isRight with rightActive | ⟨rightIndex, rightStage, rightRemoves⟩
  · exact Option.some.inj (leftActive.symm.trans rightActive)
  · obtain ⟨-, notActive, -⟩ := inv.removes _ _ _ rightRemoves
    rw [notActive] at leftActive
    cases leftActive
  · obtain ⟨-, notActive, -⟩ := inv.removes _ _ _ leftRemoves
    rw [notActive] at rightActive
    cases rightActive
  · have leftDeleting := (inv.removes _ _ _ leftRemoves).1
    have rightDeleting := (inv.removes _ _ _ rightRemoves).1
    obtain rfl := Option.some.inj (leftDeleting.symm.trans rightDeleting)
    obtain ⟨left_index, leftDb⟩ := leftRemoves
    obtain ⟨right_index, rightDb⟩ := rightRemoves
    rw [left_index] at right_index
    obtain rfl := Thread.remover.inj (Option.some.inj right_index)
    exact Option.some.inj (leftDb.symm.trans rightDb)

/-- Without an active database and a deletion in progress no record is in use. -/
theorem not_busy (inv : Inv state) (notActive : state.envActive = none)
    (notDeleting : state.envDeleting = none) (name : Nat)
    : ¬ Busy state name := by
  intro busy
  rcases inv.current name busy with active | ⟨index, stage, removes⟩
  · rw [notActive] at active
    cases active
  · have deleting := (inv.removes _ _ _ removes).1
    rw [notDeleting] at deleting
    cases deleting

theorem closed_of_not_busy {name : Nat} (notBusy : ¬ Busy state name)
    : (state.dbs name).state = .closed :=
  not_not.mp (fun open_ => notBusy (.inl open_))

theorem unreferred_of_not_busy {name : Nat} (notBusy : ¬ Busy state name)
    : ∀ thread ∈ state.threads, thread.refers? ≠ some name :=
  fun thread member refers => notBusy (.inr ⟨thread, member, refers⟩)

theorem handles_of_closed (inv : Inv state) {name : Nat}
    (isClosed : (state.dbs name).state = .closed)
    : (state.dbs name).handles = 0 := by
  have le := (inv.counted name).handles_le
  simpa [isState, isClosed] using le

/-- While a remover deletes the database, nothing of it is in use. -/
theorem exclusive (inv : Inv state) {stage : RemoverStage}
    (member : .remover stage ∈ state.threads) (deletes : stage.Deletes)
    : Exclusive state := by
  obtain ⟨index, at_index⟩ := List.mem_iff_getElem?.mp member
  obtain ⟨name, isDb⟩ : ∃ name, stage.db? = some name := by
    cases stage <;> first | exact ⟨_, rfl⟩ | cases deletes
  have removes : Removes state index name stage := ⟨at_index, isDb⟩
  obtain ⟨deleting, notActive, -⟩ := inv.removes _ _ _ removes
  obtain ⟨unreferred, isClosed⟩ := inv.drained _ _ _ removes (by cases stage <;> trivial)
  have notBusy (other : Nat) : ¬ Busy state other := by
    intro busy
    obtain rfl := inv.current_unique (inv.current other busy) (.inr ⟨index, stage, removes⟩)
    rcases busy with notClosed | ⟨thread, isThread, refers⟩
    · exact notClosed (isClosed deletes)
    · exact unreferred thread isThread refers
  refine ⟨fun other => inv.handles_of_closed (closed_of_not_busy (notBusy other)),
    fun other => closed_of_not_busy (notBusy other), ?_, ?_⟩
  · intro thread isThread
    refine ⟨?_, ?_⟩
    · rw [Option.eq_none_iff_forall_ne_some]
      exact fun other => unreferred_of_not_busy (notBusy other) thread isThread
    · rintro rfl
      have notDeleting := (inv.creates isThread).2.2.2
      rw [deleting] at notDeleting
      cases notDeleting
  · simp [step, notActive, deleting]

theorem safe (inv : Inv state) : Safe state where
  handles := by
    refine ⟨fun name => ?_, fun left right leftOpen rightOpen => ?_⟩
    · have le := (inv.counted name).handles_le
      have one := isState_le_one (state.dbs name)
      omega
    · have isCurrent {name : Nat} (isOpen : 0 < (state.dbs name).handles) : Current state name := by
        refine inv.current name (.inl (fun isClosed => ?_))
        rw [inv.handles_of_closed isClosed] at isOpen
        cases isOpen
      exact inv.current_unique (isCurrent leftOpen) (isCurrent rightOpen)
  users := fun name => (inv.counted name).users
  exclusive := fun _ member deletes => inv.exclusive member deletes

end Inv

theorem Starts.inv {state : State} (starts : Starts state) : Inv state where
  counted := by
    intro name
    rw [starts.dbs, starts.threads]
    exact .of_unreferred (by simp)
  current := by simp [Busy, starts.dbs, starts.threads, DB.new]
  active := by simp [starts.envActive]
  removes := by simp [Removes, starts.threads]
  drained := by simp [Removes, starts.threads]
  creates := by simp [starts.threads]
  oneCreator := by simp [starts.threads, total]

end Glean.Database.Lifecycle
