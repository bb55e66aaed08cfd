import Glean.Database.LifecycleRun

/-! Every sound step of opening, closing, creating and deleting a database keeps the invariant
of `Glean.Database.LifecycleRun`.
-/

namespace Glean.Database.Lifecycle

open Threads

-- Moves of the threads

/-- A thread that neither creates nor deletes the database. -/
structure Thread.Plain (thread : Thread) : Prop where
  notRemover : ∀ stage, thread = .remover stage → stage.db? = none
  notCreator : thread.creators = 0

/-- The threads change, but no remover or creator does, and they change only as to the records
in `touched`.
-/
structure Moves (threads after : List Thread) (touched : Set Nat) : Prop where
  removers
    : ∀ (index : Nat) (stage : RemoverStage), stage.db? ≠ none →
        (after[index]? = some (.remover stage) ↔ threads[index]? = some (.remover stage))
  creators : total Thread.creators after = total Thread.creators threads
  refers
    : ∀ name, name ∉ touched → ∀ thread ∈ after, thread.refers? = some name → thread ∈ threads
  counted : ∀ name, name ∉ touched → ∀ db, Counted threads name db → Counted after name db

namespace Moves

variable {threads middle after : List Thread} {touched : Set Nat} {index : Nat}
  {old new : Thread}

theorem trans (left : Moves threads middle touched) (right : Moves middle after touched)
    : Moves threads after touched where
  removers := fun index stage isDb =>
    (right.removers index stage isDb).trans (left.removers index stage isDb)
  creators := right.creators.trans left.creators
  refers := fun name untouched thread member refers =>
    left.refers name untouched thread (right.refers name untouched thread member refers) refers
  counted := fun name untouched db counted =>
    right.counted name untouched db (left.counted name untouched db counted)

theorem set (at_index : threads[index]? = some old) (oldPlain : old.Plain) (newPlain : new.Plain)
    (oldTouched : ∀ name, old.refers? = some name → name ∈ touched)
    (newTouched : ∀ name, new.refers? = some name → name ∈ touched)
    : Moves threads (threads.set index new) touched where
  removers := by
    intro position stage isDb
    by_cases same : index = position
    · subst same
      rw [List.getElem?_set_self (List.getElem?_eq_some_iff.mp at_index).1, at_index]
      refine ⟨fun isNew => ?_, fun isOld => ?_⟩
      · exact absurd (newPlain.notRemover stage (Option.some.inj isNew)) isDb
      · exact absurd (oldPlain.notRemover stage (Option.some.inj isOld)) isDb
    · rw [List.getElem?_set_ne same]
  creators := by
    have totals := total_set Thread.creators at_index new
    rw [oldPlain.notCreator, newPlain.notCreator] at totals
    exact totals
  refers := by
    intro name untouched thread member refers
    rcases List.mem_or_eq_of_mem_set member with kept | rfl
    · exact kept
    · exact absurd (newTouched name refers) untouched
  counted := fun name untouched _ counted =>
    counted.set_other at_index (fun refers => untouched (oldTouched name refers))
      (fun refers => untouched (newTouched name refers))

theorem append (newPlain : new.Plain)
    (newTouched : ∀ name, new.refers? = some name → name ∈ touched)
    : Moves threads (threads ++ [new]) touched where
  removers := by
    intro position stage isDb
    rw [List.getElem?_append]
    split
    next => rfl
    next past =>
      rw [List.getElem?_eq_none (by omega : threads.length ≤ position)]
      refine ⟨fun isNew => ?_, fun isOld => by cases isOld⟩
      have same : .remover stage = new := by simpa using List.mem_of_getElem? isNew
      exact absurd (newPlain.notRemover stage same.symm) isDb
  creators := by
    rw [total_append, newPlain.notCreator]
    rfl
  refers := by
    intro name untouched thread member refers
    rcases List.mem_append.mp member with kept | isNew
    · exact kept
    · obtain rfl := List.mem_singleton.mp isNew
      exact absurd (newTouched name refers) untouched
  counted := fun name untouched _ counted =>
    counted.append_other (fun refers => untouched (newTouched name refers))

end Moves

theorem Thread.plain_of_refers? {thread : Thread} {name : Nat}
    (refers : thread.refers? = some name)
    : thread.Plain where
  notRemover := by
    rintro stage rfl
    cases refers
  notCreator := by
    cases thread with
    | creator => cases refers
    | _ => rfl

theorem Thread.holds?_or_opening? {thread : Thread} {name : Nat}
    (refers : thread.refers? = some name)
    : thread.holds? = some name ∨ thread.opening? = some name := by
  unfold refers? at refers
  split at refers
  next => exact .inl refers
  next => cases refers
  next db stage notFinished =>
    cases stage with
    | spawned => exact .inr refers
    | finished ok => exact absurd rfl (notFinished ok)
    | _ => exact .inl refers
  next => exact .inl refers
  next => cases refers

theorem creator_mem_iff {threads : List Thread}
    : .creator ∈ threads ↔ 0 < total Thread.creators threads := by
  refine ⟨fun member => ?_, fun pos => ?_⟩
  · exact weight_le_total Thread.creators member
  · by_contra absent
    have zero : total Thread.creators threads = 0 := by
      refine total_eq_zero (fun thread member => ?_)
      cases thread with
      | creator => exact absurd member absent
      | _ => rfl
    omega

namespace Inv

variable {state after : State} {name index : Nat} {old new : Thread}

/-- The record is in use, and no remover waits only for what it does itself. -/
def Usable (state : State) (name : Nat) : Prop :=
  Current state name ∧ ∀ index stage, Removes state index name stage → ¬ stage.Drained

theorem usable_of_refers (inv : Inv state) (member : old ∈ state.threads)
    (refers : old.refers? = some name)
    : Usable state name :=
  ⟨inv.current name (.inr ⟨old, member, refers⟩),
    fun index stage removes drained =>
      (inv.drained index name stage removes drained).1 old member refers⟩

theorem usable_of_active (inv : Inv state) (active : state.envActive = some name)
    : Usable state name := by
  refine ⟨.inl active, fun index stage removes _ => ?_⟩
  have notActive := (inv.removes index name stage removes).2.1
  rw [active] at notActive
  cases notActive

/-- Threads that open, use and close the database keep the invariant if they keep the counts of
the records they touch.
-/
theorem moves {touched : Set Nat} (inv : Inv state)
    (moved : Moves state.threads after.threads touched)
    (envActive : after.envActive = state.envActive)
    (envDeleting : after.envDeleting = state.envDeleting)
    (live : after.live = state.live) (ephemeral : after.ephemeral = state.ephemeral)
    (dbs : ∀ name, name ∉ touched → after.dbs name = state.dbs name)
    (counted : ∀ name ∈ touched, Counted after.threads name (after.dbs name))
    (usable : ∀ name ∈ touched, Usable state name)
    : Inv after := by
  have removesBefore {index name : Nat} {stage : RemoverStage}
      (removes : Removes after index name stage) : Removes state index name stage :=
    ⟨(moved.removers index stage (by simp [removes.2])).mp removes.1, removes.2⟩
  have removesAfter {index name : Nat} {stage : RemoverStage}
      (removes : Removes state index name stage) : Removes after index name stage :=
    ⟨(moved.removers index stage (by simp [removes.2])).mpr removes.1, removes.2⟩
  have currentAfter {name : Nat} (current : Current state name) : Current after name := by
    rcases current with active | ⟨index, stage, removes⟩
    · exact .inl (envActive.trans active)
    · exact .inr ⟨index, stage, removesAfter removes⟩
  refine ⟨fun name => ?_, fun name busy => ?_, fun name active => ?_,
    fun index name stage removes => ?_, fun index name stage removes drained => ?_,
    fun member => ?_, ?_⟩
  · by_cases isTouched : name ∈ touched
    · exact counted name isTouched
    · rw [dbs name isTouched]
      exact moved.counted name isTouched _ (inv.counted name)
  · by_cases isTouched : name ∈ touched
    · exact currentAfter (usable name isTouched).1
    · refine currentAfter (inv.current name ?_)
      rcases busy with notClosed | ⟨thread, member, refers⟩
      · rw [dbs name isTouched] at notClosed
        exact .inl notClosed
      · exact .inr ⟨thread, moved.refers name isTouched thread member refers, refers⟩
  · rw [live]
    exact inv.active name (envActive.symm.trans active)
  · rw [envDeleting, envActive, live]
    exact inv.removes index name stage (removesBefore removes)
  · -- a drained remover works on a record that nobody touches
    have removesOld := removesBefore removes
    have untouched : name ∉ touched := fun isTouched =>
      (usable name isTouched).2 index stage removesOld drained
    obtain ⟨unreferred, isClosed⟩ := inv.drained index name stage removesOld drained
    refine ⟨fun thread member refers => ?_, ?_⟩
    · exact unreferred thread (moved.refers name untouched thread member refers) refers
    · rw [dbs name untouched]
      exact isClosed
  · rw [ephemeral, live, envActive, envDeleting]
    refine inv.creates (creator_mem_iff.mpr ?_)
    rw [← moved.creators]
    exact creator_mem_iff.mp member
  · rw [moved.creators]
    exact inv.oneCreator

/-- A thread that refers to a record takes a step on it. -/
theorem change {db : DB} (inv : Inv state) (at_index : state.threads[index]? = some old)
    (refers : old.refers? = some name) (newPlain : new.Plain)
    (newRefers : ∀ other, new.refers? = some other → other = name)
    (counted : Counted (state.threads.set index new) name db)
    : Inv ((state.setDB name db).setThread index new) := by
  have oldRefers (other : Nat) (otherRefers : old.refers? = some other) : other ∈ ({name} : Set Nat) :=
    Option.some.inj (otherRefers.symm.trans refers)
  have moved : Moves state.threads (state.threads.set index new) {name} :=
    .set at_index (Thread.plain_of_refers? refers) newPlain oldRefers newRefers
  refine inv.moves moved rfl rfl rfl rfl (fun other untouched => ?_) ?_ ?_
  · exact Function.update_of_ne untouched _ _
  · rintro other rfl
    simpa [State.setThread, State.setDB] using counted
  · rintro other rfl
    exact inv.usable_of_refers (List.mem_of_getElem? at_index) refers

/-- A thread takes a step on a record and still refers to it. -/
theorem changeRecord {db : DB} (inv : Inv state) (at_index : state.threads[index]? = some old)
    (oldRefers : old.refers? = some name) (newRefers : new.refers? = some name)
    (counted : Counted (state.threads.set index new) name db)
    : Inv ((state.setDB name db).setThread index new) :=
  inv.change at_index oldRefers (Thread.plain_of_refers? newRefers)
    (fun _ otherRefers => Option.some.inj (otherRefers.symm.trans newRefers)) counted

/-- A thread acquires the active database. -/
theorem enter (inv : Inv state) (active : state.envActive = some name)
    (refers : new.refers? = some name) (holds : new.holds? = some name)
    (opening : new.opening? = none) (closing : new.closing? = none)
    (handle : new.handle? = none)
    : Inv ((state.acquireDB name).addThread new) := by
  have newRefers (other : Nat) (otherRefers : new.refers? = some other) : other ∈ ({name} : Set Nat) :=
    Option.some.inj (otherRefers.symm.trans refers)
  have moved : Moves state.threads (state.threads ++ [new]) {name} :=
    .append (Thread.plain_of_refers? refers) newRefers
  refine inv.moves moved rfl rfl rfl rfl (fun other untouched => ?_) ?_ ?_
  · exact Function.update_of_ne untouched _ _
  · rintro other rfl
    simp only [State.acquireDB, State.addThread, State.setDB, Function.update_self]
    refine (inv.counted other).append ?_ ?_ ?_ ?_ <;>
      simp [weight, isState, holds, opening, closing, handle]
  · rintro other rfl
    exact inv.usable_of_active active

/-- Threads that refer to no record change. -/
theorem quiet (inv : Inv state) {threads : List Thread}
    (moved : Moves state.threads threads ∅)
    : Inv { state with threads } :=
  inv.moves moved rfl rfl rfl rfl (fun _ _ => rfl) (fun _ isTouched => isTouched.elim)
    (fun _ isTouched => isTouched.elim)

/-- A database that is not in use is taken from `envActive`. -/
theorem deactivate (inv : Inv state) (notBusy : ∀ name, state.envActive = some name → ¬ Busy state name)
    : Inv { state with envActive := none } where
  counted := inv.counted
  current := by
    intro name busy
    rcases inv.current name busy with active | removes
    · exact absurd busy (notBusy name active)
    · exact .inr removes
  active := by simp
  removes := by
    intro index name stage removes
    obtain ⟨deleting, -, listed⟩ := inv.removes index name stage removes
    exact ⟨deleting, rfl, listed⟩
  drained := inv.drained
  creates := by
    intro member
    obtain ⟨ephemeral, live, -, deleting⟩ := inv.creates member
    exact ⟨ephemeral, live, rfl, deleting⟩
  oneCreator := inv.oneCreator

-- The states that threads rely on

theorem state_of_opening? (inv : Inv state) (member : old ∈ state.threads)
    (opening : old.opening? = some name)
    : (state.dbs name).state = .opening := by
  have pos := count_pos member opening
  rw [(inv.counted name).opening, isState] at pos
  by_contra notOpening
  rw [if_neg notOpening] at pos
  cases pos

theorem state_of_closing? (inv : Inv state) (member : old ∈ state.threads)
    (closing : old.closing? = some name)
    : (state.dbs name).state = .closing := by
  have pos := count_pos member closing
  rw [(inv.counted name).closing, isState] at pos
  by_contra notClosing
  rw [if_neg notClosing] at pos
  cases pos

theorem handles_pos (inv : Inv state) (member : old ∈ state.threads)
    (handle : old.handle? = some name)
    : 0 < (state.dbs name).handles := by
  have pos := count_pos member handle
  have handles := (inv.counted name).handles
  omega

/-- A record without users that is not being opened is not in use, unless it is open. -/
theorem unreferred_of_users (inv : Inv state) (users : (state.dbs name).users = 0)
    (notOpening : (state.dbs name).state ≠ .opening)
    : ∀ thread ∈ state.threads, thread.refers? ≠ some name := by
  intro thread member refers
  rcases Thread.holds?_or_opening? refers with holds | opening
  · have pos := count_pos member holds
    have counted := (inv.counted name).users
    omega
  · exact notOpening (inv.state_of_opening? member opening)

/-- The repo is in the catalog while a thread works with its database. -/
theorem live_of_refers (inv : Inv state) (member : old ∈ state.threads)
    (refers : old.refers? = some name)
    : state.live = true := by
  obtain ⟨current, notDrained⟩ := inv.usable_of_refers member refers
  rcases current with active | ⟨index, stage, removes⟩
  · exact inv.active name active
  · have undrained := notDrained index stage removes
    refine (inv.removes index name stage removes).2.2 ?_
    obtain ⟨-, isDb⟩ := removes
    cases stage with
    | draining => trivial
    | unset | nothing => cases isDb
    | drained | closed | removing | removed | deleted => exact absurd trivial undrained

-- Opening

/-- A thread changes its stage and nothing else. -/
theorem changeStage (inv : Inv state) (at_index : state.threads[index]? = some old)
    (oldRefers : old.refers? = some name) (newRefers : new.refers? = some name)
    (holds : new.holds? = old.holds?) (opening : new.opening? = old.opening?)
    (closing : new.closing? = old.closing?) (handle : new.handle? = old.handle?)
    : Inv (state.setThread index new) := by
  have counted : Counted (state.threads.set index new) name (state.dbs name) := by
    refine (inv.counted name).set at_index ?_ ?_ ?_ ?_ <;>
      simp [weight, holds, opening, closing, handle]
  have changed := inv.changeRecord at_index oldRefers newRefers counted
  rw [State.setDB, Function.update_eq_self] at changed
  exact changed

theorem openDatabase {canOpen : Bool} (inv : Inv state)
    (next : step state (.openDatabase index canOpen) = some after)
    : Inv after := by
  simp only [step] at next
  split at next
  next name at_index =>
    split at next
    next =>
      obtain rfl := Option.some.inj next
      exact inv.changeStage at_index rfl rfl rfl rfl rfl rfl
    next isClosed =>
      split at next
      next =>
        obtain rfl := Option.some.inj next
        refine inv.changeRecord at_index rfl rfl ((inv.counted name).set at_index ?_ ?_ ?_ ?_) <;>
          simp [weight, isState, isClosed, Thread.holds?, Thread.opening?, Thread.closing?,
              Thread.handle?]
      next =>
        obtain rfl := Option.some.inj next
        exact inv.changeStage at_index rfl rfl rfl rfl rfl rfl
    next => cases next
    next => cases next
  next => cases next

theorem spawn {ok : Bool} (inv : Inv state) (next : step state (.spawn index ok) = some after)
    : Inv after := by
  simp only [step] at next
  split at next
  next name at_index =>
    have member := List.mem_of_getElem? at_index
    have isLive := inv.live_of_refers member rfl
    have isOpening := inv.state_of_opening? member rfl
    rw [if_neg (not_not.mpr isLive)] at next
    split at next
    next =>
      obtain rfl := Option.some.inj next
      have touched (other : Nat) (refers : some name = some other) : other ∈ ({name} : Set Nat) :=
        (Option.some.inj refers).symm
      have waits : Moves state.threads
          (state.threads.set index (.requester name (.waiting state.threads.length))) {name} :=
        .set at_index (Thread.plain_of_refers? rfl) (Thread.plain_of_refers? rfl) touched touched
      have spawns : Moves state.threads
          (state.threads.set index (.requester name (.waiting state.threads.length))
            ++ [.opener name .spawned]) {name} :=
        waits.trans (.append (Thread.plain_of_refers? rfl) touched)
      refine inv.moves spawns rfl rfl rfl rfl (fun _ _ => rfl) ?_ ?_
      · rintro other rfl
        -- between the two threads nobody is about to end `Opening`
        have between : Counted
            (state.threads.set index (.requester other (.waiting state.threads.length))) other
            { state.dbs other with state := .closed } := by
          refine (inv.counted other).set at_index ?_ ?_ ?_ ?_ <;>
            simp [weight, isState, isOpening, Thread.holds?, Thread.opening?, Thread.closing?,
              Thread.handle?]
        refine between.append ?_ ?_ ?_ ?_ <;>
          simp [weight, isState, isOpening, Thread.holds?, Thread.opening?, Thread.closing?,
            Thread.handle?, State.addThread, State.setThread]
      · rintro other rfl
        exact inv.usable_of_refers member rfl
    next =>
      obtain rfl := Option.some.inj next
      refine inv.changeRecord at_index rfl rfl ((inv.counted name).set at_index ?_ ?_ ?_ ?_) <;>
        simp [weight, isState, isOpening, Thread.holds?, Thread.opening?, Thread.closing?,
            Thread.handle?]
  next => cases next

theorem wake (inv : Inv state) (next : step state (.wake index) = some after)
    : Inv after := by
  simp only [step] at next
  split at next
  next name opener at_index =>
    split at next
    next =>
      obtain rfl := Option.some.inj next
      exact inv.changeStage at_index rfl rfl rfl rfl rfl rfl
    next =>
      obtain rfl := Option.some.inj next
      exact inv.changeStage at_index rfl rfl rfl rfl rfl rfl
    next => cases next
  next => cases next

theorem leave (inv : Inv state) (next : step state (.leave index) = some after)
    : Inv after := by
  simp only [step] at next
  split at next
  next name at_index =>
    obtain rfl := Option.some.inj next
    exact inv.changeStage at_index rfl rfl rfl rfl rfl rfl
  next name opener at_index =>
    obtain rfl := Option.some.inj next
    exact inv.changeStage at_index rfl rfl rfl rfl rfl rfl
  next name at_index =>
    obtain rfl := Option.some.inj next
    exact inv.changeStage at_index rfl rfl rfl rfl rfl rfl
  next name at_index =>
    obtain rfl := Option.some.inj next
    exact inv.changeStage at_index rfl rfl rfl rfl rfl rfl
  next => cases next

theorem openerAcquire (inv : Inv state) (next : step state (.openerAcquire index) = some after)
    : Inv after := by
  simp only [step] at next
  split at next
  next name at_index =>
    obtain rfl := Option.some.inj next
    refine inv.changeRecord at_index rfl rfl ((inv.counted name).set at_index ?_ ?_ ?_ ?_) <;>
      simp [weight, isState, Thread.holds?, Thread.opening?, Thread.closing?, Thread.handle?]
  next => cases next

theorem storageOpen {ok : Bool} (inv : Inv state)
    (next : step state (.storageOpen index ok) = some after)
    : Inv after := by
  simp only [step] at next
  split at next
  next name at_index =>
    split at next
    next =>
      obtain rfl := Option.some.inj next
      refine inv.changeRecord at_index rfl rfl ((inv.counted name).set at_index ?_ ?_ ?_ ?_) <;>
        simp [weight, isState, Thread.holds?, Thread.opening?, Thread.closing?, Thread.handle?]
    next =>
      obtain rfl := Option.some.inj next
      exact inv.changeStage at_index rfl rfl rfl rfl rfl rfl
  next => cases next

/-- A thread closes the handle it has for itself. -/
theorem closes (inv : Inv state) (at_index : state.threads[index]? = some old)
    (oldRefers : old.refers? = some name) (newRefers : new.refers? = some name)
    (holds : new.holds? = old.holds?) (opening : new.opening? = old.opening?)
    (closing : new.closing? = old.closing?) (oldHandle : old.handle? = some name)
    (newHandle : new.handle? = none)
    : Inv ((state.setDB name
          { state.dbs name with handles := (state.dbs name).handles - 1 }).setThread
        index new) := by
  have pos := inv.handles_pos (List.mem_of_getElem? at_index) oldHandle
  refine inv.changeRecord at_index oldRefers newRefers
    ((inv.counted name).set at_index ?_ ?_ ?_ ?_)
  · simp [weight, holds]
  · simp [weight, opening, isState]
  · simp [weight, closing, isState]
  · simp only [weight, oldHandle, newHandle, isState, if_true, reduceCtorEq, if_false]
    omega

theorem openerFails (inv : Inv state) (next : step state (.openerFails index) = some after)
    : Inv after := by
  simp only [step] at next
  split at next
  next name at_index =>
    obtain rfl := Option.some.inj next
    exact inv.closes at_index rfl rfl rfl rfl rfl rfl rfl
  next => cases next

theorem openerSucceeds (inv : Inv state)
    (next : step state (.openerSucceeds index) = some after)
    : Inv after := by
  simp only [step] at next
  split at next
  next name at_index =>
    obtain rfl := Option.some.inj next
    have isOpening := inv.state_of_opening? (List.mem_of_getElem? at_index) rfl
    refine inv.changeRecord at_index rfl rfl ((inv.counted name).set at_index ?_ ?_ ?_ ?_) <;>
      simp [weight, isState, isOpening, Thread.holds?, Thread.opening?, Thread.closing?,
          Thread.handle?]
  next => cases next

theorem openerClosed (inv : Inv state) (next : step state (.openerClosed index) = some after)
    : Inv after := by
  simp only [step] at next
  split at next
  next name at_index =>
    obtain rfl := Option.some.inj next
    have isOpening := inv.state_of_opening? (List.mem_of_getElem? at_index) rfl
    refine inv.changeRecord at_index rfl rfl ((inv.counted name).set at_index ?_ ?_ ?_ ?_) <;>
      simp [weight, isState, isOpening, Thread.holds?, Thread.opening?, Thread.closing?,
          Thread.handle?]
  next => cases next

-- Acquiring and releasing

theorem dbs_eq_new (inv : Inv state) (notBusy : ¬ Busy state name)
    : state.dbs name = .new := by
  have isClosed := closed_of_not_busy notBusy
  have users := (inv.counted name).users
  rw [count_eq_zero (fun thread member holds =>
    unreferred_of_not_busy notBusy thread member (Thread.refers?_of_holds? holds))] at users
  have handles := inv.handles_of_closed isClosed
  cases isDb : state.dbs name
  simp_all [DB.new]

/-- A new record is like one that is not in use. -/
theorem addDB (inv : Inv state) (notBusy : ¬ Busy state state.nextDB) : Inv state.addDB := by
  have same : state.addDB = { state with nextDB := state.nextDB + 1 } := by
    rw [State.addDB, State.setDB, ← inv.dbs_eq_new notBusy, Function.update_eq_self]
  rw [same]
  exact { inv with }

/-- A record becomes the active one. -/
theorem activate (inv : Inv state) (isLive : state.live = true)
    (notActive : state.envActive = none) (notDeleting : state.envDeleting = none) (name : Nat)
    : Inv { state with envActive := some name } where
  counted := inv.counted
  current := fun other busy => absurd busy (inv.not_busy notActive notDeleting other)
  active := fun _ _ => isLive
  removes := by
    intro index other stage removes
    have deleting := (inv.removes index other stage removes).1
    rw [notDeleting] at deleting
    cases deleting
  drained := inv.drained
  creates := by
    intro member
    have notLive := (inv.creates member).2.1
    rw [isLive] at notLive
    cases notLive
  oneCreator := inv.oneCreator

theorem request (inv : Inv state) (next : step state .request = some after)
    : Inv after := by
  simp only [step] at next
  split at next
  next name active =>
    obtain rfl := Option.some.inj next
    exact inv.enter active rfl rfl rfl rfl rfl
  next notActive =>
    split at next
    next allowed =>
      obtain ⟨isLive, notDeleting⟩ := allowed
      obtain rfl := Option.some.inj next
      have made := inv.addDB (inv.not_busy notActive notDeleting _)
      exact (made.activate isLive notActive notDeleting _).enter rfl rfl rfl rfl rfl rfl
    next => cases next

theorem useActive (inv : Inv state) (next : step state .useActive = some after)
    : Inv after := by
  simp only [step] at next
  split at next
  next name active =>
    obtain rfl := Option.some.inj next
    exact inv.enter active rfl rfl rfl rfl rfl
  next => cases next

/-- A thread that is about to call `releaseDB`. -/
theorem leaving?_fields (isLeaving : old.leaving? = some name)
    : old.refers? = some name ∧ old.holds? = some name ∧ old.opening? = none
        ∧ old.closing? = none ∧ old.handle? = none ∧ old.released.refers? = none
        ∧ old.released.Plain := by
  unfold Thread.leaving? at isLeaving
  split at isLeaving <;> cases isLeaving
  all_goals
    exact ⟨rfl, rfl, rfl, rfl, rfl, rfl, ⟨fun _ same => (nomatch same), rfl⟩⟩

/-- The release of a record, without what it does to `envActive`. -/
theorem released (inv : Inv state) (at_index : state.threads[index]? = some old)
    (isLeaving : old.leaving? = some name)
    : Inv ((state.setDB name { state.dbs name with users := (state.dbs name).users - 1 }).setThread
        index old.released) := by
  obtain ⟨refers, holds, opening, closing, handle, newRefers, newPlain⟩ :=
    leaving?_fields isLeaving
  have unreferred : old.released.refers? ≠ some name := by simp [newRefers]
  obtain ⟨newHolds, newOpening, newClosing, newHandle⟩ := weight_eq_zero unreferred
  refine inv.change at_index refers newPlain (by simp [newRefers])
    ((inv.counted name).set at_index ?_ ?_ ?_ ?_)
  · rw [newHolds, weight, if_pos holds]
    simp
  · rw [newOpening, weight, opening]
    rfl
  · rw [newClosing, weight, closing]
    rfl
  · rw [newHandle, weight, handle]
    rfl

theorem release (inv : Inv state) (next : step state (.release index) = some after)
    : Inv after := by
  simp only [step] at next
  split at next
  next thread at_index =>
    split at next
    next name isLeaving =>
      obtain rfl := Option.some.inj next
      have released := inv.released at_index isLeaving
      rw [State.releaseDB]
      split
      next last =>
        obtain ⟨users, isClosed, -⟩ := last
        refine released.deactivate (fun other active => ?_)
        have member := List.mem_of_getElem? at_index
        have current := (inv.usable_of_refers member (leaving?_fields isLeaving).1).1
        obtain rfl := inv.current_unique (.inl active) current
        rintro (notClosed | ⟨remaining, isThread, refers⟩)
        · simp [State.setThread, State.setDB, isClosed] at notClosed
        · refine released.unreferred_of_users ?_ ?_ remaining isThread refers
          · simp [State.setThread, State.setDB, users]
          · simp [State.setThread, State.setDB, isClosed]
      next => exact released
    next => cases next
  next => cases next

-- Closing

theorem closeStart (inv : Inv state) (next : step state (.closeStart index) = some after)
    : Inv after := by
  simp only [step] at next
  split at next
  next name at_index =>
    split at next
    next idle =>
      obtain ⟨isOpen, -⟩ := idle
      obtain rfl := Option.some.inj next
      refine inv.changeRecord at_index rfl rfl ((inv.counted name).set at_index ?_ ?_ ?_ ?_) <;>
        simp [weight, isState, isOpen, Thread.holds?, Thread.opening?, Thread.closing?,
          Thread.handle?]
    next => cases next
  next => cases next

theorem closeHandle (inv : Inv state) (next : step state (.closeHandle index) = some after)
    : Inv after := by
  simp only [step] at next
  split at next
  next name at_index =>
    obtain rfl := Option.some.inj next
    exact inv.closes at_index rfl rfl rfl rfl rfl rfl rfl
  next => cases next

theorem closeEnd (inv : Inv state) (next : step state (.closeEnd index) = some after)
    : Inv after := by
  simp only [step] at next
  split at next
  next name at_index =>
    obtain rfl := Option.some.inj next
    have isClosing := inv.state_of_closing? (List.mem_of_getElem? at_index) rfl
    refine inv.changeRecord at_index rfl rfl ((inv.counted name).set at_index ?_ ?_ ?_ ?_) <;>
      simp [weight, isState, isClosing, Thread.holds?, Thread.opening?, Thread.closing?,
        Thread.handle?]
  next => cases next

-- Creating

/-- No database record is in use. -/
theorem of_idle (counted : ∀ name, Counted state.threads name (state.dbs name))
    (notBusy : ∀ name, ¬ Busy state name)
    (notRemoves : ∀ index name stage, ¬ Removes state index name stage)
    (notActive : state.envActive = none)
    (creates : .creator ∈ state.threads → state.ephemeral = true ∧ state.live = false
      ∧ state.envDeleting = none)
    (oneCreator : total Thread.creators state.threads ≤ 1)
    : Inv state where
  counted := counted
  current := fun name busy => absurd busy (notBusy name)
  active := by simp [notActive]
  removes := fun index name stage removes => absurd removes (notRemoves index name stage)
  drained := fun index name stage removes => absurd removes (notRemoves index name stage)
  creates := by
    intro member
    obtain ⟨ephemeral, notLive, notDeleting⟩ := creates member
    exact ⟨ephemeral, notLive, notActive, notDeleting⟩
  oneCreator := oneCreator

theorem not_removes (inv : Inv state) (notDeleting : state.envDeleting = none)
    (stage : RemoverStage)
    : ¬ Removes state index name stage := by
  intro removes
  have deleting := (inv.removes index name stage removes).1
  rw [notDeleting] at deleting
  cases deleting

theorem create (inv : Inv state) (sound : Sound state .create)
    (next : step state .create = some after)
    : Inv after := by
  simp only [step] at next
  split at next
  next => cases next
  next absent =>
    obtain ⟨notLive, notEphemeral⟩ := not_or.mp absent
    obtain rfl := Option.some.inj next
    have notActive : state.envActive = none := by
      rw [Option.eq_none_iff_forall_ne_some]
      exact fun name active => notLive (inv.active name active)
    have noCreator : total Thread.creators state.threads = 0 := by
      by_contra creators
      have member := creator_mem_iff.mpr (Nat.pos_of_ne_zero creators)
      exact notEphemeral (inv.creates member).1
    refine of_idle (fun name => ?_) (fun name => ?_) (fun index name stage removes => ?_) notActive
      (fun _ => ⟨rfl, Bool.eq_false_iff.mpr notLive, sound⟩) ?_
    · exact (inv.counted name).append_other (by simp [Thread.refers?])
    · rintro (notClosed | ⟨thread, member, refers⟩)
      · exact inv.not_busy notActive sound name (.inl notClosed)
      · rcases List.mem_append.mp member with kept | isNew
        · exact inv.not_busy notActive sound name (.inr ⟨thread, kept, refers⟩)
        · obtain rfl := List.mem_singleton.mp isNew
          cases refers
    · obtain ⟨at_index, isDb⟩ := removes
      rcases List.mem_append.mp (List.mem_of_getElem? at_index) with kept | isNew
      · obtain ⟨position, at_position⟩ := List.mem_iff_getElem?.mp kept
        exact inv.not_removes sound stage ⟨at_position, isDb⟩
      · cases List.mem_singleton.mp isNew
    · change total Thread.creators (state.threads ++ [.creator]) ≤ 1
      rw [total_append, noCreator]
      decide

/-- The creator has left the catalog with an entry, or without one. -/
theorem endCreator (inv : Inv state) (at_index : state.threads[index]? = some .creator)
    (isLive : Bool) (completeness : Completeness)
    : Inv ({ state with ephemeral := false, live := isLive, completeness }.setThread
        index .over) := by
  obtain ⟨-, -, notActive, notDeleting⟩ := inv.creates (List.mem_of_getElem? at_index)
  have noCreator : total Thread.creators (state.threads.set index .over) = 0 := by
    have totals := total_set Thread.creators at_index .over
    have one := inv.oneCreator
    simp only [Thread.creators] at totals
    omega
  refine of_idle (fun name => ?_) (fun name => ?_) (fun position name stage removes => ?_) notActive
    (fun member => ?_) ?_
  · exact (inv.counted name).set_other at_index (by simp [Thread.refers?]) (by simp [Thread.refers?])
  · rintro (notClosed | ⟨thread, member, refers⟩)
    · exact inv.not_busy notActive notDeleting name (.inl notClosed)
    · rcases List.mem_or_eq_of_mem_set member with kept | rfl
      · exact inv.not_busy notActive notDeleting name (.inr ⟨thread, kept, refers⟩)
      · cases refers
  · obtain ⟨at_position, isDb⟩ := removes
    rcases List.mem_or_eq_of_mem_set (List.mem_of_getElem? at_position) with kept | isNew
    · obtain ⟨before, at_before⟩ := List.mem_iff_getElem?.mp kept
      exact inv.not_removes notDeleting stage ⟨at_before, isDb⟩
    · cases isNew
  · exact absurd noCreator (Nat.ne_of_gt (creator_mem_iff.mp member))
  · exact Nat.le_succ_of_le (Nat.le_of_eq noCreator)

theorem created {ok : Bool} (inv : Inv state)
    (next : step state (.created index ok) = some after)
    : Inv after := by
  simp only [step] at next
  split at next
  next at_index =>
    obtain ⟨-, -, notActive, notDeleting⟩ := inv.creates (List.mem_of_getElem? at_index)
    split at next
    next =>
      obtain rfl := Option.some.inj next
      have ended := inv.endCreator at_index true .incomplete
      have made := ended.addDB (ended.not_busy notActive notDeleting _)
      have active := made.activate rfl notActive notDeleting state.nextDB
      have atOver : (state.threads.set index .over)[index]? = some .over :=
        List.getElem?_set_self (List.getElem?_eq_some_iff.mp at_index).1
      have touched (other : Nat) (refers : some state.nextDB = some other)
          : other ∈ ({state.nextDB} : Set Nat) :=
        (Option.some.inj refers).symm
      have starts : Moves (state.threads.set index .over)
          ((state.threads.set index .over).set index (.requester state.nextDB .starting))
          {state.nextDB} :=
        .set atOver ⟨fun _ same => (by cases same), rfl⟩ (Thread.plain_of_refers? rfl)
          (fun _ refers => by cases refers) touched
      have counted : Counted
          ((state.threads.set index .over).set index (.requester state.nextDB .starting))
          state.nextDB ⟨.opening, 1, 0⟩ := by
        refine (Counted.of_unreferred ?_).set atOver ?_ ?_ ?_ ?_
        · exact unreferred_of_not_busy (ended.not_busy notActive notDeleting state.nextDB)
        all_goals
          simp [weight, isState, DB.new, Thread.holds?, Thread.opening?, Thread.closing?,
            Thread.handle?]
      rw [List.set_set] at starts counted
      refine active.moves starts rfl rfl rfl rfl (fun other untouched => ?_) ?_ ?_
      · simp [State.setThread, State.acquireDB, State.setState, State.setDB, State.addDB,
          Function.update_of_ne untouched]
      · rintro other rfl
        simpa [State.setThread, State.acquireDB, State.setState, State.setDB, State.addDB,
          DB.new] using counted
      · rintro other rfl
        exact active.usable_of_active rfl
    next =>
      obtain rfl := Option.some.inj next
      exact inv.endCreator at_index _ _
  next => cases next

-- Deleting

theorem plain_unset : Thread.Plain (.remover .unset) := by
  refine ⟨?_, rfl⟩
  rintro stage ⟨⟩
  rfl

theorem plain_nothing : Thread.Plain (.remover .nothing) := by
  refine ⟨?_, rfl⟩
  rintro stage ⟨⟩
  rfl

theorem spawnRemover (inv : Inv state) (next : step state .spawnRemover = some after)
    : Inv after := by
  obtain rfl := Option.some.inj next
  have remover : Moves state.threads (state.threads ++ [.remover .unset]) ∅ :=
    .append plain_unset (fun _ refers => (nomatch refers))
  exact inv.quiet (remover.trans
    (.append ⟨fun _ same => (nomatch same), rfl⟩ (fun _ refers => (nomatch refers))))

/-- A thread that has nothing to do with any record becomes another such thread. -/
theorem setQuiet (inv : Inv state) (at_index : state.threads[index]? = some old)
    (oldPlain : old.Plain) (newPlain : new.Plain) (oldRefers : old.refers? = none)
    (newRefers : new.refers? = none)
    : Inv (state.setThread index new) :=
  inv.quiet (.set at_index oldPlain newPlain (by simp [oldRefers]) (by simp [newRefers]))

theorem endDeleter {remover : Nat} (inv : Inv state)
    (at_index : state.threads[index]? = some (.deleter remover))
    : Inv (state.setThread index .over) :=
  inv.setQuiet at_index ⟨fun _ same => (nomatch same), rfl⟩ ⟨fun _ same => (nomatch same), rfl⟩
    rfl rfl

/-- The remover is told which record to delete. -/
theorem startRemover (inv : Inv state)
    (at_index : state.threads[index]? = some (.remover .unset)) (isLive : state.live = true)
    (notRemoves : ∀ index name stage, ¬ Removes state index name stage)
    (only : ∀ other, Busy state other → other = name)
    : Inv ({ state with envActive := none, envDeleting := some index }.setThread index
        (.remover (.draining name))) := by
  have isRemover {position other : Nat} {stage : RemoverStage}
      (removes : Removes (state.setThread index (.remover (.draining name))) position other stage)
      : position = index ∧ stage = .draining name := by
    obtain ⟨at_position, isDb⟩ := removes
    by_cases same : index = position
    · subst same
      rw [State.setThread, List.getElem?_set_self (List.getElem?_eq_some_iff.mp at_index).1]
        at at_position
      exact ⟨rfl, (Thread.remover.inj (Option.some.inj at_position)).symm⟩
    · rw [State.setThread, List.getElem?_set_ne same] at at_position
      exact absurd ⟨at_position, isDb⟩ (notRemoves position other stage)
  refine ⟨fun other => ?_, fun other busy => ?_, by simp [State.setThread],
    fun position other stage removes => ?_, fun position other stage removes drained => ?_,
    fun member => ?_, ?_⟩
  · exact (inv.counted other).set_other at_index (by simp [Thread.refers?])
      (by simp [Thread.refers?])
  · have isName : other = name := by
      refine only other ?_
      rcases busy with notClosed | ⟨thread, member, refers⟩
      · exact .inl notClosed
      · rcases List.mem_or_eq_of_mem_set member with kept | rfl
        · exact .inr ⟨thread, kept, refers⟩
        · cases refers
    subst isName
    refine .inr ⟨index, .draining other, ?_, rfl⟩
    exact List.getElem?_set_self (List.getElem?_eq_some_iff.mp at_index).1
  · obtain ⟨rfl, -⟩ := isRemover removes
    exact ⟨rfl, rfl, fun _ => isLive⟩
  · obtain ⟨-, rfl⟩ := isRemover removes
    cases drained
  · rcases List.mem_or_eq_of_mem_set member with kept | isNew
    · have notLive := (inv.creates kept).2.1
      rw [isLive] at notLive
      cases notLive
    · cases isNew
  · have totals := total_set Thread.creators at_index (.remover (.draining name))
    have one := inv.oneCreator
    simp only [Thread.creators] at totals
    change total Thread.creators (state.threads.set index _) ≤ 1
    omega

theorem schedule (inv : Inv state) (next : step state (.schedule index) = some after)
    : Inv after := by
  simp only [step] at next
  split at next
  next remover at_index =>
    split at next
    next at_remover =>
      have ended := inv.endDeleter at_index
      have apart : index ≠ remover := by
        rintro rfl
        rw [at_index] at at_remover
        cases at_remover
      have still : (state.setThread index .over).threads[remover]? = some (.remover .unset) := by
        rw [State.setThread, List.getElem?_set_ne apart, at_remover]
      split at next
      next name active =>
        obtain rfl := Option.some.inj next
        refine ended.startRemover still (inv.active name active) ?_ (fun other busy => ?_)
        · intro position other stage removes
          have notActive := (ended.removes position other stage removes).2.1
          rw [State.setThread, active] at notActive
          cases notActive
        · exact ended.current_unique (ended.current other busy) (.inl active)
      next notActive =>
        split at next
        next allowed =>
          obtain ⟨notDeleting, isLive⟩ := allowed
          obtain rfl := Option.some.inj next
          have made := ended.addDB (ended.not_busy notActive notDeleting _)
          have only (other : Nat) (busy : Busy (state.setThread index .over).addDB other)
              : other = state.nextDB :=
            absurd busy (made.not_busy notActive notDeleting other)
          have started := made.startRemover still isLive
            (fun _ _ stage => made.not_removes notDeleting stage) only
          rw [← notActive] at started
          exact started
        next =>
          obtain rfl := Option.some.inj next
          exact ended.setQuiet still plain_unset plain_nothing rfl rfl
    next => cases next
  next => cases next

theorem deleterCancelled (inv : Inv state)
    (next : step state (.deleterCancelled index) = some after)
    : Inv after := by
  simp only [step] at next
  split at next
  next remover at_index =>
    split at next
    next at_remover =>
      obtain rfl := Option.some.inj next
      have apart : index ≠ remover := by
        rintro rfl
        rw [at_index] at at_remover
        cases at_remover
      have still : (state.setThread index .over).threads[remover]? = some (.remover .unset) := by
        rw [State.setThread, List.getElem?_set_ne apart, at_remover]
      exact (inv.endDeleter at_index).setQuiet still plain_unset plain_nothing rfl rfl
    next => cases next
  next => cases next

/-- There is only one remover at work. -/
theorem remover_unique {stage : RemoverStage} (inv : Inv state)
    (removes : Removes state index name stage)
    {position other : Nat} {otherStage : RemoverStage}
    (otherRemoves : Removes state position other otherStage)
    : position = index :=
  Option.some.inj ((inv.removes position other otherStage otherRemoves).1.symm.trans
    (inv.removes index name stage removes).1)

/-- The remover goes on to its next stage. -/
theorem advance {stage later : RemoverStage} (inv : Inv state)
    (removes : Removes state index name stage) (laterDb : later.db? = some name)
    (listed : later.Listed → stage.Listed)
    (drained : later.Drained → ∀ thread ∈ state.threads, thread.refers? ≠ some name)
    (deletes : later.Deletes → (state.dbs name).state = .closed)
    : Inv (state.setThread index (.remover later)) := by
  obtain ⟨at_index, isDb⟩ := removes
  have inBounds := (List.getElem?_eq_some_iff.mp at_index).1
  have isLater {position other : Nat} {otherStage : RemoverStage}
      (otherRemoves : Removes (state.setThread index (.remover later)) position other otherStage)
      : position = index ∧ otherStage = later ∧ other = name := by
    obtain ⟨at_position, otherDb⟩ := otherRemoves
    by_cases same : index = position
    · subst same
      rw [State.setThread, List.getElem?_set_self inBounds] at at_position
      obtain rfl := Thread.remover.inj (Option.some.inj at_position)
      exact ⟨rfl, rfl, Option.some.inj (otherDb.symm.trans laterDb)⟩
    · rw [State.setThread, List.getElem?_set_ne same] at at_position
      exact absurd (inv.remover_unique ⟨at_index, isDb⟩ ⟨at_position, otherDb⟩).symm same
  have before {thread : Thread} (member : thread ∈ state.threads.set index (.remover later))
      {other : Nat} (refers : thread.refers? = some other) : thread ∈ state.threads := by
    rcases List.mem_or_eq_of_mem_set member with kept | rfl
    · exact kept
    · cases refers
  refine ⟨fun other => ?_, fun other busy => ?_, inv.active,
    fun position other otherStage otherRemoves => ?_,
    fun position other otherStage otherRemoves isDrained => ?_, fun member => ?_, ?_⟩
  · exact (inv.counted other).set_other at_index (by simp [Thread.refers?])
      (by simp [Thread.refers?])
  · have busyBefore : Busy state other := by
      rcases busy with notClosed | ⟨thread, member, refers⟩
      · exact .inl notClosed
      · exact .inr ⟨thread, before member refers, refers⟩
    obtain rfl := inv.current_unique (inv.current other busyBefore)
      (.inr ⟨index, stage, at_index, isDb⟩)
    exact .inr ⟨index, later, List.getElem?_set_self inBounds, laterDb⟩
  · obtain ⟨rfl, rfl, rfl⟩ := isLater otherRemoves
    obtain ⟨deleting, notActive, isLive⟩ := inv.removes _ _ _ ⟨at_index, isDb⟩
    exact ⟨deleting, notActive, fun isListed => isLive (listed isListed)⟩
  · obtain ⟨rfl, rfl, rfl⟩ := isLater otherRemoves
    refine ⟨fun thread member refers => ?_, deletes⟩
    exact drained isDrained thread (before member refers) refers
  · rcases List.mem_or_eq_of_mem_set member with kept | isNew
    · exact inv.creates kept
    · cases isNew
  · have totals := total_set Thread.creators at_index (.remover later)
    have one := inv.oneCreator
    simp only [Thread.creators] at totals
    change total Thread.creators (state.threads.set index _) ≤ 1
    omega

/-- The remover changes the catalog when the repo is not listed any more. -/
theorem setCatalog {stage : RemoverStage} (inv : Inv state)
    (removes : Removes state index name stage) (notListed : ¬ stage.Listed)
    (isLive isEphemeral : Bool)
    : Inv { state with live := isLive, ephemeral := isEphemeral } := by
  obtain ⟨deleting, notActive, -⟩ := inv.removes index name stage removes
  refine { inv with
    active := by simp [notActive]
    removes := fun position other otherStage otherRemoves => ?_
    creates := fun member => ?_ }
  · obtain ⟨isDeleting, -, -⟩ := inv.removes position other otherStage otherRemoves
    refine ⟨isDeleting, notActive, fun isListed => ?_⟩
    obtain rfl := inv.remover_unique removes otherRemoves
    have same := removes.1.symm.trans otherRemoves.1
    obtain rfl := Thread.remover.inj (Option.some.inj same)
    exact absurd isListed notListed
  · have notDeleting := (inv.creates member).2.2.2
    rw [deleting] at notDeleting
    cases notDeleting

theorem removerDrained (inv : Inv state) (sound : Sound state (.removerDrained index))
    (next : step state (.removerDrained index) = some after)
    : Inv after := by
  simp only [step] at next
  split at next
  next name at_index =>
    split at next
    next users =>
      obtain rfl := Option.some.inj next
      have notOpening := sound name at_index users
      exact inv.advance ⟨at_index, rfl⟩ rfl (fun _ => trivial)
        (fun _ => inv.unreferred_of_users users notOpening) (fun deletes => deletes.elim)
    next => cases next
  next => cases next

/-- The remover closes the handle of a record that nobody refers to. -/
theorem closeRecord (inv : Inv state) {stage : RemoverStage}
    (removes : Removes state index name stage) (isOpen : (state.dbs name).state = .open)
    : Inv (state.setDB name
        ⟨.closed, (state.dbs name).users, (state.dbs name).handles - 1⟩) := by
  refine { inv with
    counted := fun other => ?_
    current := fun other busy => ?_
    drained := fun position other otherStage otherRemoves isDrained => ?_ }
  · by_cases same : other = name
    · subst same
      obtain ⟨users, opening, closing, handles⟩ := inv.counted other
      rw [isState, isOpen] at opening closing handles
      simp only [State.setDB, Function.update_self]
      refine ⟨users, opening, closing, ?_⟩
      simp only [isState, if_true, reduceCtorEq, if_false] at handles ⊢
      omega
    · simp only [State.setDB, Function.update_of_ne same]
      exact inv.counted other
  · by_cases same : other = name
    · subst same
      exact .inr ⟨index, stage, removes⟩
    · refine inv.current other ?_
      simpa [Busy, State.setDB, Function.update_of_ne same] using busy
  · obtain ⟨unreferred, isClosed⟩ := inv.drained position other otherStage otherRemoves isDrained
    refine ⟨unreferred, fun deletes => ?_⟩
    by_cases same : other = name
    · subst same
      simp [State.setDB]
    · simpa [State.setDB, Function.update_of_ne same] using isClosed deletes

theorem removerCloses (inv : Inv state) (next : step state (.removerCloses index) = some after)
    : Inv after := by
  simp only [step] at next
  split at next
  next name at_index =>
    have removes : Removes state index name (.drained name) := ⟨at_index, rfl⟩
    have unreferred := (inv.drained _ _ _ removes trivial).1
    split at next
    next isOpen =>
      obtain rfl := Option.some.inj next
      exact (inv.closeRecord removes isOpen).advance removes rfl (fun _ => trivial)
        (fun _ => unreferred) (fun _ => by simp [State.setDB])
    next notOpen =>
      obtain rfl := Option.some.inj next
      refine inv.advance removes rfl (fun _ => trivial) (fun _ => unreferred) (fun _ => ?_)
      obtain ⟨-, opening, closing, -⟩ := inv.counted name
      rw [count_eq_zero (fun thread member isOpening =>
        unreferred thread member (Thread.refers?_of_opening? isOpening))] at opening
      rw [count_eq_zero (fun thread member isClosing =>
        unreferred thread member (Thread.refers?_of_closing? isClosing))] at closing
      cases isState_ : (state.dbs name).state with
      | «open» => exact absurd isState_ notOpen
      | opening => simp [isState, isState_] at opening
      | closing => simp [isState, isState_] at closing
      | closed => rfl
  next => cases next

theorem catalogDelete (inv : Inv state) (next : step state (.catalogDelete index) = some after)
    : Inv after := by
  simp only [step] at next
  split at next
  next name at_index =>
    have removes : Removes state index name (.closed name) := ⟨at_index, rfl⟩
    have isLive := (inv.removes _ _ _ removes).2.2 trivial
    obtain ⟨unreferred, isClosed⟩ := inv.drained _ _ _ removes trivial
    rw [if_pos isLive] at next
    obtain rfl := Option.some.inj next
    have advanced : Inv (state.setThread index (.remover (.removing name))) :=
      inv.advance removes rfl (fun _ => trivial) (fun _ => unreferred) (fun _ => isClosed trivial)
    have at_later : (state.setThread index (.remover (.removing name))).threads[index]?
        = some (.remover (.removing name)) :=
      List.getElem?_set_self (List.getElem?_eq_some_iff.mp at_index).1
    exact advanced.setCatalog ⟨at_later, rfl⟩ (fun isListed => isListed) false true
  next => cases next

theorem catalogDeleted (inv : Inv state)
    (next : step state (.catalogDeleted index) = some after)
    : Inv after := by
  simp only [step] at next
  split at next
  next name at_index =>
    have removes : Removes state index name (.removing name) := ⟨at_index, rfl⟩
    obtain ⟨unreferred, isClosed⟩ := inv.drained _ _ _ removes trivial
    obtain rfl := Option.some.inj next
    have changed := inv.setCatalog removes (fun isListed => isListed) state.live false
    exact changed.advance removes rfl (fun isListed => isListed.elim) (fun _ => unreferred)
      (fun _ => isClosed trivial)
  next => cases next

theorem storageDelete (inv : Inv state) (next : step state (.storageDelete index) = some after)
    : Inv after := by
  simp only [step] at next
  split at next
  next name at_index =>
    have removes : Removes state index name (.removed name) := ⟨at_index, rfl⟩
    obtain ⟨unreferred, isClosed⟩ := inv.drained _ _ _ removes trivial
    obtain rfl := Option.some.inj next
    exact inv.advance removes rfl (fun isListed => isListed.elim) (fun _ => unreferred)
      (fun _ => isClosed trivial)
  next => cases next

/-- The mark of a deletion is removed when no remover is at work. -/
theorem clearDeleting (inv : Inv state)
    (notRemoves : ∀ index name stage, ¬ Removes state index name stage)
    : Inv { state with envDeleting := none } :=
  { inv with
    removes := fun index name stage removes => absurd removes (notRemoves index name stage)
    creates := fun member => by
      obtain ⟨ephemeral, notLive, notActive, -⟩ := inv.creates member
      exact ⟨ephemeral, notLive, notActive, rfl⟩ }

/-- The remover that deleted the database is done: no record is in use. -/
theorem endRemover (inv : Inv state)
    (at_index : state.threads[index]? = some (.remover (.deleted name)))
    : Inv ({ state with envDeleting := none }.setThread index .over) := by
  have removes : Removes state index name (.deleted name) := ⟨at_index, rfl⟩
  obtain ⟨deleting, notActive, -⟩ := inv.removes _ _ _ removes
  have exclusive := inv.exclusive (List.mem_of_getElem? at_index) trivial
  refine of_idle (fun other => ?_) (fun other => ?_)
    (fun position other stage otherRemoves => ?_) notActive (fun member => ?_) ?_
  · exact (inv.counted other).set_other at_index (by simp [Thread.refers?])
      (by simp [Thread.refers?])
  · rintro (notClosed | ⟨thread, member, refers⟩)
    · exact notClosed (exclusive.closed other)
    · rcases List.mem_or_eq_of_mem_set member with kept | rfl
      · rw [(exclusive.unused thread kept).1] at refers
        cases refers
      · cases refers
  · obtain ⟨at_position, otherDb⟩ := otherRemoves
    by_cases same : index = position
    · subst same
      rw [State.setThread, List.getElem?_set_self (List.getElem?_eq_some_iff.mp at_index).1]
        at at_position
      cases at_position
    · rw [State.setThread, List.getElem?_set_ne same] at at_position
      exact same (inv.remover_unique removes ⟨at_position, otherDb⟩).symm
  · rcases List.mem_or_eq_of_mem_set member with kept | isNew
    · exact absurd rfl (exclusive.unused _ kept).2
    · cases isNew
  · have totals := total_set Thread.creators at_index .over
    have one := inv.oneCreator
    simp only [Thread.creators] at totals
    change total Thread.creators (state.threads.set index _) ≤ 1
    omega

theorem removerEnds (inv : Inv state) (sound : Sound state (.removerEnds index))
    (next : step state (.removerEnds index) = some after)
    : Inv after := by
  simp only [step] at next
  split at next
  next at_index =>
    obtain rfl := Option.some.inj next
    have ended : Inv (state.setThread index .over) :=
      inv.setQuiet at_index plain_nothing ⟨fun _ same => (by cases same), rfl⟩ rfl rfl
    refine ended.clearDeleting (fun position name stage removes => ?_)
    have deleting := (ended.removes position name stage removes).1
    rcases sound with notDeleting | own
    · cases notDeleting.symm.trans deleting
    · obtain rfl := Option.some.inj (own.symm.trans deleting)
      have at_over := removes.1
      rw [State.setThread, List.getElem?_set_self (List.getElem?_eq_some_iff.mp at_index).1]
        at at_over
      cases at_over
  next name at_index =>
    obtain rfl := Option.some.inj next
    exact inv.endRemover at_index
  next => cases next

/-- Every step keeps the invariant, if it is sound. -/
theorem step {event : Event} (inv : Inv state) (sound : Sound state event)
    (next : Lifecycle.step state event = some after)
    : Inv after := by
  cases event with
  | request => exact inv.request next
  | openDatabase => exact inv.openDatabase next
  | spawn => exact inv.spawn next
  | wake => exact inv.wake next
  | leave => exact inv.leave next
  | release => exact inv.release next
  | openerAcquire => exact inv.openerAcquire next
  | storageOpen => exact inv.storageOpen next
  | openerFails => exact inv.openerFails next
  | openerSucceeds => exact inv.openerSucceeds next
  | openerClosed => exact inv.openerClosed next
  | useActive => exact inv.useActive next
  | closeStart => exact inv.closeStart next
  | closeHandle => exact inv.closeHandle next
  | closeEnd => exact inv.closeEnd next
  | create => exact inv.create sound next
  | created => exact inv.created next
  | spawnRemover => exact inv.spawnRemover next
  | schedule => exact inv.schedule next
  | deleterCancelled => exact inv.deleterCancelled next
  | removerDrained => exact inv.removerDrained sound next
  | removerCloses => exact inv.removerCloses next
  | catalogDelete => exact inv.catalogDelete next
  | catalogDeleted => exact inv.catalogDeleted next
  | storageDelete => exact inv.storageDelete next
  | removerEnds => exact inv.removerEnds sound next
  | setCompleteness =>
      obtain rfl := Option.some.inj next
      exact { inv with }

end Inv

-- Whole runs

/-- In every run with sound steps, at most one handle is open, the users are the threads that
have acquired the database, and while it is being deleted nobody uses it or can open it.
-/
theorem deletion_safe {state : State} (run : Machine.Run step Sound Starts state)
    : Safe state := by
  have inv : Inv state :=
    run.invariant (fun _ => Starts.inv) (fun _ _ _ inv sound next => inv.step sound next)
  exact inv.safe

/-- A server with one complete database. -/
def completeDatabase : State where
  envActive := none
  envDeleting := none
  live := true
  ephemeral := false
  completeness := .complete
  dbs := fun _ => .new
  nextDB := 0
  threads := []

theorem starts_completeDatabase : Starts completeDatabase where
  envActive := rfl
  envDeleting := rfl
  ephemeral := rfl
  dbs := fun _ => rfl
  threads := rfl

/-- The database is opened, used and deleted. -/
def openAndDelete : List Event :=
  [.request, .openDatabase 0 true, .spawn 0 true, .openerAcquire 1, .storageOpen 1 true,
    .openerSucceeds 1, .release 1, .wake 0, .spawnRemover, .schedule 3, .leave 0, .release 0,
    .removerDrained 2, .removerCloses 2, .catalogDelete 2, .catalogDeleted 2]

theorem deletion_safe_openAndDelete
    : ∃ state, Machine.Run step Sound Starts state
        ∧ state.threads[2]? = some (.remover (.removed 0)) ∧ Safe state := by
  have sound : Machine.SoundEvents step Sound completeDatabase openAndDelete := by
    refine ⟨trivial, trivial, trivial, trivial, trivial, trivial, trivial, trivial, trivial,
      trivial, trivial, trivial, ?_, trivial, trivial, trivial, trivial⟩
    rintro name at_index -
    obtain rfl : 0 = name := by
      have same := Option.some.inj at_index
      cases same
      rfl
    intro isOpening
    cases isOpening
  obtain ⟨state, executed, removed⟩ : ∃ state,
      Machine.runEvents step completeDatabase openAndDelete = some state
        ∧ state.threads[2]? = some (.remover (.removed 0)) :=
    ⟨_, rfl, rfl⟩
  have run := (Machine.Run.start starts_completeDatabase).of_runEvents sound executed
  exact ⟨state, run, removed, deletion_safe run⟩

/-- The requester is cancelled before the thread it spawned has acquired the database; the
remover finds no users, and the database is opened while it is being deleted.
-/
def cancelledRequest : List Event :=
  [.request, .openDatabase 0 true, .spawn 0 true, .leave 0, .release 0, .spawnRemover,
    .schedule 3, .removerDrained 2, .removerCloses 2, .catalogDelete 2, .openerAcquire 1,
    .storageOpen 1 true]

/-- The repo is created anew between `Catalog.delete` and `Storage.delete`. -/
def createdAnew : List Event :=
  [.spawnRemover, .schedule 1, .removerDrained 0, .removerCloses 0, .catalogDelete 0,
    .catalogDeleted 0, .create, .created 2 true, .spawn 2 true, .openerAcquire 3,
    .storageOpen 3 true]

/-- A second deletion is refused and takes the mark of the first one from `envDeleting`. -/
def deletedTwice : List Event :=
  [.spawnRemover, .schedule 1, .spawnRemover, .schedule 3, .removerEnds 2, .removerDrained 0,
    .removerCloses 0, .request, .openDatabase 4 true, .spawn 4 true, .openerAcquire 5,
    .storageOpen 5 true]

/-- A remover deletes a database that has an open handle. -/
theorem not_safe {state : State} {stage : RemoverStage} (index name : Nat)
    (at_index : state.threads[index]? = some (.remover stage)) (deletes : stage.Deletes)
    (isOpen : 0 < (state.dbs name).handles)
    : ¬ Safe state := by
  intro safe
  have exclusive := safe.exclusive stage (List.mem_of_getElem? at_index) deletes
  rw [exclusive.handles name] at isOpen
  cases isOpen

/-- A database is opened while it is being deleted, in three ways. -/
theorem deletion_unsafe
    : [cancelledRequest, createdAnew, deletedTwice].Forall fun events =>
        ∃ state, Machine.runEvents step completeDatabase events = some state
          ∧ Machine.Run step (fun _ _ => True) Starts state ∧ ¬ Safe state := by
  have start : Machine.Run step (fun _ _ => True) Starts completeDatabase :=
    .start starts_completeDatabase
  have ofEvents {events : List Event} {state : State}
      (executed : Machine.runEvents step completeDatabase events = some state)
      (isUnsafe : ¬ Safe state)
      : ∃ state, Machine.runEvents step completeDatabase events = some state
          ∧ Machine.Run step (fun _ _ => True) Starts state ∧ ¬ Safe state :=
    ⟨state, executed, start.of_runEvents (Machine.soundEvents_true _ _ _) executed, isUnsafe⟩
  refine ⟨?_, ?_, ?_⟩
  · refine ofEvents rfl (not_safe 2 0 rfl trivial ?_)
    exact Nat.one_pos
  · refine ofEvents rfl (not_safe 0 1 rfl trivial ?_)
    exact Nat.one_pos
  · refine ofEvents rfl (not_safe 0 1 rfl trivial ?_)
    exact Nat.one_pos

end Glean.Database.Lifecycle
