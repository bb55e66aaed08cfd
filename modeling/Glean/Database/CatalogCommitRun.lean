import Glean.Database.CatalogCommit

/-! What is written back, after every interleaving of writers, the committer, deletions and `close`. -/

namespace Glean.Database.CatalogCommit

variable {Repo Info : Type} {state after : State Repo Info} {repo : Repo} {name : Nat}
  {entry : Entry Repo Info}

-- Calls of the store

/-- A database was deleted from the store, and not created again. -/
def Deleted (repo : Repo) (calls : List (StoreCall Repo Info)) : Prop :=
  ∃ before between, calls = before ++ .delete repo :: between
    ∧ ∀ info, .create repo info ∉ between

/-- No metadata is put for a database that was deleted. -/
def PutsAllowed (calls : List (StoreCall Repo Info)) : Prop :=
  ∀ before call rest, calls = before ++ call :: rest →
    ∀ repo info, call = .put repo info ∨ call = .putEnds repo info → ¬ Deleted repo before

theorem Deleted.of_append {calls : List (StoreCall Repo Info)} {call : StoreCall Repo Info}
    (isDeleted : Deleted repo (calls ++ [call]))
    : call = .delete repo ∨ Deleted repo calls := by
  obtain ⟨before, between, isSplit, noCreate⟩ := isDeleted
  rcases List.eq_nil_or_concat between with rfl | ⟨start, last, rfl⟩
  · have same := (List.append_inj' isSplit rfl).2
    exact .inl (List.cons.inj same).1
  · right
    rw [List.concat_eq_append, ← List.cons_append, ← List.append_assoc] at isSplit
    obtain ⟨sameCalls, _⟩ := List.append_inj' isSplit rfl
    refine ⟨before, start, sameCalls, fun info member => noCreate info ?_⟩
    rw [List.concat_eq_append]
    exact List.mem_append_left _ member

theorem not_deleted_create {calls : List (StoreCall Repo Info)} (info : Info)
    : ¬ Deleted repo (calls ++ [.create repo info]) := by
  rintro ⟨before, between, isSplit, noCreate⟩
  rcases List.eq_nil_or_concat between with rfl | ⟨start, last, rfl⟩
  · have same := (List.append_inj' isSplit rfl).2
    cases (List.cons.inj same).1
  · rw [List.concat_eq_append, ← List.cons_append, ← List.append_assoc] at isSplit
    obtain ⟨_, sameLast⟩ := List.append_inj' isSplit rfl
    refine noCreate info ?_
    rw [List.concat_eq_append, (List.cons.inj sameLast).1]
    exact List.mem_append_right _ List.mem_cons_self

theorem PutsAllowed.append {calls : List (StoreCall Repo Info)} {call : StoreCall Repo Info}
    (allowed : PutsAllowed calls)
    (isAllowed : ∀ repo info, call = .put repo info ∨ call = .putEnds repo info → ¬ Deleted repo calls)
    : PutsAllowed (calls ++ [call]) := by
  intro before other rest isSplit
  rcases List.eq_nil_or_concat rest with rfl | ⟨start, last, rfl⟩
  · obtain ⟨sameCalls, sameCall⟩ := List.append_inj' isSplit rfl
    obtain rfl := (List.cons.inj sameCall).1
    subst sameCalls
    exact isAllowed
  · rw [List.concat_eq_append, ← List.cons_append, ← List.append_assoc] at isSplit
    obtain ⟨sameCalls, _⟩ := List.append_inj' isSplit rfl
    exact allowed before other start sameCalls

-- Entries

/-- What the store has for an entry once the committer has written what it has read. -/
def Committer.result (committer : Committer Info) (name : Nat) (stored : Option Info) : Option Info :=
  match committer with
  | .cleared held info => if held = name then some info else stored
  | .putting held info => if held = name then some info else stored
  | _ => stored

theorem Committer.result_of_held_ne {committer : Committer Info}
    (notHeld : committer.held ≠ some name) (stored : Option Info)
    : committer.result name stored = stored := by
  cases committer with
  | cleared held info => exact if_neg (fun same => notHeld (congrArg some same))
  | putting held info => exact if_neg (fun same => notHeld (congrArg some same))
  | _ => rfl

/-- What holds for every entry; one that is not live any more is forgotten. -/
structure EntryOk (state : State Repo Info) (name : Nat) (entry : Entry Repo Info) : Prop where
  fresh : name < state.nextEntry
  dirty
    : state.live entry.repo = some name →
        (entry.dirty = true ↔ name ∈ state.queue ∨ state.committer = .taken name)
  committing
    : state.live entry.repo = some name →
        (entry.committing = true ↔ state.committer.held = some name)
  present : state.live entry.repo = some name → (state.store entry.repo).isSome
  saved
    : state.live entry.repo = some name → entry.dirty = false →
        state.committer = .failed name
          ∨ state.committer.result name (state.store entry.repo) = some entry.info
  gone
    : state.live entry.repo ≠ some name → name ∉ state.queue ∧ state.committer.held ≠ some name

/-- A step that is about one entry only. -/
structure Only (name : Nat) (state after : State Repo Info) : Prop where
  entries : ∀ other, other ≠ name → after.entries other = state.entries other
  nextEntry : after.nextEntry = state.nextEntry
  live : after.live = state.live
  queue : ∀ other, other ≠ name → (other ∈ after.queue ↔ other ∈ state.queue)
  committer
    : after.committer = state.committer
        ∨ ∀ other, other ≠ name → state.committer.held ≠ some other ∧ after.committer.held ≠ some other
  store : ∀ repo, state.live repo ≠ some name → after.store repo = state.store repo

/-- Other entries do not notice. -/
theorem Only.entryOk (only : Only name state after) {other : Nat} (different : other ≠ name)
    (isOk : EntryOk state other entry)
    : EntryOk after other entry := by
  have notName : state.live entry.repo = some other → state.live entry.repo ≠ some name := by
    intro isLive isName
    exact different (Option.some.inj (isLive.symm.trans isName))
  have sameHeld : after.committer.held = some other ↔ state.committer.held = some other := by
    rcases only.committer with same | apart
    · rw [same]
    · exact iff_of_false (apart other different).2 (apart other different).1
  have sameTaken : after.committer = .taken other ↔ state.committer = .taken other := by
    rcases only.committer with same | apart
    · rw [same]
    · refine iff_of_false (fun taken => (apart other different).2 ?_)
        (fun taken => (apart other different).1 ?_)
      all_goals
        rw [taken]
        rfl
  have sameSaved : ∀ stored info, state.committer = .failed other
        ∨ state.committer.result other stored = some info →
      after.committer = .failed other ∨ after.committer.result other stored = some info := by
    intro stored info wasSaved
    rcases only.committer with same | apart
    · rwa [same]
    · obtain ⟨notBefore, notAfter⟩ := apart other different
      right
      rw [Committer.result_of_held_ne notAfter]
      rcases wasSaved with isFailed | isResult
      · exact absurd (congrArg Committer.held isFailed) notBefore
      · rwa [Committer.result_of_held_ne notBefore] at isResult
  refine ⟨?_, fun isLive => ?_, fun isLive => ?_, fun isLive => ?_, fun isLive notDirty => ?_,
    fun notLive => ?_⟩
  · rw [only.nextEntry]
    exact isOk.fresh
  · rw [only.queue other different, sameTaken]
    exact isOk.dirty (only.live ▸ isLive)
  · rw [sameHeld]
    exact isOk.committing (only.live ▸ isLive)
  · rw [only.live] at isLive
    rw [only.store _ (notName isLive)]
    exact isOk.present isLive
  · rw [only.live] at isLive
    rw [only.store _ (notName isLive)]
    exact sameSaved _ _ (isOk.saved isLive notDirty)
  · rw [only.live] at notLive
    rw [only.queue other different, Ne, sameHeld]
    exact isOk.gone notLive

variable [DecidableEq Repo]

/-- A database that is live, or about to be. -/
def State.Claimed (state : State Repo Info) (repo : Repo) : Prop :=
  (state.live repo).isSome ∨ ∃ info, state.ephemeral repo = some (.created info)

structure Inv (state : State Repo Info) : Prop where
  entryOk : ∀ name entry, state.entries name = some entry → EntryOk state name entry
  liveEntry
    : ∀ repo name, state.live repo = some name →
        ∃ entry, state.entries name = some entry ∧ entry.repo = repo
  queueEntry : ∀ name ∈ state.queue, (state.entries name).isSome
  heldEntry : ∀ name, state.committer.held = some name → (state.entries name).isSome
  once : state.queue.Nodup
  taken : ∀ name, state.committer = .taken name → name ∉ state.queue
  ephemeral : ∀ repo, (state.live repo).isSome → state.ephemeral repo = none
  created
    : ∀ repo info, state.ephemeral repo = some (.created info) → state.store repo = some info
  stopped : state.committer = .stopped → state.closed = true ∧ state.queue = []
  quiet : state.closed = true → state.ephemerals = []
  notDeleted : ∀ repo, state.Claimed repo → ¬ Deleted repo state.calls
  puts : PutsAllowed state.calls

/-- The invariant after a step about one entry, given what the step does to it. -/
theorem Inv.only {new : Entry Repo Info} (inv : Inv state) (only : Only name state after)
    (isEntry : state.entries name = some entry) (isNew : after.entries name = some new)
    (sameRepo : new.repo = entry.repo) (isOk : EntryOk after name new) (once : after.queue.Nodup)
    (taken : ∀ other, after.committer = .taken other → other ∉ after.queue)
    (sameEphemerals : after.ephemerals = state.ephemerals) (sameClosed : after.closed = state.closed)
    (notStopped : after.committer = .stopped → state.committer = .stopped ∧ after.queue = [])
    (created : ∀ repo info, state.ephemeral repo = some (.created info) →
      after.store repo = state.store repo)
    (notDeleted : ∀ repo, state.Claimed repo → ¬ Deleted repo after.calls)
    (puts : PutsAllowed after.calls)
    : Inv after := by
  have sameEphemeral : ∀ repo, after.ephemeral repo = state.ephemeral repo := by
    intro repo
    rw [State.ephemeral, sameEphemerals]
    rfl
  refine ⟨fun other otherEntry isOther => ?_, fun repo other isLive => ?_, fun other member => ?_,
    fun other isHeld => ?_, once, taken, fun repo isLive => ?_, fun repo info isCreated => ?_, fun isStopped => ?_,
    fun isClosed => ?_, fun repo claimed => ?_, puts⟩
  · by_cases same : other = name
    · subst same
      obtain rfl := Option.some.inj (isNew.symm.trans isOther)
      exact isOk
    · rw [only.entries other same] at isOther
      exact only.entryOk same (inv.entryOk other otherEntry isOther)
  · rw [only.live] at isLive
    obtain ⟨old, isOld, isRepo⟩ := inv.liveEntry repo other isLive
    by_cases same : other = name
    · subst same
      obtain rfl := Option.some.inj (isEntry.symm.trans isOld)
      exact ⟨new, isNew, sameRepo.trans isRepo⟩
    · exact ⟨old, by rw [only.entries other same, isOld], isRepo⟩
  · by_cases same : other = name
    · rw [same, isNew]
      rfl
    · rw [only.entries other same]
      exact inv.queueEntry other ((only.queue other same).mp member)
  · by_cases same : other = name
    · rw [same, isNew]
      rfl
    · rw [only.entries other same]
      rcases only.committer with sameCommitter | apart
      · exact inv.heldEntry other (sameCommitter ▸ isHeld)
      · exact absurd isHeld (apart other same).2
  · rw [sameEphemeral]
    exact inv.ephemeral repo (only.live ▸ isLive)
  · rw [sameEphemeral] at isCreated
    rw [created repo info isCreated]
    exact inv.created repo info isCreated
  · obtain ⟨wasStopped, isEmpty⟩ := notStopped isStopped
    rw [sameClosed]
    exact ⟨(inv.stopped wasStopped).1, isEmpty⟩
  · rw [sameEphemerals]
    exact inv.quiet (sameClosed ▸ isClosed)
  · refine notDeleted repo ?_
    rw [State.Claimed, only.live, sameEphemeral] at claimed
    exact claimed

-- Writers and the committer

/-- The entry that is being committed is live. -/
theorem Inv.live_of_held (inv : Inv state) (isHeld : state.committer.held = some name)
    (isEntry : state.entries name = some entry)
    : state.live entry.repo = some name := by
  by_contra notLive
  exact ((inv.entryOk name entry isEntry).gone notLive).2 isHeld

/-- `getEntry` finds the live entry of an open catalog. -/
theorem Inv.getEntry (inv : Inv state) (found : state.getEntry repo = some (name, entry))
    : state.closed = false ∧ state.live repo = some name ∧ state.entries name = some entry
      ∧ entry.repo = repo := by
  rw [State.getEntry] at found
  split at found
  next => cases found
  next isOpen =>
    split at found
    next other isLive =>
      obtain ⟨old, isOld, isRepo⟩ := inv.liveEntry repo other isLive
      rw [isOld] at found
      cases found
      exact ⟨by simpa using isOpen, isLive, isOld, isRepo⟩
    next => cases found

/-- An entry gets new metadata, or the old ones, and is marked as dirty. -/
theorem Inv.dirtyEntry (inv : Inv state) (isEntry : state.entries name = some entry)
    (isLive : state.live entry.repo = some name) (running : state.committer ≠ .stopped) (info : Info)
    : Inv (state.dirtyEntry name { entry with info }) := by
  have isOk := inv.entryOk name entry isEntry
  by_cases isDirty : entry.dirty = true
  · have isAfter : state.dirtyEntry name { entry with info }
        = state.setEntry name { entry with info, dirty := true } := if_pos isDirty
    rw [isAfter]
    refine inv.only ⟨fun _ different => Function.update_of_ne different _ _, rfl, rfl,
      fun _ _ => .rfl, .inl rfl, fun _ _ => rfl⟩ isEntry (Function.update_self _ _ _) rfl ?_ inv.once
      inv.taken rfl rfl (fun isStopped => ⟨isStopped, (inv.stopped isStopped).2⟩) (fun _ _ _ => rfl)
      inv.notDeleted inv.puts
    exact ⟨isOk.fresh, fun isLive => iff_of_true rfl ((isOk.dirty isLive).mp isDirty), isOk.committing,
      isOk.present, fun _ notDirty => absurd notDirty (by simp), isOk.gone⟩
  · have isAfter : state.dirtyEntry name { entry with info }
        = { state.setEntry name { entry with info, dirty := true } with
            queue := state.queue ++ [name] } := if_neg isDirty
    have notQueued := fun queued => isDirty ((isOk.dirty isLive).mpr queued)
    rw [isAfter]
    refine inv.only ⟨fun _ different => Function.update_of_ne different _ _, rfl, rfl,
      fun other different => ?_, .inl rfl, fun _ _ => rfl⟩ isEntry (Function.update_self _ _ _) rfl ?_ ?_
      (fun other isTaken => ?_) rfl rfl (fun isStopped => ?_) (fun _ _ _ => rfl) inv.notDeleted inv.puts
    · simp [different]
    · exact ⟨isOk.fresh, fun _ => iff_of_true rfl (.inl (by simp)), isOk.committing, isOk.present,
        fun _ notDirty => absurd notDirty (by simp), fun notLive => absurd isLive notLive⟩
    · refine List.nodup_append.mpr ⟨inv.once, by simp, fun other member last isLast => ?_⟩
      rintro rfl
      rw [List.mem_singleton.mp isLast] at member
      exact notQueued (.inl member)
    · intro member
      rcases List.mem_append.mp member with old | isLast
      · exact inv.taken other isTaken old
      · rw [List.mem_singleton.mp isLast] at isTaken
        exact notQueued (.inr isTaken)
    · exact absurd isStopped running

theorem Inv.writeMeta {info : Info} (inv : Inv state)
    (next : step state (.writeMeta repo info) = some after)
    : Inv after := by
  simp only [step] at next
  split at next
  next name entry found =>
    cases next
    obtain ⟨isOpen, isLive, isEntry, rfl⟩ := inv.getEntry found
    refine inv.dirtyEntry isEntry isLive (fun isStopped => ?_) info
    rw [(inv.stopped isStopped).1] at isOpen
    cases isOpen
  next =>
    cases next
    exact inv

/-- The committer takes the first entry of the queue. -/
theorem Inv.take (inv : Inv state) (next : step state .take = some after) : Inv after := by
  simp only [step] at next
  split at next
  next name rest isWaiting isQueue =>
    obtain ⟨entry, isEntry, rfl⟩ := Option.map_eq_some_iff.mp next
    have isOk := inv.entryOk name entry isEntry
    have once := isQueue ▸ inv.once
    have isQueued : name ∈ state.queue := by
      rw [isQueue]
      exact List.mem_cons_self
    have isLive : state.live entry.repo = some name := by
      by_contra notLive
      exact (isOk.gone notLive).1 isQueued
    refine inv.only ⟨fun _ different => Function.update_of_ne different _ _, rfl, rfl,
      fun other different => ?_, .inr (fun other different => ⟨?_, ?_⟩), fun _ _ => rfl⟩ isEntry
      (Function.update_self _ _ _) rfl ?_ once.tail (fun other isTaken => ?_) rfl rfl
      (fun isStopped => by cases isStopped) (fun _ _ _ => rfl) inv.notDeleted inv.puts
    · rw [isQueue]
      simp [different]
    · rw [isWaiting]
      simp [Committer.held]
    · simpa [Committer.held] using Ne.symm different
    · refine ⟨isOk.fresh, fun _ => ?_, fun _ => iff_of_true rfl rfl, isOk.present,
        fun _ notDirty => ?_, fun notLive => absurd isLive notLive⟩
      · exact iff_of_true ((isOk.dirty isLive).mpr (.inl isQueued)) (.inr rfl)
      · exact absurd ((isOk.dirty isLive).mpr (.inl isQueued)) (by simpa using notDirty)
    · cases isTaken
      exact (List.nodup_cons.mp once).1
  next => cases next

/-- The flag is cleared and the metadata are read in one transaction. -/
theorem Inv.clear (inv : Inv state) (next : step state .clear = some after) : Inv after := by
  simp only [step] at next
  split at next
  next name isTaken =>
    obtain ⟨entry, isEntry, rfl⟩ := Option.map_eq_some_iff.mp next
    have isOk := inv.entryOk name entry isEntry
    have isHeld : state.committer.held = some name := congrArg Committer.held isTaken
    have isLive := inv.live_of_held isHeld isEntry
    refine inv.only ⟨fun _ different => Function.update_of_ne different _ _, rfl, rfl,
      fun other different => .rfl, .inr (fun other different => ⟨?_, ?_⟩), fun _ _ => rfl⟩ isEntry
      (Function.update_self _ _ _) rfl ?_ inv.once (fun other isTaken => by cases isTaken) rfl rfl
      (fun isStopped => by cases isStopped) (fun _ _ _ => rfl) inv.notDeleted inv.puts
    · rw [isHeld]
      simpa using Ne.symm different
    · simpa [Committer.held] using Ne.symm different
    · refine ⟨isOk.fresh, fun _ => iff_of_false (by simp) ?_,
        fun _ => iff_of_true ((isOk.committing isLive).mpr isHeld) rfl, isOk.present,
        fun _ _ => .inr (if_pos rfl), fun notLive => absurd isLive notLive⟩
      rintro (queued | isTaken)
      · exact inv.taken name isTaken queued
      · cases isTaken
  next => cases next

/-- The committer goes on with the entry that it holds. -/
theorem Inv.advance (inv : Inv state) (isHeld : state.committer.held = some name)
    (isEntry : state.entries name = some entry) {committer : Committer Info}
    (stillHeld : committer.held = some name) (notTaken : state.committer ≠ .taken name)
    (notNext : committer ≠ .taken name)
    (saved : entry.dirty = false →
      committer = .failed name ∨ committer.result name (state.store entry.repo) = some entry.info)
    : Inv { state with committer } := by
  have isOk := inv.entryOk name entry isEntry
  have isLive := inv.live_of_held isHeld isEntry
  refine inv.only ⟨fun _ _ => rfl, rfl, rfl, fun _ _ => .rfl, .inr (fun other different => ⟨?_, ?_⟩),
    fun _ _ => rfl⟩ isEntry isEntry rfl ?_ inv.once (fun other isTaken => ?_) rfl rfl
    (fun isStopped => ?_) (fun _ _ _ => rfl) inv.notDeleted inv.puts
  · rw [isHeld]
    simpa using Ne.symm different
  · rw [stillHeld]
    simpa using Ne.symm different
  · refine ⟨isOk.fresh, fun _ => ?_, fun _ => ?_, isOk.present, fun _ => saved,
      fun notLive => absurd isLive notLive⟩
    · rw [isOk.dirty isLive]
      exact or_congr_right (iff_of_false notTaken notNext)
    · exact iff_of_true ((isOk.committing isLive).mpr isHeld) stillHeld
  · change committer = .taken other at isTaken
    rw [isTaken] at stillHeld
    obtain rfl := Option.some.inj stillHeld
    exact absurd isTaken notNext
  · change committer = .stopped at isStopped
    rw [isStopped] at stillHeld
    cases stillHeld

/-- A call of the store is recorded. -/
theorem Inv.called (inv : Inv state) {call : StoreCall Repo Info}
    (notDelete : ∀ repo, state.Claimed repo → call ≠ .delete repo)
    (isAllowed : ∀ repo info, call = .put repo info ∨ call = .putEnds repo info →
      ¬ Deleted repo state.calls)
    : Inv (state.called call) := by
  refine ⟨fun name entry isEntry => ?_, inv.liveEntry, inv.queueEntry, inv.heldEntry, inv.once, inv.taken,
    inv.ephemeral, inv.created, inv.stopped, inv.quiet, fun repo claimed isDeleted => ?_,
    inv.puts.append isAllowed⟩
  · obtain ⟨fresh, dirty, committing, present, saved, gone⟩ := inv.entryOk name entry isEntry
    exact ⟨fresh, dirty, committing, present, saved, gone⟩
  · rcases isDeleted.of_append with isDelete | wasDeleted
    · exact notDelete repo claimed isDelete
    · exact inv.notDeleted repo claimed wasDeleted

/-- Calls of `Store.put` are about the entry that is being committed. -/
theorem Inv.called_put (inv : Inv state) (isHeld : state.committer.held = some name)
    (isEntry : state.entries name = some entry) (info : Info) {call : StoreCall Repo Info}
    (isPut : call = .put entry.repo info ∨ call = .putEnds entry.repo info)
    : Inv (state.called call) := by
  have isLive := inv.live_of_held isHeld isEntry
  refine inv.called (fun repo _ isDelete => ?_) (fun repo other isOther => ?_)
  · rcases isPut with rfl | rfl <;> cases isDelete
  · have sameRepo : repo = entry.repo := by
      rcases isPut with rfl | rfl <;> rcases isOther with same | same <;> cases same <;> rfl
    rw [sameRepo]
    exact inv.notDeleted entry.repo (.inl (by rw [isLive]; rfl))

theorem Inv.putStarts (inv : Inv state) (next : step state .putStarts = some after) : Inv after := by
  simp only [step] at next
  split at next
  next name info isCleared =>
    obtain ⟨entry, isEntry, rfl⟩ := Option.map_eq_some_iff.mp next
    have isHeld : state.committer.held = some name := congrArg Committer.held isCleared
    have isLive := inv.live_of_held isHeld isEntry
    have invCalled := inv.called_put isHeld isEntry info (.inl rfl)
    refine invCalled.advance isHeld isEntry rfl ?_ (by simp) (fun notDirty => .inr ?_)
    · change state.committer ≠ .taken name
      rw [isCleared]
      simp
    · have saved := (inv.entryOk name entry isEntry).saved isLive notDirty
      rw [isCleared] at saved
      exact saved.resolve_left (by simp)
  next => cases next

/-- Writing the metadata that the committer has read. -/
theorem Inv.put {info : Info} (inv : Inv state) (isPutting : state.committer = .putting name info)
    (isEntry : state.entries name = some entry)
    : Inv (state.put entry.repo info) := by
  have isOk := inv.entryOk name entry isEntry
  have isHeld : state.committer.held = some name := congrArg Committer.held isPutting
  have isLive := inv.live_of_held isHeld isEntry
  rw [State.put, if_pos (isOk.present isLive)]
  refine inv.only ⟨fun _ _ => rfl, rfl, rfl, fun _ _ => .rfl, .inl rfl, fun repo notLive => ?_⟩
    isEntry isEntry rfl ?_ inv.once inv.taken rfl rfl
    (fun isStopped => ⟨isStopped, (inv.stopped isStopped).2⟩) (fun repo info isCreated => ?_)
    inv.notDeleted inv.puts
  · refine Function.update_of_ne ?_ _ _
    rintro rfl
    exact notLive isLive
  · refine ⟨isOk.fresh, isOk.dirty, isOk.committing, fun _ => ?_, fun _ notDirty => .inr ?_, isOk.gone⟩
    · simp [State.setStore]
    · have saved := isOk.saved isLive notDirty
      rw [isPutting] at saved
      change state.committer.result name _ = _
      rw [isPutting]
      simpa [Committer.result] using saved
  · refine Function.update_of_ne ?_ _ _
    rintro rfl
    rw [inv.ephemeral entry.repo (by rw [isLive]; rfl)] at isCreated
    cases isCreated

omit [DecidableEq Repo] in
/-- Metadata that were read and not written since are the latest. -/
theorem EntryOk.info_of_putting {info : Info} (isOk : EntryOk state name entry)
    (isLive : state.live entry.repo = some name) (isPutting : state.committer = .putting name info)
    (notDirty : entry.dirty = false)
    : entry.info = info := by
  have saved := isOk.saved isLive notDirty
  rw [isPutting] at saved
  simpa [Committer.result, eq_comm] using saved

theorem Inv.putEnds (inv : Inv state) (next : step state .putEnds = some after) : Inv after := by
  simp only [step] at next
  split at next
  next name info isPutting =>
    obtain ⟨entry, isEntry, rfl⟩ := Option.map_eq_some_iff.mp next
    have isHeld : state.committer.held = some name := congrArg Committer.held isPutting
    have isLive := inv.live_of_held isHeld isEntry
    have isOk := inv.entryOk name entry isEntry
    have invPut := inv.put isPutting isEntry
    rw [State.put, if_pos (isOk.present isLive)] at invPut ⊢
    have putHeld : (state.setStore entry.repo (some info)).committer.held = some name := isHeld
    have putEntry : (state.setStore entry.repo (some info)).entries name = some entry := isEntry
    have invCalled := invPut.called_put putHeld putEntry info (.inr rfl)
    refine invCalled.advance putHeld putEntry rfl ?_ (by simp) (fun notDirty => .inr ?_)
    · change state.committer ≠ .taken name
      rw [isPutting]
      simp
    · rw [isOk.info_of_putting isLive isPutting notDirty]
      simp [Committer.result, State.called, State.setStore]
  next => cases next

/-- After an exception nothing is promised until the entry is dirty again. -/
theorem Inv.putThrows {written : Bool} (inv : Inv state)
    (next : step state (.putThrows written) = some after)
    : Inv after := by
  simp only [step] at next
  split at next
  next name info isPutting =>
    obtain ⟨entry, isEntry, rfl⟩ := Option.map_eq_some_iff.mp next
    have isHeld : state.committer.held = some name := congrArg Committer.held isPutting
    have isLive := inv.live_of_held isHeld isEntry
    have notTaken : state.committer ≠ .taken name := by
      rw [isPutting]
      simp
    have finish : ∀ middle : State Repo Info, Inv middle → middle.committer = state.committer →
        middle.entries = state.entries →
        Inv { middle.called (.putEnds entry.repo info) with committer := .failed name } := by
      intro middle invMiddle sameCommitter sameEntries
      have middleHeld : middle.committer.held = some name := by rw [sameCommitter, isHeld]
      have middleEntry : middle.entries name = some entry := by rw [sameEntries, isEntry]
      exact (invMiddle.called_put middleHeld middleEntry info (.inr rfl)).advance middleHeld middleEntry
        rfl (sameCommitter.symm ▸ notTaken) (by simp) (fun _ => .inl rfl)
    cases written with
    | false => exact finish state inv rfl rfl
    | true =>
        have isPresent := (inv.entryOk name entry isEntry).present isLive
        refine finish (state.put entry.repo info) (inv.put isPutting isEntry) ?_ ?_ <;>
          rw [State.put, if_pos isPresent] <;>
          rfl
  next => cases next

theorem Inv.dirtyAgain (inv : Inv state) (next : step state .dirtyAgain = some after) : Inv after := by
  simp only [step] at next
  split at next
  next name isFailed =>
    obtain ⟨entry, isEntry, rfl⟩ := Option.map_eq_some_iff.mp next
    have isHeld : state.committer.held = some name := congrArg Committer.held isFailed
    have isLive := inv.live_of_held isHeld isEntry
    have running : state.committer ≠ .stopped := by
      rw [isFailed]
      simp
    have invDirty := inv.dirtyEntry isEntry isLive running entry.info
    have sameCommitter : (state.dirtyEntry name entry).committer = state.committer := by
      rw [State.dirtyEntry]
      split <;> rfl
    have isDirty : (state.dirtyEntry name entry).entries name = some { entry with dirty := true } := by
      rw [State.dirtyEntry]
      split <;> exact Function.update_self _ _ _
    refine invDirty.advance (sameCommitter.symm ▸ isHeld) isDirty rfl ?_ (by simp)
      (fun notDirty => absurd notDirty (by simp))
    change (state.dirtyEntry name entry).committer ≠ .taken name
    rw [sameCommitter, isFailed]
    simp
  next => cases next

theorem Inv.release (inv : Inv state) (next : step state .release = some after) : Inv after := by
  simp only [step] at next
  split at next
  next name isReleasing =>
    obtain ⟨entry, isEntry, rfl⟩ := Option.map_eq_some_iff.mp next
    have isOk := inv.entryOk name entry isEntry
    have isHeld : state.committer.held = some name := congrArg Committer.held isReleasing
    have isLive := inv.live_of_held isHeld isEntry
    refine inv.only ⟨fun _ different => Function.update_of_ne different _ _, rfl, rfl,
      fun other different => .rfl, .inr (fun other different => ⟨?_, ?_⟩), fun _ _ => rfl⟩ isEntry
      (Function.update_self _ _ _) rfl ?_ inv.once (fun other isTaken => by cases isTaken) rfl rfl
      (fun isStopped => by cases isStopped) (fun _ _ _ => rfl) inv.notDeleted inv.puts
    · rw [isHeld]
      simpa using Ne.symm different
    · simp [Committer.held]
    · refine ⟨isOk.fresh, fun _ => ?_, fun _ => iff_of_false (by simp) (by simp [Committer.held]),
        isOk.present, fun _ notDirty => .inr ?_, fun notLive => absurd isLive notLive⟩
      · have dirty := isOk.dirty isLive
        rw [isReleasing] at dirty
        simpa [State.setEntry] using dirty
      · have saved := isOk.saved isLive notDirty
        rw [isReleasing] at saved
        exact saved.resolve_left (by simp)
  next => cases next

/-- The committer stops when nothing is left to do. -/
theorem Inv.stop (inv : Inv state) (next : step state .stop = some after) : Inv after := by
  simp only [step] at next
  split at next
  next isWaiting isQueue =>
    split at next
    next isClosed =>
      cases next
      refine ⟨fun name entry isEntry => ?_, inv.liveEntry, inv.queueEntry,
        (fun _ isHeld => by cases isHeld), inv.once, (fun _ isTaken => by cases isTaken), inv.ephemeral, inv.created, fun _ => ⟨isClosed, isQueue⟩,
        inv.quiet, inv.notDeleted, inv.puts⟩
      obtain ⟨fresh, dirty, committing, present, saved, gone⟩ := inv.entryOk name entry isEntry
      rw [isWaiting] at dirty committing saved gone
      refine ⟨fresh, fun isLive => ?_, committing, present, fun isLive notDirty => .inr ?_, gone⟩
      · simpa using dirty isLive
      · exact (saved isLive notDirty).resolve_left (by simp)
    next => cases next
  next => cases next

-- Deletions and creations

theorem lookup_filter_ne {Value : Type} (pairs : List (Repo × Value)) (repo other : Repo)
    : (pairs.filter (·.1 ≠ repo)).lookup other = if other = repo then none else pairs.lookup other := by
  induction pairs with
  | nil => simp
  | cons pair rest ih =>
      obtain ⟨key, value⟩ := pair
      by_cases isRepo : key = repo
      · subst isRepo
        rw [List.filter_cons_of_neg (by simp), ih]
        split
        next => rfl
        next different => rw [List.lookup_cons, beq_false_of_ne different]
      · rw [List.filter_cons_of_pos (by simpa using isRepo), List.lookup_cons, List.lookup_cons, ih]
        by_cases isKey : other = key
        · subst isKey
          simp [isRepo]
        · rw [beq_false_of_ne isKey]

theorem ephemeral_dropEphemeral (state : State Repo Info) (repo other : Repo)
    : (state.dropEphemeral repo).ephemeral other = if other = repo then none else state.ephemeral other :=
  lookup_filter_ne _ _ _

theorem ephemeral_setEphemeral (state : State Repo Info) (repo other : Repo) (stage : Ephemeral Info)
    : (state.setEphemeral repo stage).ephemeral other
      = if other = repo then some stage else state.ephemeral other := by
  rw [State.ephemeral, State.setEphemeral, List.lookup_cons]
  by_cases same : other = repo
  · simp [same]
  · rw [beq_false_of_ne same, lookup_filter_ne, if_neg same, if_neg same]
    rfl

/-- A database that is not live goes through a stage of `create` or `delete`. -/
theorem Inv.setEphemeral (inv : Inv state) (isOpen : state.closed = false) (notLive : state.live repo = none)
    (stage : Ephemeral Info) (notCreated : ∀ info, stage ≠ .created info)
    : Inv (state.setEphemeral repo stage) := by
  refine ⟨fun name entry isEntry => ?_, inv.liveEntry, inv.queueEntry, inv.heldEntry, inv.once, inv.taken,
    fun other isLive => ?_, fun other info isCreated => ?_, inv.stopped, fun isClosed => ?_,
    fun other claimed => ?_, inv.puts⟩
  · obtain ⟨fresh, dirty, committing, present, saved, gone⟩ := inv.entryOk name entry isEntry
    exact ⟨fresh, dirty, committing, present, saved, gone⟩
  · rw [ephemeral_setEphemeral]
    split
    next same =>
      rw [same] at isLive
      change (state.live repo).isSome at isLive
      rw [notLive] at isLive
      cases isLive
    next => exact inv.ephemeral other isLive
  · rw [ephemeral_setEphemeral] at isCreated
    split at isCreated
    next => exact absurd (Option.some.inj isCreated) (notCreated info)
    next => exact inv.created other info isCreated
  · exact absurd isClosed (by simp [State.setEphemeral, isOpen])
  · refine inv.notDeleted other (claimed.imp_right (fun ⟨info, isCreated⟩ => ?_))
    rw [ephemeral_setEphemeral] at isCreated
    split at isCreated
    next => exact absurd (Option.some.inj isCreated) (notCreated info)
    next => exact ⟨info, isCreated⟩

theorem Inv.dropEphemeral (inv : Inv state) (repo : Repo) : Inv (state.dropEphemeral repo) := by
  refine ⟨fun name entry isEntry => ?_, inv.liveEntry, inv.queueEntry, inv.heldEntry, inv.once, inv.taken,
    fun other isLive => ?_, fun other info isCreated => ?_, inv.stopped, fun isClosed => ?_,
    fun other claimed => ?_, inv.puts⟩
  · obtain ⟨fresh, dirty, committing, present, saved, gone⟩ := inv.entryOk name entry isEntry
    exact ⟨fresh, dirty, committing, present, saved, gone⟩
  · rw [ephemeral_dropEphemeral, inv.ephemeral other isLive, ite_self]
  · rw [ephemeral_dropEphemeral] at isCreated
    split at isCreated
    next => cases isCreated
    next => exact inv.created other info isCreated
  · rw [State.dropEphemeral, inv.quiet isClosed]
    rfl
  · refine inv.notDeleted other (claimed.imp_right (fun ⟨info, isCreated⟩ => ?_))
    rw [ephemeral_dropEphemeral] at isCreated
    split at isCreated
    next => cases isCreated
    next => exact ⟨info, isCreated⟩

/-- The store may change where no database is live. -/
theorem Inv.setStore (inv : Inv state) (notLive : state.live repo = none)
    (notCreated : ∀ info, state.ephemeral repo ≠ some (.created info)) (info : Option Info)
    : Inv (state.setStore repo info) := by
  have others : ∀ other, (state.live other).isSome → (state.setStore repo info).store other
      = state.store other := by
    intro other isLive
    refine Function.update_of_ne ?_ _ _
    rintro rfl
    rw [notLive] at isLive
    cases isLive
  refine ⟨fun name entry isEntry => ?_, inv.liveEntry, inv.queueEntry, inv.heldEntry, inv.once, inv.taken,
    inv.ephemeral, fun other otherInfo isCreated => ?_, inv.stopped, inv.quiet, inv.notDeleted,
    inv.puts⟩
  · obtain ⟨fresh, dirty, committing, present, saved, gone⟩ := inv.entryOk name entry isEntry
    refine ⟨fresh, dirty, committing, fun isLive => ?_, fun isLive notDirty => ?_, gone⟩
    · rw [others entry.repo (Option.isSome_of_eq_some isLive)]
      exact present isLive
    · rw [others entry.repo (Option.isSome_of_eq_some isLive)]
      exact saved isLive notDirty
  · have different : other ≠ repo := by
      rintro rfl
      exact notCreated otherInfo isCreated
    exact (Function.update_of_ne different _ _).trans (inv.created other otherInfo isCreated)

/-- A database leaves the catalog together with its entry in the queue. -/
theorem Inv.remove (inv : Inv state)
    (isEntry : state.entries name = some entry) (isLive : state.live entry.repo = some name)
    (notCommitting : entry.committing = false) {queue : List Nat} (sublist : queue.Sublist state.queue)
    (isQueue : ∀ other otherEntry, state.entries other = some otherEntry →
      (other ∈ queue ↔ other ∈ state.queue ∧ otherEntry.repo ≠ entry.repo))
    : Inv { state with queue, live := Function.update state.live entry.repo none } := by
  have others : ∀ repo other, Function.update state.live entry.repo none repo = some other →
      repo ≠ entry.repo ∧ state.live repo = some other := by
    intro repo other otherLive
    by_cases same : repo = entry.repo
    · rw [same, Function.update_self] at otherLive
      cases otherLive
    · rw [Function.update_of_ne same] at otherLive
      exact ⟨same, otherLive⟩
  refine ⟨fun other otherEntry isOther => ?_, fun repo other otherLive => ?_, fun other member => ?_,
    inv.heldEntry, inv.once.sublist sublist, fun other isTaken member => ?_, fun repo isSome => ?_, inv.created,
    fun isStopped => ?_, fun isClosed => ?_, fun repo claimed => ?_, inv.puts⟩
  · obtain ⟨fresh, dirty, committing, present, saved, gone⟩ := inv.entryOk other otherEntry isOther
    refine ⟨fresh, fun otherLive => ?_, fun otherLive => ?_, fun otherLive => ?_,
      fun otherLive => ?_, fun notLive => ?_⟩
    · obtain ⟨different, wasLive⟩ := others _ _ otherLive
      rw [dirty wasLive, isQueue other otherEntry isOther, and_iff_left different]
    · exact committing (others _ _ otherLive).2
    · exact present (others _ _ otherLive).2
    · exact saved (others _ _ otherLive).2
    · by_cases sameRepo : otherEntry.repo = entry.repo
      · refine ⟨fun member => ((isQueue other otherEntry isOther).mp member).2 sameRepo, ?_⟩
        by_cases wasLive : state.live otherEntry.repo = some other
        · -- the entry itself, which is not being committed
          have same : other = name := by
            rw [sameRepo, isLive] at wasLive
            exact (Option.some.inj wasLive).symm
          subst same
          obtain rfl := Option.some.inj (isEntry.symm.trans isOther)
          intro isHeld
          rw [(committing wasLive).mpr isHeld] at notCommitting
          cases notCommitting
        · exact (gone wasLive).2
      · have wasNotLive : state.live otherEntry.repo ≠ some other := by
          intro wasLive
          exact notLive ((Function.update_of_ne sameRepo _ _).trans wasLive)
        exact ⟨fun member => (gone wasNotLive).1 (sublist.subset member), (gone wasNotLive).2⟩
  · exact inv.liveEntry repo other (others repo other otherLive).2
  · exact inv.queueEntry other (sublist.subset member)
  · exact inv.taken other isTaken (sublist.subset member)
  · obtain ⟨other, otherLive⟩ := Option.isSome_iff_exists.mp isSome
    exact inv.ephemeral repo (Option.isSome_of_eq_some (others repo other otherLive).2)
  · obtain ⟨isClosed, noQueue⟩ := inv.stopped isStopped
    rw [noQueue] at sublist
    exact ⟨isClosed, List.sublist_nil.mp sublist⟩
  · exact inv.quiet isClosed
  · refine inv.notDeleted repo (claimed.imp_left (fun isSome => ?_))
    obtain ⟨other, otherLive⟩ := Option.isSome_iff_exists.mp isSome
    exact Option.isSome_of_eq_some (others repo other otherLive).2

theorem Inv.delete (inv : Inv state) (next : step state (.delete repo) = some after) : Inv after := by
  simp only [step] at next
  split at next
  next name entry found =>
    obtain ⟨isOpen, isLive, isEntry, rfl⟩ := inv.getEntry found
    split at next
    next => cases next
    next notCommitting =>
      cases next
      have isOk := inv.entryOk name entry isEntry
      have removed : ∀ queue : List Nat, queue.Sublist state.queue →
          (∀ other otherEntry, state.entries other = some otherEntry →
            (other ∈ queue ↔ other ∈ state.queue ∧ otherEntry.repo ≠ entry.repo)) →
          Inv ({ state with queue, live := Function.update state.live entry.repo none }.setEphemeral
            entry.repo .removed) := by
        intro queue sublist isQueue
        have invRemoved := inv.remove isEntry isLive (by simpa using notCommitting) sublist isQueue
        exact invRemoved.setEphemeral isOpen (Function.update_self _ _ _) .removed (fun _ => by simp)
      split
      next isDirty =>
        refine removed _ List.filter_sublist (fun other otherEntry isOther => ?_)
        exact List.mem_filter.trans (by simp [isOther])
      next notDirty =>
        refine removed _ (List.Sublist.refl _) (fun other otherEntry isOther => ?_)
        refine (and_iff_left_of_imp (fun member sameRepo => ?_)).symm
        -- the only entry of the database in the queue would be this one
        have otherLive : state.live otherEntry.repo = some other := by
          by_contra notLive
          exact ((inv.entryOk other otherEntry isOther).gone notLive).1 member
        rw [sameRepo, isLive] at otherLive
        obtain rfl := Option.some.inj otherLive
        exact notDirty ((isOk.dirty isLive).mpr (.inl member))
  next =>
    cases next
    exact inv

/-- While a database is being created or deleted it is not live, and the catalog is open. -/
theorem Inv.of_ephemeral {stage : Ephemeral Info} (inv : Inv state)
    (isStage : state.ephemeral repo = some stage)
    : state.live repo = none ∧ state.closed = false := by
  constructor
  · refine Option.not_isSome_iff_eq_none.mp (fun isLive => ?_)
    rw [inv.ephemeral repo isLive] at isStage
    cases isStage
  · refine Bool.eq_false_iff.mpr (fun isClosed => ?_)
    rw [State.ephemeral, inv.quiet isClosed] at isStage
    cases isStage

theorem Inv.storeDelete (inv : Inv state) (next : step state (.storeDelete repo) = some after)
    : Inv after := by
  simp only [step] at next
  split at next
  next isRemoved =>
    cases next
    obtain ⟨notLive, isOpen⟩ := inv.of_ephemeral isRemoved
    have invCalled : Inv (state.called (.delete repo)) := by
      refine inv.called (fun other claimed same => ?_) (fun other info isPut => ?_)
      · obtain rfl := StoreCall.delete.inj same
        rcases claimed with isLive | ⟨info, isCreated⟩
        · rw [notLive] at isLive
          cases isLive
        · rw [isRemoved] at isCreated
          cases isCreated
      · rcases isPut with same | same <;> cases same
    exact invCalled.setEphemeral isOpen notLive .deleting (fun _ => by simp)
  next => cases next

theorem Inv.storeDeleted {removed : Bool} (inv : Inv state)
    (next : step state (.storeDeleted repo removed) = some after)
    : Inv after := by
  simp only [step] at next
  split at next
  next isDeleting =>
    cases next
    obtain ⟨notLive, isOpen⟩ := inv.of_ephemeral isDeleting
    have notCreated : ∀ info, state.ephemeral repo ≠ some (.created info) := by
      intro info isCreated
      rw [isDeleting] at isCreated
      cases isCreated
    split
    next => exact (inv.setStore notLive notCreated none).setEphemeral isOpen notLive _ (fun _ => by simp)
    next => exact inv.setEphemeral isOpen notLive _ (fun _ => by simp)
  next => cases next

theorem Inv.deleteEnds (inv : Inv state) (next : step state (.deleteEnds repo) = some after)
    : Inv after := by
  simp only [step] at next
  split at next
  next =>
    cases next
    exact inv.dropEphemeral repo
  next => cases next

theorem Inv.create {info : Info} (inv : Inv state) (next : step state (.create repo info) = some after)
    : Inv after := by
  simp only [step] at next
  split at next
  next =>
    cases next
    exact inv
  next isFree =>
    cases next
    rw [not_or, not_or] at isFree
    exact inv.setEphemeral (by simpa using isFree.1) (by simpa using isFree.2.1) _ (fun _ => by simp)

/-- The store has got a new database. -/
theorem Inv.stored {info : Info} (inv : Inv state)
    (isCreating : state.ephemeral repo = some (.creating info))
    : Inv ((state.setStore repo (some info)).called (.create repo info)) := by
  obtain ⟨notLive, _⟩ := inv.of_ephemeral isCreating
  refine (inv.setStore notLive (fun info isCreated => ?_) (some info)).called
    (fun _ _ => by simp) (fun _ _ isPut => ?_)
  · rw [isCreating] at isCreated
    cases isCreated
  · rcases isPut with same | same <;> cases same

/-- The store has got a new database, which is still to become live. -/
theorem Inv.setCreated {info : Info} (inv : Inv state)
    (isCreating : state.ephemeral repo = some (.creating info))
    : Inv (((state.setStore repo (some info)).called (.create repo info)).setEphemeral repo
        (.created info)) := by
  obtain ⟨notLive, isOpen⟩ := inv.of_ephemeral isCreating
  have invStored := inv.stored isCreating
  refine ⟨fun name entry isEntry => ?_, invStored.liveEntry, invStored.queueEntry, invStored.heldEntry,
    invStored.once,
    invStored.taken, fun other isLive => ?_, fun other otherInfo isCreated => ?_, invStored.stopped,
    fun isClosed => ?_, fun other claimed => ?_, invStored.puts⟩
  · obtain ⟨fresh, dirty, committing, present, saved, gone⟩ := invStored.entryOk name entry isEntry
    exact ⟨fresh, dirty, committing, present, saved, gone⟩
  · rw [ephemeral_setEphemeral]
    split
    next same =>
      change (state.live other).isSome at isLive
      rw [same, notLive] at isLive
      cases isLive
    next => exact invStored.ephemeral other isLive
  · rw [ephemeral_setEphemeral] at isCreated
    split at isCreated
    next same =>
      cases isCreated
      rw [same]
      exact Function.update_self _ _ _
    next => exact invStored.created other otherInfo isCreated
  · change state.closed = true at isClosed
    rw [isOpen] at isClosed
    cases isClosed
  · by_cases same : other = repo
    · rw [same]
      exact not_deleted_create info
    · refine invStored.notDeleted other (claimed.imp_right (fun ⟨otherInfo, isCreated⟩ => ?_))
      rw [ephemeral_setEphemeral, if_neg same] at isCreated
      exact ⟨otherInfo, isCreated⟩

theorem Inv.storeCreate {ok written : Bool} (inv : Inv state)
    (next : step state (.storeCreate repo ok written) = some after)
    : Inv after := by
  simp only [step] at next
  split at next
  next info isCreating =>
    obtain ⟨notLive, isOpen⟩ := inv.of_ephemeral isCreating
    split at next
    next =>
      cases next
      exact inv.setCreated isCreating
    next =>
      split at next
      next =>
        cases next
        exact (inv.stored isCreating).setEphemeral isOpen notLive _ (fun _ => by simp)
      next =>
        cases next
        exact inv.setEphemeral isOpen notLive _ (fun _ => by simp)
  next => cases next

/-- A new entry is in nobody's hands. -/
theorem Inv.nextEntry_new (inv : Inv state)
    : state.entries state.nextEntry = none ∧ state.nextEntry ∉ state.queue
      ∧ state.committer.held ≠ some state.nextEntry := by
  have isNew : state.entries state.nextEntry = none := by
    refine Option.eq_none_iff_forall_ne_some.mpr (fun entry isEntry => ?_)
    exact Nat.lt_irrefl _ (inv.entryOk _ entry isEntry).fresh
  refine ⟨isNew, fun member => ?_, fun isHeld => ?_⟩
  · have isSome := inv.queueEntry _ member
    rw [isNew] at isSome
    cases isSome
  · have isSome := inv.heldEntry _ isHeld
    rw [isNew] at isSome
    cases isSome

/-- A database becomes live with the metadata that the store has. -/
theorem Inv.goLive {info : Info} (inv : Inv state) (isCreated : state.ephemeral repo = some (.created info))
    : Inv ((state.addLive repo info).dropEphemeral repo) := by
  obtain ⟨isNew, notQueued, notHeld⟩ := inv.nextEntry_new
  obtain ⟨notLive, _⟩ := inv.of_ephemeral isCreated
  have newEntry : (state.addLive repo info).entries state.nextEntry = some (mkEntry repo info) :=
    Function.update_self _ _ _
  have newLive : (state.addLive repo info).live repo = some state.nextEntry := Function.update_self _ _ _
  have oldLive : ∀ other, other ≠ repo → (state.addLive repo info).live other = state.live other :=
    fun _ different => Function.update_of_ne different _ _
  have oldEntry : ∀ other entry, state.entries other = some entry → other ≠ state.nextEntry := by
    rintro other entry isEntry rfl
    rw [isNew] at isEntry
    cases isEntry
  have invDropped := inv.dropEphemeral repo
  refine ⟨fun other entry isEntry => ?_, fun other name isLive => ?_, fun other member => ?_,
    fun other isHeld => ?_, inv.once, inv.taken, fun other isLive => ?_, invDropped.created, inv.stopped,
    invDropped.quiet, fun other claimed => ?_, inv.puts⟩
  · by_cases same : other = state.nextEntry
    · subst same
      obtain rfl := Option.some.inj (newEntry.symm.trans isEntry)
      refine ⟨Nat.lt_succ_self _, fun _ => ?_, fun _ => iff_of_false (by simp [mkEntry]) notHeld,
        fun _ => Option.isSome_of_eq_some (inv.created repo info isCreated), fun _ _ => .inr ?_,
        fun notCurrent => absurd newLive notCurrent⟩
      · refine iff_of_false (by simp [mkEntry]) ?_
        rintro (member | isTaken)
        · exact notQueued member
        · exact notHeld (congrArg Committer.held isTaken)
      · exact (Committer.result_of_held_ne notHeld _).trans (inv.created repo info isCreated)
    · have wasEntry : state.entries other = some entry := (Function.update_of_ne same _ _).symm.trans isEntry
      obtain ⟨fresh, dirty, committing, present, saved, gone⟩ := inv.entryOk other entry wasEntry
      have sameLive : (state.addLive repo info).live entry.repo = some other ↔
          state.live entry.repo = some other := by
        by_cases isRepo : entry.repo = repo
        · rw [isRepo, newLive, notLive]
          exact iff_of_false (fun isOther => same (Option.some.inj isOther).symm) (by simp)
        · rw [oldLive entry.repo isRepo]
      exact ⟨Nat.lt_succ_of_lt fresh, fun isLive => dirty (sameLive.mp isLive),
        fun isLive => committing (sameLive.mp isLive), fun isLive => present (sameLive.mp isLive),
        fun isLive => saved (sameLive.mp isLive), fun notCurrent => gone (fun isLive =>
          notCurrent (sameLive.mpr isLive))⟩
  · by_cases isRepo : other = repo
    · subst isRepo
      obtain rfl := Option.some.inj (newLive.symm.trans isLive)
      exact ⟨mkEntry other info, newEntry, rfl⟩
    · have wasLive : state.live other = some name := (oldLive other isRepo).symm.trans isLive
      obtain ⟨entry, isEntry, sameRepo⟩ := inv.liveEntry other name wasLive
      exact ⟨entry, (Function.update_of_ne (oldEntry name entry isEntry) _ _).trans isEntry, sameRepo⟩
  · obtain ⟨entry, isEntry⟩ := Option.isSome_iff_exists.mp (inv.queueEntry other member)
    exact Option.isSome_of_eq_some
      ((Function.update_of_ne (oldEntry other entry isEntry) _ _).trans isEntry)
  · obtain ⟨entry, isEntry⟩ := Option.isSome_iff_exists.mp (inv.heldEntry other isHeld)
    exact Option.isSome_of_eq_some
      ((Function.update_of_ne (oldEntry other entry isEntry) _ _).trans isEntry)
  · by_cases isRepo : other = repo
    · exact (ephemeral_dropEphemeral state repo other).trans (if_pos isRepo)
    · exact invDropped.ephemeral other (oldLive other isRepo ▸ isLive)
  · by_cases isRepo : other = repo
    · rw [isRepo]
      exact inv.notDeleted repo (.inr ⟨info, isCreated⟩)
    · exact invDropped.notDeleted other (claimed.imp_left (fun isLive => oldLive other isRepo ▸ isLive))

theorem Inv.createEnds (inv : Inv state) (next : step state (.createEnds repo) = some after)
    : Inv after := by
  simp only [step] at next
  split at next
  next info isCreated =>
    cases next
    exact inv.goLive isCreated
  next =>
    cases next
    exact inv.dropEphemeral repo
  next => cases next

theorem Inv.close (inv : Inv state) (next : step state .close = some after) : Inv after := by
  simp only [step] at next
  split at next
  next =>
    cases next
    exact inv
  next =>
    split at next
    next isEmpty =>
      cases next
      refine ⟨fun name entry isEntry => ?_, inv.liveEntry, inv.queueEntry, inv.heldEntry, inv.once,
        inv.taken, inv.ephemeral, inv.created, fun isStopped => ⟨rfl, (inv.stopped isStopped).2⟩,
        fun _ => List.isEmpty_iff.mp isEmpty, inv.notDeleted, inv.puts⟩
      obtain ⟨fresh, dirty, committing, present, saved, gone⟩ := inv.entryOk name entry isEntry
      exact ⟨fresh, dirty, committing, present, saved, gone⟩
    next => cases next

-- Runs

/-- Each database has the entry with its own metadata. -/
theorem lookup_of_findIdx {infos : List (Repo × Info)}
    (found : infos.findIdx? (·.1 = repo) = some name)
    : ∃ info, infos[name]? = some (repo, info) ∧ infos.lookup repo = some info := by
  induction infos generalizing name with
  | nil => cases found
  | cons first rest ih =>
      obtain ⟨key, info⟩ := first
      rw [List.findIdx?_cons] at found
      split at found
      next isKey =>
        cases found
        obtain rfl : key = repo := by simpa using isKey
        exact ⟨info, rfl, by simp⟩
      next notKey =>
        obtain ⟨index, isIndex, rfl⟩ := Option.map_eq_some_iff.mp found
        obtain ⟨other, isPair, isLookup⟩ := ih isIndex
        refine ⟨other, isPair, ?_⟩
        have different : repo ≠ key := by
          rintro rfl
          simp at notKey
        rw [List.lookup_cons, beq_false_of_ne different]
        exact isLookup

theorem inv_opened (infos : List (Repo × Info)) : Inv (opened infos) := by
  refine ⟨fun name entry isEntry => ?_, fun repo name isLive => ?_, by simp [opened],
    by simp [opened, Committer.held], List.nodup_nil, by simp [opened], fun _ _ => rfl,
    by simp [opened, State.ephemeral], by simp [opened], by simp [opened], fun repo _ isDeleted => ?_,
    fun before call rest isSplit => ?_⟩
  · obtain ⟨⟨repo, value⟩, isPair, rfl⟩ := Option.map_eq_some_iff.mp isEntry
    have stored : (opened infos).live repo = some name → (opened infos).store repo = some value := by
      intro isLive
      obtain ⟨info, isInfo, isLookup⟩ := lookup_of_findIdx isLive
      rw [isPair] at isInfo
      cases isInfo
      exact isLookup
    refine ⟨(List.getElem?_eq_some_iff.mp isPair).1, fun _ => by simp [opened, mkEntry],
      fun _ => by simp [opened, mkEntry, Committer.held], fun isLive => ?_, fun isLive _ => .inr ?_,
      fun _ => by simp [opened, Committer.held]⟩
    · exact Option.isSome_of_eq_some (stored isLive)
    · exact stored isLive
  · obtain ⟨info, isInfo, _⟩ := lookup_of_findIdx isLive
    exact ⟨mkEntry repo info, by simp [opened, isInfo], rfl⟩
  · obtain ⟨before, between, isSplit, _⟩ := isDeleted
    simp [opened] at isSplit
  · simp [opened] at isSplit

theorem Inv.step {event : Event Repo Info} (inv : Inv state) (next : step state event = some after)
    : Inv after := by
  cases event with
  | writeMeta repo info => exact inv.writeMeta next
  | take => exact inv.take next
  | stop => exact inv.stop next
  | clear => exact inv.clear next
  | putStarts => exact inv.putStarts next
  | putEnds => exact inv.putEnds next
  | putThrows written => exact inv.putThrows next
  | dirtyAgain => exact inv.dirtyAgain next
  | release => exact inv.release next
  | delete repo => exact inv.delete next
  | storeDelete repo => exact inv.storeDelete next
  | storeDeleted repo removed => exact inv.storeDeleted next
  | deleteEnds repo => exact inv.deleteEnds next
  | create repo info => exact inv.create next
  | storeCreate repo ok written => exact inv.storeCreate next
  | createEnds repo => exact inv.createEnds next
  | close => exact inv.close next

/-- A catalog that has been opened; a store has one entry for each database at most. -/
def Starts (state : State Repo Info) : Prop :=
  ∃ infos, (infos.map Prod.fst).Nodup ∧ state = opened infos

/-- An entry that the catalog, its dirty queue or its committer refers to. -/
def State.Known (state : State Repo Info) (name : Nat) (entry : Entry Repo Info) : Prop :=
  state.entries name = some entry
    ∧ (state.live entry.repo = some name ∨ name ∈ state.queue ∨ state.committer.held = some name)

/-- The store has the metadata of every live entry. -/
def Latest (state : State Repo Info) : Prop :=
  ∀ repo name, state.live repo = some name →
    ∃ entry, state.entries name = some entry ∧ entry.repo = repo ∧ state.store repo = some entry.info

theorem Inv.dirty_iff (inv : Inv state) (known : state.Known name entry)
    : entry.dirty = true ↔ name ∈ state.queue ∨ state.committer = .taken name := by
  obtain ⟨isEntry, reference⟩ := known
  have isOk := inv.entryOk name entry isEntry
  refine isOk.dirty ?_
  by_contra notLive
  obtain ⟨notQueued, notHeld⟩ := isOk.gone notLive
  rcases reference with isLive | member | isHeld
  · exact notLive isLive
  · exact notQueued member
  · exact notHeld isHeld

theorem Inv.latest (inv : Inv state) (noQueue : state.queue = []) (idle : state.committer.held = none)
    : Latest state := by
  intro repo name isLive
  obtain ⟨entry, isEntry, rfl⟩ := inv.liveEntry repo name isLive
  have isOk := inv.entryOk name entry isEntry
  have notHeld : state.committer.held ≠ some name := by
    rw [idle]
    simp
  have notDirty : entry.dirty = false := by
    refine Bool.eq_false_iff.mpr (fun isDirty => ?_)
    rcases (isOk.dirty isLive).mp isDirty with member | isTaken
    · rw [noQueue] at member
      cases member
    · exact notHeld (congrArg Committer.held isTaken)
  refine ⟨entry, isEntry, rfl, ?_⟩
  rcases isOk.saved isLive notDirty with isFailed | isResult
  · exact absurd (congrArg Committer.held isFailed) notHeld
  · rwa [Committer.result_of_held_ne notHeld] at isResult

/-- An update that arrives while an older one is being written, after which the write fails. -/
def overtakenUpdate : List (Event Nat String) :=
  [.writeMeta 1 "first", .take, .clear, .putStarts, .writeMeta 1 "second", .putThrows true,
    .dirtyAgain, .release, .close, .take, .clear, .putStarts, .putEnds, .release, .stop]

end Glean.Database.CatalogCommit
