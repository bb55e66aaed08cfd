import Glean.Database.CatalogTermination

/-! Runs of the catalog: what each operation does to the statuses. -/

namespace Glean.Database.Catalog

variable {Repo : Type} {state changed after : State Repo} {repo : Repo} {fuel : Nat}

/-- Two catalogs differ in one database only. -/
structure ChangedAt (repo : Repo) (state changed : State Repo) : Prop where
  live : ∀ other, other ≠ repo → changed.live other = state.live other
  restoring : ∀ other, other ≠ repo → changed.restoring other = state.restoring other
  dependents
    : ∀ other dependency, other ≠ repo → other ∈ state.dependents dependency →
        other ∈ changed.dependents dependency

namespace ChangedAt

theorem statusOf (isChanged : ChangedAt repo state changed) {other : Repo} (different : other ≠ repo)
    : changed.statusOf other = state.statusOf other := by
  rw [State.statusOf, State.statusOf, isChanged.live other different, State.missingStatus,
    State.missingStatus, isChanged.restoring other different]

theorem newStatus (isChanged : ChangedAt repo state changed) {other : Repo} {entry : Entry Repo}
    (isLive : changed.live other = some entry) (different : other ≠ repo)
    (same : entry.info.dependency = some repo → changed.statusOf repo = state.statusOf repo)
    : changed.newStatus other entry.info = state.newStatus other entry.info := by
  have wasLive := isChanged.live other different ▸ isLive
  rw [newStatus_live isLive, newStatus_live wasLive]
  split
  next => rfl
  next dependency isDependency =>
    by_cases isRepo : dependency = repo
    · subst isRepo
      rw [same isDependency]
    · rw [isChanged.statusOf isRepo]

/-- Only the database itself and its dependents can be wrong after a change. -/
theorem settled (isChanged : ChangedAt repo state changed) (good : Good ∅ state) {other : Repo}
    {entry : Entry Repo} (isLive : changed.live other = some entry) (different : other ≠ repo)
    (same : entry.info.dependency = some repo → changed.statusOf repo = state.statusOf repo)
    : Settled changed other entry := by
  have isSettled :=
    good other entry (isChanged.live other different ▸ isLive) (Set.notMem_empty other)
  refine ⟨?_, fun dependency isDependency => ?_⟩
  · rw [isChanged.newStatus isLive different same]
    exact isSettled.status
  · exact isChanged.dependents other dependency different
      (isSettled.registered dependency isDependency)

theorem good (isChanged : ChangedAt repo state changed) (good : Good ∅ state)
    : Good ({repo} ∪ {other | DependsOn changed other repo}) changed := by
  intro other entry isLive notPending
  rw [Set.mem_union, not_or] at notPending
  refine isChanged.settled good isLive notPending.1 (fun isDependency => ?_)
  exact absurd ⟨entry, isLive, isDependency⟩ notPending.2

/-- If a change does not show in the status, then dependents are still right. -/
theorem good_of_statusOf (isChanged : ChangedAt repo state changed) (good : Good ∅ state)
    (same : changed.statusOf repo = state.statusOf repo)
    : Good {repo} changed :=
  fun _ _ isLive notPending => isChanged.settled good isLive notPending (fun _ => same)

theorem mem_dependents (isChanged : ChangedAt repo state changed) (good : Good ∅ state) {other : Repo}
    (different : other ≠ repo) (depends : DependsOn changed other repo)
    : other ∈ changed.dependents repo := by
  obtain ⟨entry, isLive, isDependency⟩ := depends
  have isSettled :=
    good other entry (isChanged.live other different ▸ isLive) (Set.notMem_empty other)
  exact isChanged.dependents other repo different (isSettled.registered repo isDependency)

end ChangedAt

/-- The dependents of a database are right already, or will be recalculated. -/
def Notices (state changed : State Repo) (repo : Repo) (entry : Entry Repo) : Prop :=
  changed.statusOf repo = state.statusOf repo ∨ changed.newStatus repo entry.info ≠ entry.status
    ∨ ∀ other, ¬ DependsOn changed other repo

theorem Notices.good {entry : Entry Repo} (notices : Notices state changed repo entry)
    (isChanged : ChangedAt repo state changed) (good : Good ∅ state)
    (unchanged : changed.newStatus repo entry.info = entry.status)
    : Good {repo} changed := by
  rcases notices with same | changes | independent
  · exact isChanged.good_of_statusOf good same
  · exact absurd unchanged changes
  · refine (isChanged.good good).mono (fun other isPending _ => ?_)
    rcases isPending with isRepo | depends
    · exact isRepo
    · exact absurd depends (independent other)

variable [DecidableEq Repo]

/-- Recalculating a live database after a change settles everything. -/
theorem settles_attached {entry : Entry Repo} (isChanged : ChangedAt repo state changed)
    (good : Good ∅ state) (irreflexive : ∀ other, ¬ DependsOn changed other other)
    (isLive : changed.live repo = some entry) (notices : Notices state changed repo entry)
    (executed : recalculateStatus fuel changed repo entry = some after)
    : Good ∅ after ∧ SameInfos changed after := by
  by_cases unchanged : changed.newStatus repo entry.info = entry.status
  · obtain ⟨goodAll, same⟩ := settles_recalculateStatus fuel {repo} changed after repo entry irreflexive
      isLive (notices.good isChanged good unchanged) executed
    exact ⟨goodAll.mono (fun other isPending _ => isPending.2 isPending.1), same⟩
  · cases fuel with
    | zero => cases executed
    | succ fuel =>
        have sameRegistered := sameInfos_register changed repo entry.info
        simp only [recalculateStatus, newStatus_register, if_neg unchanged] at executed
        rw [← newStatus_register changed repo repo entry.info entry.info] at executed
        obtain ⟨goodAll, sameAll⟩ := (settles_recalculateStatus fuel).recalculateDependents
          (fun other self => irreflexive other ((sameRegistered.dependsOn other other).mp self))
          (by rw [live_register, isLive]) ((isChanged.good good).register repo entry.info)
          (fun _ isDependency => mem_dependents_register_self isLive isDependency) executed
        refine ⟨goodAll.mono (fun other isPending _ => ?_), sameRegistered.trans sameAll⟩
        obtain ⟨pendingOr, notDependent⟩ := isPending
        have depends : DependsOn changed other repo := by
          rcases pendingOr with ⟨isRepo | depends, notRepo⟩ | depends
          · exact absurd isRepo notRepo
          · exact depends
          · exact (sameRegistered.dependsOn other repo).mp depends
        have different : other ≠ repo := by
          rintro rfl
          exact irreflexive other depends
        exact notDependent (mem_dependents_register isLive _
          (isChanged.mem_dependents good different depends))

/-- Recalculating the dependents of a database that is not live. -/
theorem settles_dependents (isChanged : ChangedAt repo state changed) (good : Good ∅ state)
    (irreflexive : ∀ other, ¬ DependsOn changed other other) (notLive : changed.live repo = none)
    (executed : recalculateDepsStatus fuel changed repo = some after)
    : Good ∅ after ∧ SameInfos changed after := by
  obtain ⟨goodAll, same⟩ :=
    (settles_recalculateStatus fuel).foldlM _ irreflexive (isChanged.good good) executed
  refine ⟨goodAll.mono (fun other isPending isLive => ?_), same⟩
  obtain ⟨isRepo | depends, notDependent⟩ := isPending
  · rw [same.isSome, isRepo, notLive] at isLive
    cases isLive
  · have different : other ≠ repo := by
      rintro rfl
      exact irreflexive other depends
    exact notDependent (isChanged.mem_dependents good different depends)

theorem ChangedAt.register (isChanged : ChangedAt repo state changed) (info : Meta Repo)
    : ChangedAt repo state (changed.register repo info) where
  live := fun other different => by rw [live_register, isChanged.live other different]
  restoring := fun other different => by rw [restoring_register, isChanged.restoring other different]
  dependents := fun other dependency different member =>
    mem_dependents_register_of_ne info different (isChanged.dependents other dependency different member)

/-- Setting the status of an entry that is not live does nothing. -/
theorem setStatus_of_not_live (notLive : state.live repo = none) (status : ItemStatus)
    : state.setStatus repo status = state := by
  rw [State.setStatus, State.setLive, notLive, Option.map_none, ← notLive, Function.update_eq_self]

/-- Recalculating an entry that is not live any more. -/
theorem settles_detached {entry : Entry Repo} (isChanged : ChangedAt repo state changed)
    (good : Good ∅ state) (irreflexive : ∀ other, ¬ DependsOn changed other other)
    (notLive : changed.live repo = none) (notices : Notices state changed repo entry)
    (executed : recalculateStatus fuel changed repo entry = some after)
    : Good ∅ after ∧ SameInfos changed after := by
  have sameRegistered := sameInfos_register changed repo entry.info
  have stillNotLive : (changed.register repo entry.info).live repo = none := by
    rw [live_register, notLive]
  cases fuel with
  | zero => cases executed
  | succ fuel =>
      simp only [recalculateStatus, newStatus_register] at executed
      split at executed
      next unchanged =>
        cases executed
        refine ⟨((notices.good isChanged good unchanged).register repo entry.info).mono ?_, sameRegistered⟩
        rintro other rfl isLive
        rw [stillNotLive] at isLive
        cases isLive
      next =>
        rw [setStatus_of_not_live stillNotLive] at executed
        obtain ⟨goodAll, same⟩ := settles_dependents (isChanged.register entry.info) good
          (fun other self => irreflexive other ((sameRegistered.dependsOn other other).mp self))
          stillNotLive executed
        exact ⟨goodAll, sameRegistered.trans same⟩

variable {combined : Repo → ItemStatus} {repos : Finset Repo}

/-- All live databases are in a finite set. -/
def LiveIn (repos : Finset Repo) (state : State Repo) : Prop :=
  ∀ repo, (state.live repo).isSome → repo ∈ repos

omit [DecidableEq Repo] in
theorem LiveIn.unfinished (liveIn : LiveIn repos state) : unfinished combined state ⊆ repos := by
  rintro repo ⟨entry, isLive, _⟩
  exact liveIn repo (by rw [isLive]; rfl)

omit [DecidableEq Repo] in
theorem LiveIn.of_sameInfos (liveIn : LiveIn repos state) (same : SameInfos state after)
    : LiveIn repos after :=
  fun repo isLive => liveIn repo (same.isSome repo ▸ isLive)

theorem ends_dependents (isChanged : ChangedAt repo state changed) (good : Good ∅ state)
    (isCombined : Combined changed combined) (notLive : changed.live repo = none)
    (liveIn : LiveIn repos changed) (enough : repos.card < fuel)
    : ∃ after, recalculateDepsStatus fuel changed repo = some after := by
  have goodChanged : Good {other | DependsOn changed other repo} changed := by
    refine (isChanged.good good).mono (fun other isPending isLive => ?_)
    rcases isPending with rfl | depends
    · rw [notLive] at isLive
      cases isLive
    · exact depends
  have final : changed.statusOf repo = combined repo := by
    rw [isCombined.independent repo, State.statusOf, State.ownStatus, notLive]
    rintro dependency ⟨entry, isLive, _⟩
    rw [notLive] at isLive
    cases isLive
  obtain ⟨after, executed, _⟩ := (ends_recalculateStatus fuel).foldlM (changed.dependents repo)
    isCombined (isCombined.approaches goodChanged final) liveIn.unfinished enough
  exact ⟨after, executed⟩

theorem ends_detached (entry : Entry Repo) (isChanged : ChangedAt repo state changed)
    (good : Good ∅ state) (isCombined : Combined changed combined) (notLive : changed.live repo = none)
    (liveIn : LiveIn repos changed) (enough : repos.card + 1 < fuel)
    : ∃ after, recalculateStatus fuel changed repo entry = some after := by
  have sameRegistered := sameInfos_register changed repo entry.info
  have stillNotLive : (changed.register repo entry.info).live repo = none := by
    rw [live_register, notLive]
  cases fuel with
  | zero => cases enough
  | succ fuel =>
      simp only [recalculateStatus]
      split
      next => exact ⟨_, rfl⟩
      next =>
        rw [setStatus_of_not_live stillNotLive]
        exact ends_dependents (isChanged.register entry.info) good (isCombined.of_sameInfos sameRegistered)
          stillNotLive (liveIn.of_sameInfos sameRegistered) (by omega)

theorem ends_attached {entry : Entry Repo} (isChanged : ChangedAt repo state changed)
    (good : Good ∅ state) (isCombined : Combined changed combined) (acyclic : Acyclic changed)
    (isLive : changed.live repo = some entry) (liveIn : LiveIn repos changed)
    (enough : repos.card + 1 < fuel)
    : ∃ after, recalculateStatus fuel changed repo entry = some after := by
  have goodChanged := isChanged.good good
  have isNew : changed.newStatus repo entry.info = combined repo := by
    refine isCombined.newStatus isLive (fun dependency depends => ?_)
    refine isCombined.statusOf acyclic goodChanged ?_ (acyclic.not_reaches depends)
    rintro other (rfl | isDependent)
    · exact .refl
    · exact .single isDependent
  have sameRegistered := sameInfos_register changed repo entry.info
  have sameStatus := sameInfos_setStatus (changed.register repo entry.info) repo (combined repo)
  have same := sameRegistered.trans sameStatus
  have stillLive : (changed.register repo entry.info).live repo = some entry := by
    rw [live_register, isLive]
  cases fuel with
  | zero => cases enough
  | succ fuel =>
      simp only [recalculateStatus, newStatus_register, isNew]
      split
      next => exact ⟨_, rfl⟩
      next =>
        have irreflexive : ¬ DependsOn (changed.register repo entry.info) repo repo := fun self =>
          acyclic.irreflexive repo ((sameRegistered.dependsOn repo repo).mp self)
        have goodStatus := (goodChanged.register repo entry.info).setStatus irreflexive stillLive
          (by rw [newStatus_register, isNew])
          (fun _ isDependency => mem_dependents_register_self isLive isDependency)
        have goodDependents := goodStatus.mono (fun other isPending _ => by
          rcases isPending with ⟨isRepo | depends, notRepo⟩ | depends
          · exact absurd isRepo notRepo
          · exact (same.dependsOn other repo).mpr depends
          · exact (sameStatus.dependsOn other repo).mpr depends)
        have isCombinedStatus := isCombined.of_sameInfos same
        obtain ⟨after, executed, _⟩ := (ends_recalculateStatus fuel).foldlM
          (((changed.register repo entry.info).setStatus repo (combined repo)).dependents repo)
          isCombinedStatus (isCombinedStatus.approaches goodDependents (statusOf_setStatus stillLive _))
          (liveIn.of_sameInfos same).unfinished (by omega)
        exact ⟨after, executed⟩

/-- The entries after an operation, before any status is recalculated. -/
def changedBy (state : State Repo) : Event Repo → State Repo
  | .create repo info ok =>
      if (state.live repo).isSome ∨ (state.restoring repo).isSome then
        state
      else if ok then
        state.setLive repo (some (mkEntry info))
      else
        state
  | .delete repo => state.setLive repo none
  | .startRestoring repo info =>
      if (state.live repo).isSome ∨ (state.restoring repo).isSome then
        state
      else
        state.setRestoring repo (some info)
  | .finishRestoring repo ok =>
      match state.restoring repo with
      | some info =>
          if ok then
            (state.setRestoring repo none).setLive repo (some (mkEntry info))
          else
            state.setRestoring repo none
      | none => state
  | .abortRestoring repo => state.setRestoring repo none
  | .writeMeta repo info =>
      state.setLive repo ((state.live repo).map (fun entry => { entry with info }))

/-- The restored database is missing, or counts as missing, although it was being restored before. -/
def RestoredMissing (state : State Repo) (repo : Repo) (ok : Bool) : Prop :=
  ∃ info, state.restoring repo = some info
    ∧ (ok = false
        ∨ ∃ dependency, info.dependency = some dependency ∧ state.statusOf dependency = .missing)

/-- Dependencies stay acyclic, and a restored database that counts as missing has no dependents. -/
structure Sound (state : State Repo) (event : Event Repo) : Prop where
  acyclic : Acyclic (changedBy state event)
  noDependents
    : ∀ repo ok, event = .finishRestoring repo ok → RestoredMissing state repo ok →
        ∀ other, ¬ DependsOn state other repo

/-- A database is live or being restored, not both. -/
def Apart (state : State Repo) : Prop :=
  ∀ repo, (state.live repo).isSome → state.restoring repo = none

structure Inv (state : State Repo) : Prop where
  good : Good ∅ state
  acyclic : Acyclic state
  apart : Apart state
  liveIn : ∃ repos, LiveIn repos state

theorem changedAt_setLive (state : State Repo) (repo : Repo) (entry : Option (Entry Repo))
    : ChangedAt repo state (state.setLive repo entry) where
  live := fun _ different => Function.update_of_ne different _ _
  restoring := fun _ _ => rfl
  dependents := fun _ _ _ member => member

theorem changedAt_setRestoring (state : State Repo) (repo : Repo) (info : Option (Meta Repo))
    : ChangedAt repo state (state.setRestoring repo info) where
  live := fun _ _ => rfl
  restoring := fun _ different => Function.update_of_ne different _ _
  dependents := fun _ _ _ member => member

omit [DecidableEq Repo] in
theorem ChangedAt.refl (repo : Repo) (state : State Repo) : ChangedAt repo state state :=
  ⟨fun _ _ => rfl, fun _ _ => rfl, fun _ _ _ member => member⟩

omit [DecidableEq Repo] in
theorem ChangedAt.trans (first : ChangedAt repo state changed) (second : ChangedAt repo changed after)
    : ChangedAt repo state after where
  live := fun other different => (second.live other different).trans (first.live other different)
  restoring := fun other different =>
    (second.restoring other different).trans (first.restoring other different)
  dependents := fun other dependency different member =>
    second.dependents other dependency different (first.dependents other dependency different member)

omit [DecidableEq Repo] in
theorem statusOf_absent (notLive : state.live repo = none) (notRestoring : state.restoring repo = none)
    : state.statusOf repo = .missing := by
  rw [State.statusOf, notLive, State.missingStatus, notRestoring]
  rfl

theorem le_missing (status : ItemStatus) : status ≤ .missing := by
  cases status <;> decide

omit [DecidableEq Repo] in
/-- Whatever it depends on, an absent database is missing. -/
theorem newStatus_absent (notLive : state.live repo = none)
    (notRestoring : state.restoring repo = none) (info : Meta Repo)
    : state.newStatus repo info = .missing := by
  have isMissing : state.missingStatus repo = .missing := by
    rw [State.missingStatus, notRestoring]
    rfl
  rw [State.newStatus, notLive, isMissing]
  split
  next => rfl
  next => exact max_eq_left (le_missing _)

/-- What an operation recalculates after it has changed the entries. -/
inductive Recalculates (state : State Repo) (event : Event Repo) : Prop where
  | nothing (same : changedBy state event = state)
      (isStep : ∀ fuel, step fuel state event = some state)
  | attached (repo : Repo) (entry : Entry Repo)
      (isChanged : ChangedAt repo state (changedBy state event))
      (isLive : (changedBy state event).live repo = some entry)
      (notRestoring : (changedBy state event).restoring repo = none)
      (notices : Notices state (changedBy state event) repo entry)
      (isStep : ∀ fuel, step fuel state event
        = recalculateStatus fuel (changedBy state event) repo entry)
  | detached (repo : Repo) (entry : Entry Repo)
      (isChanged : ChangedAt repo state (changedBy state event))
      (notLive : (changedBy state event).live repo = none)
      (notices : Notices state (changedBy state event) repo entry)
      (isStep : ∀ fuel, step fuel state event
        = recalculateStatus fuel (changedBy state event) repo entry)
  | dependents (repo : Repo) (isChanged : ChangedAt repo state (changedBy state event))
      (notLive : (changedBy state event).live repo = none)
      (isStep : ∀ fuel, step fuel state event
        = recalculateDepsStatus fuel (changedBy state event) repo)

/-- A new entry counts as missing until it is recalculated, and so did the absent database. -/
theorem recalculates_create (state : State Repo) (repo : Repo) (info : Meta Repo) (ok : Bool)
    : Recalculates state (.create repo info ok) := by
  by_cases known : (state.live repo).isSome ∨ (state.restoring repo).isSome
  · exact .nothing (by simp [changedBy, known]) (fun fuel => by simp [step, known])
  · have notLive : state.live repo = none := by
      simpa using fun isLive => known (.inl isLive)
    have notRestoring : state.restoring repo = none := by
      simpa using fun isRestoring => known (.inr isRestoring)
    have wasMissing := statusOf_absent notLive notRestoring
    cases ok with
    | false =>
        have isChanged : changedBy state (.create repo info false) = state := by
          simp [changedBy]
        refine .detached repo (mkEntry info) ?_ ?_ ?_ (fun fuel => ?_)
        · rw [isChanged]
          exact .refl repo state
        · rw [isChanged, notLive]
        · rw [isChanged]
          exact .inl rfl
        · rw [isChanged]
          simp [step, known]
    | true =>
        have isChanged : changedBy state (.create repo info true)
            = state.setLive repo (some (mkEntry info)) := by
          simp [changedBy, known]
        refine .attached repo (mkEntry info) ?_ ?_ ?_ ?_ (fun fuel => ?_)
        · rw [isChanged]
          exact changedAt_setLive _ _ _
        · rw [isChanged]
          simp [State.setLive]
        · rw [isChanged]
          exact notRestoring
        · rw [isChanged]
          refine .inl ?_
          rw [wasMissing]
          simp [State.statusOf, State.setLive, mkEntry]
        · rw [isChanged]
          simp [step, known]

/-- The old status was missing as well, or the dependents are recalculated. -/
theorem recalculates_delete (apart : Apart state) (repo : Repo)
    : Recalculates state (.delete repo) := by
  cases isLive : state.live repo with
  | none =>
      refine .nothing ?_ (fun fuel => by simp [step, isLive])
      rw [changedBy, State.setLive, ← isLive, Function.update_eq_self]
  | some entry =>
      have notRestoring := apart repo (by rw [isLive]; rfl)
      have notLive : (changedBy state (.delete repo)).live repo = none := by
        simp [changedBy, State.setLive]
      refine .detached repo entry (changedAt_setLive state repo none) notLive ?_
        (fun fuel => by simp [step, isLive, changedBy])
      by_cases wasMissing : entry.status = .missing
      · left
        rw [statusOf_absent notLive notRestoring, State.statusOf, isLive]
        exact wasMissing.symm
      · right
        left
        rw [newStatus_absent notLive notRestoring]
        exact Ne.symm wasMissing

theorem recalculates_startRestoring (state : State Repo) (repo : Repo) (info : Meta Repo)
    : Recalculates state (.startRestoring repo info) := by
  by_cases known : (state.live repo).isSome ∨ (state.restoring repo).isSome
  · exact .nothing (by simp [changedBy, known]) (fun fuel => by simp [step, known])
  · have notLive : state.live repo = none := by
      simpa using fun isLive => known (.inl isLive)
    have isChanged : changedBy state (.startRestoring repo info)
        = state.setRestoring repo (some info) := by
      simp [changedBy, known]
    refine .dependents repo ?_ ?_ (fun fuel => ?_)
    · rw [isChanged]
      exact changedAt_setRestoring _ _ _
    · rw [isChanged]
      exact notLive
    · rw [isChanged]
      simp [step, known]

theorem recalculates_abortRestoring (apart : Apart state) (repo : Repo)
    : Recalculates state (.abortRestoring repo) := by
  by_cases isRestoring : (state.restoring repo).isSome
  · have notLive : state.live repo = none := by
      refine Option.not_isSome_iff_eq_none.mp (fun isLive => ?_)
      rw [apart repo isLive] at isRestoring
      cases isRestoring
    exact .dependents repo (changedAt_setRestoring _ _ _) notLive
      (fun fuel => by simp [step, isRestoring, changedBy])
  · refine .nothing ?_ (fun fuel => by simp [step, isRestoring])
    rw [changedBy, State.setRestoring, ← Option.not_isSome_iff_eq_none.mp isRestoring,
      Function.update_eq_self]

theorem itemStatusFor_ne_missing (completeness : Completeness)
    : itemStatusFor completeness ≠ .missing := by
  cases completeness <;> simp [itemStatusFor]

omit [DecidableEq Repo] in
/-- A live database counts as missing only because of its dependency. -/
theorem dependency_missing {entry : Entry Repo} (isChanged : ChangedAt repo state changed)
    (acyclic : Acyclic changed) (isLive : changed.live repo = some entry)
    (isMissing : changed.newStatus repo entry.info = .missing)
    : ∃ dependency, entry.info.dependency = some dependency ∧ state.statusOf dependency = .missing := by
  rw [newStatus_live isLive] at isMissing
  cases isDependency : entry.info.dependency with
  | none =>
      rw [isDependency] at isMissing
      exact absurd isMissing (itemStatusFor_ne_missing _)
  | some dependency =>
      rw [isDependency] at isMissing
      have different : dependency ≠ repo := by
        rintro rfl
        exact acyclic.irreflexive dependency ⟨entry, isLive, isDependency⟩
      refine ⟨dependency, rfl, ?_⟩
      rw [← isChanged.statusOf different]
      rcases max_choice (itemStatusFor entry.info.completeness) (changed.statusOf dependency)
        with isOwn | isOther
      · exact absurd (isOwn.symm.trans isMissing) (itemStatusFor_ne_missing _)
      · exact isOther.symm.trans isMissing

/-- Without the condition the dependents would go on counting the database as being restored. -/
theorem recalculates_finishRestoring (apart : Apart state) {ok : Bool}
    (sound : Sound state (.finishRestoring repo ok))
    : Recalculates state (.finishRestoring repo ok) := by
  cases isRestoring : state.restoring repo with
  | none => exact .nothing (by simp [changedBy, isRestoring]) (fun fuel => by simp [step, isRestoring])
  | some info =>
      have notLive : state.live repo = none := by
        refine Option.not_isSome_iff_eq_none.mp (fun isLive => ?_)
        rw [apart repo isLive] at isRestoring
        cases isRestoring
      cases ok with
      | false =>
          have isChanged : changedBy state (.finishRestoring repo false)
              = state.setRestoring repo none := by
            simp [changedBy, isRestoring]
          refine .detached repo (mkEntry info) ?_ ?_ (.inr (.inr ?_)) (fun fuel => ?_)
          · rw [isChanged]
            exact changedAt_setRestoring _ _ _
          · rw [isChanged]
            exact notLive
          · rw [isChanged]
            exact sound.noDependents repo false rfl ⟨info, isRestoring, .inl rfl⟩
          · rw [isChanged]
            simp [step, isRestoring]
      | true =>
          have isChanged : changedBy state (.finishRestoring repo true)
              = (state.setRestoring repo none).setLive repo (some (mkEntry info)) := by
            simp [changedBy, isRestoring]
          have changedAt : ChangedAt repo state (changedBy state (.finishRestoring repo true)) := by
            rw [isChanged]
            exact (changedAt_setRestoring state repo none).trans (changedAt_setLive _ _ _)
          have isLive : (changedBy state (.finishRestoring repo true)).live repo = some (mkEntry info) := by
            rw [isChanged]
            simp [State.setLive]
          refine .attached repo (mkEntry info) changedAt isLive ?_ (.inr ?_) (fun fuel => ?_)
          · rw [isChanged]
            simp [State.setRestoring, State.setLive]
          · by_cases isMissing : RestoredMissing state repo true
            · right
              rintro other ⟨entry, otherLive, isDependency⟩
              have different : other ≠ repo := by
                rintro rfl
                exact sound.acyclic.irreflexive other ⟨entry, otherLive, isDependency⟩
              rw [changedAt.live other different] at otherLive
              exact sound.noDependents repo true rfl isMissing other ⟨entry, otherLive, isDependency⟩
            · left
              intro stillMissing
              exact isMissing ⟨info, isRestoring,
                .inr (dependency_missing changedAt sound.acyclic isLive stillMissing)⟩
          · rw [isChanged]
            simp [step, isRestoring]

theorem recalculates_writeMeta (apart : Apart state) (repo : Repo) (info : Meta Repo)
    : Recalculates state (.writeMeta repo info) := by
  cases isLive : state.live repo with
  | none =>
      refine .nothing ?_ (fun fuel => by simp [step, isLive])
      rw [changedBy, isLive, Option.map_none, State.setLive, ← isLive, Function.update_eq_self]
  | some entry =>
      have isChanged : changedBy state (.writeMeta repo info)
          = state.setLive repo (some { entry with info }) := by
        simp [changedBy, isLive]
      refine .attached repo { entry with info } (changedAt_setLive _ _ _) ?_ ?_ (.inl ?_) (fun fuel => ?_)
      · rw [isChanged]
        simp [State.setLive]
      · exact apart repo (by rw [isLive]; rfl)
      · rw [isChanged]
        simp [State.statusOf, State.setLive, isLive]
      · rw [isChanged]
        simp [step, isLive]

theorem recalculates {event : Event Repo} (apart : Apart state) (sound : Sound state event)
    : Recalculates state event := by
  cases event with
  | create repo info ok => exact recalculates_create state repo info ok
  | delete repo => exact recalculates_delete apart repo
  | startRestoring repo info => exact recalculates_startRestoring state repo info
  | finishRestoring repo ok => exact recalculates_finishRestoring apart sound
  | abortRestoring repo => exact recalculates_abortRestoring apart repo
  | writeMeta repo info => exact recalculates_writeMeta apart repo info

omit [DecidableEq Repo] in
theorem Acyclic.of_sameInfos (acyclic : Acyclic state) (same : SameInfos state after)
    : Acyclic after :=
  Subrelation.wf (fun depends => (same.dependsOn _ _).mp depends) acyclic

omit [DecidableEq Repo] in
theorem Apart.of_sameInfos (apart : Apart state) (same : SameInfos state after) : Apart after := by
  intro repo isLive
  rw [same.restoring]
  exact apart repo (same.isSome repo ▸ isLive)

omit [DecidableEq Repo] in
theorem ChangedAt.apart (isChanged : ChangedAt repo state changed) (apart : Apart state)
    (here : (changed.live repo).isSome → changed.restoring repo = none)
    : Apart changed := by
  intro other isLive
  by_cases same : other = repo
  · subst same
    exact here isLive
  · rw [isChanged.live other same] at isLive
    rw [isChanged.restoring other same]
    exact apart other isLive

theorem ChangedAt.liveIn (isChanged : ChangedAt repo state changed) (liveIn : LiveIn repos state)
    : LiveIn (insert repo repos) changed := by
  intro other isLive
  by_cases same : other = repo
  · exact Finset.mem_insert.mpr (.inl same)
  · rw [isChanged.live other same] at isLive
    exact Finset.mem_insert_of_mem (liveIn other isLive)

/-- Every operation settles all entries that it affects. -/
theorem Inv.step {event : Event Repo} (inv : Inv state) (sound : Sound state event)
    (next : step fuel state event = some after)
    : Inv after := by
  obtain ⟨good, acyclic, apart, repos, liveIn⟩ := inv
  have finish : ∀ {repo : Repo}, ChangedAt repo state (changedBy state event) →
      (((changedBy state event).live repo).isSome →
        (changedBy state event).restoring repo = none) →
      Good ∅ after ∧ SameInfos (changedBy state event) after → Inv after := by
    intro repo isChanged here settled
    obtain ⟨goodAfter, same⟩ := settled
    exact ⟨goodAfter, sound.acyclic.of_sameInfos same, (isChanged.apart apart here).of_sameInfos same,
      _, (isChanged.liveIn liveIn).of_sameInfos same⟩
  cases recalculates apart sound with
  | nothing _ isStep =>
      rw [isStep] at next
      cases next
      exact ⟨good, acyclic, apart, repos, liveIn⟩
  | attached repo entry isChanged isLive notRestoring notices isStep =>
      rw [isStep] at next
      exact finish isChanged (fun _ => notRestoring)
        (settles_attached isChanged good sound.acyclic.irreflexive isLive notices next)
  | detached repo entry isChanged notLive notices isStep =>
      rw [isStep] at next
      exact finish isChanged (fun isLive => by rw [notLive] at isLive; cases isLive)
        (settles_detached isChanged good sound.acyclic.irreflexive notLive notices next)
  | dependents repo isChanged notLive isStep =>
      rw [isStep] at next
      exact finish isChanged (fun isLive => by rw [notLive] at isLive; cases isLive)
        (settles_dependents isChanged good sound.acyclic.irreflexive notLive next)

/-- Every operation completes. -/
theorem Inv.completes {event : Event Repo} (inv : Inv state) (sound : Sound state event)
    : ∃ bound, ∀ fuel, bound ≤ fuel → (Catalog.step fuel state event).isSome := by
  obtain ⟨good, _, apart, repos, liveIn⟩ := inv
  obtain ⟨combined, isCombined⟩ := exists_combined sound.acyclic
  cases recalculates apart sound with
  | nothing _ isStep =>
      refine ⟨0, fun fuel _ => ?_⟩
      rw [isStep]
      rfl
  | attached repo entry isChanged isLive _ _ isStep =>
      refine ⟨(insert repo repos).card + 2, fun fuel enough => ?_⟩
      obtain ⟨after, executed⟩ := ends_attached isChanged good isCombined sound.acyclic isLive
        (isChanged.liveIn liveIn) enough
      rw [isStep, executed]
      rfl
  | detached repo entry isChanged notLive _ isStep =>
      refine ⟨(insert repo repos).card + 2, fun fuel enough => ?_⟩
      obtain ⟨after, executed⟩ :=
        ends_detached entry isChanged good isCombined notLive (isChanged.liveIn liveIn) enough
      rw [isStep, executed]
      rfl
  | dependents repo isChanged notLive isStep =>
      refine ⟨(insert repo repos).card + 1, fun fuel enough => ?_⟩
      obtain ⟨after, executed⟩ :=
        ends_dependents isChanged good isCombined notLive (isChanged.liveIn liveIn) enough
      rw [isStep, executed]
      rfl

theorem lookup_isSome {infos : List (Repo × Meta Repo)} (isSome : (infos.lookup repo).isSome)
    : repo ∈ infos.map Prod.fst := by
  induction infos with
  | nil => cases isSome
  | cons info rest ih =>
      rw [List.lookup_cons] at isSome
      split at isSome
      next same =>
        rw [List.map_cons, eq_of_beq same]
        exact List.mem_cons_self
      next => exact List.mem_cons_of_mem _ (ih isSome)

theorem live_loaded {infos : List (Repo × Meta Repo)} {entry : Entry Repo}
    (isLive : (loaded infos).live repo = some entry)
    : repo ∈ infos.map Prod.fst ∧ entry.status = .missing := by
  obtain ⟨info, isInfo, rfl⟩ := Option.map_eq_some_iff.mp isLive
  exact ⟨lookup_isSome (by rw [isInfo]; rfl), rfl⟩

theorem liveIn_loaded (infos : List (Repo × Meta Repo))
    : LiveIn (infos.map Prod.fst).toFinset (loaded infos) := by
  intro repo isSome
  obtain ⟨entry, isLive⟩ := Option.isSome_iff_exists.mp isSome
  exact List.mem_toFinset.mpr (live_loaded isLive).1

/-- Opening a catalog recalculates every entry, whatever order they come in. -/
theorem inv_openCatalog {infos : List (Repo × Meta Repo)} (acyclic : Acyclic (loaded infos))
    (opened : openCatalog fuel infos = some state)
    : Inv state := by
  have goodLoaded : Good Set.univ (loaded infos) := fun repo _ _ notPending =>
    absurd (Set.mem_univ repo) notPending
  obtain ⟨good, same⟩ :=
    (settles_recalculateStatus fuel).foldlM _ acyclic.irreflexive goodLoaded opened
  have apart : Apart (loaded infos) := fun _ _ => rfl
  refine ⟨good.mono (fun repo isPending isSome => ?_), acyclic.of_sameInfos same,
    apart.of_sameInfos same, _, (liveIn_loaded infos).of_sameInfos same⟩
  rw [same.isSome] at isSome
  obtain ⟨entry, isLive⟩ := Option.isSome_iff_exists.mp isSome
  exact absurd (live_loaded isLive).1 isPending.2

/-- Until an entry is recalculated it is missing, and so are all that depend on it. -/
theorem approaches_loaded {infos : List (Repo × Meta Repo)} {combined : Repo → ItemStatus}
    (isCombined : Combined (loaded infos) combined)
    : Approaches combined (loaded infos) := by
  intro repo entry isLive
  have missing : ∀ other, (loaded infos).statusOf other = .missing := by
    intro other
    cases otherLive : (loaded infos).live other with
    | none => exact statusOf_absent otherLive rfl
    | some otherEntry =>
        rw [State.statusOf, otherLive]
        exact (live_loaded otherLive).2
  cases isDependency : entry.info.dependency with
  | none =>
      right
      refine isCombined.newStatus isLive ?_
      rintro dependency ⟨other, otherLive, depends⟩
      obtain rfl := Option.some.inj (isLive.symm.trans otherLive)
      rw [isDependency] at depends
      cases depends
  | some dependency =>
      left
      rw [newStatus_live isLive, isDependency, (live_loaded isLive).2]
      simp only [missing dependency]
      exact max_eq_right (le_missing _)

theorem openCatalog_completes {infos : List (Repo × Meta Repo)} (acyclic : Acyclic (loaded infos))
    (enough : (infos.map Prod.fst).toFinset.card < fuel)
    : (openCatalog fuel infos).isSome := by
  obtain ⟨combined, isCombined⟩ := exists_combined acyclic
  obtain ⟨after, executed, _⟩ := (ends_recalculateStatus fuel).foldlM (infos.map Prod.fst) isCombined
    (approaches_loaded isCombined) (liveIn_loaded infos).unfinished enough
  rw [openCatalog, executed]
  rfl

/-- A catalog that has been opened; a store has one entry for each database at most. -/
def Starts (state : State Repo) : Prop :=
  ∃ fuel infos, (infos.map Prod.fst).Nodup ∧ Acyclic (loaded infos)
    ∧ openCatalog fuel infos = some state

/-- Operations with the fuel of their recalculations. -/
def operate (state : State Repo) (call : Nat × Event Repo) : Option (State Repo) :=
  step call.1 state call.2

/-- The status of every live entry is the greatest status of the database and all that it depends on. -/
def StatusesCombined (state : State Repo) : Prop :=
  ∀ repo entry, state.live repo = some entry → IsGreatest (statusesBelow state repo) entry.status

omit [DecidableEq Repo] in
theorem Inv.statusesCombined (inv : Inv state) : StatusesCombined state := by
  intro repo entry isLive
  have isGreatest := inv.good.combined.isGreatest inv.acyclic repo
  rwa [State.statusOf, isLive] at isGreatest

/-- Opening a catalog without cycles completes, with statuses that are combined. -/
theorem openCatalog_combines {infos : List (Repo × Meta Repo)} (acyclic : Acyclic (loaded infos))
    (enough : (infos.map Prod.fst).toFinset.card < fuel)
    : ∃ state, openCatalog fuel infos = some state ∧ StatusesCombined state := by
  obtain ⟨state, opened⟩ := Option.isSome_iff_exists.mp (openCatalog_completes acyclic enough)
  exact ⟨state, opened, (inv_openCatalog acyclic opened).statusesCombined⟩

/-- In every run without cycles in which no database with dependents is restored but missing, all
statuses are combined, and every operation completes.
-/
theorem statuses_combined
    (run : Machine.Run operate (fun state call => Sound state call.2) Starts state)
    : StatusesCombined state
      ∧ ∀ event, Sound state event → ∃ bound, ∀ fuel, bound ≤ fuel → (step fuel state event).isSome := by
  have inv : Inv state := by
    refine run.invariant ?_ (fun before call after inv sound next => inv.step sound next)
    rintro state ⟨fuel, infos, _, acyclic, opened⟩
    exact inv_openCatalog acyclic opened
  exact ⟨inv.statusesCombined, fun event sound => inv.completes sound⟩

/-- A database that depends on another one that the store does not have. -/
def stackedInfos : List (Fin 3 × Meta (Fin 3)) := [(2, ⟨.complete, some (.stacked 1)⟩)]

def stackedCatalog : State (Fin 3) := (openCatalog 5 stackedInfos).getD (loaded [])

/-- The calls that restore the dependency. -/
def restoreCalls (info : Meta (Fin 3)) (ok : Bool) : List (Nat × Event (Fin 3)) :=
  [(5, .startRestoring 1 info), (5, .finishRestoring 1 ok)]

/-- Every database depends on one with a smaller number. -/
theorem acyclic_of_lt {state : State (Fin 3)}
    (ascending : ∀ repo, ∀ entry ∈ state.live repo, ∀ dependency ∈ entry.info.dependency,
      dependency < repo)
    : Acyclic state :=
  Subrelation.wf (fun ⟨entry, isLive, isDependency⟩ => ascending _ entry isLive _ isDependency)
    (measure Fin.val).wf

theorem openCatalog_combines_stacked
    : ∃ state, openCatalog 2 stackedInfos = some state ∧ StatusesCombined state :=
  openCatalog_combines (acyclic_of_lt (by decide)) (by decide)

theorem starts_stackedCatalog : Starts stackedCatalog :=
  ⟨5, stackedInfos, by decide, acyclic_of_lt (by decide), rfl⟩

/-- A restored dependency that is complete. -/
theorem statuses_combined_restored
    : ∃ state : State (Fin 3), Machine.Run operate (fun state call => Sound state call.2) Starts state
      ∧ StatusesCombined state ∧ (state.live 2).map Entry.status = some .complete := by
  have areSound : Machine.SoundEvents operate (fun state call => Sound state call.2) stackedCatalog
      (restoreCalls ⟨.complete, none⟩ true) := by
    refine ⟨⟨acyclic_of_lt (by decide), ?_⟩, ⟨acyclic_of_lt (by decide), ?_⟩, trivial⟩
    · rintro repo ok ⟨⟩
    · rintro repo ok same isMissing
      obtain ⟨rfl, rfl⟩ := Event.finishRestoring.inj same
      obtain ⟨info, isRestoring, isFalse | ⟨dependency, isDependency, _⟩⟩ := isMissing
      · cases isFalse
      · cases isRestoring
        cases isDependency
  obtain ⟨state, executed, isComplete⟩ : ∃ state,
      Machine.runEvents operate stackedCatalog (restoreCalls ⟨.complete, none⟩ true) = some state
        ∧ (state.live 2).map Entry.status = some .complete := ⟨_, rfl, rfl⟩
  have run := (Machine.Run.start starts_stackedCatalog).of_runEvents areSound executed
  exact ⟨state, run, (statuses_combined run).1, isComplete⟩

omit [DecidableEq Repo] in
/-- A database with a missing dependency that does not count as missing. -/
theorem not_statusesCombined {entry : Entry Repo} {other : Repo} (isLive : state.live repo = some entry)
    (reaches : Relation.ReflTransGen (DependsOn state) repo other)
    (isMissing : state.ownStatus other = .missing) (isRestoring : entry.status = .restoring)
    : ¬ StatusesCombined state := by
  intro combined
  have missingLe := (combined repo entry isLive).2 ⟨other, reaches, isMissing⟩
  rw [isRestoring] at missingLe
  exact absurd missingLe (by decide)

/-- A dependency that could not be restored, or that is restored while it misses a dependency itself,
goes on counting as being restored.
-/
theorem statuses_stale
    : (∃ state, Machine.runEvents operate stackedCatalog (restoreCalls ⟨.complete, none⟩ false)
          = some state
        ∧ Machine.Run operate (fun state call => Acyclic (changedBy state call.2)) Starts state
        ∧ ¬ StatusesCombined state)
      ∧ ∃ state, Machine.runEvents operate stackedCatalog
            (restoreCalls ⟨.complete, some (.stacked 0)⟩ true) = some state
          ∧ Machine.Run operate (fun state call => Acyclic (changedBy state call.2)) Starts state
          ∧ ¬ StatusesCombined state := by
  have start : Machine.Run operate (fun state call => Acyclic (changedBy state call.2)) Starts
      stackedCatalog := .start starts_stackedCatalog
  constructor
  · obtain ⟨state, executed, entry, isLive, isRestoring, isDependency, isMissing⟩ : ∃ state,
        Machine.runEvents operate stackedCatalog (restoreCalls ⟨.complete, none⟩ false) = some state
          ∧ ∃ entry, state.live 2 = some entry ∧ entry.status = .restoring
            ∧ entry.info.dependency = some 1 ∧ state.ownStatus 1 = .missing :=
      ⟨_, rfl, _, rfl, rfl, rfl, rfl⟩
    refine ⟨state, executed, start.of_runEvents ?_ executed, ?_⟩
    · exact ⟨acyclic_of_lt (by decide), acyclic_of_lt (by decide), trivial⟩
    · exact not_statusesCombined isLive (.single ⟨entry, isLive, isDependency⟩) isMissing isRestoring
  · obtain ⟨state, executed, entry, isLive, isRestoring, isDependency, depends, isMissing⟩ : ∃ state,
        Machine.runEvents operate stackedCatalog (restoreCalls ⟨.complete, some (.stacked 0)⟩ true)
            = some state
          ∧ ∃ entry, state.live 2 = some entry ∧ entry.status = .restoring
            ∧ entry.info.dependency = some 1 ∧ DependsOn state 1 0 ∧ state.ownStatus 0 = .missing :=
      ⟨_, rfl, _, rfl, rfl, rfl, ⟨_, rfl, rfl⟩, rfl⟩
    refine ⟨state, executed, start.of_runEvents ?_ executed, ?_⟩
    · exact ⟨acyclic_of_lt (by decide), acyclic_of_lt (by decide), trivial⟩
    · exact not_statusesCombined isLive (.head ⟨entry, isLive, isDependency⟩ (.single depends))
        isMissing isRestoring

end Glean.Database.Catalog
