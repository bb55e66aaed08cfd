import Mathlib.Data.Set.Basic
import Mathlib.Logic.Relation
import Mathlib.Order.Bounds.Basic
import Glean.Database.Catalog
import Glean.Library.Machine

/-! The status of a catalog entry is the combined status of the database and all those it depends
on, after every sequence of operations.
-/

namespace Glean.Database.Catalog

variable {Repo : Type} {state after : State Repo} {repo : Repo}
  {pending : Set Repo} {fuel : Nat}

/-- A live database depends on another one. -/
def DependsOn (state : State Repo) (repo dependency : Repo) : Prop :=
  ∃ entry, state.live repo = some entry ∧ entry.info.dependency = some dependency

theorem DependsOn.unique {left right : Repo} (isLeft : DependsOn state repo left)
    (isRight : DependsOn state repo right)
    : left = right := by
  obtain ⟨entry, isLive, leftDependency⟩ := isLeft
  obtain ⟨other, otherLive, rightDependency⟩ := isRight
  obtain rfl := Option.some.inj (isLive.symm.trans otherLive)
  exact Option.some.inj (leftDependency.symm.trans rightDependency)

/-- The dependency graph has no cycles: every chain of dependencies ends. -/
def Acyclic (state : State Repo) : Prop :=
  WellFounded (fun dependency repo => DependsOn state repo dependency)

theorem Acyclic.irreflexive (acyclic : Acyclic state) (repo : Repo) : ¬ DependsOn state repo repo :=
  fun self => acyclic.asymmetric _ _ self self

/-- Dependencies do not lead back. -/
theorem Acyclic.not_reaches (acyclic : Acyclic state) {dependency : Repo}
    (depends : DependsOn state repo dependency)
    : ¬ Relation.ReflTransGen (DependsOn state) dependency repo := by
  intro reaches
  have cycle : Relation.TransGen (DependsOn state) repo repo := .head' depends reaches
  have swapped := Relation.transGen_swap.mpr cycle
  exact acyclic.transGen.asymmetric _ _ swapped swapped

/-- The own status of a database, whether it is live, being restored or absent. -/
def State.ownStatus (state : State Repo) (repo : Repo) : ItemStatus :=
  match state.live repo with
  | some entry => itemStatusFor entry.info.completeness
  | none => state.missingStatus repo

/-- Recalculations change neither metadata nor which databases are live or restored. -/
structure SameInfos (before after : State Repo) : Prop where
  live : ∀ repo, (after.live repo).map Entry.info = (before.live repo).map Entry.info
  restoring : after.restoring = before.restoring

theorem SameInfos.refl (state : State Repo) : SameInfos state state := ⟨fun _ => rfl, rfl⟩

theorem SameInfos.trans {first second third : State Repo} (left : SameInfos first second)
    (right : SameInfos second third)
    : SameInfos first third :=
  ⟨fun repo => (right.live repo).trans (left.live repo), right.restoring.trans left.restoring⟩

theorem SameInfos.isSome (same : SameInfos state after) (repo : Repo)
    : (after.live repo).isSome = (state.live repo).isSome := by
  have isInfo := congrArg Option.isSome (same.live repo)
  rwa [Option.isSome_map, Option.isSome_map] at isInfo

theorem SameInfos.dependsOn (same : SameInfos state after) (repo dependency : Repo)
    : DependsOn after repo dependency ↔ DependsOn state repo dependency := by
  have isInfo := same.live repo
  constructor
  · rintro ⟨entry, isLive, isDependency⟩
    rw [isLive] at isInfo
    obtain ⟨old, isOld, sameInfo⟩ := Option.map_eq_some_iff.mp isInfo.symm
    exact ⟨old, isOld, sameInfo ▸ isDependency⟩
  · rintro ⟨entry, isLive, isDependency⟩
    rw [isLive] at isInfo
    obtain ⟨new, isNew, sameInfo⟩ := Option.map_eq_some_iff.mp isInfo
    exact ⟨new, isNew, sameInfo ▸ isDependency⟩

/-- An entry has the status that it would get, and is known as a dependent. -/
structure Settled (state : State Repo) (repo : Repo) (entry : Entry Repo) : Prop where
  status : entry.status = state.newStatus repo entry.info
  registered
    : ∀ dependency, entry.info.dependency = some dependency → repo ∈ state.dependents dependency

/-- All live entries are settled, but for some that are pending. -/
def Good (pending : Set Repo) (state : State Repo) : Prop :=
  ∀ repo entry, state.live repo = some entry → repo ∉ pending → Settled state repo entry

theorem Good.mono {more : Set Repo} (good : Good pending state)
    (subset : ∀ repo ∈ pending, (state.live repo).isSome → repo ∈ more)
    : Good more state := by
  intro repo entry isLive notMore
  refine good repo entry isLive (fun isPending => notMore (subset repo isPending ?_))
  rw [isLive]
  rfl

/-- The new status of a live entry. -/
theorem newStatus_live {entry : Entry Repo} (isLive : state.live repo = some entry) (info : Meta Repo)
    : state.newStatus repo info = match info.dependency with
      | none => itemStatusFor info.completeness
      | some dependency => max (itemStatusFor info.completeness) (state.statusOf dependency) := by
  rw [State.newStatus, isLive]
  rfl

theorem missingStatus_congr (same : after.restoring = state.restoring) (repo : Repo)
    : after.missingStatus repo = state.missingStatus repo := by
  rw [State.missingStatus, same]
  rfl

theorem statusOf_congr (sameLive : after.live repo = state.live repo)
    (sameRestoring : after.restoring = state.restoring)
    : after.statusOf repo = state.statusOf repo := by
  rw [State.statusOf, State.statusOf, sameLive, missingStatus_congr sameRestoring]

theorem newStatus_congr {info : Meta Repo} (sameLive : (after.live repo).isSome = (state.live repo).isSome)
    (sameRestoring : after.restoring = state.restoring)
    (same : ∀ dependency, info.dependency = some dependency →
      after.statusOf dependency = state.statusOf dependency)
    : after.newStatus repo info = state.newStatus repo info := by
  rw [State.newStatus, State.newStatus, sameLive, missingStatus_congr sameRestoring]
  split
  next => rfl
  next dependency isDependency => rw [same dependency isDependency]

/-- The own statuses of a database and of all that it depends on, directly or not. -/
def statusesBelow (state : State Repo) (repo : Repo) : Set ItemStatus :=
  {status | ∃ other, Relation.ReflTransGen (DependsOn state) repo other
    ∧ state.ownStatus other = status}

theorem statusesBelow_of_independent (independent : ∀ dependency, ¬ DependsOn state repo dependency)
    : statusesBelow state repo = {state.ownStatus repo} := by
  ext status
  rw [Set.mem_singleton_iff]
  constructor
  · rintro ⟨other, reaches, rfl⟩
    rcases reaches.cases_head with same | ⟨dependency, depends, _⟩
    · rw [same]
    · exact absurd depends (independent dependency)
  · intro isOwn
    exact ⟨repo, .refl, isOwn.symm⟩

theorem statusesBelow_of_dependsOn {dependency : Repo} (depends : DependsOn state repo dependency)
    : statusesBelow state repo = insert (state.ownStatus repo) (statusesBelow state dependency) := by
  ext status
  rw [Set.mem_insert_iff]
  constructor
  · rintro ⟨other, reaches, rfl⟩
    rcases reaches.cases_head with same | ⟨next, isNext, rest⟩
    · rw [same]
      exact .inl rfl
    · obtain rfl := depends.unique isNext
      exact .inr ⟨other, rest, rfl⟩
  · rintro (isOwn | ⟨other, reaches, isOther⟩)
    · exact ⟨repo, .refl, isOwn.symm⟩
    · exact ⟨other, .head depends reaches, isOther⟩

/-- What a status has to be, given those of the dependencies. -/
structure Combined (state : State Repo) (combined : Repo → ItemStatus) : Prop where
  independent
    : ∀ repo, (∀ dependency, ¬ DependsOn state repo dependency) → combined repo = state.ownStatus repo
  dependent
    : ∀ repo dependency, DependsOn state repo dependency →
        combined repo = max (state.ownStatus repo) (combined dependency)

/-- Combined statuses are the greatest of those below. -/
theorem Combined.isGreatest {combined : Repo → ItemStatus} (isCombined : Combined state combined)
    (acyclic : Acyclic state) (repo : Repo)
    : IsGreatest (statusesBelow state repo) (combined repo) := by
  induction repo using acyclic.induction with
  | h repo ih =>
      by_cases depends : ∃ dependency, DependsOn state repo dependency
      · obtain ⟨dependency, depends⟩ := depends
        rw [statusesBelow_of_dependsOn depends, isCombined.dependent repo dependency depends]
        exact (ih dependency depends).insert _
      · have independent : ∀ dependency, ¬ DependsOn state repo dependency := fun dependency isDependency =>
          depends ⟨dependency, isDependency⟩
        rw [statusesBelow_of_independent independent, isCombined.independent repo independent]
        exact isGreatest_singleton

/-- Without cycles every database has a combined status. -/
theorem exists_combined (acyclic : Acyclic state) : ∃ combined, Combined state combined := by
  have greatest : ∀ repo, ∃ status, IsGreatest (statusesBelow state repo) status := by
    intro repo
    induction repo using acyclic.induction with
    | h repo ih =>
        by_cases depends : ∃ dependency, DependsOn state repo dependency
        · obtain ⟨dependency, depends⟩ := depends
          obtain ⟨status, isGreatest⟩ := ih dependency depends
          rw [statusesBelow_of_dependsOn depends]
          exact ⟨_, isGreatest.insert _⟩
        · rw [statusesBelow_of_independent (fun dependency isDependency =>
            depends ⟨dependency, isDependency⟩)]
          exact ⟨_, isGreatest_singleton⟩
  choose combined isGreatest using greatest
  refine ⟨combined, fun repo independent => ?_, fun repo dependency depends => ?_⟩
  · have isOwn := isGreatest repo
    rw [statusesBelow_of_independent independent] at isOwn
    exact isOwn.unique isGreatest_singleton
  · have isMax := isGreatest repo
    rw [statusesBelow_of_dependsOn depends] at isMax
    exact isMax.unique ((isGreatest dependency).insert _)

/-- If all entries are settled, the statuses are the combined ones. -/
theorem Good.combined (good : Good ∅ state) : Combined state state.statusOf := by
  refine ⟨fun repo independent => ?_, fun repo dependency depends => ?_⟩
  · cases isLive : state.live repo with
    | none => rw [State.statusOf, State.ownStatus, isLive]
    | some entry =>
        have isStatus := (good repo entry isLive (Set.notMem_empty repo)).status
        rw [newStatus_live isLive] at isStatus
        cases isDependency : entry.info.dependency with
        | some dependency => exact absurd ⟨entry, isLive, isDependency⟩ (independent dependency)
        | none =>
            rw [isDependency] at isStatus
            rw [State.statusOf, State.ownStatus, isLive]
            exact isStatus
  · obtain ⟨entry, isLive, isDependency⟩ := depends
    have isStatus := (good repo entry isLive (Set.notMem_empty repo)).status
    rw [newStatus_live isLive, isDependency] at isStatus
    rw [State.statusOf, State.ownStatus, isLive]
    exact isStatus

/-- What a recalculation does to the entries that are not settled. -/
def Settles (recalculate : State Repo → Repo → Entry Repo → Option (State Repo)) : Prop :=
  ∀ (pending : Set Repo) (state after : State Repo) (repo : Repo) (entry : Entry Repo),
    (∀ other, ¬ DependsOn state other other) → state.live repo = some entry → Good pending state →
      recalculate state repo entry = some after → Good (pending \ {repo}) after ∧ SameInfos state after

/-- Recalculating the dependents in a list settles them. -/
theorem Settles.foldlM {recalculate : State Repo → Repo → Entry Repo → Option (State Repo)}
    (settles : Settles recalculate) (repos : List Repo) (irreflexive : ∀ other, ¬ DependsOn state other other)
    (good : Good pending state)
    (executed : repos.foldlM (recalculateLive recalculate) state = some after)
    : Good (pending \ {other | other ∈ repos}) after ∧ SameInfos state after := by
  induction repos generalizing state pending with
  | nil =>
      cases executed
      exact ⟨by simpa using good, .refl _⟩
  | cons first rest ih =>
      rw [List.foldlM_cons] at executed
      obtain ⟨middle, isFirst, isRest⟩ := Option.bind_eq_some_iff.mp executed
      have settled : Good (pending \ {first}) middle ∧ SameInfos state middle := by
        rw [recalculateLive] at isFirst
        split at isFirst
        next entry isLive => exact settles pending state middle first entry irreflexive isLive good isFirst
        next notLive =>
          cases isFirst
          refine ⟨good.mono (fun repo isPending isLive => ⟨isPending, ?_⟩), .refl _⟩
          rintro rfl
          rw [notLive] at isLive
          cases isLive
      obtain ⟨goodRest, sameFirst⟩ := settled
      have stillIrreflexive : ∀ other, ¬ DependsOn middle other other := fun other self =>
        irreflexive other ((sameFirst.dependsOn other other).mp self)
      obtain ⟨goodAll, sameRest⟩ := ih stillIrreflexive goodRest isRest
      refine ⟨goodAll.mono (fun repo isPending _ => ?_), sameFirst.trans sameRest⟩
      obtain ⟨⟨wasPending, notFirst⟩, notRest⟩ := isPending
      refine ⟨wasPending, ?_⟩
      rintro (_ | _)
      · exact notFirst rfl
      · exact notRest (by assumption)

variable [DecidableEq Repo]

@[simp]
theorem live_register (state : State Repo) (repo : Repo) (info : Meta Repo)
    : (state.register repo info).live = state.live := by
  rw [State.register]
  split <;> rfl

@[simp]
theorem restoring_register (state : State Repo) (repo : Repo) (info : Meta Repo)
    : (state.register repo info).restoring = state.restoring := by
  rw [State.register]
  split <;> rfl

theorem newStatus_register (state : State Repo) (repo other : Repo) (info otherInfo : Meta Repo)
    : (state.register other otherInfo).newStatus repo info = state.newStatus repo info := by
  refine newStatus_congr ?_ (restoring_register _ _ _) (fun dependency _ => ?_)
  · rw [live_register]
  · exact statusOf_congr (by rw [live_register]) (restoring_register _ _ _)

/-- Registering an entry that is live keeps all others registered. -/
theorem mem_dependents_register {entry : Entry Repo} (isLive : state.live repo = some entry)
    (info : Meta Repo) {other dependency : Repo} (member : other ∈ state.dependents dependency)
    : other ∈ (state.register repo info).dependents dependency := by
  rw [State.register]
  split
  next => exact member
  next known _ =>
    by_cases same : dependency = known
    · subst same
      simp [isLive, member]
    · simpa [Function.update_of_ne same] using member

theorem mem_dependents_register_self {entry : Entry Repo} (isLive : state.live repo = some entry)
    {info : Meta Repo} {dependency : Repo} (isDependency : info.dependency = some dependency)
    : repo ∈ (state.register repo info).dependents dependency := by
  rw [State.register, isDependency]
  simp [isLive]

/-- Registering an entry removes itself only. -/
theorem mem_dependents_register_of_ne (info : Meta Repo) {other dependency : Repo} (different : other ≠ repo)
    (member : other ∈ state.dependents dependency)
    : other ∈ (state.register repo info).dependents dependency := by
  rw [State.register]
  split
  next => exact member
  next known _ =>
    by_cases same : dependency = known
    · subst same
      simp only [Function.update_self]
      split
      next => exact List.mem_cons_of_mem _ member
      next => exact List.mem_filter.mpr ⟨member, by simpa using different⟩
    · simpa [Function.update_of_ne same] using member

theorem sameInfos_register (state : State Repo) (repo : Repo) (info : Meta Repo)
    : SameInfos state (state.register repo info) :=
  ⟨fun other => by rw [live_register], restoring_register _ _ _⟩

theorem sameInfos_setStatus (state : State Repo) (repo : Repo) (status : ItemStatus)
    : SameInfos state (state.setStatus repo status) := by
  refine ⟨fun other => ?_, rfl⟩
  by_cases same : other = repo
  · subst same
    simp [State.setStatus, State.setLive, Function.comp_def]
  · simp [State.setStatus, State.setLive, same]

/-- The status of one database changes, and only its dependents are not settled any more. -/
theorem Good.setStatus {entry : Entry Repo} {status : ItemStatus} (good : Good pending state)
    (irreflexive : ¬ DependsOn state repo repo) (isLive : state.live repo = some entry)
    (isStatus : status = state.newStatus repo entry.info)
    (registered : ∀ dependency, entry.info.dependency = some dependency →
      repo ∈ state.dependents dependency)
    : Good (pending \ {repo} ∪ {other | DependsOn state other repo})
        (state.setStatus repo status) := by
  have others : ∀ other, other ≠ repo →
      (state.setStatus repo status).live other = state.live other := by
    intro other different
    simp [State.setStatus, State.setLive, different]
  intro other otherEntry otherLive notPending
  rw [Set.mem_union, not_or] at notPending
  obtain ⟨settledBefore, independent⟩ := notPending
  have sameStatus : ∀ info : Meta Repo, info.dependency ≠ some repo →
      (state.live other).isSome = ((state.setStatus repo status).live other).isSome →
      (state.setStatus repo status).newStatus other info = state.newStatus other info := by
    intro info different sameLive
    refine newStatus_congr sameLive.symm rfl (fun dependency isDependency => ?_)
    refine statusOf_congr (others dependency ?_) rfl
    rintro rfl
    exact different isDependency
  by_cases same : other = repo
  · subst same
    simp only [State.setStatus, State.setLive, Function.update_self, isLive, Option.map_some,
      Option.some.injEq] at otherLive
    subst otherLive
    have notSelf : entry.info.dependency ≠ some other := fun self =>
      irreflexive ⟨entry, isLive, self⟩
    refine ⟨?_, registered⟩
    rw [sameStatus entry.info notSelf (by simp [State.setStatus, State.setLive, isLive])]
    exact isStatus
  · have isOld := others other same ▸ otherLive
    have isSettled := good other otherEntry isOld (fun isPending => settledBefore ⟨isPending, same⟩)
    have notDependent : otherEntry.info.dependency ≠ some repo := fun dependent =>
      independent ⟨otherEntry, isOld, dependent⟩
    refine ⟨?_, isSettled.registered⟩
    rw [sameStatus otherEntry.info notDependent (by rw [others other same])]
    exact isSettled.status

/-- Registering an entry keeps all others settled. -/
theorem Good.register (good : Good pending state) (repo : Repo) (info : Meta Repo)
    : Good pending (state.register repo info) := by
  intro other entry otherLive notPending
  rw [live_register] at otherLive
  have isSettled := good other entry otherLive notPending
  refine ⟨?_, fun dependency isDependency => ?_⟩
  · rw [newStatus_register]
    exact isSettled.status
  · have member := isSettled.registered dependency isDependency
    by_cases same : other = repo
    · subst same
      exact mem_dependents_register otherLive info member
    · exact mem_dependents_register_of_ne info same member

/-- A new status is passed on to the dependents that are known. -/
theorem Settles.recalculateDependents
    {recalculate : State Repo → Repo → Entry Repo → Option (State Repo)}
    (settles : Settles recalculate) {entry : Entry Repo}
    (irreflexive : ∀ other, ¬ DependsOn state other other) (isLive : state.live repo = some entry)
    (good : Good pending state)
    (registered : ∀ dependency, entry.info.dependency = some dependency →
      repo ∈ state.dependents dependency)
    (executed : recalculateDependents recalculate
      (state.setStatus repo (state.newStatus repo entry.info)) repo = some after)
    : Good ((pending \ {repo} ∪ {other | DependsOn state other repo})
          \ {other | other ∈ state.dependents repo}) after
        ∧ SameInfos state after := by
  have goodStatus := good.setStatus (irreflexive repo) isLive rfl registered
  have sameStatus := sameInfos_setStatus state repo (state.newStatus repo entry.info)
  obtain ⟨goodAll, sameAll⟩ := settles.foldlM _
    (fun other self => irreflexive other ((sameStatus.dependsOn other other).mp self))
    goodStatus executed
  exact ⟨goodAll, sameStatus.trans sameAll⟩

/-- `recalculateStatus` settles a live entry, and keeps the others settled. -/
theorem settles_recalculateStatus (fuel : Nat)
    : Settles (recalculateStatus fuel : State Repo → Repo → Entry Repo → Option (State Repo)) := by
  induction fuel with
  | zero =>
      intro pending state after repo entry _ _ _ executed
      cases executed
  | succ fuel ih =>
      intro pending state after repo entry irreflexive isLive good executed
      simp only [recalculateStatus] at executed
      have stillLive : (state.register repo entry.info).live repo = some entry := by
        rw [live_register, isLive]
      have registered := good.register repo entry.info
      have isRegistered : ∀ dependency, entry.info.dependency = some dependency →
          repo ∈ (state.register repo entry.info).dependents dependency := fun dependency isDependency =>
        mem_dependents_register_self isLive isDependency
      have sameRegistered := sameInfos_register state repo entry.info
      split at executed
      next isStatus =>
        cases executed
        refine ⟨fun other otherEntry otherLive notPending => ?_, sameRegistered⟩
        by_cases same : other = repo
        · subst same
          obtain rfl := Option.some.inj (stillLive.symm.trans otherLive)
          exact ⟨isStatus.symm, isRegistered⟩
        · exact registered other otherEntry otherLive (fun isPending => notPending ⟨isPending, same⟩)
      next =>
        have stillIrreflexive : ∀ other, ¬ DependsOn (state.register repo entry.info) other other :=
          fun other self => irreflexive other ((sameRegistered.dependsOn other other).mp self)
        obtain ⟨goodAll, sameAll⟩ :=
          ih.recalculateDependents stillIrreflexive stillLive registered isRegistered executed
        refine ⟨goodAll.mono (fun other isPending isSome => ?_),
          sameRegistered.trans sameAll⟩
        obtain ⟨isPending | dependent, notDependent⟩ := isPending
        · exact isPending
        · -- a dependent that was settled is registered
          obtain ⟨otherEntry, otherLive, isDependency⟩ := dependent
          by_cases wasPending : other ∈ pending
          · refine ⟨wasPending, ?_⟩
            rintro rfl
            exact stillIrreflexive other ⟨otherEntry, otherLive, isDependency⟩
          · have isSettled := registered other otherEntry otherLive wasPending
            exact absurd (isSettled.registered repo isDependency) notDependent

end Glean.Database.Catalog
