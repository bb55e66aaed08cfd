import Mathlib.Data.Finset.Card
import Mathlib.Order.Lattice
import Glean.Database.CatalogStatus

/-! Recalculations end: without cycles, an entry whose status changes gets its combined status, so
each entry changes once at most.
-/

namespace Glean.Database.Catalog

variable {Repo : Type} {state after : State Repo} {repo : Repo} {fuel : Nat}
  {combined : Repo → ItemStatus} {repos : Finset Repo}

theorem SameInfos.ownStatus (same : SameInfos state after) (repo : Repo)
    : after.ownStatus repo = state.ownStatus repo := by
  have isInfo := same.live repo
  rw [State.ownStatus, State.ownStatus, missingStatus_congr same.restoring]
  cases isLive : state.live repo with
  | none =>
      rw [isLive, Option.map_none, Option.map_eq_none_iff] at isInfo
      rw [isInfo]
  | some entry =>
      rw [isLive] at isInfo
      obtain ⟨new, isNew, sameInfo⟩ := Option.map_eq_some_iff.mp isInfo
      rw [isNew]
      exact congrArg (fun info => itemStatusFor info.completeness) sameInfo

theorem Combined.of_sameInfos (isCombined : Combined state combined) (same : SameInfos state after)
    : Combined after combined := by
  refine ⟨fun repo independent => ?_, fun repo dependency depends => ?_⟩
  · rw [same.ownStatus]
    exact isCombined.independent repo (fun dependency depends =>
      independent dependency ((same.dependsOn repo dependency).mpr depends))
  · rw [same.ownStatus]
    exact isCombined.dependent repo dependency ((same.dependsOn repo dependency).mp depends)

/-- A recalculation would leave an entry as it is or give it the combined status. -/
def Approaches (combined : Repo → ItemStatus) (state : State Repo) : Prop :=
  ∀ repo entry, state.live repo = some entry →
    state.newStatus repo entry.info = entry.status
      ∨ state.newStatus repo entry.info = combined repo

/-- The entries that do not have their combined status yet. -/
def unfinished (combined : Repo → ItemStatus) (state : State Repo) : Set Repo :=
  {repo | ∃ entry, state.live repo = some entry ∧ entry.status ≠ combined repo}

/-- The new status of an entry whose dependency has its combined status. -/
theorem Combined.newStatus {entry : Entry Repo} (isCombined : Combined state combined)
    (isLive : state.live repo = some entry)
    (final : ∀ dependency, DependsOn state repo dependency →
      state.statusOf dependency = combined dependency)
    : state.newStatus repo entry.info = combined repo := by
  rw [newStatus_live isLive]
  have isOwn : state.ownStatus repo = itemStatusFor entry.info.completeness := by
    rw [State.ownStatus, isLive]
  cases isDependency : entry.info.dependency with
  | none =>
      refine ((isCombined.independent repo ?_).trans isOwn).symm
      rintro dependency ⟨other, otherLive, depends⟩
      obtain rfl := Option.some.inj (isLive.symm.trans otherLive)
      rw [isDependency] at depends
      cases depends
  | some dependency =>
      have depends : DependsOn state repo dependency := ⟨entry, isLive, isDependency⟩
      rw [isCombined.dependent repo dependency depends, isOwn, ← final dependency depends]

/-- The entries that do not depend on those that are not settled have their combined status. -/
theorem Combined.statusOf (isCombined : Combined state combined) (acyclic : Acyclic state)
    {pending : Set Repo} (good : Good pending state)
    (reachPending : ∀ other ∈ pending, Relation.ReflTransGen (DependsOn state) other repo)
    {other : Repo} (independent : ¬ Relation.ReflTransGen (DependsOn state) other repo)
    : state.statusOf other = combined other := by
  induction other using acyclic.induction with
  | h other ih =>
      cases isLive : state.live other with
      | none =>
          rw [isCombined.independent other, State.statusOf, State.ownStatus, isLive]
          rintro dependency ⟨entry, otherLive, _⟩
          rw [isLive] at otherLive
          cases otherLive
      | some entry =>
          have isSettled := good other entry isLive (fun isPending =>
            independent (reachPending other isPending))
          rw [State.statusOf, isLive]
          refine isSettled.status.trans (isCombined.newStatus isLive (fun dependency depends => ?_))
          exact ih dependency depends (fun reaches => independent (.head depends reaches))

/-- Where a database has its combined status and all entries are settled but for its dependents. -/
theorem Combined.approaches (isCombined : Combined state combined)
    (good : Good {other | DependsOn state other repo} state)
    (final : state.statusOf repo = combined repo)
    : Approaches combined state := by
  intro other entry isLive
  by_cases depends : DependsOn state other repo
  · right
    refine isCombined.newStatus isLive (fun dependency isDependency => ?_)
    obtain rfl := depends.unique isDependency
    exact final
  · exact .inl (good other entry isLive depends).status.symm

/-- A recalculation ends, if few enough entries are unfinished. -/
def Ends (recalculate : State Repo → Repo → Entry Repo → Option (State Repo)) (count : Nat) : Prop :=
  ∀ (combined : Repo → ItemStatus) (repos : Finset Repo) (state : State Repo) (repo : Repo)
    (entry : Entry Repo),
    Combined state combined → Approaches combined state → unfinished combined state ⊆ repos →
      repos.card < count → state.live repo = some entry →
      ∃ after, recalculate state repo entry = some after ∧ SameInfos state after
        ∧ Approaches combined after ∧ unfinished combined after ⊆ unfinished combined state

theorem Ends.foldlM {recalculate : State Repo → Repo → Entry Repo → Option (State Repo)}
    {count : Nat} (ends : Ends recalculate count) (names : List Repo)
    (isCombined : Combined state combined) (approaches : Approaches combined state)
    (subset : unfinished combined state ⊆ repos) (few : repos.card < count)
    : ∃ after, names.foldlM (recalculateLive recalculate) state = some after
        ∧ SameInfos state after ∧ Approaches combined after
        ∧ unfinished combined after ⊆ unfinished combined state := by
  induction names generalizing state with
  | nil => exact ⟨state, rfl, .refl _, approaches, subset_rfl⟩
  | cons first rest ih =>
      cases isLive : state.live first with
      | none =>
          obtain ⟨after, executed, properties⟩ := ih isCombined approaches subset
          refine ⟨after, ?_, properties⟩
          rw [List.foldlM_cons]
          simp only [recalculateLive, isLive, Option.bind_eq_bind, Option.bind_some]
          exact executed
      | some entry =>
          obtain ⟨middle, isMiddle, same, middleApproaches, fewer⟩ :=
            ends combined repos state first entry isCombined approaches subset few isLive
          obtain ⟨after, executed, sameRest, afterApproaches, fewest⟩ :=
            ih (isCombined.of_sameInfos same) middleApproaches (fewer.trans subset)
          refine ⟨after, ?_, same.trans sameRest, afterApproaches, fewest.trans fewer⟩
          rw [List.foldlM_cons]
          simp only [recalculateLive, isLive, isMiddle, Option.bind_eq_bind, Option.bind_some]
          exact executed

variable [DecidableEq Repo]

theorem Approaches.register (approaches : Approaches combined state) (repo : Repo) (info : Meta Repo)
    : Approaches combined (state.register repo info) := by
  intro other entry isLive
  rw [live_register] at isLive
  rw [newStatus_register]
  exact approaches other entry isLive

theorem statusOf_setStatus {entry : Entry Repo} (isLive : state.live repo = some entry)
    (status : ItemStatus)
    : (state.setStatus repo status).statusOf repo = status := by
  simp [State.statusOf, State.setStatus, State.setLive, isLive]

theorem live_setStatus_of_ne {other : Repo} (different : other ≠ repo) (status : ItemStatus)
    : (state.setStatus repo status).live other = state.live other := by
  simp [State.setStatus, State.setLive, different]

theorem Approaches.setStatus {entry : Entry Repo} (approaches : Approaches combined state)
    (isCombined : Combined state combined) (isLive : state.live repo = some entry)
    (isNew : state.newStatus repo entry.info = combined repo)
    : Approaches combined (state.setStatus repo (combined repo)) := by
  have same := sameInfos_setStatus state repo (combined repo)
  have stillCombined := isCombined.of_sameInfos same
  intro other otherEntry otherLive
  by_cases depends : DependsOn (state.setStatus repo (combined repo)) other repo
  · right
    refine stillCombined.newStatus otherLive (fun dependency isDependency => ?_)
    obtain rfl := depends.unique isDependency
    exact statusOf_setStatus isLive _
  · have sameStatus : (state.setStatus repo (combined repo)).newStatus other otherEntry.info
        = state.newStatus other otherEntry.info := by
      refine newStatus_congr ?_ rfl (fun dependency isDependency => ?_)
      · exact same.isSome other
      · refine statusOf_congr (live_setStatus_of_ne ?_ _) rfl
        rintro rfl
        exact depends ⟨otherEntry, otherLive, isDependency⟩
    rw [sameStatus]
    by_cases isSame : other = repo
    · subst isSame
      have isInfo := same.live other
      rw [otherLive, isLive] at isInfo
      have sameInfo : otherEntry.info = entry.info := Option.some.inj isInfo
      rw [sameInfo]
      exact .inr isNew
    · exact approaches other otherEntry (live_setStatus_of_ne isSame _ ▸ otherLive)

theorem unfinished_register (combined : Repo → ItemStatus) (state : State Repo) (repo : Repo)
    (info : Meta Repo)
    : unfinished combined (state.register repo info) = unfinished combined state := by
  rw [unfinished, live_register]
  rfl

theorem unfinished_setStatus {entry : Entry Repo} (isLive : state.live repo = some entry)
    : unfinished combined (state.setStatus repo (combined repo)) ⊆ unfinished combined state \ {repo} := by
  rintro other ⟨otherEntry, otherLive, different⟩
  by_cases same : other = repo
  · subst same
    have isStatus := statusOf_setStatus isLive (combined other)
    rw [State.statusOf, otherLive] at isStatus
    exact absurd isStatus different
  · rw [live_setStatus_of_ne same] at otherLive
    exact ⟨⟨otherEntry, otherLive, different⟩, same⟩

/-- Every change leaves one entry fewer unfinished, which bounds the depth of the recursion. -/
theorem ends_recalculateStatus (fuel : Nat)
    : Ends (recalculateStatus fuel : State Repo → Repo → Entry Repo → Option (State Repo)) fuel := by
  induction fuel with
  | zero =>
      intro combined repos state repo entry _ _ _ few
      cases few
  | succ fuel ih =>
      intro combined repos state repo entry isCombined approaches subset few isLive
      have sameRegistered := sameInfos_register state repo entry.info
      have stillLive : (state.register repo entry.info).live repo = some entry := by
        rw [live_register, isLive]
      simp only [recalculateStatus]
      split
      next =>
        exact ⟨_, rfl, sameRegistered, approaches.register repo entry.info,
          (unfinished_register _ _ _ _).subset⟩
      next changes =>
        have isNew : (state.register repo entry.info).newStatus repo entry.info = combined repo :=
          (approaches.register repo entry.info repo entry stillLive).resolve_left changes
        rw [isNew] at changes ⊢
        have sameStatus := sameInfos_setStatus (state.register repo entry.info) repo (combined repo)
        have isCombinedRegistered := isCombined.of_sameInfos sameRegistered
        have fewer : unfinished combined ((state.register repo entry.info).setStatus repo (combined repo))
            ⊆ unfinished combined (state.register repo entry.info) \ {repo} :=
          unfinished_setStatus stillLive
        rw [unfinished_register] at fewer
        have isMember : repo ∈ repos := subset ⟨entry, isLive, Ne.symm changes⟩
        have fewerRepos
            : unfinished combined ((state.register repo entry.info).setStatus repo (combined repo))
              ⊆ (repos.erase repo : Finset Repo) := by
          intro other isUnfinished
          obtain ⟨wasUnfinished, different⟩ := fewer isUnfinished
          exact Finset.mem_erase.mpr ⟨different, subset wasUnfinished⟩
        have card := Finset.card_erase_lt_of_mem isMember
        obtain ⟨after, executed, same, afterApproaches, fewest⟩ := ih.foldlM _
          (isCombinedRegistered.of_sameInfos sameStatus)
          ((approaches.register repo entry.info).setStatus isCombinedRegistered stillLive isNew)
          fewerRepos (by omega)
        exact ⟨after, executed, sameRegistered.trans (sameStatus.trans same), afterApproaches,
          fewest.trans (fewer.trans Set.sdiff_subset)⟩

end Glean.Database.Catalog
