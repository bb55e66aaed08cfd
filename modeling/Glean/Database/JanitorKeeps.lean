import Mathlib.Data.Finset.Image
import Mathlib.Data.List.ReduceOption
import Glean.Database.Janitor

/-! The janitor deletes nothing that is needed. -/

namespace Glean.Database.Janitor

variable {uniqBy : List Item → List Item} {policy : DatabaseRetentionPolicy} {now : Int}
variable {dbs keep group : List Item} {item other : Item} {repoNm : String}

theorem groupsByName_concat (dbs : List Item) (item : Item)
    : groupsByName (dbs ++ [item]) = insertByName (groupsByName dbs) item := by
  rw [groupsByName, List.foldl_append]
  rfl

/-- A group holds the databases of its name, and only the empty group has no entry. -/
theorem lookup_groupsByName (dbs : List Item) (repoNm : String)
    : (((groupsByName dbs).lookup repoNm).getD []).Perm (dbs.filter (·.repo.name = repoNm)) := by
  induction dbs using List.reverseRecOn with
  | nil => exact .nil
  | append_singleton dbs item ih =>
      rw [groupsByName_concat, insertByName, AssocMap.lookup_insert, List.filter_append]
      by_cases same : repoNm = item.repo.name
      · subst same
        rw [if_pos rfl, Option.getD_some, List.filter_cons_of_pos (by simp), List.filter_nil]
        exact (ih.cons item).trans (List.perm_append_singleton item _).symm
      · rw [if_neg same, List.filter_cons_of_neg (by simpa using Ne.symm same), List.filter_nil,
          List.append_nil]
        exact ih

theorem perm_of_mem_byRepoName (member : (repoNm, group) ∈ byRepoName dbs)
    : group.Perm (dbs.filter (·.repo.name = repoNm)) := by
  have isGroup := lookup_groupsByName dbs repoNm
  rw [AssocMap.lookup_of_mem member, Option.getD_some] at isGroup
  exact isGroup

/-- The databases of a name are a group, unless there are none. -/
theorem exists_group (dbs : List Item) (repoNm : String)
    : (∃ group, (repoNm, group) ∈ byRepoName dbs) ∨ dbs.filter (·.repo.name = repoNm) = [] := by
  have isGroup := lookup_groupsByName dbs repoNm
  cases found : (groupsByName dbs).lookup repoNm with
  | none =>
      rw [found, Option.getD_none] at isGroup
      exact .inr isGroup.nil_eq.symm
  | some group => exact .inl ⟨group, AssocMap.mem_of_lookup found⟩

theorem perm_sorted (dbs : List Item) : (sorted dbs).Perm dbs := List.perm_insertionSort _ _

theorem mem_of_mem_take {count : Int} (member : item ∈ take count dbs) : item ∈ dbs :=
  List.mem_of_mem_take member

theorem mem_of_mem_keepAccordingToPolicy {retention : Retention}
    (member : item ∈ keepAccordingToPolicy retention now dbs)
    : item ∈ dbs := by
  have inKept := List.mem_of_mem_filter member
  cases isMost : retention.retainAtMost with
  | none =>
      rw [isMost] at inKept
      exact (perm_sorted dbs).mem_iff.mp inKept
  | some count =>
      rw [isMost] at inKept
      exact (perm_sorted dbs).mem_iff.mp (mem_of_mem_take inKept)

/-- The roots are databases of the list. -/
theorem mem_of_mem_keepRoots (lawful : UniqByRepo uniqBy)
    (member : item ∈ keepRoots uniqBy policy now dbs)
    : item ∈ dbs := by
  obtain ⟨⟨repoNm, group⟩, inGroups, inRoots⟩ := List.mem_flatMap.mp member
  have inGroup : item ∈ group := by
    rcases List.mem_append.mp (lawful.subset inRoots) with policyOrAnywhere | here
    · rcases List.mem_append.mp policyOrAnywhere with byPolicy | anywhere
      · exact mem_of_mem_keepAccordingToPolicy byPolicy
      · exact (perm_sorted group).mem_iff.mp (List.mem_of_mem_filter (mem_of_mem_take anywhere))
    · exact (perm_sorted group).mem_iff.mp (List.mem_of_mem_filter (mem_of_mem_take here))
  exact List.mem_of_mem_filter ((perm_of_mem_byRepoName inGroups).mem_iff.mp inGroup)

theorem lookup_repoMap {repo : Repo} (found : (repoMap dbs).lookup repo = some item)
    : item ∈ dbs ∧ item.repo = repo := by
  obtain ⟨entry, member, isEntry⟩ := List.mem_map.mp (AssocMap.mem_of_lookup_fromList found)
  cases isEntry
  exact ⟨member, rfl⟩

theorem exists_lookup_repoMap {repo : Repo} (present : repo ∈ dbs.map Item.repo)
    : ∃ item, (repoMap dbs).lookup repo = some item := by
  apply AssocMap.lookup_fromList_of_mem
  rw [List.map_map]
  exact present

/-- The items that the closure goes on to. -/
def next (dbs : List Item) (item : Item) : List Item := (dependencies dbs item).reduceOption

theorem mem_next_iff
    : other ∈ next dbs item
      ↔ ∃ repo, item.info.dependency = some repo ∧ (repoMap dbs).lookup repo = some other := by
  rw [next, List.reduceOption_mem_iff, dependencies, Catalog.Meta.dependency]
  cases item.info.dependencies with
  | none => simp
  | some dependency => cases dependency <;> simp [eq_comm]

theorem mem_of_leads (leads : Closure.Leads (next dbs) item other) (member : item ∈ dbs)
    : other ∈ dbs := by
  induction leads with
  | refl => exact member
  | tail _ isNext _ =>
      obtain ⟨repo, -, found⟩ := mem_next_iff.mp isNext
      exact (lookup_repoMap found).1

/-- The janitor gets to a decision. -/
theorem exists_keeps (lawful : UniqByRepo uniqBy) (policy : DatabaseRetentionPolicy) (now : Int)
    (dbs : List Item)
    : ∃ keep, Keeps uniqBy policy now dbs keep := by
  have inRoots
      : ∀ root ∈ keepRoots uniqBy policy now dbs, root.repo ∈ (dbs.map Item.repo).toFinset := by
    intro root member
    exact List.mem_toFinset.mpr (List.mem_map_of_mem (mem_of_mem_keepRoots lawful member))
  have inNext : ∀ item, ∀ target ∈ next dbs item, target.repo ∈ (dbs.map Item.repo).toFinset := by
    intro item target member
    obtain ⟨repo, -, found⟩ := mem_next_iff.mp member
    exact List.mem_toFinset.mpr (List.mem_map_of_mem (lookup_repoMap found).1)
  obtain ⟨kept, halts⟩ := Closure.exists_halts _ inRoots inNext
  exact ⟨kept.values, kept, halts, rfl⟩

/-- What the closure yields: the roots are kept, and so is what is depended on. -/
structure Kept (roots dbs keep : List Item) : Prop where
  subset : ∀ item ∈ keep, item ∈ dbs
  contains : ∀ item ∈ roots, item.repo ∈ keep.map Item.repo
  closed : ∀ item ∈ keep, ∀ target ∈ next dbs item, target.repo ∈ keep.map Item.repo

theorem kept_of_keeps (lawful : UniqByRepo uniqBy) (keeps : Keeps uniqBy policy now dbs keep)
    : Kept (keepRoots uniqBy policy now dbs) dbs keep := by
  obtain ⟨kept, halts, rfl⟩ := keeps
  have isClosure := Closure.isClosure_of_halts Closure.searches_start halts
  have isKept
      : ∀ {repo}, (∃ item, kept.lookup repo = some item) → repo ∈ kept.values.map Item.repo := by
    intro repo ⟨item, found⟩
    exact List.mem_map.mpr ⟨item, AssocMap.mem_values_iff.mpr ⟨_, found⟩, isClosure.keyed found⟩
  refine
    { subset := fun item member => ?_
      contains := fun item member => isKept (isClosure.contains item member)
      closed := fun item member target isNext => ?_ }
  · obtain ⟨repo, found⟩ := AssocMap.mem_values_iff.mp member
    obtain ⟨root, isRoot, leads⟩ := isClosure.reached found
    exact mem_of_leads leads (mem_of_mem_keepRoots lawful isRoot)
  · obtain ⟨repo, found⟩ := AssocMap.mem_values_iff.mp member
    exact isKept (isClosure.closed found target isNext)

section Kept

variable {roots : List Item} (isKept : Kept roots dbs keep)

include isKept

theorem Kept.closed_of_present (member : item ∈ keep) {repo : Repo}
    (depends : item.info.dependency = some repo) (present : repo ∈ dbs.map Item.repo)
    : repo ∈ keep.map Item.repo := by
  obtain ⟨target, found⟩ := exists_lookup_repoMap present
  have inKeep := isKept.closed item member target (mem_next_iff.mpr ⟨repo, depends, found⟩)
  rw [(lookup_repoMap found).2] at inKeep
  exact inKeep

/-- What a kept database depends on, over any number of others, is kept if it is present. -/
theorem Kept.of_dependsOn (member : item ∈ keep) {repo : Repo}
    (depends : Relation.ReflTransGen (DependsOn dbs) item.repo repo)
    (present : repo ∈ dbs.map Item.repo)
    : repo ∈ keep.map Item.repo := by
  induction depends with
  | refl => exact List.mem_map_of_mem member
  | tail _ last ih =>
      obtain ⟨⟨listed, inDbs, isSource⟩, agree⟩ := last
      obtain ⟨source, inKeep, sameRepo⟩ :=
        List.mem_map.mp (ih (List.mem_map.mpr ⟨listed, inDbs, isSource⟩))
      have direct := agree source (isKept.subset source inKeep) sameRepo
      exact isKept.closed_of_present inKeep direct present

end Kept

theorem notMem_deleted {repo : Repo} (kept : repo ∈ keep.map Item.repo)
    : repo ∉ deleted dbs keep := by
  intro member
  obtain ⟨item, inFilter, rfl⟩ := List.mem_map.mp member
  have absent := (List.mem_filter.mp inFilter).2
  simp only [decide_eq_true_eq] at absent
  exact absent.2 kept

theorem mem_deleted {repo : Repo} (member : repo ∈ deleted dbs keep)
    : ∃ item ∈ dbs, item.repo = repo ∧ item.locality = .localDB := by
  obtain ⟨item, inFilter, rfl⟩ := List.mem_map.mp member
  obtain ⟨inDbs, isLocal⟩ := List.mem_filter.mp inFilter
  simp only [decide_eq_true_eq] at isLocal
  exact ⟨item, inDbs, rfl, isLocal.1⟩

/-- The complete local databases of a group, from the newest on. -/
def viableLocalDBs (group : List Item) : List Item :=
  (sorted group).filter (viableWith (· = .localDB))

theorem perm_viableLocalDBs (member : (repoNm, group) ∈ byRepoName dbs)
    : (viableLocalDBs group).Perm (completeLocal dbs repoNm) := by
  have isGroup := (perm_sorted group).trans (perm_of_mem_byRepoName member)
  have same
      : completeLocal dbs repoNm
        = (dbs.filter (·.repo.name = repoNm)).filter (viableWith (· = .localDB)) := by
    rw [List.filter_filter, completeLocal]
    congr 1
    funext item
    rw [Bool.decide_and, Bool.decide_eq_true, Bool.and_comm]
  rw [same]
  exact isGroup.filter _

theorem newestFirst_viableLocalDBs (group : List Item)
    : (viableLocalDBs group).Pairwise NewerFirst :=
  (List.pairwise_insertionSort NewerFirst group).filter _

/-- The first complete local databases of a group are kept. -/
theorem Kept.newest_of_group (lawful : UniqByRepo uniqBy)
    (isKept : Kept (keepRoots uniqBy policy now dbs) dbs keep)
    (member : (repoNm, group) ∈ byRepoName dbs)
    (isNewest : item ∈ take ((repoRetention policy repoNm).retainAtLeast.getD 0)
      (viableLocalDBs group))
    : item.repo ∈ keep.map Item.repo := by
  obtain ⟨left, isLeft, sameRepo⟩ := lawful.covers (List.mem_append_right _ isNewest)
  rw [← sameRepo]
  exact isKept.contains left (List.mem_flatMap.mpr ⟨_, member, isLeft⟩)

theorem Kept.newest (lawful : UniqByRepo uniqBy)
    (isKept : Kept (keepRoots uniqBy policy now dbs) dbs keep) (repoNm : String)
    : ∃ stay others : List Item,
        (stay ++ others).Perm (completeLocal dbs repoNm)
          ∧ stay.length
            = min ((repoRetention policy repoNm).retainAtLeast.getD 0).toNat
                (completeLocal dbs repoNm).length
          ∧ (∀ item ∈ stay, item.repo ∉ deleted dbs keep)
          ∧ ∀ newer ∈ stay, ∀ older ∈ others, older.info.created ≤ newer.info.created := by
  rcases exists_group dbs repoNm with ⟨group, member⟩ | noGroup
  · have isPerm := perm_viableLocalDBs member
    let count := ((repoRetention policy repoNm).retainAtLeast.getD 0).toNat
    refine ⟨(viableLocalDBs group).take count, (viableLocalDBs group).drop count, ?_, ?_, ?_, ?_⟩
    · rw [List.take_append_drop]
      exact isPerm
    · rw [List.length_take, isPerm.length_eq]
    · intro item isNewest
      exact notMem_deleted (isKept.newest_of_group lawful member isNewest)
    · have ordered := newestFirst_viableLocalDBs group
      rw [← List.take_append_drop count (viableLocalDBs group), List.pairwise_append] at ordered
      exact ordered.2.2
  · have noneComplete : completeLocal dbs repoNm = [] := by
      rw [List.filter_eq_nil_iff] at noGroup
      refine List.filter_eq_nil_iff.mpr (fun item member => ?_)
      simpa using fun isName => absurd isName (by simpa using noGroup item member)
    refine ⟨[], [], ?_, ?_, nofun, nofun⟩
    · rw [noneComplete]
      exact .nil
    · rw [noneComplete, List.length_nil, Nat.min_zero]

theorem safe_of_keeps (lawful : UniqByRepo uniqBy) (keeps : Keeps uniqBy policy now dbs keep)
    : Safe policy dbs keep := by
  have isKept := kept_of_keeps lawful keeps
  exact
    { closed := fun item member repo depends => isKept.closed_of_present member depends
      disjoint := fun repo isDeleted kept => notMem_deleted kept isDeleted
      onlyLocal := fun repo => mem_deleted
      needed := fun item member repo depends isDeleted => by
        obtain ⟨listed, inDbs, isListed, -⟩ := mem_deleted isDeleted
        have present := List.mem_map.mpr ⟨listed, inDbs, isListed⟩
        exact notMem_deleted (isKept.of_dependsOn member depends present) isDeleted
      newest := isKept.newest lawful }

/-- The janitor comes to a decision, and whatever it is, it deletes nothing that is needed. -/
theorem runDatabaseJanitor_safe (lawful : UniqByRepo uniqBy) (policy : DatabaseRetentionPolicy)
    (now : Int) (localAndRestoring : List Item) (backups : List (Repo × Meta))
    : (∃ keep, Keeps uniqBy policy now (allDBs localAndRestoring backups) keep)
      ∧ ∀ keep, Keeps uniqBy policy now (allDBs localAndRestoring backups) keep →
          Safe policy (allDBs localAndRestoring backups) keep :=
  ⟨exists_keeps lawful policy now _, fun _ => safe_of_keeps lawful⟩

/-- Of the items of a database the last one is left. -/
def uniqByRepo : List Item → List Item
  | [] => []
  | item :: rest =>
      if item.repo ∈ (uniqByRepo rest).map Item.repo then
        uniqByRepo rest
      else
        item :: uniqByRepo rest

theorem uniqByRepo_subset {items : List Item} (member : item ∈ uniqByRepo items)
    : item ∈ items := by
  induction items with
  | nil => exact member
  | cons head rest ih =>
      rw [uniqByRepo] at member
      split at member
      next => exact List.mem_cons_of_mem _ (ih member)
      next =>
        rcases List.mem_cons.mp member with isHead | later
        · exact isHead ▸ List.mem_cons_self
        · exact List.mem_cons_of_mem _ (ih later)

theorem uniqByRepo_covers {items : List Item} (member : item ∈ items)
    : ∃ left ∈ uniqByRepo items, left.repo = item.repo := by
  induction items with
  | nil => cases member
  | cons head rest ih =>
      by_cases known : head.repo ∈ (uniqByRepo rest).map Item.repo
      · rw [uniqByRepo, if_pos known]
        rcases List.mem_cons.mp member with rfl | later
        · exact List.mem_map.mp known
        · exact ih later
      · rw [uniqByRepo, if_neg known]
        rcases List.mem_cons.mp member with rfl | later
        · exact ⟨item, List.mem_cons_self, rfl⟩
        · obtain ⟨left, isLeft, same⟩ := ih later
          exact ⟨left, List.mem_cons_of_mem _ isLeft, same⟩

theorem uniqByRepo_lawful : UniqByRepo uniqByRepo := ⟨uniqByRepo_subset, uniqByRepo_covers⟩

/-- A day is the limit, and nothing is retained beyond it. -/
def oneDay : DatabaseRetentionPolicy := ⟨⟨some 86400, none, none, none⟩, .empty⟩

def staleBase : Item := ⟨⟨"base", "1"⟩, .localDB, ⟨⟨.complete, none⟩, 0⟩⟩

def stackedDB : Item :=
  ⟨⟨"code", "1"⟩, .localDB, ⟨⟨.incomplete, some (.stacked staleBase.repo)⟩, 1000000⟩⟩

/-- Witness: a base outlives the limit as long as a database is stacked on it. -/
theorem runDatabaseJanitor_safe_staleBase
    : ∃ keep,
        Keeps uniqByRepo oneDay (seconds 1000001) (allDBs [stackedDB, staleBase] []) keep
          ∧ Safe oneDay (allDBs [stackedDB, staleBase] []) keep := by
  obtain ⟨⟨keep, keeps⟩, safe⟩ :=
    runDatabaseJanitor_safe uniqByRepo_lawful oneDay (seconds 1000001) [stackedDB, staleBase] []
  exact ⟨keep, keeps, safe keep keeps⟩

end Glean.Database.Janitor
