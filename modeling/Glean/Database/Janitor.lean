import Mathlib.Data.List.Sort
import Mathlib.Data.Int.Order.Basic
import Glean.Database.Catalog
import Glean.Library.Closure

/-! Which databases the janitor keeps and which ones it deletes (`Glean.Database.Janitor`). Times
are picoseconds.
-/

namespace Glean.Database.Janitor

structure Repo where
  name : String
  hash : String
  deriving DecidableEq

/-- Where a database is; `localDB` is `Local`. -/
inductive Locality where
  | localDB
  | restoring
  | cloud
  deriving DecidableEq

/-- The members of `Meta` that the janitor reads. -/
structure Meta extends Catalog.Meta Repo where
  /-- `metaCreated`, in seconds -/
  created : Int

/-- `Item`, without its status. -/
structure Item where
  repo : Repo
  locality : Locality
  info : Meta

/-- `Retention`, without the delay of an expiry. Ages are in seconds. -/
structure Retention where
  deleteIfOlder : Option Int
  deleteIncompleteIfOlder : Option Int
  retainAtLeast : Option Int
  retainAtMost : Option Int

structure DatabaseRetentionPolicy where
  defaultRetention : Retention
  repos : AssocMap String Retention

def repoRetention (policy : DatabaseRetentionPolicy) (repoNm : String) : Retention :=
  (policy.repos.lookup repoNm).getD policy.defaultRetention

inductive DatabaseStatus where
  | complete
  | incomplete
  | broken
  deriving DecidableEq

/-- A finalizing database is reported as complete. -/
def completenessStatus (info : Meta) : DatabaseStatus :=
  match info.completeness with
  | .incomplete => .incomplete
  | .complete => .complete
  | .broken _ _ => .broken
  | .finalizing => .complete

/-- `10 ^ 12` picoseconds make a second. -/
def seconds (count : Int) : Int := count * 1000000000000

def dbAge (now : Int) (info : Meta) : Int := now - seconds info.created

/-- A newer database comes before an older one. -/
def NewerFirst (left right : Item) : Prop := right.info.created ≤ left.info.created

instance : DecidableRel NewerFirst := fun _ _ => inferInstanceAs (Decidable (_ ≤ _))

instance : Std.Total NewerFirst := ⟨fun _ _ => Int.le_total _ _⟩

instance : IsTrans Item NewerFirst := ⟨fun _ _ _ first second => Int.le_trans second first⟩

/-- Whether the policy of a repository lets a database live on. -/
def fresh (retention : Retention) (now : Int) (info : Meta) : Bool :=
  let tooOld := retention.deleteIncompleteIfOlder.any (fun secs => seconds secs ≤ dbAge now info)
  if completenessStatus info ≠ .complete ∧ tooOld then
    false
  else
    retention.deleteIfOlder.all (fun secs => dbAge now info < seconds secs)

def viableWith (wanted : Locality → Bool) (item : Item) : Bool :=
  wanted item.locality && completenessStatus item.info = .complete

/-- `take` of the Haskell prelude, which takes nothing when the count is negative. -/
def take (count : Int) (items : List Item) : List Item := items.take count.toNat

def sorted (dbs : List Item) : List Item := dbs.insertionSort NewerFirst

def keepAccordingToPolicy (retention : Retention) (now : Int) (dbs : List Item) : List Item :=
  let kept :=
    match retention.retainAtMost with
    | some count => take count (sorted dbs)
    | none => sorted dbs
  kept.filter (fun item => fresh retention now item.info)

/-- `dbKeepRoots`; `uniqBy` drops all but one of the items of a database. -/
def dbKeepRoots (uniqBy : List Item → List Item) (policy : DatabaseRetentionPolicy) (now : Int)
    (group : String × List Item) : List Item :=
  let retention := repoRetention policy group.1
  let retainAtLeast := retention.retainAtLeast.getD 0
  uniqBy
    (keepAccordingToPolicy retention now group.2
      ++ take retainAtLeast ((sorted group.2).filter (viableWith (fun _ => true)))
      ++ take retainAtLeast ((sorted group.2).filter (viableWith (· = .localDB))))

/-- Put a database in front of the others of its name. -/
def insertByName (groups : AssocMap String (List Item)) (item : Item)
    : AssocMap String (List Item) :=
  groups.insert item.repo.name (item :: (groups.lookup item.repo.name).getD [])

/-- The map that `byRepoName` builds. -/
def groupsByName (dbs : List Item) : AssocMap String (List Item) :=
  dbs.foldl insertByName .empty

def byRepoName (dbs : List Item) : List (String × List Item) := (groupsByName dbs).entries

/-- The local and restoring databases, and those that could be restored. -/
def allDBs (localAndRestoring : List Item) (backups : List (Repo × Meta)) : List Item :=
  localAndRestoring
    ++ (backups.filter (fun backup => backup.1 ∉ localAndRestoring.map Item.repo)).map
      (fun backup => ⟨backup.1, .cloud, backup.2⟩)

def repoMap (dbs : List Item) : AssocMap Repo Item :=
  .fromList (dbs.map (fun item => (item.repo, item)))

/-- The database that an item depends on, if it is known. -/
def dependencies (dbs : List Item) (item : Item) : List (Option Item) :=
  match item.info.dependencies with
  | some (.stacked repo) => [(repoMap dbs).lookup repo]
  | some (.pruned base) => [(repoMap dbs).lookup base]
  | none => []

def keepRoots (uniqBy : List Item → List Item) (policy : DatabaseRetentionPolicy) (now : Int)
    (dbs : List Item) : List Item :=
  (byRepoName dbs).flatMap (dbKeepRoots uniqBy policy now)

/-- The closure of the roots under their dependencies ends and yields the databases to keep. -/
def Keeps (uniqBy : List Item → List Item) (policy : DatabaseRetentionPolicy) (now : Int)
    (dbs keep : List Item) : Prop :=
  ∃ kept,
    Halting.Halts (Closure.step Item.repo (fun item => (dependencies dbs item).reduceOption))
        (Closure.start (keepRoots uniqBy policy now dbs)) kept
      ∧ keep = kept.values

/-- `delete` -/
def deleted (dbs keep : List Item) : List Repo :=
  (dbs.filter (fun item => item.locality = .localDB ∧ item.repo ∉ keep.map Item.repo)).map
    Item.repo

/-- `uniqBy (comparing itemRepo)`: one of the items of each database is left. -/
structure UniqByRepo (uniqBy : List Item → List Item) : Prop where
  subset : ∀ {items item}, item ∈ uniqBy items → item ∈ items
  covers : ∀ {items item}, item ∈ items → ∃ left ∈ uniqBy items, left.repo = item.repo

/-- A database depends on another one. Should there be several items of the database, they have
to agree on it.
-/
def DependsOn (dbs : List Item) (source target : Repo) : Prop :=
  (∃ item ∈ dbs, item.repo = source)
    ∧ ∀ item ∈ dbs, item.repo = source → item.info.dependency = some target

/-- The complete local databases of a name. -/
def completeLocal (dbs : List Item) (repoNm : String) : List Item :=
  dbs.filter (fun item => item.repo.name = repoNm ∧ viableWith (· = .localDB) item)

/-- Nothing is deleted that is needed. -/
structure Safe (policy : DatabaseRetentionPolicy) (dbs keep : List Item) : Prop where
  /-- Dependencies that are present are kept. -/
  closed
    : ∀ item ∈ keep, ∀ repo, item.info.dependency = some repo →
        repo ∈ dbs.map Item.repo → repo ∈ keep.map Item.repo
  disjoint : ∀ repo ∈ deleted dbs keep, repo ∉ keep.map Item.repo
  onlyLocal : ∀ repo ∈ deleted dbs keep, ∃ item ∈ dbs, item.repo = repo ∧ item.locality = .localDB
  needed
    : ∀ item ∈ keep, ∀ repo, Relation.ReflTransGen (DependsOn dbs) item.repo repo →
        repo ∉ deleted dbs keep
  /-- Of the complete local databases of a name the newest ones stay. -/
  newest
    : ∀ repoNm, ∃ stay others : List Item,
        (stay ++ others).Perm (completeLocal dbs repoNm)
          ∧ stay.length
            = min ((repoRetention policy repoNm).retainAtLeast.getD 0).toNat
                (completeLocal dbs repoNm).length
          ∧ (∀ item ∈ stay, item.repo ∉ deleted dbs keep)
          ∧ ∀ newer ∈ stay, ∀ older ∈ others, older.info.created ≤ newer.info.created

end Glean.Database.Janitor
