import Mathlib.Logic.Function.Basic
import Mathlib.Data.Nat.Basic
import Mathlib.Order.Basic
import Mathlib.Order.Lattice
import Glean.Database.Types

/-! The catalog of databases and the status it keeps for each of them
(`Glean.Database.Catalog`, `Glean.Database.Catalog.Filter`). Operations come one after the other.
-/

namespace Glean.Database.Catalog

/-- `ItemStatus`, ordered by increasing severity. -/
inductive ItemStatus where
  | complete
  | incomplete
  | broken
  | restoring
  | missing
  deriving DecidableEq

def ItemStatus.severity : ItemStatus → Nat
  | .complete => 0
  | .incomplete => 1
  | .broken => 2
  | .restoring => 3
  | .missing => 4

instance : LinearOrder ItemStatus :=
  LinearOrder.lift' ItemStatus.severity (by
    intro left right same
    cases left <;> cases right <;> simp [ItemStatus.severity] at same ⊢)

/-- `Dependencies`, without the units of a pruned database. -/
inductive Dependencies (Repo : Type) where
  | stacked (repo : Repo)
  | pruned (base : Repo)

/-- The members of `Meta` that the status depends on. -/
structure Meta (Repo : Type) where
  completeness : Completeness
  dependencies : Option (Dependencies Repo)

/-- The database another one depends on. -/
def Meta.dependency {Repo : Type} (info : Meta Repo) : Option Repo :=
  match info.dependencies with
  | some (.stacked repo) => some repo
  | some (.pruned base) => some base
  | none => none

/-- `Entry` -/
structure Entry (Repo : Type) where
  info : Meta Repo
  status : ItemStatus

/-- `mkEntry` -/
def mkEntry {Repo : Type} (info : Meta Repo) : Entry Repo := ⟨info, .missing⟩

/-- The entries of a catalog that is open, and `catRepoDependents`. -/
structure State (Repo : Type) where
  live : Repo → Option (Entry Repo)
  restoring : Repo → Option (Meta Repo)
  dependents : Repo → List Repo

/-- A finalizing database counts as complete. -/
def itemStatusFor : Completeness → ItemStatus
  | .complete => .complete
  | .incomplete => .incomplete
  | .broken _ _ => .broken
  | .finalizing => .complete

variable {Repo : Type} [DecidableEq Repo]

namespace State

def missingStatus (state : State Repo) (repo : Repo) : ItemStatus :=
  if (state.restoring repo).isSome then .restoring else .missing

/-- The status that a dependency on a database contributes. -/
def statusOf (state : State Repo) (repo : Repo) : ItemStatus :=
  match state.live repo with
  | some entry => entry.status
  | none => state.missingStatus repo

def setLive (state : State Repo) (repo : Repo) (entry : Option (Entry Repo)) : State Repo :=
  { state with live := Function.update state.live repo entry }

def setRestoring (state : State Repo) (repo : Repo) (info : Option (Meta Repo)) : State Repo :=
  { state with restoring := Function.update state.restoring repo info }

/-- `writeTVar (entryStatus entry)`; an entry that is not live is not seen again. -/
def setStatus (state : State Repo) (repo : Repo) (status : ItemStatus) : State Repo :=
  state.setLive repo ((state.live repo).map (fun entry => { entry with status }))

/-- Add a live entry to the dependents of its dependency, or remove one that is not live. -/
def register (state : State Repo) (repo : Repo) (info : Meta Repo) : State Repo :=
  match info.dependency with
  | none => state
  | some dependency =>
      let known := state.dependents dependency
      { state with
        dependents := Function.update state.dependents dependency
          (if (state.live repo).isSome then repo :: known else known.filter (· ≠ repo)) }

/-- The combined status of an entry and its dependency. -/
def newStatus (state : State Repo) (repo : Repo) (info : Meta Repo) : ItemStatus :=
  let status :=
    if (state.live repo).isSome then
      itemStatusFor info.completeness
    else
      state.missingStatus repo
  match info.dependency with
  | none => status
  | some dependency => max status (state.statusOf dependency)

end State

def recalculateLive (recalculate : State Repo → Repo → Entry Repo → Option (State Repo))
    (state : State Repo) (repo : Repo) : Option (State Repo) :=
  match state.live repo with
  | some entry => recalculate state repo entry
  | none => some state

/-- Recalculate all live dependents of a database. -/
def recalculateDependents (recalculate : State Repo → Repo → Entry Repo → Option (State Repo))
    (state : State Repo) (repo : Repo) : Option (State Repo) :=
  (state.dependents repo).foldlM (recalculateLive recalculate) state

/-- `recalculateStatus`; the fuel bounds the depth of the recursion. -/
def recalculateStatus : Nat → State Repo → Repo → Entry Repo → Option (State Repo)
  | 0, _, _, _ => none
  | fuel + 1, state, repo, entry =>
      let registered := state.register repo entry.info
      let status := registered.newStatus repo entry.info
      if status = entry.status then
        some registered
      else
        recalculateDependents (recalculateStatus fuel) (registered.setStatus repo status) repo

/-- `recalculateDepsStatus` -/
def recalculateDepsStatus (fuel : Nat) : State Repo → Repo → Option (State Repo) :=
  recalculateDependents (recalculateStatus fuel)

inductive Event (Repo : Type) where
  /-- `ok` is whether the entry could be created in the store. -/
  | create (repo : Repo) (info : Meta Repo) (ok : Bool)
  | delete (repo : Repo)
  | startRestoring (repo : Repo) (info : Meta Repo)
  | finishRestoring (repo : Repo) (ok : Bool)
  | abortRestoring (repo : Repo)
  /-- `writeMeta`, or `modifyMeta` with the metadata it computes. -/
  | writeMeta (repo : Repo) (info : Meta Repo)

/-- An operation that throws leaves the catalog as it is. -/
def step (fuel : Nat) (state : State Repo) : Event Repo → Option (State Repo)
  | .create repo info ok =>
      if (state.live repo).isSome ∨ (state.restoring repo).isSome then
        some state
      else
        recalculateStatus fuel (if ok then state.setLive repo (some (mkEntry info)) else state) repo
          (mkEntry info)
  | .delete repo =>
      match state.live repo with
      | some entry => recalculateStatus fuel (state.setLive repo none) repo entry
      | none => some state
  | .startRestoring repo info =>
      if (state.live repo).isSome ∨ (state.restoring repo).isSome then
        some state
      else
        recalculateDepsStatus fuel (state.setRestoring repo (some info)) repo
  | .finishRestoring repo ok =>
      match state.restoring repo with
      | some info =>
          let finished := state.setRestoring repo none
          recalculateStatus fuel
            (if ok then finished.setLive repo (some (mkEntry info)) else finished) repo
            (mkEntry info)
      | none => some state
  | .abortRestoring repo =>
      if (state.restoring repo).isSome then
        recalculateDepsStatus fuel (state.setRestoring repo none) repo
      else
        some state
  | .writeMeta repo info =>
      match state.live repo with
      | some entry =>
          let written := { entry with info }
          recalculateStatus fuel (state.setLive repo (some written)) repo written
      | none => some state

/-- A catalog with new entries for the metadata in the store. -/
def loaded (infos : List (Repo × Meta Repo)) : State Repo where
  live := fun repo => (infos.lookup repo).map mkEntry
  restoring := fun _ => none
  dependents := fun _ => []

/-- `open` -/
def openCatalog (fuel : Nat) (infos : List (Repo × Meta Repo)) : Option (State Repo) :=
  (infos.map Prod.fst).foldlM (recalculateLive (recalculateStatus fuel)) (loaded infos)

end Glean.Database.Catalog
