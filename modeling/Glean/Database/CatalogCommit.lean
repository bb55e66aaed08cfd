import Mathlib.Logic.Function.Basic
import Mathlib.Data.List.Basic
import Glean.Library.Machine

/-! The metadata that a catalog writes back to its store (`Glean.Database.Catalog`). Every transaction
and every call of the store is one step; calls of the store take time, so they start and end.
-/

namespace Glean.Database.CatalogCommit

/-- `Entry`, with the variables that decide what is written back. -/
structure Entry (Repo Info : Type) where
  repo : Repo
  /-- `entryMeta` -/
  info : Info
  dirty : Bool
  committing : Bool

/-- `mkEntry` -/
def mkEntry {Repo Info : Type} (repo : Repo) (info : Info) : Entry Repo Info :=
  ⟨repo, info, false, false⟩

/-- Where the committer thread is. -/
inductive Committer (Info : Type) where
  /-- It waits for an entry in the dirty queue. -/
  | waiting
  /-- An entry has been taken from the queue. -/
  | taken (entry : Nat)
  /-- The entry is not dirty any more, its metadata has been read. -/
  | cleared (entry : Nat) (info : Info)
  /-- `Store.put` is running. -/
  | putting (entry : Nat) (info : Info)
  /-- `Store.put` has thrown an exception. -/
  | failed (entry : Nat)
  /-- The entry is about to be released. -/
  | releasing (entry : Nat)
  | stopped

/-- The entry that is being committed. -/
def Committer.held {Info : Type} : Committer Info → Option Nat
  | .waiting => none
  | .taken entry => some entry
  | .cleared entry _ => some entry
  | .putting entry _ => some entry
  | .failed entry => some entry
  | .releasing entry => some entry
  | .stopped => none

/-- How far a call of `create` or `delete` has got with a database in `entriesEphemeral`. -/
inductive Ephemeral (Info : Type) where
  | creating (info : Info)
  | created (info : Info)
  | notCreated
  | removed
  | deleting
  | deleted

/-- The calls of the store that change it. -/
inductive StoreCall (Repo Info : Type) where
  /-- `Store.create` has created the entry. -/
  | create (repo : Repo) (info : Info)
  | put (repo : Repo) (info : Info)
  | putEnds (repo : Repo) (info : Info)
  /-- `Store.delete` has started. -/
  | delete (repo : Repo)

/-- Entries have identity, as one for the same database can be created after it was deleted. -/
structure State (Repo Info : Type) where
  entries : Nat → Option (Entry Repo Info)
  nextEntry : Nat
  /-- `entriesLive`; once the catalog is closed, those that were live then. -/
  live : Repo → Option Nat
  /-- `entriesEphemeral` -/
  ephemerals : List (Repo × Ephemeral Info)
  /-- `catEntries` is `Nothing`. -/
  closed : Bool
  /-- `catDirtyQueue` -/
  queue : List Nat
  committer : Committer Info
  store : Repo → Option Info
  /-- The calls of the store so far. -/
  calls : List (StoreCall Repo Info)

inductive Event (Repo Info : Type) where
  /-- `writeMeta`, or `modifyMeta` with the metadata it computes. -/
  | writeMeta (repo : Repo) (info : Info)
  /-- The committer takes an entry from the dirty queue. -/
  | take
  /-- The committer finds the queue empty and the catalog closed. -/
  | stop
  | clear
  | putStarts
  | putEnds
  /-- `Store.put` throws an exception, maybe after it has written. -/
  | putThrows (written : Bool)
  | dirtyAgain
  | release
  /-- The first transaction of `delete`. -/
  | delete (repo : Repo)
  | storeDelete (repo : Repo)
  /-- `Store.delete` returns or throws, maybe before it has removed anything. -/
  | storeDeleted (repo : Repo) (removed : Bool)
  /-- The last transaction of `delete`. -/
  | deleteEnds (repo : Repo)
  /-- The first transaction of `create`. -/
  | create (repo : Repo) (info : Info)
  /-- `Store.create` returns; it can fail, maybe after it has written. -/
  | storeCreate (repo : Repo) (ok written : Bool)
  /-- The last transaction of `create`. -/
  | createEnds (repo : Repo)
  /-- The transaction of `close`, which waits for the committer to stop after it. -/
  | close

variable {Repo Info : Type} [DecidableEq Repo]

namespace State

def setEntry (state : State Repo Info) (name : Nat) (entry : Entry Repo Info) : State Repo Info :=
  { state with entries := Function.update state.entries name (some entry) }

def ephemeral (state : State Repo Info) (repo : Repo) : Option (Ephemeral Info) :=
  state.ephemerals.lookup repo

def dropEphemeral (state : State Repo Info) (repo : Repo) : State Repo Info :=
  { state with ephemerals := state.ephemerals.filter (·.1 ≠ repo) }

def setEphemeral (state : State Repo Info) (repo : Repo) (stage : Ephemeral Info) : State Repo Info :=
  { state with ephemerals := (repo, stage) :: state.ephemerals.filter (·.1 ≠ repo) }

/-- A new entry for a database. -/
def addLive (state : State Repo Info) (repo : Repo) (info : Info) : State Repo Info :=
  { state with
    entries := Function.update state.entries state.nextEntry (some (mkEntry repo info))
    nextEntry := state.nextEntry + 1
    live := Function.update state.live repo (some state.nextEntry) }

def setStore (state : State Repo Info) (repo : Repo) (info : Option Info) : State Repo Info :=
  { state with store := Function.update state.store repo info }

/-- `Store.put` of an entry that does not exist writes nothing. -/
def put (state : State Repo Info) (repo : Repo) (info : Info) : State Repo Info :=
  if (state.store repo).isSome then state.setStore repo (some info) else state

def called (state : State Repo Info) (call : StoreCall Repo Info) : State Repo Info :=
  { state with calls := state.calls ++ [call] }

/-- `getEntry`, which throws if the catalog is closed or the database unknown. -/
def getEntry (state : State Repo Info) (repo : Repo) : Option (Nat × Entry Repo Info) :=
  if state.closed then
    none
  else
    match state.live repo with
    | some name => (state.entries name).map (fun entry => (name, entry))
    | none => none

/-- `dirtyEntry` -/
def dirtyEntry (state : State Repo Info) (name : Nat) (entry : Entry Repo Info) : State Repo Info :=
  let marked := state.setEntry name { entry with dirty := true }
  if entry.dirty then marked else { marked with queue := state.queue ++ [name] }

/-- Take the entries of a database from the dirty queue. -/
def unqueue (state : State Repo Info) (repo : Repo) : State Repo Info :=
  { state with
    queue := state.queue.filter (fun name =>
      (state.entries name).all (fun entry => entry.repo ≠ repo)) }

end State

/-- A transaction that throws changes nothing; one that has to wait does not happen. -/
def step (state : State Repo Info) : Event Repo Info → Option (State Repo Info)
  | .writeMeta repo info =>
      match state.getEntry repo with
      | some (name, entry) => some (state.dirtyEntry name { entry with info })
      | none => some state
  | .take =>
      match state.committer, state.queue with
      | .waiting, name :: rest =>
          (state.entries name).map (fun entry =>
            { state.setEntry name { entry with committing := true } with
              queue := rest, committer := .taken name })
      | _, _ => none
  | .stop =>
      match state.committer, state.queue with
      | .waiting, [] => if state.closed then some { state with committer := .stopped } else none
      | _, _ => none
  | .clear =>
      match state.committer with
      | .taken name =>
          (state.entries name).map (fun entry =>
            { state.setEntry name { entry with dirty := false } with
              committer := .cleared name entry.info })
      | _ => none
  | .putStarts =>
      match state.committer with
      | .cleared name info =>
          (state.entries name).map (fun entry =>
            { state.called (.put entry.repo info) with committer := .putting name info })
      | _ => none
  | .putEnds =>
      match state.committer with
      | .putting name info =>
          (state.entries name).map (fun entry =>
            { (state.put entry.repo info).called (.putEnds entry.repo info) with
              committer := .releasing name })
      | _ => none
  | .putThrows written =>
      match state.committer with
      | .putting name info =>
          (state.entries name).map (fun entry =>
            { (if written then state.put entry.repo info else state).called
                (.putEnds entry.repo info) with
              committer := .failed name })
      | _ => none
  | .dirtyAgain =>
      match state.committer with
      | .failed name =>
          (state.entries name).map (fun entry =>
            { state.dirtyEntry name entry with committer := .releasing name })
      | _ => none
  | .release =>
      match state.committer with
      | .releasing name =>
          (state.entries name).map (fun entry =>
            { state.setEntry name { entry with committing := false } with committer := .waiting })
      | _ => none
  | .delete repo =>
      match state.getEntry repo with
      | some (_, entry) =>
          if entry.committing then
            none
          else
            some { (if entry.dirty then state.unqueue repo else state).setEphemeral repo
                .removed with
              live := Function.update state.live repo none }
      | none => some state
  | .storeDelete repo =>
      match state.ephemeral repo with
      | some .removed => some ((state.called (.delete repo)).setEphemeral repo .deleting)
      | _ => none
  | .storeDeleted repo removed =>
      match state.ephemeral repo with
      | some .deleting =>
          some ((if removed then state.setStore repo none else state).setEphemeral repo
            .deleted)
      | _ => none
  | .deleteEnds repo =>
      match state.ephemeral repo with
      | some .deleted => some (state.dropEphemeral repo)
      | _ => none
  | .create repo info =>
      if state.closed ∨ (state.live repo).isSome ∨ (state.ephemeral repo).isSome then
        some state
      else
        some (state.setEphemeral repo (.creating info))
  | .storeCreate repo ok written =>
      match state.ephemeral repo with
      | some (.creating info) =>
          if (state.store repo).isNone ∧ ok then
            some (((state.setStore repo (some info)).called (.create repo info)).setEphemeral repo
              (.created info))
          else if (state.store repo).isNone ∧ written then
            some (((state.setStore repo (some info)).called (.create repo info)).setEphemeral repo
              .notCreated)
          else
            some (state.setEphemeral repo .notCreated)
      | _ => none
  | .createEnds repo =>
      match state.ephemeral repo with
      | some (.created info) =>
          some ((state.addLive repo info).dropEphemeral repo)
      | some .notCreated => some (state.dropEphemeral repo)
      | _ => none
  | .close =>
      if state.closed then
        some state
      else if state.ephemerals.isEmpty then
        some { state with closed := true }
      else
        none

/-- `open` of a store with some metadata. -/
def opened (infos : List (Repo × Info)) : State Repo Info where
  entries := fun name => infos[name]?.map (fun info => mkEntry info.1 info.2)
  nextEntry := infos.length
  live := fun repo => infos.findIdx? (·.1 = repo)
  ephemerals := []
  closed := false
  queue := []
  committer := .waiting
  store := fun repo => infos.lookup repo
  calls := []

end Glean.Database.CatalogCommit
