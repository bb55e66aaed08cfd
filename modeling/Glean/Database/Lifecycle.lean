import Mathlib.Logic.Function.Basic
import Glean.Database.Types
import Glean.Library.Machine

/-! Opening, closing, creating and deleting the database of one repo (`Glean.Database.Open`,
`Glean.Database.Close`, `Glean.Database.Create`, `Glean.Database.Delete`). Each event is one
transaction or one action of a thread.
-/

namespace Glean.Database.Lifecycle

/-- `DBState` -/
inductive DBState where
  | opening
  | open
  | closing
  | closed
  deriving DecidableEq

/-- `DB`, with the number of storage handles opened through it and not yet closed. -/
structure DB where
  state : DBState
  users : Int
  handles : Nat

/-- `newDB` -/
def DB.new : DB := ⟨.closed, 0, 0⟩

/-- A thread in `withOpenDatabase` or `kickOffDatabase`; the database is acquired. -/
inductive RequesterStage where
  | acquired
  /-- The state was set to `Opening`; the opener is spawned next. -/
  | starting
  | waiting (opener : Nat)
  | using
  /-- The action has ended, or an exception was thrown; `releaseDB` is next. -/
  | leaving

/-- The thread of `asyncOpenDB`. -/
inductive OpenerStage where
  | spawned
  | acquired
  /-- `Storage.open` has returned a handle. -/
  | opened
  /-- An exception was thrown and the handle closed. -/
  | failing
  | leaving (ok : Bool)
  | finished (ok : Bool)

/-- A thread in `closeIf`. -/
inductive CloserStage where
  | acquired
  | closing
  /-- The handle is closed. -/
  | closed
  | leaving

/-- The thread of `removeDatabase`. -/
inductive RemoverStage where
  /-- `todo` is empty. -/
  | unset
  | nothing
  /-- Waiting until `dbUsers` is zero. -/
  | draining (db : Nat)
  | drained (db : Nat)
  /-- The handle is closed; `Catalog.delete` is next. -/
  | closed (db : Nat)
  /-- Between the two transactions of `Catalog.delete`. -/
  | removing (db : Nat)
  | removed (db : Nat)
  /-- The storage is deleted. -/
  | deleted (db : Nat)

inductive Thread where
  | requester (db : Nat) (stage : RequesterStage)
  | opener (db : Nat) (stage : OpenerStage)
  | closer (db : Nat) (stage : CloserStage)
  /-- `kickOffDatabase` between the two transactions of `Catalog.create`. -/
  | creator
  /-- `asyncDeleteDatabase` before its transaction. -/
  | deleter (remover : Nat)
  | remover (stage : RemoverStage)
  | over

/-- The part of the server that belongs to one repo. -/
structure State where
  envActive : Option Nat
  envDeleting : Option Nat
  /-- The repo is in `entriesLive`. -/
  live : Bool
  /-- The repo is in `entriesEphemeral`. -/
  ephemeral : Bool
  completeness : Completeness
  dbs : Nat → DB
  nextDB : Nat
  threads : List Thread

namespace State

def setThread (state : State) (index : Nat) (thread : Thread) : State :=
  { state with threads := state.threads.set index thread }

def addThread (state : State) (thread : Thread) : State :=
  { state with threads := state.threads ++ [thread] }

def setDB (state : State) (name : Nat) (db : DB) : State :=
  { state with dbs := Function.update state.dbs name db }

def setState (state : State) (name : Nat) (dbState : DBState) : State :=
  state.setDB name { state.dbs name with state := dbState }

/-- `acquireDB` -/
def acquireDB (state : State) (name : Nat) : State :=
  state.setDB name { state.dbs name with users := (state.dbs name).users + 1 }

/-- `releaseDB` -/
def releaseDB (state : State) (name : Nat) : State :=
  let db := state.dbs name
  let released := state.setDB name { db with users := db.users - 1 }
  if db.users = 1 ∧ db.state = .closed
      ∧ ¬ (state.live = true ∧ state.completeness = .incomplete) then
    { released with envActive := none }
  else
    released

/-- A new record in `newDB`. -/
def addDB (state : State) : State :=
  { state.setDB state.nextDB .new with nextDB := state.nextDB + 1 }

end State

inductive Event where
  /-- The transaction of `withActiveDatabase`. -/
  | request
  /-- The transaction of `withOpenDatabase`; `canOpen` is `canOpenVersion`. -/
  | openDatabase (thread : Nat) (canOpen : Bool)
  /-- `asyncOpenDB` spawns the opener, or fails to. -/
  | spawn (thread : Nat) (ok : Bool)
  | wake (thread : Nat)
  /-- The end of the action of a requester or closer, or its cancellation. -/
  | leave (thread : Nat)
  | release (thread : Nat)
  | openerAcquire (thread : Nat)
  | storageOpen (thread : Nat) (ok : Bool)
  | openerFails (thread : Nat)
  | openerSucceeds (thread : Nat)
  | openerClosed (thread : Nat)
  /-- `usingActiveDatabase` -/
  | useActive
  | closeStart (thread : Nat)
  | closeHandle (thread : Nat)
  | closeEnd (thread : Nat)
  /-- The two transactions of `Catalog.create` in `kickOffDatabase`. -/
  | create
  | created (thread : Nat) (ok : Bool)
  /-- `asyncDeleteDatabase` spawns the remover. -/
  | spawnRemover
  | schedule (thread : Nat)
  | deleterCancelled (thread : Nat)
  | removerDrained (thread : Nat)
  | removerCloses (thread : Nat)
  | catalogDelete (thread : Nat)
  | catalogDeleted (thread : Nat)
  | storageDelete (thread : Nat)
  | removerEnds (thread : Nat)
  /-- Another thread changes the completeness of the database. -/
  | setCompleteness (completeness : Completeness)

/-- The database that `releaseDB` is called with next. -/
def Thread.leaving? : Thread → Option Nat
  | .requester db .leaving => some db
  | .opener db (.leaving _) => some db
  | .closer db .leaving => some db
  | _ => none

/-- The thread after `releaseDB`. -/
def Thread.released : Thread → Thread
  | .opener db (.leaving ok) => .opener db (.finished ok)
  | _ => .over

open State in
def step (state : State) : Event → Option State
  | .request =>
      match state.envActive with
      | some name => some ((state.acquireDB name).addThread (.requester name .acquired))
      | none =>
          if state.live ∧ state.envDeleting = none then
            some ({ state.addDB with envActive := some state.nextDB }.acquireDB state.nextDB
              |>.addThread (.requester state.nextDB .acquired))
          else
            none
  | .openDatabase index canOpen =>
      match state.threads[index]? with
      | some (.requester name .acquired) =>
          match (state.dbs name).state with
          | .open => some (state.setThread index (.requester name .using))
          | .closed =>
              if state.live ∧ canOpen then
                some ((state.setState name .opening).setThread index (.requester name .starting))
              else
                some (state.setThread index (.requester name .leaving))
          | .opening | .closing => none
      | _ => none
  | .spawn index ok =>
      match state.threads[index]? with
      | some (.requester name .starting) =>
          if ¬ state.live then
            -- the dependencies are read from the catalog before the opener is spawned
            some (state.setThread index (.requester name .leaving))
          else if ok then
            some ((state.setThread index (.requester name (.waiting state.threads.length)))
              |>.addThread (.opener name .spawned))
          else
            some ((state.setState name .closed).setThread index (.requester name .leaving))
      | _ => none
  | .wake index =>
      match state.threads[index]? with
      | some (.requester name (.waiting opener)) =>
          match state.threads[opener]? with
          | some (.opener _ (.finished true)) =>
              some (state.setThread index (.requester name .using))
          | some (.opener _ (.finished false)) =>
              some (state.setThread index (.requester name .leaving))
          | _ => none
      | _ => none
  | .leave index =>
      match state.threads[index]? with
      | some (.requester name .acquired) => some (state.setThread index (.requester name .leaving))
      | some (.requester name (.waiting _)) =>
          some (state.setThread index (.requester name .leaving))
      | some (.requester name .using) => some (state.setThread index (.requester name .leaving))
      | some (.closer name .acquired) => some (state.setThread index (.closer name .leaving))
      | _ => none
  | .release index =>
      match state.threads[index]? with
      | some thread =>
          match thread.leaving? with
          | some name => some ((state.releaseDB name).setThread index thread.released)
          | none => none
      | none => none
  | .openerAcquire index =>
      match state.threads[index]? with
      | some (.opener name .spawned) =>
          some ((state.acquireDB name).setThread index (.opener name .acquired))
      | _ => none
  | .storageOpen index ok =>
      match state.threads[index]? with
      | some (.opener name .acquired) =>
          let db := state.dbs name
          if ok then
            some ((state.setDB name { db with handles := db.handles + 1 }).setThread index
              (.opener name .opened))
          else
            some (state.setThread index (.opener name .failing))
      | _ => none
  | .openerFails index =>
      match state.threads[index]? with
      | some (.opener name .opened) =>
          let db := state.dbs name
          some ((state.setDB name { db with handles := db.handles - 1 }).setThread index
            (.opener name .failing))
      | _ => none
  | .openerSucceeds index =>
      match state.threads[index]? with
      | some (.opener name .opened) =>
          some ((state.setState name .open).setThread index (.opener name (.leaving true)))
      | _ => none
  | .openerClosed index =>
      match state.threads[index]? with
      | some (.opener name .failing) =>
          some ((state.setState name .closed).setThread index (.opener name (.leaving false)))
      | _ => none
  | .useActive =>
      match state.envActive with
      | some name => some ((state.acquireDB name).addThread (.closer name .acquired))
      | none => none
  | .closeStart index =>
      match state.threads[index]? with
      | some (.closer name .acquired) =>
          if (state.dbs name).state = .open ∧ (state.dbs name).users = 1 then
            some ((state.setState name .closing).setThread index (.closer name .closing))
          else
            none
      | _ => none
  | .closeHandle index =>
      match state.threads[index]? with
      | some (.closer name .closing) =>
          let db := state.dbs name
          some ((state.setDB name { db with handles := db.handles - 1 }).setThread index
            (.closer name .closed))
      | _ => none
  | .closeEnd index =>
      match state.threads[index]? with
      | some (.closer name .closed) =>
          some ((state.setState name .closed).setThread index (.closer name .leaving))
      | _ => none
  | .create =>
      if state.live ∨ state.ephemeral then
        none
      else
        some ({ state with ephemeral := true }.addThread .creator)
  | .created index ok =>
      match state.threads[index]? with
      | some .creator =>
          if ok then
            let made := { state.addDB with
              ephemeral := false
              live := true
              completeness := .incomplete
              envActive := some state.nextDB }
            some (((made.setState state.nextDB .opening).acquireDB state.nextDB).setThread index
              (.requester state.nextDB .starting))
          else
            some ({ state with ephemeral := false }.setThread index .over)
      | _ => none
  | .spawnRemover =>
      some ((state.addThread (.remover .unset)).addThread (.deleter state.threads.length))
  | .schedule index =>
      match state.threads[index]? with
      | some (.deleter remover) =>
          match state.threads[remover]? with
          | some (.remover .unset) =>
              match state.envActive with
              | some name =>
                  some ({ state with envActive := none, envDeleting := some remover }
                    |>.setThread index .over |>.setThread remover (.remover (.draining name)))
              | none =>
                  if state.envDeleting = none ∧ state.live then
                    some ({ state.addDB with envDeleting := some remover }
                      |>.setThread index .over
                      |>.setThread remover (.remover (.draining state.nextDB)))
                  else
                    some (state.setThread index .over |>.setThread remover (.remover .nothing))
          | _ => none
      | _ => none
  | .deleterCancelled index =>
      match state.threads[index]? with
      | some (.deleter remover) =>
          match state.threads[remover]? with
          | some (.remover .unset) =>
              some (state.setThread index .over |>.setThread remover (.remover .nothing))
          | _ => none
      | _ => none
  | .removerDrained index =>
      match state.threads[index]? with
      | some (.remover (.draining name)) =>
          if (state.dbs name).users = 0 then
            some (state.setThread index (.remover (.drained name)))
          else
            none
      | _ => none
  | .removerCloses index =>
      match state.threads[index]? with
      | some (.remover (.drained name)) =>
          match (state.dbs name).state with
          | .open =>
              -- the handle is closed, and the state set to `Closed` whatever happens
              some ((state.setDB name
                  ⟨.closed, (state.dbs name).users, (state.dbs name).handles - 1⟩).setThread index
                (.remover (.closed name)))
          | _ => some (state.setThread index (.remover (.closed name)))
      | _ => none
  | .catalogDelete index =>
      match state.threads[index]? with
      | some (.remover (.closed name)) =>
          if state.live then
            some ({ state with live := false, ephemeral := true }.setThread index
              (.remover (.removing name)))
          else
            -- `UnknownDatabase`
            some (state.setThread index (.remover .nothing))
      | _ => none
  | .catalogDeleted index =>
      match state.threads[index]? with
      | some (.remover (.removing name)) =>
          some ({ state with ephemeral := false }.setThread index (.remover (.removed name)))
      | _ => none
  | .storageDelete index =>
      match state.threads[index]? with
      | some (.remover (.removed name)) =>
          some (state.setThread index (.remover (.deleted name)))
      | _ => none
  | .removerEnds index =>
      match state.threads[index]? with
      | some (.remover .nothing) =>
          some ({ state with envDeleting := none }.setThread index .over)
      | some (.remover (.deleted _)) =>
          some ({ state with envDeleting := none }.setThread index .over)
      | _ => none
  | .setCompleteness completeness => some { state with completeness := completeness }

/-- A server that has just started. -/
structure Starts (state : State) : Prop where
  envActive : state.envActive = none
  envDeleting : state.envDeleting = none
  ephemeral : state.ephemeral = false
  dbs : ∀ name, state.dbs name = .new
  threads : state.threads = []

end Glean.Database.Lifecycle
