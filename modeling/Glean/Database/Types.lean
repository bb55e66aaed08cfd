import Mathlib.Data.List.Basic

/-! Data of the server that several of its parts share: the metadata of a database, its state
and its write queue (`Glean.Database.Types`, `Glean.Internal.Types`).
-/

namespace Glean.Database

/-- Handles of clients and writes, which the server draws as UUIDs. -/
abbrev Handle := String

structure PredicateRef where
  name : String
  version : Nat
  deriving DecidableEq

def showPredicateRef (ref : PredicateRef) : String :=
  ref.name ++ "." ++ toString ref.version

/-- The exceptions that the code tells apart. -/
inductive SomeException where
  | retry (seconds : String)
  | unknownBatchHandle
  | finishedWithPendingWrites
  | other (message : String)
  deriving DecidableEq

def SomeException.show : SomeException → String
  | .retry seconds => "Retry \x7bretry_seconds = " ++ seconds ++ "\x7d"
  | .unknownBatchHandle => "UnknownBatchHandle"
  | .finishedWithPendingWrites => "FinishedWithPendingWrites"
  | .other message => message

/-- `Completeness`, without the tasks of an incomplete database. -/
inductive Completeness where
  | incomplete
  | finalizing
  | complete
  | broken (task reason : String)
  deriving DecidableEq

/-- The members of `Meta` that are read or written here. -/
structure Meta where
  completeness : Completeness
  completePredicates : List PredicateRef

/-- `Storage.Mode`, without the starting id and the schema of a new database. -/
inductive Mode where
  | readOnly
  | readWrite
  | create
  deriving DecidableEq

/-- The mode in which `withOpenDatabase` opens a database. -/
def openMode (envReadOnly : Bool) (completeness : Completeness) : Mode :=
  if envReadOnly then
    .readOnly
  else
    match completeness with
    | .finalizing => .readOnly
    | .complete => .readOnly
    | _ => .readWrite

end Glean.Database
