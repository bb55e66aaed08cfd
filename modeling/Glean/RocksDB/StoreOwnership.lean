import Glean.Ownership.Derived
import Glean.RocksDB.Database

/-! Storing computed ownership and reading it back (`DatabaseImpl::storeOwnership`,
`StoredOwnership`). The owner of a fact is that of the last stored key not after it.
-/

namespace Glean.Rocks

open Glean.RTS

/-- The sets of a computation with the ids they are stored under. Ids are 32 bits wide. -/
def numberedSets (ownership : ComputedOwnership) : List (UsetId × SetExpr) :=
  ownership.sets.zipIdx.map (fun entry => ((ownership.firstId + entry.2) % 2 ^ 32, entry.1))

namespace Database

/-- `storeOwnership`. The sets are loaded again from the column. -/
def storeOwnership (db : Database) (ownership : ComputedOwnership) : Database :=
  let columns :=
    { db.columns with
        ownershipSets := db.columns.ownershipSets.putAll (numberedSets ownership) }
  { db with
      columns := { columns with factOwners := columns.factOwners.putAll ownership.facts }
      usets := loadOwnershipSets columns }

/-- `StoredOwnership::getOwner`. -/
def getOwner (db : Database) (id : Id) : UsetId :=
  ((db.columns.factOwners.floor? id).map Prod.snd).getD invalidUset

/-- `getOwnership`. -/
def ownership (db : Database) : Ownership where
  getOwner := db.getOwner
  nextSetId := db.usets.nextId
  lookupSet exp := (db.usets.find? exp).getD invalidUset

end Database

end Glean.Rocks
