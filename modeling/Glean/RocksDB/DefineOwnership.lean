import Mathlib.Data.Finset.Max
import Glean.RocksDB.StoreOwnership

/-! Ownership of facts as they are derived (`DefineOwnership` in `derived.cpp`), and adding it to
the database (`DatabaseImpl::addDefineOwnership`). A batch numbers its new sets by itself; they
are renumbered when the batch is added.
-/

namespace Glean.Rocks

open Glean.RTS

/-- `DefineOwnership`. The ownership it reads is that of the database. -/
structure DefineOwnership where
  pid : Pid
  ids : List Id
  owners : List UsetId
  usets : Usets
  newSets : List Addr

namespace DefineOwnership

def new (ownership : Ownership) (pid : Pid) : DefineOwnership where
  pid := pid
  ids := []
  owners := []
  usets := .new ownership.nextSetId
  newSets := []

/-- Record the owner of a fact. -/
def push (define : DefineOwnership) (id : Id) (usetid : UsetId) : DefineOwnership :=
  { define with ids := define.ids ++ [id], owners := define.owners ++ [usetid] }

/-- `derivedFrom`. Only a set that is neither in the database nor in the batch is new. -/
def derivedFrom (define : DefineOwnership) (ownership : Ownership) (id : Id)
    (deps : Finset UsetId)
    : DefineOwnership :=
  if nonempty : deps.Nonempty then
    if deps.card = 1 then
      define.push id (deps.min' nonempty)
    else
      let usetid := ownership.lookupSet ⟨.and, deps⟩
      if usetid = invalidUset then
        match define.usets.lookup ⟨.and, deps⟩ with
        | none =>
            let (added, addr) := define.usets.add ⟨.and, deps⟩ 0
            let usets := added.promote addr
            { define with usets := usets, newSets := define.newSets ++ [addr] }.push id
              (usets.idAt addr)
        | some addr =>
            let (usets, _) := define.usets.add ⟨.and, deps⟩ 0
            { define with usets := usets }.push id (usets.idAt addr)
      else
        define.push id usetid
  else
    define

/-- `subst`: rename the facts. -/
def subst (define : DefineOwnership) (rename : Id → Id) : DefineOwnership :=
  { define with ids := define.ids.map rename }

/-- The new sets in order of creation. -/
def created (define : DefineOwnership) : List Uset :=
  define.newSets.filterMap define.usets.heap

end DefineOwnership

/-- The locals of `addDefineOwnership`: the sets of the database, those to be written, and the
substitution of set ids, which leaves other ids alone.
-/
structure Rebasing where
  usets : Usets
  batch : List (UsetId × SetExpr)
  subst : UsetId → UsetId

namespace Rebasing

def start (usets : Usets) : Rebasing := ⟨usets, [], id⟩

/-- The substitution is applied to the elements of a set as well. -/
def renumbered (state : Rebasing) (uset : Uset) : SetExpr :=
  ⟨uset.exp.op, uset.exp.set.image state.subst⟩

/-- Renumber one new set. -/
def rebase (state : Rebasing) (uset : Uset) : Rebasing :=
  let exp := state.renumbered uset
  let (added, addr) := state.usets.add exp 0
  match state.usets.lookup exp with
  | none =>
      let usets := added.promote addr
      { usets := usets
        batch := state.batch ++ [(usets.idAt addr, exp)]
        subst := Function.update state.subst uset.id (usets.idAt addr) }
  | some _ =>
      { state with
          usets := added
          subst := Function.update state.subst uset.id (added.idAt addr) }

end Rebasing

namespace Database

/-- `addDefineOwnership`. The facts of a batch are logged under the next number of the
predicate.
-/
def addDefineOwnership (db : Database) (define : DefineOwnership) : Database :=
  let rebased := define.created.foldl Rebasing.rebase (.start db.usets)
  let number := (db.ownershipDerivedCounters.get? define.pid).getD 0
  { db with
      columns := {
        db.columns with
          ownershipSets := db.columns.ownershipSets.putAll rebased.batch
          ownershipDerivedRaw :=
            db.columns.ownershipDerivedRaw.put (toLex (define.pid, number))
              (define.ids.zip (define.owners.map rebased.subst)) }
      ownershipDerivedCounters := db.ownershipDerivedCounters.put define.pid (number + 1)
      usets := rebased.usets }

end Database

end Glean.Rocks
