import Glean.Ownership.Computed
import Glean.Ownership.TrieArray
import Glean.RTS.Lookup

/-! Ownership of facts that are not derived (`ownership.cpp`). The units of each fact are filled
into a trie, shared as sets, and completed along the references between facts.
-/

namespace Glean.RTS

/-- The function that `fillOwnership` gives to `insert`: append the unit in place if nothing
else refers to the set, to a copy otherwise.
-/
def appendUnit (unit : UnitId) (heap : Heap) (prev : Option Addr) (refs : Int) : Heap × Addr :=
  match prev with
  | none => heap.alloc { exp := ⟨.or, {unit}⟩, refs := refs }
  | some addr =>
      match heap.objects addr with
      | none => (heap, addr)
      | some uset =>
          if uset.refs = refs then
            (heap.modify addr (fun uset => { uset with
              exp := ⟨uset.exp.op, insert unit uset.exp.set⟩ }), addr)
          else
            (heap.use addr (-refs)).alloc
              { exp := ⟨.or, insert unit uset.exp.set⟩, refs := refs }

/-- The locals of `fillOwnership`. -/
structure Filling where
  heap : Heap
  trie : TrieArray
  lastUnit : UnitId
  maxUnit : UnitId

def Filling.start : Filling := ⟨.empty, .new, 0, 0⟩

/-- One round of the loop of `fillOwnership`. Units that are out of order abort. -/
def Filling.add (state : Filling) (data : OwnershipUnit) : Option Filling :=
  if data.unit < state.lastUnit then
    none
  else
    (state.trie.insert state.heap data.ids (appendUnit data.unit)).map
      fun (heap, trie) => ⟨heap, trie, data.unit, max data.unit state.maxUnit⟩

def fillOwnership (units : List OwnershipUnit) : Option Filling :=
  units.foldlM Filling.add .start

namespace Usets

def setLink (usets : Usets) (addr : Addr) (link : Link) : Usets :=
  usets.modify addr (fun uset => { uset with link := link })

/-- `Uset::drop` of an object that is not in the container. -/
def dropEntry (usets : Usets) (addr : Addr) : Usets :=
  { usets with
      heap :=
        Function.update usets.heap addr
          ((usets.heap addr).bind (fun uset =>
            if uset.refs - 1 = 0 then none else some { uset with refs := uset.refs - 1 })) }

/-- `Usets::drop`. -/
def drop (usets : Usets) (addr : Addr) : Usets :=
  match usets.heap addr with
  | none => usets
  | some uset =>
      if uset.refs - 1 = 0 then
        { usets with
            heap := Function.update usets.heap addr none
            members := usets.members.filter (· ≠ addr) }
      else
        usets.modify addr (fun uset => { uset with refs := uset.refs - 1 })

/-- `Usets::merge` by `SetU32::merge`, which returns an argument that includes the other. -/
def merge (usets : Usets) (left right : Addr) : Usets × Addr :=
  match usets.heap left, usets.heap right with
  | some leftSet, some rightSet =>
      if rightSet.exp.set ⊆ leftSet.exp.set then
        (usets.use left 1, left)
      else if leftSet.exp.set ⊆ rightSet.exp.set then
        (usets.use right 1, right)
      else
        usets.add ⟨.or, leftSet.exp.set ∪ rightSet.exp.set⟩ 1
  | _, _ => (usets, left)

end Usets

/-- The function that `collectUsets` calls on the values of the trie. The link of a set is the
set that stands for it.
-/
def collectVisit (usets : Usets) (tree : TreePtr) (_key _size _block : Nat)
    : Usets × Option TreePtr :=
  match tree with
  | .value addr =>
      match usets.heap addr with
      | none => (usets, some tree)
      | some entry =>
          let (usets, p) :=
            match entry.link with
            | .uset p => (usets, p)
            | _ =>
                let (usets, p) := usets.addEntry addr entry
                (usets.setLink addr (.uset p), p)
          if p ≠ addr then
            (usets.dropEntry addr, some (.value p))
          else
            (usets, some (.value addr))
  | _ => (usets, some tree)

def collectUsets (numUnits : Nat) (heap : Heap) (trie : TrieArray) : Usets × TrieArray :=
  let start := { Usets.new numUnits with heap := heap.objects, fresh := heap.fresh }
  let (usets, trie) := trie.traverse collectVisit start
  (usets.members.foldl (fun usets addr => usets.setLink addr .null) usets, trie)

/-- The vector of the sets of all facts. -/
structure UsetVector where
  size : Nat
  sets : Id → Option Addr

/-- The id of the set of a fact. -/
def UsetVector.owner (facts : UsetVector) (usets : Usets) (id : Id) : UsetId :=
  ((facts.sets id).map usets.idAt).getD invalidUset

/-- The function that `flatten` calls on each tree. -/
def flattenVisit (state : Usets × (Id → Option Addr)) (tree : TreePtr) (key size _block : Nat)
    : (Usets × (Id → Option Addr)) × Option TreePtr :=
  match tree with
  | .value addr =>
      ((state.1.use addr (size - 1),
          fun id => if key ≤ id ∧ id < key + size then some addr else state.2 id),
        some tree)
  | _ =>
      ((state.1, fun id => if key ≤ id ∧ id < key + size then none else state.2 id), some tree)

/-- `TrieArray::flatten`. -/
def flatten (usets : Usets) (trie : TrieArray) : Usets × UsetVector :=
  if trie.maxkey < trie.minkey then
    (usets, ⟨0, fun _ => none⟩)
  else
    let ((usets, sets), _) := trie.traverse flattenVisit (usets, fun _ => none)
    (usets, ⟨trie.maxkey + 1, sets⟩)

/-- The ids that the traverser of a predicate reports for a clause. -/
abbrev References := Pid → Clause → List Id

/-- The state of the loop over the references of a fact. -/
structure Completing where
  usets : Usets
  sets : Id → Option Addr
  touched : List Addr

namespace Completing

/-- Add the set of a fact to what is known for one of its references. -/
def reference (set : Addr) (state : Completing) (id : Id) : Completing :=
  match state.sets id with
  | none =>
      { state with
          sets := Function.update state.sets id (some set)
          usets := state.usets.use set 1 }
  | some me =>
      match (state.usets.heap me).map Uset.link with
      | some (.uset added) =>
          { state with
              usets := (state.usets.use added 1).drop me
              sets := Function.update state.sets id (some added) }
      | _ =>
          let (usets, p) := state.usets.merge me set
          { usets := usets.setLink me (.uset p)
            touched := state.touched ++ [me]
            sets := Function.update state.sets id (some p) }

/-- Reset a link field and drop the reference that kept the set. -/
def reset (usets : Usets) (addr : Addr) : Usets :=
  (usets.setLink addr .null).drop addr

end Completing

/-- One round of the backwards loop over the facts. -/
def completeFact (references : References) (state : Usets × (Id → Option Addr)) (fact : Fact)
    : Usets × (Id → Option Addr) :=
  match state.2 fact.id with
  | none => state
  | some set =>
      let after :=
        (references fact.type fact.clause).foldl (Completing.reference set)
          ⟨state.1.promote set, state.2, []⟩
      (after.touched.foldl Completing.reset after.usets, after.sets)

def completeOwnership (references : References) (lookup : Lookup) (usets : Usets)
    (facts : UsetVector)
    : Option (Usets × UsetVector) :=
  if facts.size = 0 then
    some (usets, facts)
  else
    ((lookup.enumerateBack facts.size Id.invalid).drain .keyValue).map fun found =>
      let (usets, sets) := found.foldl (completeFact references) (usets, facts.sets)
      (usets, ⟨facts.size, sets⟩)

/-- The ids of the sets of all facts, from the lowest id on. -/
def factOwners (usets : Usets) (facts : UsetVector) : List (Id × UsetId) :=
  (List.range' Id.lowest (facts.size - Id.lowest)).map (fun id => (id, facts.owner usets id))

/-- The sets of all facts, before they are encoded. -/
def completedSets (references : References) (lookup : Lookup) (units : List OwnershipUnit)
    : Option (Usets × UsetVector) := do
  let filled ← fillOwnership units
  let (usets, trie) := collectUsets ((filled.maxUnit + 1) % 2 ^ 32) filled.heap filled.trie
  let (usets, facts) := flatten usets trie
  completeOwnership references lookup usets facts

/-- `computeOwnership`. The loop over the facts counts with 32 bits and does not end when the
vector has `2 ^ 32` elements.
-/
def computeOwnership (references : References) (lookup : Lookup) (units : List OwnershipUnit)
    : Option ComputedOwnership := do
  let (usets, facts) ← completedSets references lookup units
  if 2 ^ 32 ≤ facts.size then
    none
  else
    some {
      firstId := usets.firstId
      sets := usets.toEliasFano
      facts := intervals (factOwners usets facts) }

/-- The last step of the computation. -/
theorem computeOwnership_eq {references : References} {lookup : Lookup}
    {units : List OwnershipUnit} {usets : Usets} {facts : UsetVector}
    (completed : completedSets references lookup units = some (usets, facts))
    : computeOwnership references lookup units
      = if 2 ^ 32 ≤ facts.size then
          none
        else
          some {
            firstId := usets.firstId
            sets := usets.toEliasFano
            facts := intervals (factOwners usets facts) } := by
  unfold computeOwnership
  rw [completed]
  rfl

end Glean.RTS
