import Mathlib.Data.Finset.Basic
import Mathlib.Data.Finset.Card
import Mathlib.Logic.Function.Basic
import Mathlib.Tactic.Common
import Mathlib.Algebra.GroupWithZero.Nat
import Mathlib.Order.Lattice

/-! Ownership set expressions and the container that stores each of them once (`uset.h`).
A set of 32-bit numbers is its elements; `Uset` objects live at addresses of a heap owned by
the container, since the algorithms compare, share and free them by pointer.
-/

namespace Glean.RTS

/-- Ids of ownership sets; ids below the first set id are units. -/
abbrev UsetId := Nat

abbrev UnitId := Nat

abbrev Addr := Nat

/-- `INVALID_USET`. -/
def invalidUset : UsetId := 0xffffffff

inductive SetOp where
  | or
  | and
  deriving DecidableEq

/-- Facts with this owner are visible if any (`or`) or all (`and`) members are visible. -/
@[ext]
structure SetExpr where
  op : SetOp
  set : Finset UsetId
  deriving DecidableEq

/-- The generic pointer of a set: null, to a list of trees, given by their keys, or to another
set.
-/
inductive Link where
  | null
  | trees (keys : List Nat)
  | uset (addr : Addr)
  deriving DecidableEq

structure Uset where
  exp : SetExpr
  refs : Int
  id : UsetId := invalidUset
  link : Link := .null

/-- `Usets`: the members are the addresses in the hash set, `promoted` is its statistic. -/
structure Usets where
  firstId : UsetId
  nextId : UsetId
  promoted : Nat
  heap : Addr → Option Uset
  fresh : Addr
  members : List Addr

namespace Usets

def new (firstId : UsetId) : Usets where
  firstId := firstId
  nextId := firstId
  promoted := 0
  heap := fun _ => none
  fresh := 0
  members := []

/-- Change the object at an address, if it is allocated. -/
def modify (usets : Usets) (addr : Addr) (f : Uset → Uset) : Usets :=
  { usets with heap := Function.update usets.heap addr ((usets.heap addr).map f) }

/-- The expression stored at an address. -/
def exp? (usets : Usets) (addr : Addr) : Option SetExpr :=
  (usets.heap addr).map Uset.exp

/-- `Usets::lookup`: the member with this expression. -/
def lookup (usets : Usets) (exp : SetExpr) : Option Addr :=
  usets.members.find? (fun addr => usets.exp? addr = some exp)

/-- `Usets::use`. -/
def use (usets : Usets) (addr : Addr) (refs : Int) : Usets :=
  usets.modify addr (fun uset => { uset with refs := uset.refs + refs })

/-- `Usets::add` of an object that is already on the heap. -/
def addEntry (usets : Usets) (addr : Addr) (entry : Uset) : Usets × Addr :=
  match usets.lookup entry.exp with
  | none => ({ usets with members := usets.members ++ [addr] }, addr)
  | some found => (usets.use found entry.refs, found)

/-- `Usets::add` of a new object; a duplicate is freed again. -/
def add (usets : Usets) (exp : SetExpr) (refs : Int) : Usets × Addr :=
  match usets.lookup exp with
  | none =>
      ({ usets with
          heap := Function.update usets.heap usets.fresh (some { exp, refs })
          fresh := usets.fresh + 1
          members := usets.members ++ [usets.fresh] },
        usets.fresh)
  | some found => (usets.use found refs, found)

/-- `Usets::promote`: give an object the next id unless it has one. Ids are 32 bits wide. -/
def promote (usets : Usets) (addr : Addr) : Usets :=
  match usets.heap addr with
  | none => usets
  | some uset =>
      if uset.id = invalidUset then
        { usets with
            heap :=
              Function.update usets.heap addr
                (some { uset with id := usets.nextId, refs := uset.refs + 1 })
            nextId := (usets.nextId + 1) % 2 ^ 32
            promoted := usets.promoted + 1 }
      else
        usets

/-- The id of the object at an address. -/
def idAt (usets : Usets) (addr : Addr) : UsetId :=
  ((usets.heap addr).map Uset.id).getD invalidUset

/-- The id under which an expression is stored. -/
def find? (usets : Usets) (exp : SetExpr) : Option UsetId :=
  (usets.lookup exp).map usets.idAt

/-- `Usets::toEliasFano`: the promoted sets in the order of their ids. -/
def toEliasFano (usets : Usets) : List SetExpr :=
  (List.range usets.promoted).map fun index =>
    ((usets.members.find? (fun addr => usets.idAt addr = usets.firstId + index)).bind
      usets.exp?).getD ⟨.or, ∅⟩

/-- Members are allocated, listed once and have pairwise different expressions. -/
structure Canonical (usets : Usets) : Prop where
  allocated : ∀ addr ∈ usets.members, ∃ uset, usets.heap addr = some uset
  below : ∀ addr uset, usets.heap addr = some uset → addr < usets.fresh
  unique
    : ∀ left ∈ usets.members, ∀ right ∈ usets.members,
        usets.exp? left = usets.exp? right → left = right

theorem new_canonical (firstId : UsetId) : (new firstId).Canonical where
  allocated := by simp [new]
  below := by simp [new]
  unique := by simp [new]

@[simp]
theorem lookup_new (firstId : UsetId) (exp : SetExpr) : (new firstId).lookup exp = none := rfl

@[simp]
theorem find?_new (firstId : UsetId) (exp : SetExpr) : (new firstId).find? exp = none := rfl

/-- What lookup finds is a member with the expression. -/
theorem lookup_some {usets : Usets} {exp : SetExpr} {addr : Addr}
    (found : usets.lookup exp = some addr)
    : addr ∈ usets.members ∧ usets.exp? addr = some exp :=
  ⟨List.mem_of_find?_eq_some found, by simpa using List.find?_some found⟩

/-- In a canonical container lookup finds every member by its expression. -/
theorem Canonical.lookup_eq {usets : Usets} (canonical : usets.Canonical) {exp : SetExpr}
    {addr : Addr} (member : addr ∈ usets.members) (stored : usets.exp? addr = some exp)
    : usets.lookup exp = some addr := by
  cases found : usets.lookup exp with
  | none =>
      have absent := List.find?_eq_none.mp found addr member
      simp [stored] at absent
  | some other =>
      obtain ⟨otherMember, otherStored⟩ := lookup_some found
      rw [canonical.unique other otherMember addr member (otherStored.trans stored.symm)]

theorem lookup_eq_none {usets : Usets} {exp : SetExpr}
    : usets.lookup exp = none ↔ ∀ addr ∈ usets.members, usets.exp? addr ≠ some exp := by
  simp [lookup, List.find?_eq_none]

/-- Changing an object without its expression changes no expression. -/
theorem exp?_modify (usets : Usets) (addr : Addr) {f : Uset → Uset}
    (keeps : ∀ uset, (f uset).exp = uset.exp) (other : Addr)
    : (usets.modify addr f).exp? other = usets.exp? other := by
  by_cases same : other = addr
  · subst same
    cases stored : usets.heap other <;> simp [exp?, modify, stored, keeps]
  · simp [exp?, modify, Function.update_of_ne same]

/-- Changing an object without its expression keeps the container canonical. -/
theorem Canonical.modify {usets : Usets} (canonical : usets.Canonical) (addr : Addr)
    {f : Uset → Uset} (keeps : ∀ uset, (f uset).exp = uset.exp)
    : (usets.modify addr f).Canonical where
  allocated := by
    intro other member
    obtain ⟨uset, stored⟩ := canonical.allocated other member
    by_cases same : other = addr
    · subst same
      exact ⟨f uset, by simp [Usets.modify, stored]⟩
    · exact ⟨uset, by simp [Usets.modify, Function.update_of_ne same, stored]⟩
  below := by
    intro other uset stored
    by_cases same : other = addr
    · subst same
      obtain ⟨old, oldStored, -⟩ : ∃ old, usets.heap other = some old ∧ f old = uset := by
        simpa [Usets.modify] using stored
      exact canonical.below other old oldStored
    · exact canonical.below other uset
        (by simpa [Usets.modify, Function.update_of_ne same] using stored)
  unique := by
    intro left leftMember right rightMember equal
    rw [exp?_modify usets addr keeps, exp?_modify usets addr keeps] at equal
    exact canonical.unique left leftMember right rightMember equal

/-- Changing an object without its expression changes no lookup. -/
theorem lookup_modify (usets : Usets) (addr : Addr) {f : Uset → Uset}
    (keeps : ∀ uset, (f uset).exp = uset.exp) (exp : SetExpr)
    : (usets.modify addr f).lookup exp = usets.lookup exp := by
  simp only [lookup, exp?_modify usets addr keeps]
  rfl

theorem idAt_modify (usets : Usets) (addr : Addr) {f : Uset → Uset}
    (keeps : ∀ uset, (f uset).id = uset.id) (other : Addr)
    : (usets.modify addr f).idAt other = usets.idAt other := by
  by_cases same : other = addr
  · subst same
    cases stored : usets.heap other <;> simp [idAt, modify, stored, keeps]
  · simp [idAt, modify, Function.update_of_ne same]

/-- Using an object changes neither lookups nor ids. -/
@[simp]
theorem find?_use (usets : Usets) (addr : Addr) (refs : Int) (exp : SetExpr)
    : (usets.use addr refs).find? exp = usets.find? exp := by
  have ids : (usets.use addr refs).idAt = usets.idAt :=
    funext (idAt_modify usets addr (fun _ => rfl))
  have found : (usets.use addr refs).lookup exp = usets.lookup exp := by
    apply lookup_modify
    exact fun _ => rfl
  rw [find?, find?, ids, found]

theorem Canonical.use {usets : Usets} (canonical : usets.Canonical) (addr : Addr) (refs : Int)
    : (usets.use addr refs).Canonical :=
  canonical.modify addr (fun _ => rfl)

/-- An expression that is already stored is only used once more. -/
theorem add_of_found {usets : Usets} {exp : SetExpr} {addr : Addr} (refs : Int)
    (found : usets.lookup exp = some addr)
    : usets.add exp refs = (usets.use addr refs, addr) := by
  simp [add, found]

/-- The container after adding an expression that was missing, with a chosen id. -/
def insertNew (usets : Usets) (exp : SetExpr) (refs : Int) (id : UsetId) : Usets :=
  { usets with
      heap := Function.update usets.heap usets.fresh (some { exp, refs, id })
      fresh := usets.fresh + 1
      members := usets.members ++ [usets.fresh] }

theorem add_of_missing {usets : Usets} {exp : SetExpr} (refs : Int)
    (missing : usets.lookup exp = none)
    : usets.add exp refs = (usets.insertNew exp refs invalidUset, usets.fresh) := by
  simp [add, insertNew, missing]

/-- Promoting a just added object gives it the next id. -/
theorem promote_insertNew (usets : Usets) (exp : SetExpr) (refs : Int)
    : (usets.insertNew exp refs invalidUset).promote usets.fresh
      = { usets.insertNew exp (refs + 1) usets.nextId with
            nextId := (usets.nextId + 1) % 2 ^ 32
            promoted := usets.promoted + 1 } := by
  simp [promote, insertNew]

section InsertNew

variable {usets : Usets} {exp : SetExpr} {refs : Int} {id : UsetId}

/-- Objects at members are untouched by an insertion at the fresh address. -/
theorem Canonical.heap_insertNew (canonical : usets.Canonical) {addr : Addr}
    (member : addr ∈ usets.members)
    : (usets.insertNew exp refs id).heap addr = usets.heap addr := by
  obtain ⟨uset, stored⟩ := canonical.allocated addr member
  have different : addr ≠ usets.fresh := Nat.ne_of_lt (canonical.below addr uset stored)
  simp [insertNew, Function.update_of_ne different]

theorem Canonical.insertNew (canonical : usets.Canonical)
    (missing : usets.lookup exp = none)
    : (usets.insertNew exp refs id).Canonical where
  allocated := by
    intro addr member
    rcases List.mem_append.mp member with old | new
    · rw [canonical.heap_insertNew old]
      exact canonical.allocated addr old
    · obtain rfl := List.mem_singleton.mp new
      exact ⟨_, Function.update_self ..⟩
  below := by
    intro addr uset stored
    by_cases same : addr = usets.fresh
    · simp [same, Usets.insertNew]
    · have old : usets.heap addr = some uset := by
        simpa [Usets.insertNew, Function.update_of_ne same] using stored
      exact Nat.lt_succ_of_lt (canonical.below addr uset old)
  unique := by
    have fresh : (usets.insertNew exp refs id).exp? usets.fresh = some exp := by
      simp [Usets.insertNew, exp?]
    have old {addr : Addr} (member : addr ∈ usets.members)
        : (usets.insertNew exp refs id).exp? addr = usets.exp? addr := by
      simp [exp?, canonical.heap_insertNew member]
    have absent := lookup_eq_none.mp missing
    intro left leftMember right rightMember equal
    rcases List.mem_append.mp leftMember with leftOld | leftNew
    · rcases List.mem_append.mp rightMember with rightOld | rightNew
      · rw [old leftOld, old rightOld] at equal
        exact canonical.unique left leftOld right rightOld equal
      · obtain rfl := List.mem_singleton.mp rightNew
        rw [old leftOld, fresh] at equal
        exact (absent left leftOld equal).elim
    · obtain rfl := List.mem_singleton.mp leftNew
      rcases List.mem_append.mp rightMember with rightOld | rightNew
      · rw [old rightOld, fresh] at equal
        exact (absent right rightOld equal.symm).elim
      · exact (List.mem_singleton.mp rightNew).symm

/-- The numbering does not matter. -/
theorem Canonical.insertPromoted (canonical : usets.Canonical)
    (missing : usets.lookup exp = none) (nextId : UsetId) (promoted : Nat)
    : ({ usets.insertNew exp refs id with nextId := nextId, promoted := promoted }
        : Usets).Canonical :=
  have inserted : (usets.insertNew exp refs id).Canonical := canonical.insertNew missing
  ⟨inserted.allocated, inserted.below, inserted.unique⟩

/-- The id lookup after an insertion: the new expression and the old ones. -/
theorem Canonical.find?_insertNew (canonical : usets.Canonical)
    (missing : usets.lookup exp = none) (other : SetExpr)
    : (usets.insertNew exp refs id).find? other
      = if other = exp then some id else usets.find? other := by
  have after : (usets.insertNew exp refs id).Canonical := canonical.insertNew missing
  have idAtOld {addr : Addr} (member : addr ∈ usets.members)
      : (usets.insertNew exp refs id).idAt addr = usets.idAt addr := by
    simp [idAt, canonical.heap_insertNew member]
  split_ifs with same
  · subst same
    have found : (usets.insertNew other refs id).lookup other = some usets.fresh :=
      after.lookup_eq (by simp [Usets.insertNew]) (by simp [Usets.insertNew, exp?])
    rw [find?, found]
    simp [idAt, Usets.insertNew]
  · cases found : usets.lookup other with
    | none =>
        have absent : (usets.insertNew exp refs id).lookup other = none := by
          refine lookup_eq_none.mpr (fun addr member stored => ?_)
          rcases List.mem_append.mp member with old | new
          · exact lookup_eq_none.mp found addr old
              (by simpa [exp?, canonical.heap_insertNew old] using stored)
          · obtain rfl := List.mem_singleton.mp new
            simp [exp?, Usets.insertNew] at stored
            exact same stored.symm
        simp [find?, found, absent]
    | some addr =>
        obtain ⟨member, stored⟩ := lookup_some found
        have kept : (usets.insertNew exp refs id).lookup other = some addr :=
          after.lookup_eq (List.mem_append_left _ member)
            (by simpa [exp?, canonical.heap_insertNew member] using stored)
        simp [find?, found, kept, idAtOld member]

end InsertNew

theorem idAt_of_lookup {usets : Usets} {exp : SetExpr} {addr : Addr}
    (found : usets.lookup exp = some addr)
    : usets.find? exp = some (usets.idAt addr) := by
  rw [find?, found, Option.map_some]

theorem lookup_use (usets : Usets) (addr : Addr) (refs : Int) (exp : SetExpr)
    : (usets.use addr refs).lookup exp = usets.lookup exp := by
  apply lookup_modify
  exact fun _ => rfl

/-- Giving an object an id changes the id of its expression only. -/
theorem Canonical.find?_setId {usets : Usets} (canonical : usets.Canonical) {exp : SetExpr}
    {addr : Addr} (found : usets.lookup exp = some addr) (id : UsetId) (other : SetExpr)
    : (usets.modify addr (fun uset => { uset with id := id })).find? other
      = if other = exp then some id else usets.find? other := by
  have same : (usets.modify addr (fun uset => { uset with id := id })).lookup other
      = usets.lookup other := by
    apply lookup_modify
    exact fun _ => rfl
  obtain ⟨member, stored⟩ := lookup_some found
  obtain ⟨uset, allocated⟩ := canonical.allocated addr member
  rw [find?, same]
  split_ifs with isExp
  · rw [isExp, found]
    simp [idAt, Usets.modify, allocated]
  · cases otherFound : usets.lookup other with
    | none => simp [find?, otherFound]
    | some otherAddr =>
        have different : otherAddr ≠ addr := by
          intro eq
          rw [← eq] at stored
          exact isExp (Option.some.inj ((lookup_some otherFound).2.symm.trans stored))
        simp [find?, otherFound, idAt, Usets.modify, Function.update_of_ne different]

end Usets

end Glean.RTS
