import Glean.RocksDB.OwnershipSets

/-! Batches of derived facts that are being filled. Database ids and the ids that a batch gives
to its own sets share one number space, so that a database id may be taken for one of the latter.
-/

namespace Glean.Rocks

open Glean.RTS

/-- Loading the column of a database, whatever it stores. -/
theorem IndexOf.of_loaded {usets : Usets} {column : SortedMap UsetId SetExpr} {columns : Columns}
    (isLoaded : usets = loadOwnershipSets columns) (sets : column = columns.ownershipSets)
    (inRange : ∀ id exp, columns.ownershipSets.get? id = some exp → id < invalidUset)
    : IndexOf usets column := by
  obtain ⟨loaded, below, bounded⟩ := loadOwnershipSets_spec inRange
  rw [isLoaded, sets]
  refine ⟨loaded.canonical, below _ _, bounded, ?_⟩
  intro set id found
  cases (loaded.sound found).1

/-- A batch with the facts and owners passed to `derivedFrom`, and the database ids among its
owners and the elements of its sets.
-/
structure Batch where
  define : DefineOwnership
  requests : List (Id × Finset UsetId)
  used : Finset UsetId

namespace Batch

def new (ownership : Ownership) (pid : Pid) : Batch :=
  ⟨.new ownership pid, [], ∅⟩

/-- The database ids that a call of `derivedFrom` brings into a batch. -/
def idsFrom (ownership : Ownership) (deps : Finset UsetId) : Finset UsetId :=
  if deps.card = 1 ∨ ownership.lookupSet ⟨.and, deps⟩ = invalidUset then
    deps
  else
    {ownership.lookupSet ⟨.and, deps⟩}

/-- `derivedFrom`, which ignores a call without owners. -/
def derivedFrom (batch : Batch) (ownership : Ownership) (id : Id) (deps : Finset UsetId)
    : Batch :=
  if deps = ∅ then
    { batch with define := batch.define.derivedFrom ownership id deps }
  else
    { define := batch.define.derivedFrom ownership id deps
      requests := batch.requests ++ [(id, deps)]
      used := batch.used ∪ idsFrom ownership deps }

def subst (batch : Batch) (rename : Id → Id) : Batch where
  define := batch.define.subst rename
  requests := batch.requests.map (fun request => (rename request.1, request.2))
  used := batch.used

/-- No database id in the batch is also the id of one of its own sets. -/
def Unambiguous (batch : Batch) : Prop :=
  ∀ uset ∈ batch.define.created, uset.id ∉ batch.used

end Batch

/-- An owner stands for the `And` of some owners, or for the only one of them. -/
def Denotes (column : SortedMap UsetId SetExpr) (deps : Finset UsetId) (owner : UsetId) : Prop :=
  deps = {owner} ∨ 1 < deps.card ∧ column.get? owner = some ⟨.and, deps⟩

/-- The batches that were added for a predicate. -/
def addedFor (log : List (Pid × List (Id × Finset UsetId))) (pid : Pid)
    : List (List (Id × Finset UsetId)) :=
  (log.filter (fun entry => entry.1 = pid)).map Prod.snd

/-- Every batch that was added is stored, and the owner of each of its facts denotes what was
passed to `derivedFrom`.
-/
def Recorded (columns : Columns) (log : List (Pid × List (Id × Finset UsetId))) : Prop :=
  ∀ pid number,
    Option.Rel
      (List.Forall₂ (fun (entry : Id × UsetId) (request : Id × Finset UsetId) =>
        entry.1 = request.1 ∧ Denotes columns.ownershipSets request.2 entry.2))
      (columns.ownershipDerivedRaw.get? (toLex (pid, number))) (addedFor log pid)[number]?

/-- Stored sets keep their ids. -/
def Extends (before after : SortedMap UsetId SetExpr) : Prop :=
  ∀ {id exp}, before.get? id = some exp → after.get? id = some exp

theorem Denotes.mono {before after : SortedMap UsetId SetExpr} {deps : Finset UsetId}
    {owner : UsetId} (denotes : Denotes before deps owner) (kept : Extends before after)
    : Denotes after deps owner := by
  rcases denotes with only | ⟨several, stored⟩
  · exact Or.inl only
  · exact Or.inr ⟨several, kept stored⟩

/-- What is known of an owner in a batch: it is a database id that denotes the request, or the
id of a new set of the batch.
-/
def OwnerOf (column : SortedMap UsetId SetExpr) (batch : Batch) (owner : UsetId)
    (deps : Finset UsetId)
    : Prop :=
  (owner ∈ batch.used ∧ Denotes column deps owner)
    ∨ (1 < deps.card ∧ ∃ uset ∈ batch.define.created, uset.id = owner ∧ uset.exp = ⟨.and, deps⟩)

/-- The new sets of a batch are `And`s of database ids, with ids of their own. -/
structure Batch.SetsOk (batch : Batch) : Prop where
  canonical : batch.define.usets.Canonical
  members : batch.define.newSets = batch.define.usets.members
  numbered : (batch.define.created.map Uset.id).Nodup
  below : ∀ uset ∈ batch.define.created, uset.id < batch.define.usets.nextId
  bounded : batch.define.usets.nextId ≤ invalidUset
  ands : ∀ uset ∈ batch.define.created, uset.exp.op = .and ∧ uset.exp.set ⊆ batch.used

/-- The state of a batch that is being filled. -/
structure Batch.Ok (column : SortedMap UsetId SetExpr) (batch : Batch) : Prop
    extends batch.SetsOk where
  ids : batch.define.ids = batch.requests.map Prod.fst
  owners
    : List.Forall₂ (OwnerOf column batch) batch.define.owners (batch.requests.map Prod.snd)

namespace DefineOwnership

variable {define : DefineOwnership} {ownership : Ownership} {id : Id} {deps : Finset UsetId}

theorem derivedFrom_empty : define.derivedFrom ownership id ∅ = define := by
  simp [derivedFrom]

theorem derivedFrom_single (dep : UsetId)
    : define.derivedFrom ownership id {dep} = define.push id dep := by
  simp [derivedFrom]

/-- Owners whose `And` is in the database. -/
theorem derivedFrom_found (several : 1 < deps.card)
    (found : ownership.lookupSet ⟨.and, deps⟩ ≠ invalidUset)
    : define.derivedFrom ownership id deps
      = define.push id (ownership.lookupSet ⟨.and, deps⟩) := by
  have nonempty : deps.Nonempty := Finset.card_pos.mp (by lia)
  rw [derivedFrom, dif_pos nonempty, if_neg (by lia), if_neg found]

/-- Owners whose `And` is in the batch. -/
theorem derivedFrom_known (several : 1 < deps.card)
    (missing : ownership.lookupSet ⟨.and, deps⟩ = invalidUset) {addr : Addr}
    (known : define.usets.lookup ⟨.and, deps⟩ = some addr)
    : define.derivedFrom ownership id deps
      = { define with usets := define.usets.use addr 0 }.push id (define.usets.idAt addr) := by
  have nonempty : deps.Nonempty := Finset.card_pos.mp (by lia)
  have sameId : (define.usets.use addr 0).idAt addr = define.usets.idAt addr := by
    apply Usets.idAt_modify
    exact fun _ => rfl
  rw [derivedFrom, dif_pos nonempty, if_neg (by lia), if_pos missing, known]
  simp only [Usets.add_of_found 0 known, sameId]

/-- Owners whose `And` is new. -/
theorem derivedFrom_new (several : 1 < deps.card)
    (missing : ownership.lookupSet ⟨.and, deps⟩ = invalidUset)
    (unknown : define.usets.lookup ⟨.and, deps⟩ = none)
    : define.derivedFrom ownership id deps
      = { define with
            usets := { define.usets.insertNew ⟨.and, deps⟩ 1 define.usets.nextId with
              nextId := (define.usets.nextId + 1) % 2 ^ 32
              promoted := define.usets.promoted + 1 }
            newSets := define.newSets ++ [define.usets.fresh] }.push id
              define.usets.nextId := by
  have nonempty : deps.Nonempty := Finset.card_pos.mp (by lia)
  rw [derivedFrom, dif_pos nonempty, if_neg (by lia), if_pos missing, unknown]
  simp only [Usets.add_of_missing 0 unknown, Usets.promote_insertNew]
  simp [Usets.idAt, Usets.insertNew]

end DefineOwnership

namespace Batch

variable {column : SortedMap UsetId SetExpr} {batch : Batch} {ownership : Ownership} {id : Id}
  {deps : Finset UsetId}

theorem Ok.new {pid : Pid} (bounded : ownership.nextSetId ≤ invalidUset)
    : (Batch.new ownership pid).Ok column where
  canonical := Usets.new_canonical _
  members := rfl
  numbered := .nil
  below := by simp [Batch.new, DefineOwnership.new, DefineOwnership.created]
  bounded := bounded
  ands := by simp [Batch.new, DefineOwnership.new, DefineOwnership.created]
  ids := rfl
  owners := .nil

/-- Stored sets may be added while a batch is filled. -/
theorem Ok.mono {after : SortedMap UsetId SetExpr} (ok : batch.Ok column)
    (kept : Extends column after)
    : batch.Ok after :=
  { ok with
      owners := ok.owners.imp (fun _ _ known =>
        known.imp_left (fun database => ⟨database.1, database.2.mono kept⟩)) }

theorem Ok.subst (ok : batch.Ok column) (rename : Id → Id) : (batch.subst rename).Ok column where
  canonical := ok.canonical
  members := ok.members
  numbered := ok.numbered
  below := ok.below
  bounded := ok.bounded
  ands := ok.ands
  ids := by simp [Batch.subst, DefineOwnership.subst, ok.ids]
  owners := by
    have same : (batch.subst rename).requests.map Prod.snd = batch.requests.map Prod.snd := by
      simp [Batch.subst]
    rw [same]
    exact ok.owners

/-- One more request, whose owner is known. -/
theorem Ok.push {after : Batch} {owner : UsetId} (ok : batch.Ok column) (sets : after.SetsOk)
    (created : ∀ uset ∈ batch.define.created, uset ∈ after.define.created)
    (used : batch.used ⊆ after.used) (ids : after.define.ids = batch.define.ids ++ [id])
    (owners : after.define.owners = batch.define.owners ++ [owner])
    (requests : after.requests = batch.requests ++ [(id, deps)])
    (isOwner : OwnerOf column after owner deps)
    : after.Ok column := by
  refine ⟨sets, by rw [ids, ok.ids, requests]; simp, ?_⟩
  rw [owners, requests, List.map_append]
  refine List.rel_append (ok.owners.imp (fun other request known => ?_)) (.cons isOwner .nil)
  rcases known with ⟨isUsed, denotes⟩ | ⟨several, uset, member, same⟩
  · exact Or.inl ⟨used isUsed, denotes⟩
  · exact Or.inr ⟨several, uset, created uset member, same⟩

/-- A set that is only used once more stays as it is. -/
theorem created_use (define : DefineOwnership) (addr : Addr)
    : { define with usets := define.usets.use addr 0 }.created = define.created := by
  have same : (define.usets.use addr 0).heap = define.usets.heap := by
    simp [Usets.use, Usets.modify]
  simp only [DefineOwnership.created, same]

/-- The new set of a request comes last. -/
theorem SetsOk.created_new (ok : batch.SetsOk) (exp : SetExpr) (nextId : UsetId)
    (promoted : Nat)
    : { batch.define with
          usets := { batch.define.usets.insertNew exp 1 batch.define.usets.nextId with
            nextId := nextId
            promoted := promoted }
          newSets := batch.define.newSets ++ [batch.define.usets.fresh] }.created
      = batch.define.created ++ [⟨exp, 1, batch.define.usets.nextId, .null⟩] := by
  have old : ∀ addr ∈ batch.define.newSets,
      (batch.define.usets.insertNew exp 1 batch.define.usets.nextId).heap addr
        = batch.define.usets.heap addr := by
    intro addr member
    rw [ok.members] at member
    exact ok.canonical.heap_insertNew member
  simp only [DefineOwnership.created, List.filterMap_append]
  congr 1
  · exact List.filterMap_congr old
  · simp [Usets.insertNew]

/-- A call of `derivedFrom`, in any state of the database. -/
theorem Ok.derivedFrom {db : Database} (ok : batch.Ok db.columns.ownershipSets)
    (index : IndexOf db.usets db.columns.ownershipSets)
    (room : batch.define.usets.nextId < invalidUset) (id : Id) (deps : Finset UsetId)
    : (batch.derivedFrom db.ownership id deps).Ok db.columns.ownershipSets := by
  unfold Batch.derivedFrom
  by_cases none : deps = ∅
  · rw [if_pos none, none, DefineOwnership.derivedFrom_empty]
    exact ok
  rw [if_neg none]
  have subset : batch.used ⊆ batch.used ∪ idsFrom db.ownership deps := Finset.subset_union_left
  have positive : 0 < deps.card := Finset.card_pos.mpr (Finset.nonempty_iff_ne_empty.mpr none)
  have ands : ∀ uset ∈ batch.define.created,
      uset.exp.op = .and ∧ uset.exp.set ⊆ batch.used ∪ idsFrom db.ownership deps :=
    fun uset member => ⟨(ok.ands uset member).1, (ok.ands uset member).2.trans subset⟩
  -- the sets of the batch stay as they are, unless the request makes a new one
  have sameSets {owners : List UsetId} {ids : List Id} {requests : List (Id × Finset UsetId)}
      : (⟨{ batch.define with ids := ids, owners := owners }, requests,
          batch.used ∪ idsFrom db.ownership deps⟩ : Batch).SetsOk :=
    { ok.toSetsOk with ands := ands }
  by_cases single : deps.card = 1
  · obtain ⟨dep, rfl⟩ := Finset.card_eq_one.mp single
    rw [DefineOwnership.derivedFrom_single]
    refine ok.push sameSets (fun _ member => member) subset rfl rfl rfl ?_
    exact Or.inl ⟨by simp [idsFrom], Or.inl rfl⟩
  have several : 1 < deps.card := by lia
  by_cases missing : db.ownership.lookupSet ⟨.and, deps⟩ = invalidUset
  · have uses : idsFrom db.ownership deps = deps := by simp [idsFrom, missing]
    cases known : batch.define.usets.lookup ⟨.and, deps⟩ with
    | some addr =>
        rw [DefineOwnership.derivedFrom_known several missing known]
        obtain ⟨member, stored⟩ := Usets.lookup_some known
        obtain ⟨uset, allocated⟩ := ok.canonical.allocated addr member
        have created : uset ∈ batch.define.created :=
          List.mem_filterMap.mpr ⟨addr, by rw [ok.members]; exact member, allocated⟩
        have same := created_use batch.define addr
        refine ok.push ⟨ok.canonical.use addr 0, ok.members, ?_, ?_, ok.bounded, ?_⟩ ?_ subset
          rfl rfl rfl (Or.inr ⟨several, uset, ?_, ?_, ?_⟩)
        · exact same ▸ ok.numbered
        · exact same ▸ ok.below
        · exact same ▸ ands
        · exact same ▸ fun _ isOld => isOld
        · exact same ▸ created
        · simp [Usets.idAt, allocated]
        · simpa [Usets.exp?, allocated] using stored
    | none =>
        rw [DefineOwnership.derivedFrom_new several missing known]
        have width : invalidUset + 1 = 2 ^ 32 := rfl
        have next : (batch.define.usets.nextId + 1) % 2 ^ 32 = batch.define.usets.nextId + 1 :=
          Nat.mod_eq_of_lt (by lia)
        rw [next]
        have created := ok.created_new ⟨.and, deps⟩ (batch.define.usets.nextId + 1)
          (batch.define.usets.promoted + 1)
        refine ok.push ⟨ok.canonical.insertPromoted known _ _, ?_, ?_, ?_, room, ?_⟩ ?_ subset
          rfl rfl rfl
          (Or.inr ⟨several, ⟨⟨.and, deps⟩, 1, batch.define.usets.nextId, .null⟩, ?_, rfl, rfl⟩)
        · simp [DefineOwnership.push, ok.members, Usets.insertNew]
        · refine Eq.mpr (congrArg (fun sets => (List.map Uset.id sets).Nodup) created) ?_
          rw [List.map_append, List.nodup_append]
          refine ⟨ok.numbered, by simp, ?_⟩
          intro left leftMember right rightMember
          obtain ⟨uset, member, rfl⟩ := List.mem_map.mp leftMember
          have less := ok.below uset member
          simp only [List.map_cons, List.map_nil, List.mem_singleton] at rightMember
          lia
        · intro uset member
          have member : uset ∈ batch.define.created ++ _ := created ▸ member
          rcases List.mem_append.mp member with old | new
          · exact Nat.lt_succ_of_lt (ok.below uset old)
          · rw [List.mem_singleton.mp new]
            exact Nat.lt_succ_self _
        · intro uset member
          have member : uset ∈ batch.define.created ++ _ := created ▸ member
          rcases List.mem_append.mp member with old | new
          · exact ands uset old
          · rw [List.mem_singleton.mp new, uses]
            exact ⟨rfl, Finset.subset_union_right⟩
        · intro uset old
          exact created ▸ List.mem_append_left _ old
        · exact created ▸ List.mem_append_right _ (List.mem_singleton_self _)
  · rw [DefineOwnership.derivedFrom_found several missing]
    refine ok.push sameSets (fun _ member => member) subset rfl rfl rfl ?_
    refine Or.inl ⟨by simp [idsFrom, single, missing], Or.inr ⟨several, ?_⟩⟩
    cases found : db.usets.find? ⟨.and, deps⟩ with
    | none => simp [Database.ownership, found] at missing
    | some usetid =>
        have stored := index.sound found
        simpa [Database.ownership, found] using stored

end Batch

end Glean.Rocks
