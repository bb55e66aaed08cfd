import Glean.RocksDB.DefineBatch

/-! Adding batches of derived facts to the database, over whole runs. The new sets of a batch are
renumbered when it is added, and so is every database id that looks like one of them.
-/

namespace Glean.Rocks

open Glean.RTS

/-- The state of renumbering after some sets: the substitution leads from the id of each of them
to its expression and leaves all other ids alone.
-/
structure Rebased (column : SortedMap UsetId SetExpr) (done : List Uset) (state : Rebasing)
    : Prop where
  index : IndexOf state.usets (column.putAll state.batch)
  kept : Extends column (column.putAll state.batch)
  others : ∀ id, id ∉ done.map Uset.id → state.subst id = id
  denotes
    : ∀ uset ∈ done, (column.putAll state.batch).get? (state.subst uset.id) = some uset.exp

/-- One more set, all of whose elements the substitution leaves alone. -/
theorem Rebased.rebase {column : SortedMap UsetId SetExpr} {done : List Uset}
    {state : Rebasing} {uset : Uset} (rebased : Rebased column done state)
    (room : state.usets.nextId < invalidUset) (isAnd : uset.exp.op = .and)
    (isNew : uset.id ∉ done.map Uset.id)
    (elements : ∀ id ∈ uset.exp.set, id ∉ done.map Uset.id)
    : Rebased column (done ++ [uset]) (state.rebase uset) := by
  obtain ⟨index, kept, -, id, subst, stored⟩ := rebased.index.rebase room uset
  have same : state.renumbered uset = uset.exp := by
    have image : uset.exp.set.image state.subst = uset.exp.set := by
      rw [Finset.image_congr (fun id member => rebased.others id (elements id member)),
        Finset.image_id']
    rw [Rebasing.renumbered, image]
  refine ⟨index, fun found => kept (rebased.kept found), ?_, ?_⟩
  · intro other outside
    rw [List.map_append, List.mem_append, not_or] at outside
    rw [subst, Function.update_of_ne (by simpa using outside.2)]
    exact rebased.others other outside.1
  · intro other member
    rw [subst]
    rcases List.mem_append.mp member with old | new
    · have different : other.id ≠ uset.id :=
        fun eq => isNew (eq ▸ List.mem_map_of_mem old)
      rw [Function.update_of_ne different]
      exact kept (rebased.denotes other old)
    · obtain rfl := List.mem_singleton.mp new
      rw [Function.update_self, ← same]
      exact stored isAnd

/-- Renumbering all sets of a batch without ambiguous ids. -/
theorem Rebased.foldl {column : SortedMap UsetId SetExpr} {done sets : List Uset}
    {state : Rebasing} (rebased : Rebased column done state)
    (room : state.usets.nextId + sets.length ≤ invalidUset)
    (ands : ∀ uset ∈ sets, uset.exp.op = .and)
    (numbered : ((done ++ sets).map Uset.id).Nodup)
    (elements : ∀ uset ∈ sets, ∀ id ∈ uset.exp.set, id ∉ (done ++ sets).map Uset.id)
    : Rebased column (done ++ sets) (sets.foldl Rebasing.rebase state) := by
  induction sets generalizing done state with
  | nil => simpa using rebased
  | cons uset rest ih =>
      simp only [List.length_cons] at room
      have isNew : uset.id ∉ done.map Uset.id := by
        rw [List.map_append, List.nodup_append] at numbered
        intro member
        exact numbered.2.2 _ member uset.id (by simp) rfl
      have outside : ∀ id ∈ uset.exp.set, id ∉ done.map Uset.id := by
        intro id member inDone
        refine elements uset (by simp) id member ?_
        rw [List.map_append]
        exact List.mem_append_left _ inDone
      have next := rebased.rebase (by lia) (ands uset (by simp)) isNew outside
      have bound : (state.rebase uset).usets.nextId ≤ state.usets.nextId + 1 :=
        (rebased.index.rebase (by lia) uset).2.2.1
      have shift : done ++ uset :: rest = done ++ [uset] ++ rest := by simp
      rw [shift] at numbered elements ⊢
      exact ih next (by lia) (fun other member => ands other (by simp [member])) numbered
        (fun other member => elements other (by simp [member]))

/-- A relation between owners and requests, for the pairs that are written. -/
theorem forall₂_zip {known : UsetId → Finset UsetId → Prop}
    {written : Id × UsetId → Id × Finset UsetId → Prop} {f : UsetId → UsetId}
    (writes : ∀ owner request, known owner request.2 → written (request.1, f owner) request)
    {owners : List UsetId} {requests : List (Id × Finset UsetId)}
    (all : List.Forall₂ known owners (requests.map Prod.snd))
    : List.Forall₂ written ((requests.map Prod.fst).zip (owners.map f)) requests := by
  induction requests generalizing owners with
  | nil => exact .nil
  | cons request rest ih =>
      cases all with
      | cons first others => exact .cons (writes _ request first) (ih others)

/-- The owners that are written for a batch denote what was passed to `derivedFrom`. -/
theorem Batch.Ok.written {db : Database} {batch : Batch}
    (ok : batch.Ok db.columns.ownershipSets)
    (index : IndexOf db.usets db.columns.ownershipSets)
    (unambiguous : batch.Unambiguous)
    (room : db.usets.nextId + batch.define.created.length ≤ invalidUset)
    : let rebased := batch.define.created.foldl Rebasing.rebase (.start db.usets)
      Rebased db.columns.ownershipSets batch.define.created rebased
        ∧ List.Forall₂ (fun (entry : Id × UsetId) (request : Id × Finset UsetId) =>
            entry.1 = request.1
              ∧ Denotes (db.columns.ownershipSets.putAll rebased.batch) request.2 entry.2)
          (batch.define.ids.zip (batch.define.owners.map rebased.subst)) batch.requests := by
  have notLocal : ∀ id ∈ batch.used, id ∉ batch.define.created.map Uset.id := by
    intro id isUsed isLocal
    obtain ⟨uset, member, rfl⟩ := List.mem_map.mp isLocal
    exact unambiguous uset member isUsed
  have start : Rebased db.columns.ownershipSets [] (.start db.usets) :=
    ⟨index, id, fun _ _ => rfl, by simp⟩
  have rebased := start.foldl room (fun uset member => (ok.ands uset member).1)
    (by simpa using ok.numbered)
    (fun uset member id isElement => by
      simpa using notLocal id ((ok.ands uset member).2 isElement))
  rw [List.nil_append] at rebased
  refine ⟨rebased, ?_⟩
  rw [ok.ids]
  refine forall₂_zip (fun owner request known => ⟨rfl, ?_⟩) ok.owners
  rcases known with ⟨isUsed, denotes⟩ | ⟨several, uset, member, isOwner, isRequest⟩
  · rw [rebased.others owner (notLocal owner isUsed)]
    exact denotes.mono rebased.kept
  · rw [← isOwner]
    exact Or.inr ⟨several, (rebased.denotes uset member).trans (congrArg some isRequest)⟩

/-- The sets of a computation change no stored set, and their ids do not run out. -/
structure StoresBeside (column : SortedMap UsetId SetExpr) (ownership : ComputedOwnership)
    : Prop where
  room : ownership.firstId + ownership.sets.length ≤ invalidUset
  beside
    : ∀ id exp old, (id, exp) ∈ numberedSets ownership → column.get? id = some old → old = exp

/-- Runs with the batches that are being filled and those that were added. A batch is added
only if its ids are unambiguous.
-/
inductive DefineRun : Database → List Batch → List (Pid × List (Id × Finset UsetId)) → Prop where
  | create {start : Id} {version : Int} {db : Database}
      (opened : Database.openDatabase .empty .create start version = .ok db)
      : DefineRun db [] []
  | new {db : Database} {batches : List Batch} {log : List (Pid × List (Id × Finset UsetId))}
      (run : DefineRun db batches log) (pid : Pid)
      : DefineRun db (batches ++ [.new db.ownership pid]) log
  | derivedFrom {db : Database} {before after : List Batch} {batch : Batch}
      {log : List (Pid × List (Id × Finset UsetId))}
      (run : DefineRun db (before ++ batch :: after) log) (id : Id) (deps : Finset UsetId)
      (room : batch.define.usets.nextId < invalidUset)
      : DefineRun db (before ++ batch.derivedFrom db.ownership id deps :: after) log
  | subst {db : Database} {before after : List Batch} {batch : Batch}
      {log : List (Pid × List (Id × Finset UsetId))}
      (run : DefineRun db (before ++ batch :: after) log) (rename : Id → Id)
      : DefineRun db (before ++ batch.subst rename :: after) log
  | add {db : Database} {before after : List Batch} {batch : Batch}
      {log : List (Pid × List (Id × Finset UsetId))}
      (run : DefineRun db (before ++ batch :: after) log) (unambiguous : batch.Unambiguous)
      (room : db.usets.nextId + batch.define.created.length ≤ invalidUset)
      : DefineRun (db.addDefineOwnership batch.define) (before ++ after)
          (log ++ [(batch.define.pid, batch.requests)])
  | store {db : Database} {batches : List Batch} {log : List (Pid × List (Id × Finset UsetId))}
      (run : DefineRun db batches log) (ownership : ComputedOwnership)
      (beside : StoresBeside db.columns.ownershipSets ownership)
      : DefineRun (db.storeOwnership ownership) batches log
  | reopen {db reopened : Database} {log : List (Pid × List (Id × Finset UsetId))} {mode : Mode}
      {start : Id} {version : Int} (run : DefineRun db [] log) (existing : mode ≠ .create)
      (opened : Database.openDatabase db.columns mode start version = .ok reopened)
      : DefineRun reopened [] log

/-- What holds in every state of a run. -/
structure DefineState (db : Database) (batches : List Batch)
    (log : List (Pid × List (Id × Finset UsetId)))
    : Prop where
  index : IndexOf db.usets db.columns.ownershipSets
  counted
    : ∀ pid, (db.ownershipDerivedCounters.get? pid).getD 0 = (addedFor log pid).length
  recorded : Recorded db.columns log
  batches : ∀ batch ∈ batches, batch.Ok db.columns.ownershipSets

namespace DefineState

variable {db : Database} {batches : List Batch} {log : List (Pid × List (Id × Finset UsetId))}

/-- Stored batches still denote the same when sets are added. -/
theorem recorded_mono {before after : Columns} (recorded : Recorded before log)
    (raw : after.ownershipDerivedRaw = before.ownershipDerivedRaw)
    (kept : Extends before.ownershipSets after.ownershipSets)
    : Recorded after log := by
  intro pid number
  rw [raw]
  have known := recorded pid number
  generalize before.ownershipDerivedRaw.get? (toLex (pid, number)) = entries at known ⊢
  generalize (addedFor log pid)[number]? = requests at known ⊢
  cases known with
  | some entries =>
      exact .some (entries.imp (fun _ _ known => ⟨known.1, known.2.mono kept⟩))
  | none => exact .none

theorem addedFor_concat (log : List (Pid × List (Id × Finset UsetId))) (pid other : Pid)
    (requests : List (Id × Finset UsetId))
    : addedFor (log ++ [(pid, requests)]) other
      = if pid = other then addedFor log other ++ [requests] else addedFor log other := by
  unfold addedFor
  rw [List.filter_append, List.map_append]
  split_ifs with same
  · simp [same]
  · simp [same]

/-- A batch is stored under the next number of its predicate. -/
theorem recorded_put {columns : Columns} {entries : List (Id × UsetId)}
    {requests : List (Id × Finset UsetId)} (recorded : Recorded columns log) (pid : Pid)
    (written : List.Forall₂ (fun entry request => entry.1 = request.1
      ∧ Denotes columns.ownershipSets request.2 entry.2) entries requests)
    : Recorded
        { columns with
            ownershipDerivedRaw :=
              columns.ownershipDerivedRaw.put (toLex (pid, (addedFor log pid).length)) entries }
        (log ++ [(pid, requests)]) := by
  intro other number
  have before := recorded other number
  dsimp only
  rw [SortedMap.get?_put, addedFor_concat]
  have keys : toLex (other, number) = toLex (pid, (addedFor log pid).length)
      ↔ other = pid ∧ number = (addedFor log pid).length := by simp
  by_cases same : pid = other
  · subst same
    rw [if_pos rfl]
    by_cases last : number = (addedFor log pid).length
    · subst last
      rw [if_pos rfl, List.getElem?_append_right le_rfl, Nat.sub_self]
      exact .some written
    · rw [if_neg (fun eq => last (keys.mp eq).2)]
      have kept : (addedFor log pid ++ [requests])[number]? = (addedFor log pid)[number]? := by
        by_cases inside : number < (addedFor log pid).length
        · rw [List.getElem?_append_left inside]
        · rw [List.getElem?_eq_none (by simp; omega), List.getElem?_eq_none (by omega)]
      rw [kept]
      exact before
  · rw [if_neg same, if_neg (fun eq => same (keys.mp eq).1.symm)]
    exact before

theorem Recorded.isSome_iff {columns : Columns} (recorded : Recorded columns log) (pid : Pid)
    (number : Nat)
    : (∃ entries, columns.ownershipDerivedRaw.get? (toLex (pid, number)) = some entries)
      ↔ number < (addedFor log pid).length := by
  have known := recorded pid number
  have inside : number < (addedFor log pid).length ↔ (addedFor log pid)[number]? ≠ none := by
    simp
  rw [inside]
  generalize columns.ownershipDerivedRaw.get? (toLex (pid, number)) = entries at known ⊢
  generalize (addedFor log pid)[number]? = requests at known ⊢
  cases known with
  | some _ => simp
  | none => simp

/-- The number of stored batches of a predicate. -/
theorem Recorded.count {columns : Columns} (recorded : Recorded columns log) (pid : Pid)
    : columns.ownershipDerivedRaw.entries.countP (fun entry => (ofLex entry.1).1 = pid)
      = (addedFor log pid).length := by
  have keys : (columns.ownershipDerivedRaw.entries.filter
        (fun entry => (ofLex entry.1).1 = pid)).map Prod.fst
      = (List.range (addedFor log pid).length).map (fun number => toLex (pid, number)) := by
    refine @eq_of_ascending _ _ _ id _ _ ?_ ?_ ?_
    · rw [List.pairwise_map]
      exact columns.ownershipDerivedRaw.sorted.filter _
    · rw [List.pairwise_map]
      exact List.pairwise_lt_range.imp (fun less => by simpa [Prod.Lex.toLex_lt_toLex] using less)
    · intro key
      obtain ⟨other, number⟩ := key
      have stored := Recorded.isSome_iff recorded other number
      change toLex (other, number) ∈ _ ↔ toLex (other, number) ∈ _
      simp only [List.mem_map, List.mem_filter, decide_eq_true_eq, List.mem_range]
      constructor
      · intro found
        obtain ⟨⟨key, entries⟩, ⟨member, rfl⟩, rfl⟩ := found
        refine ⟨number, stored.mp ⟨entries, SortedMap.get?_eq_some_iff.mpr member⟩, rfl⟩
      · intro found
        obtain ⟨index, inside, same⟩ := found
        obtain ⟨rfl, rfl⟩ := Prod.mk.inj (toLex_inj.mp same)
        obtain ⟨entries, found⟩ := stored.mpr inside
        exact ⟨(_, entries), ⟨SortedMap.get?_eq_some_iff.mp found, rfl⟩, rfl⟩
  have lengths := congrArg List.length keys
  rw [List.length_map, List.length_map, List.length_range] at lengths
  rw [List.countP_eq_length_filter, lengths]

/-- Loading counts the stored batches of each predicate. -/
theorem loadOwnershipDerivedCounters_count (columns : Columns) (pid : Pid)
    : ((loadOwnershipDerivedCounters columns).get? pid).getD 0
      = columns.ownershipDerivedRaw.entries.countP (fun entry => (ofLex entry.1).1 = pid) := by
  unfold loadOwnershipDerivedCounters
  induction columns.ownershipDerivedRaw.entries using List.reverseRecOn with
  | nil => rfl
  | append_singleton entries entry ih =>
      rw [List.foldl_append, List.foldl_cons, List.foldl_nil, SortedMap.get?_put,
        List.countP_append, ← ih]
      split_ifs with same
      · simp [same]
      · simp [Ne.symm same]

theorem created (start : Id) (version : Int) : DefineState (.created start version) [] [] where
  index :=
    ⟨Usets.new_canonical 0, by simp [Database.created, Columns.empty], Nat.zero_le _,
      by simp [Database.created]⟩
  counted _ := rfl
  recorded _ _ := .none
  batches := by simp

/-- One of the batches is replaced. -/
theorem replace {before after : List Batch} {old new : Batch}
    (state : DefineState db (before ++ old :: after) log)
    (ok : new.Ok db.columns.ownershipSets)
    : DefineState db (before ++ new :: after) log := by
  refine { state with batches := fun batch member => ?_ }
  rcases List.mem_append.mp member with inFront | behind
  · exact state.batches batch (List.mem_append_left _ inFront)
  · rcases List.mem_cons.mp behind with rfl | later
    · exact ok
    · exact state.batches batch (List.mem_append_right _ (List.mem_cons_of_mem _ later))

/-- A batch without ambiguous ids is added. -/
theorem add {before after : List Batch} {batch : Batch}
    (state : DefineState db (before ++ batch :: after) log) (unambiguous : batch.Unambiguous)
    (room : db.usets.nextId + batch.define.created.length ≤ invalidUset)
    : DefineState (db.addDefineOwnership batch.define) (before ++ after)
        (log ++ [(batch.define.pid, batch.requests)]) := by
  have ok := state.batches batch (by simp)
  obtain ⟨rebased, written⟩ := ok.written state.index unambiguous room
  refine ⟨rebased.index, ?_, ?_, ?_⟩
  · intro pid
    simp only [Database.addDefineOwnership]
    rw [SortedMap.get?_put, addedFor_concat]
    split_ifs with same other other
    · rw [same, Option.getD_some, state.counted, List.length_append, List.length_singleton]
    · exact (other same.symm).elim
    · exact (same other.symm).elim
    · exact state.counted pid
  · have kept : Recorded
        { db.columns with
            ownershipSets := (db.addDefineOwnership batch.define).columns.ownershipSets } log :=
      recorded_mono state.recorded rfl rebased.kept
    have put := recorded_put kept batch.define.pid written
    rw [← state.counted batch.define.pid] at put
    exact put
  · intro other member
    refine (state.batches other ?_).mono rebased.kept
    rcases List.mem_append.mp member with inFront | behind
    · exact List.mem_append_left _ inFront
    · exact List.mem_append_right _ (List.mem_cons_of_mem _ behind)

/-- A computation is stored beside the sets of the database. -/
theorem store (state : DefineState db batches log) {ownership : ComputedOwnership}
    (beside : StoresBeside db.columns.ownershipSets ownership)
    : DefineState (db.storeOwnership ownership) batches log := by
  have kept : Extends db.columns.ownershipSets
      (db.columns.ownershipSets.putAll (numberedSets ownership)) := by
    intro id exp stored
    rw [get?_putAll_numberedSets _ beside.room]
    split_ifs with isNew
    · obtain ⟨new, isSet⟩ : ∃ new, ownership.sets[id - ownership.firstId]? = some new :=
        ⟨_, List.getElem?_eq_getElem (by lia)⟩
      have member : (id, new) ∈ numberedSets ownership := by
        rw [numberedSets_eq beside.room]
        refine List.mem_map.mpr ⟨(new, id - ownership.firstId), ?_, ?_⟩
        · exact List.mk_mem_zipIdx_iff_getElem?.mpr isSet
        · rw [Nat.add_sub_cancel' isNew.1]
      rw [isSet, beside.beside id new exp member stored]
    · exact stored
  have inRange : ∀ id exp,
      (db.columns.ownershipSets.putAll (numberedSets ownership)).get? id = some exp →
        id < invalidUset := by
    intro id exp stored
    rw [get?_putAll_numberedSets _ beside.room] at stored
    split_ifs at stored with isNew
    · exact lt_of_lt_of_le isNew.2 beside.room
    · exact lt_of_lt_of_le (state.index.below stored) state.index.bounded
  exact {
    index := .of_loaded rfl rfl inRange
    counted := state.counted
    recorded := recorded_mono state.recorded rfl kept
    batches := fun batch member => (state.batches batch member).mono kept }

/-- The database is opened again while no batch is being filled. -/
theorem reopen (state : DefineState db [] log) {reopened : Database} {mode : Mode} {start : Id}
    {version : Int} (existing : mode ≠ .create)
    (opened : Database.openDatabase db.columns mode start version = .ok reopened)
    : DefineState reopened [] log := by
  obtain ⟨columns, -, -, -, -, -, counters, usets⟩ :=
    Database.openDatabase_existing existing opened
  refine ⟨.of_loaded usets (by rw [columns]) ?_, ?_, ?_, by simp⟩
  · intro id exp stored
    exact lt_of_lt_of_le (state.index.below stored) state.index.bounded
  · intro pid
    rw [counters, loadOwnershipDerivedCounters_count, Recorded.count state.recorded]
  · rw [columns]
    exact state.recorded

end DefineState

theorem DefineRun.state {db : Database} {batches : List Batch}
    {log : List (Pid × List (Id × Finset UsetId))} (run : DefineRun db batches log)
    : DefineState db batches log := by
  induction run with
  | create opened =>
      rw [Database.openDatabase_create] at opened
      exact Except.ok.inj opened ▸ DefineState.created _ _
  | new run pid ih =>
      refine { ih with batches := fun batch member => ?_ }
      rcases List.mem_append.mp member with old | new
      · exact ih.batches batch old
      · rw [List.mem_singleton.mp new]
        exact .new ih.index.bounded
  | derivedFrom run id deps room ih =>
      exact ih.replace ((ih.batches _ (by simp)).derivedFrom ih.index room id deps)
  | subst run rename ih => exact ih.replace ((ih.batches _ (by simp)).subst rename)
  | add run unambiguous room ih => exact ih.add unambiguous room
  | store run ownership beside ih => exact ih.store beside
  | reopen run existing opened ih => exact ih.reopen existing opened

/-- In every state of every such run, each batch that was added is stored under its predicate,
and the owner of each of its facts denotes the owners passed to `derivedFrom`.
-/
theorem DefineRun.recorded {db : Database} {batches : List Batch}
    {log : List (Pid × List (Id × Finset UsetId))} (run : DefineRun db batches log)
    : Recorded db.columns log :=
  run.state.recorded

/-- A database with three units and one stored set. -/
def threeUnits : Database :=
  (Database.created 1024 3).storeOwnership ⟨3, [⟨.or, {0, 1}⟩], []⟩

/-- A batch for predicate 1 whose fact is derived from the units 0 and 1. -/
def firstBatch : Batch :=
  (Batch.new threeUnits.ownership 1).derivedFrom threeUnits.ownership 1024 {0, 1}

/-- The database once the first batch is added. Its set has the id 4 there. -/
def firstAdded : Database :=
  threeUnits.addDefineOwnership firstBatch.define

/-- A batch for predicate 2 that was created before the first one was added and that numbers its
own set 4 as well.
-/
def secondBatch : Batch :=
  (Batch.new threeUnits.ownership 2).derivedFrom firstAdded.ownership 1025 {0, 2}

/-- Witness: the set of the second batch gets another id when the batch is added. -/
theorem DefineRun.recorded_rebased
    : ∃ db log, DefineRun db [] log ∧ Recorded db.columns log
        ∧ db.columns.ownershipDerivedRaw.get? (toLex (2, 0)) = some [(1025, 5)]
        ∧ db.columns.ownershipSets.get? 5 = some ⟨.and, {0, 2}⟩ := by
  have created : DefineRun (.created 1024 3) [] [] :=
    .create (Database.openDatabase_create 1024 3)
  have units : DefineRun threeUnits [] [] :=
    created.store ⟨3, [⟨.or, {0, 1}⟩], []⟩
      ⟨by decide, by simp [Database.created, Columns.empty]⟩
  have both := (units.new 1).new 2
  have first : DefineRun threeUnits ([] ++ firstBatch :: [.new threeUnits.ownership 2]) [] :=
    @derivedFrom _ [] _ _ _ both 1024 {0, 1} (by decide)
  have added : DefineRun firstAdded [.new threeUnits.ownership 2]
      [(1, [(1024, {0, 1})])] :=
    first.add (by unfold Batch.Unambiguous; decide) (by decide)
  have second : DefineRun firstAdded ([] ++ secondBatch :: []) [(1, [(1024, {0, 1})])] :=
    @derivedFrom _ [] [] _ _ added 1025 {0, 2} (by decide)
  have run := second.add (by unfold Batch.Unambiguous; decide) (by decide)
  exact ⟨_, _, run, run.recorded, by decide, by decide⟩

/-- Counterexample: the second batch has another fact, derived from the fact of the first one.
Its owner is the database id 4, which is taken for the set of the batch.
-/
theorem ambiguous_id_rebased
    : let batch := secondBatch.derivedFrom firstAdded.ownership 1026 {4}
      let db := firstAdded.addDefineOwnership batch.define
      db.columns.ownershipSets.get? 4 = some ⟨.and, {0, 1}⟩
        ∧ db.columns.ownershipSets.get? 5 = some ⟨.and, {0, 2}⟩
        ∧ db.columns.ownershipDerivedRaw.get? (toLex (2, 0)) = some [(1025, 5), (1026, 5)]
        ∧ batch.requests = [(1025, {0, 2}), (1026, {4})]
        ∧ ¬ Recorded db.columns [(1, firstBatch.requests), (2, batch.requests)] := by
  intro batch db
  refine ⟨by decide, by decide, by decide, by decide, ?_⟩
  intro recorded
  have known := recorded 2 0
  have stored : db.columns.ownershipDerivedRaw.get? (toLex (2, 0))
      = some [(1025, 5), (1026, 5)] := by decide
  have added : (addedFor [(1, firstBatch.requests), (2, batch.requests)] 2)[0]?
      = some [(1025, {0, 2}), (1026, {4})] := by decide
  rw [stored, added] at known
  cases known with
  | some entries =>
      cases entries with
      | cons _ others =>
          cases others with
          | cons last _ =>
              rcases last.2 with only | ⟨several, -⟩
              · revert only
                decide
              · revert several
                decide

end Glean.Rocks
