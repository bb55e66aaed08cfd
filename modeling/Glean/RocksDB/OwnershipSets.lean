import Glean.RocksDB.DefineOwnership

/-! The index of ownership sets that a database keeps in memory, over whole runs. Loading it
from the column reads every set as an `Or`.
-/

namespace Glean.Rocks

open Glean.RTS

/-- Loading one stored set. -/
theorem loadSet_spec {usets : Usets} (canonical : usets.Canonical) (entry : UsetId × SetExpr)
    : (loadSet usets entry).Canonical
      ∧ (loadSet usets entry).nextId = usets.nextId
      ∧ ∀ exp, (loadSet usets entry).find? exp
          = if exp = ⟨.or, entry.2.set⟩ then some entry.1 else usets.find? exp := by
  unfold loadSet
  cases found : usets.lookup ⟨.or, entry.2.set⟩ with
  | some addr =>
      rw [Usets.add_of_found 0 found]
      have used : (usets.use addr 0).Canonical := canonical.use addr 0
      refine ⟨used.modify addr (fun _ => rfl), rfl, fun exp => ?_⟩
      rw [used.find?_setId ((Usets.lookup_use ..).trans found), Usets.find?_use]
  | none =>
      rw [Usets.add_of_missing 0 found]
      have inserted : (usets.insertNew ⟨.or, entry.2.set⟩ 0 invalidUset).Canonical :=
        canonical.insertNew found
      have located : (usets.insertNew ⟨.or, entry.2.set⟩ 0 invalidUset).lookup ⟨.or, entry.2.set⟩
          = some usets.fresh :=
        inserted.lookup_eq (by simp [Usets.insertNew]) (by simp [Usets.insertNew, Usets.exp?])
      refine ⟨inserted.modify _ (fun _ => rfl), rfl, fun exp => ?_⟩
      rw [inserted.find?_setId located, canonical.find?_insertNew found]
      split_ifs
      · rfl
      · rfl

/-- An index loaded from stored sets: it finds nothing but `Or` expressions, and finds the
elements of every stored set under the id of a set with these elements.
-/
structure LoadedFrom (usets : Usets) (entries : List (UsetId × SetExpr)) : Prop where
  canonical : usets.Canonical
  sound
    : ∀ {exp id}, usets.find? exp = some id →
        exp.op = .or ∧ ∃ stored, (id, stored) ∈ entries ∧ stored.set = exp.set
  complete
    : ∀ {id exp}, (id, exp) ∈ entries → ∃ found, usets.find? ⟨.or, exp.set⟩ = some found

theorem foldl_loadSet (entries : List (UsetId × SetExpr)) (firstId : UsetId)
    : LoadedFrom (entries.foldl loadSet (.new firstId)) entries
      ∧ (entries.foldl loadSet (.new firstId)).nextId = firstId := by
  induction entries using List.reverseRecOn with
  | nil => exact ⟨⟨Usets.new_canonical firstId, by simp, by simp⟩, rfl⟩
  | append_singleton entries entry ih =>
      obtain ⟨loaded, next⟩ := ih
      obtain ⟨canonical, nextId, found⟩ := loadSet_spec loaded.canonical entry
      rw [List.foldl_append]
      refine ⟨⟨canonical, ?_, ?_⟩, nextId.trans next⟩
      · intro exp id isFound
        rw [List.foldl_cons, List.foldl_nil, found] at isFound
        split_ifs at isFound with isEntry
        · obtain rfl := Option.some.inj isFound
          exact ⟨by rw [isEntry], entry.2, by simp, by rw [isEntry]⟩
        · obtain ⟨isOr, stored, member, elements⟩ := loaded.sound isFound
          exact ⟨isOr, stored, List.mem_append_left _ member, elements⟩
      · intro id exp member
        rw [List.foldl_cons, List.foldl_nil, found]
        split_ifs with isEntry
        · exact ⟨entry.1, rfl⟩
        · rcases List.mem_append.mp member with old | new
          · exact loaded.complete old
          · obtain rfl := List.mem_singleton.mp new
            exact (isEntry rfl).elim

/-- Loading counts on from the last stored id. -/
theorem setSizes_next {columns : Columns} {last : UsetId × SetExpr}
    (isLast : columns.ownershipSets.entries.getLast? = some last)
    : (setSizes columns).1 + (setSizes columns).2 = last.1 + 1
      ∧ ∀ entry ∈ columns.ownershipSets.entries, entry.1 ≤ last.1 := by
  obtain ⟨init, entries⟩ := List.getLast?_eq_some_iff.mp isLast
  have sorted := columns.ownershipSets.sorted
  have largest : ∀ entry ∈ columns.ownershipSets.entries, entry.1 ≤ last.1 := by
    intro entry member
    rw [entries] at member sorted
    rcases List.mem_append.mp member with before | same
    · exact le_of_lt ((List.pairwise_append.mp sorted).2.2 entry before last (by simp))
    · rw [List.mem_singleton.mp same]
  refine ⟨?_, largest⟩
  cases isFirst : columns.ownershipSets.entries.head? with
  | none =>
      rw [List.head?_eq_none_iff.mp isFirst] at isLast
      cases isLast
  | some first =>
      have low := largest first (List.mem_of_head? isFirst)
      simp only [setSizes, isFirst, isLast]
      lia

/-- A loaded index numbers new sets after the stored ones. -/
theorem loadOwnershipSets_spec {columns : Columns}
    (inRange : ∀ id exp, columns.ownershipSets.get? id = some exp → id < invalidUset)
    : LoadedFrom (loadOwnershipSets columns) columns.ownershipSets.entries
      ∧ (∀ id exp, columns.ownershipSets.get? id = some exp →
          id < (loadOwnershipSets columns).nextId)
      ∧ (loadOwnershipSets columns).nextId ≤ invalidUset := by
  have loaded := foldl_loadSet columns.ownershipSets.entries
    (((setSizes columns).1 + (setSizes columns).2) % 2 ^ 32)
  refine ⟨loaded.1, ?_⟩
  have next : (loadOwnershipSets columns).nextId
      = ((setSizes columns).1 + (setSizes columns).2) % 2 ^ 32 := loaded.2
  rw [next]
  cases isLast : columns.ownershipSets.entries.getLast? with
  | none =>
      have empty := List.getLast?_eq_none_iff.mp isLast
      refine ⟨fun id exp stored => ?_, ?_⟩
      · rw [SortedMap.get?_eq_some_iff, empty] at stored
        cases stored
      · simp [setSizes, empty]
  | some last =>
      obtain ⟨count, largest⟩ := setSizes_next isLast
      have bound := inRange last.1 last.2
        (SortedMap.get?_eq_some_iff.mpr (List.mem_of_getLast? isLast))
      have width : invalidUset + 1 = 2 ^ 32 := rfl
      have small : (last.1 + 1) % 2 ^ 32 = last.1 + 1 := Nat.mod_eq_of_lt (by lia)
      rw [count, small]
      refine ⟨fun id exp stored => ?_, by lia⟩
      have low := largest (id, exp) (SortedMap.get?_eq_some_iff.mp stored)
      exact Nat.lt_succ_of_le low

namespace Rebasing

variable {state : Rebasing} {uset : Uset}

/-- A set that the index knows. -/
theorem rebase_of_found {addr : Addr}
    (found : state.usets.lookup (state.renumbered uset) = some addr)
    : state.rebase uset
      = { state with
            usets := state.usets.use addr 0
            subst := Function.update state.subst uset.id (state.usets.idAt addr) } := by
  have sameId : (state.usets.use addr 0).idAt addr = state.usets.idAt addr := by
    apply Usets.idAt_modify
    exact fun _ => rfl
  simp only [rebase, Usets.add_of_found 0 found, found, sameId]

/-- A set that the index does not know gets the next id. -/
theorem rebase_of_missing (missing : state.usets.lookup (state.renumbered uset) = none)
    : state.rebase uset
      = { usets := { state.usets.insertNew (state.renumbered uset) 1 state.usets.nextId with
            nextId := (state.usets.nextId + 1) % 2 ^ 32
            promoted := state.usets.promoted + 1 }
          batch := state.batch ++ [(state.usets.nextId, state.renumbered uset)]
          subst := Function.update state.subst uset.id state.usets.nextId } := by
  simp only [rebase, Usets.add_of_missing 0 missing, missing, Usets.promote_insertNew]
  simp [Usets.idAt, Usets.insertNew]

/-- What is found after adding a set under the next id. -/
theorem find?_rebase_of_missing (canonical : state.usets.Canonical)
    (missing : state.usets.lookup (state.renumbered uset) = none) (exp : SetExpr)
    : (state.rebase uset).usets.find? exp
      = if exp = state.renumbered uset then
          some state.usets.nextId
        else
          state.usets.find? exp := by
  rw [rebase_of_missing missing]
  exact canonical.find?_insertNew missing exp

end Rebasing

/-- What renumbering relies on: the index numbers sets after the stored ones, and finds an `And`
only under an id it is stored under.
-/
structure IndexOf (usets : Usets) (column : SortedMap UsetId SetExpr) : Prop where
  canonical : usets.Canonical
  below : ∀ {id exp}, column.get? id = some exp → id < usets.nextId
  bounded : usets.nextId ≤ invalidUset
  sound : ∀ {set id}, usets.find? ⟨.and, set⟩ = some id → column.get? id = some ⟨.and, set⟩

/-- The index finds exactly what is stored. -/
def ExactFor (usets : Usets) (column : SortedMap UsetId SetExpr) : Prop :=
  ∀ exp id, usets.find? exp = some id ↔ column.get? id = some exp

section Rebase

variable {column : SortedMap UsetId SetExpr} {state : Rebasing}

/-- Renumbering one set: what is stored stays, and the substitution leads to the set. -/
theorem IndexOf.rebase (index : IndexOf state.usets (column.putAll state.batch))
    (room : state.usets.nextId < invalidUset) (uset : Uset)
    : IndexOf (state.rebase uset).usets (column.putAll (state.rebase uset).batch)
      ∧ (∀ {id exp}, (column.putAll state.batch).get? id = some exp →
          (column.putAll (state.rebase uset).batch).get? id = some exp)
      ∧ (state.rebase uset).usets.nextId ≤ state.usets.nextId + 1
      ∧ ∃ id, (state.rebase uset).subst = Function.update state.subst uset.id id
          ∧ (uset.exp.op = .and →
              (column.putAll (state.rebase uset).batch).get? id
                = some (state.renumbered uset)) := by
  cases found : state.usets.lookup (state.renumbered uset) with
  | some addr =>
      have located := Usets.idAt_of_lookup found
      rw [Rebasing.rebase_of_found found]
      refine ⟨⟨index.canonical.use addr 0, index.below, index.bounded, ?_⟩, id,
        Nat.le_succ _, state.usets.idAt addr, rfl, ?_⟩
      · intro set id isFound
        rw [Usets.find?_use] at isFound
        exact index.sound isFound
      · intro isAnd
        have shape : state.renumbered uset = ⟨.and, uset.exp.set.image state.subst⟩ := by
          rw [Rebasing.renumbered, isAnd]
        rw [shape] at located ⊢
        exact index.sound located
  | none =>
      have finds := Rebasing.find?_rebase_of_missing index.canonical found
      have width : invalidUset + 1 = 2 ^ 32 := rfl
      have next : (state.usets.nextId + 1) % 2 ^ 32 = state.usets.nextId + 1 :=
        Nat.mod_eq_of_lt (by lia)
      have fresh : (column.putAll state.batch).get? state.usets.nextId = none := by
        refine Option.eq_none_iff_forall_ne_some.mpr (fun exp stored => ?_)
        exact lt_irrefl _ (index.below stored)
      rw [Rebasing.rebase_of_missing found] at finds ⊢
      simp only [next, SortedMap.putAll_concat] at finds ⊢
      refine ⟨⟨index.canonical.insertPromoted found _ _, ?_, by lia, ?_⟩, ?_, le_rfl,
        state.usets.nextId, rfl, fun _ => SortedMap.get?_put_self ..⟩
      · intro id exp stored
        rw [SortedMap.get?_put] at stored
        split_ifs at stored with isNew
        · rw [isNew]
          exact Nat.lt_succ_self _
        · exact Nat.lt_succ_of_lt (index.below stored)
      · intro set id isFound
        rw [finds] at isFound
        split_ifs at isFound with isNew
        · rw [← Option.some.inj isFound, isNew]
          exact SortedMap.get?_put_self ..
        · have stored := index.sound isFound
          rw [SortedMap.get?_put_of_ne]
          · exact stored
          · intro same
            rw [same, fresh] at stored
            cases stored
      · intro id exp stored
        rw [SortedMap.get?_put_of_ne]
        · exact stored
        · intro same
          rw [same, fresh] at stored
          cases stored

/-- An exact index stays exact. -/
theorem ExactFor.rebase (exact : ExactFor state.usets (column.putAll state.batch))
    (index : IndexOf state.usets (column.putAll state.batch)) (uset : Uset)
    : ExactFor (state.rebase uset).usets (column.putAll (state.rebase uset).batch) := by
  intro exp id
  cases found : state.usets.lookup (state.renumbered uset) with
  | some addr =>
      rw [Rebasing.rebase_of_found found, Usets.find?_use]
      exact exact exp id
  | none =>
      have missing : state.usets.find? (state.renumbered uset) = none := by
        rw [Usets.find?, found, Option.map_none]
      rw [Rebasing.find?_rebase_of_missing index.canonical found,
        Rebasing.rebase_of_missing found, SortedMap.putAll_concat, SortedMap.get?_put]
      by_cases isExp : exp = state.renumbered uset
      · rw [if_pos isExp, ← isExp]
        split_ifs with isNew
        · simp [isNew]
        · constructor
          · intro same
            exact (isNew (Option.some.inj same).symm).elim
          · intro stored
            rw [← isExp, (exact exp id).mpr stored] at missing
            cases missing
      · rw [if_neg isExp, exact exp id]
        split_ifs with isNew
        · constructor
          · intro stored
            exact (Nat.ne_of_lt (index.below stored) isNew).elim
          · intro same
            exact (isExp (Option.some.inj same).symm).elim
        · rfl

/-- Renumbering all new sets of a batch. -/
theorem ExactFor.foldl_rebase {sets : List Uset}
    (exact : ExactFor state.usets (column.putAll state.batch))
    (index : IndexOf state.usets (column.putAll state.batch))
    (room : state.usets.nextId + sets.length ≤ invalidUset)
    : let after := sets.foldl Rebasing.rebase state
      ExactFor after.usets (column.putAll after.batch)
        ∧ IndexOf after.usets (column.putAll after.batch) := by
  induction sets generalizing state with
  | nil => exact ⟨exact, index⟩
  | cons uset rest ih =>
      simp only [List.length_cons] at room
      obtain ⟨indexAfter, -, next, -⟩ := index.rebase (by lia) uset
      exact ih (exact.rebase index uset) indexAfter (by lia)

end Rebase

/-- `lookupSet` answers for the stored sets, and each of them is stored once. -/
structure LookupExact (db : Database) : Prop where
  finds
    : ∀ exp, db.ownership.lookupSet exp ≠ invalidUset
        ↔ ∃ id, db.columns.ownershipSets.get? id = some exp
  stored
    : ∀ exp, db.ownership.lookupSet exp ≠ invalidUset →
        db.columns.ownershipSets.get? (db.ownership.lookupSet exp) = some exp
  unique
    : ∀ {exp left right}, db.columns.ownershipSets.get? left = some exp →
        db.columns.ownershipSets.get? right = some exp → left = right

/-- No `And` is stored. -/
def OrsOnly (column : SortedMap UsetId SetExpr) : Prop :=
  ∀ id exp, column.get? id = some exp → exp.op = .or

/-- The sets of a computation do not meet stored ones: they differ from each other and from
every stored set that keeps its id, and neither these nor the new ones are `And`s.
-/
structure StoresApart (column : SortedMap UsetId SetExpr) (ownership : ComputedOwnership)
    : Prop where
  distinct : ownership.sets.Nodup
  apart
    : ∀ id exp, column.get? id = some exp → exp ∈ ownership.sets →
        ownership.firstId ≤ id ∧ id < ownership.firstId + ownership.sets.length
  newOrs : ∀ exp ∈ ownership.sets, exp.op = .or
  oldOrs
    : ∀ id exp, column.get? id = some exp →
        ¬ (ownership.firstId ≤ id ∧ id < ownership.firstId + ownership.sets.length) →
        exp.op = .or

/-- Ids that do not run out are consecutive. -/
theorem numberedSets_eq {ownership : ComputedOwnership}
    (room : ownership.firstId + ownership.sets.length ≤ invalidUset)
    : numberedSets ownership
      = ownership.sets.zipIdx.map (fun entry => (ownership.firstId + entry.2, entry.1)) := by
  refine List.map_congr_left (fun entry member => ?_)
  have inside : entry.2 < ownership.sets.length := List.snd_lt_of_mem_zipIdx member
  have width : invalidUset + 1 = 2 ^ 32 := rfl
  rw [Nat.mod_eq_of_lt (by lia)]

/-- The column after the sets of a computation are written. -/
theorem get?_putAll_numberedSets (column : SortedMap UsetId SetExpr)
    {ownership : ComputedOwnership}
    (room : ownership.firstId + ownership.sets.length ≤ invalidUset) (id : UsetId)
    : (column.putAll (numberedSets ownership)).get? id
      = if ownership.firstId ≤ id ∧ id < ownership.firstId + ownership.sets.length then
          ownership.sets[id - ownership.firstId]?
        else
          column.get? id := by
  rw [numberedSets_eq room]
  split_ifs with inside
  · have position : id - ownership.firstId < ownership.sets.length := by lia
    have back : ownership.firstId + (id - ownership.firstId) = id := by lia
    rw [List.getElem?_eq_getElem position]
    refine SortedMap.get?_putAll_of_mem _ _ ?_ ?_
    · rw [List.map_map]
      have keys : (Prod.fst ∘ fun entry : SetExpr × Nat => (ownership.firstId + entry.2, entry.1))
          = (ownership.firstId + ·) ∘ Prod.snd := rfl
      rw [keys, ← List.map_map, List.zipIdx_map_snd]
      exact List.Nodup.map (fun left right same => Nat.add_left_cancel same) (List.nodup_range' ..)
    · refine List.mem_map.mpr ⟨(_, id - ownership.firstId), ?_, by rw [back]⟩
      exact List.mk_mem_zipIdx_iff_getElem?.mpr (List.getElem?_eq_getElem position)
  · refine SortedMap.get?_putAll_of_not_mem _ _ (fun exp member => ?_)
    obtain ⟨entry, inSets, same⟩ := List.mem_map.mp member
    have position := List.snd_lt_of_mem_zipIdx inSets
    have key := (Prod.mk.inj same).1
    lia

/-- A column of `Or`s in which each set is stored once is loaded exactly. -/
theorem LoadedFrom.exactFor {usets : Usets} {column : SortedMap UsetId SetExpr}
    (loaded : LoadedFrom usets column.entries) (ors : OrsOnly column)
    (unique : ∀ {exp left right}, column.get? left = some exp → column.get? right = some exp →
      left = right)
    : ExactFor usets column := by
  have isStored {exp : SetExpr} {id : UsetId} (found : usets.find? exp = some id)
      : column.get? id = some exp := by
    obtain ⟨isOr, stored, member, elements⟩ := loaded.sound found
    have atId := SortedMap.get?_eq_some_iff.mpr member
    have same : stored = exp := by
      obtain ⟨op, set⟩ := exp
      obtain ⟨storedOp, storedSet⟩ := stored
      have storedOr := ors id _ atId
      simp_all
    rw [← same]
    exact atId
  intro exp id
  constructor
  · exact isStored
  · intro stored
    obtain ⟨found, isFound⟩ := loaded.complete (SortedMap.get?_eq_some_iff.mp stored)
    have shape : (⟨.or, exp.set⟩ : SetExpr) = exp := by rw [← ors id exp stored]
    rw [shape] at isFound
    rw [isFound, unique (isStored isFound) stored]

/-- An index with its numbering. -/
structure SetsIndexed (db : Database) : Prop where
  exact : ExactFor db.usets db.columns.ownershipSets
  index : IndexOf db.usets db.columns.ownershipSets

namespace SetsIndexed

variable {db : Database}

theorem unique (indexed : SetsIndexed db) {exp : SetExpr} {left right : UsetId}
    (leftStored : db.columns.ownershipSets.get? left = some exp)
    (rightStored : db.columns.ownershipSets.get? right = some exp)
    : left = right :=
  Option.some.inj (((indexed.exact exp left).mpr leftStored).symm.trans
    ((indexed.exact exp right).mpr rightStored))

theorem lookupExact (indexed : SetsIndexed db) : LookupExact db := by
  have answer {exp : SetExpr} {id : UsetId}
      (stored : db.columns.ownershipSets.get? id = some exp)
      : db.ownership.lookupSet exp = id := by
    simp [Database.ownership, (indexed.exact exp id).mpr stored]
  have valid {exp : SetExpr} {id : UsetId}
      (stored : db.columns.ownershipSets.get? id = some exp)
      : id ≠ invalidUset :=
    Nat.ne_of_lt (lt_of_lt_of_le (indexed.index.below stored) indexed.index.bounded)
  have isStored {exp : SetExpr} (found : db.ownership.lookupSet exp ≠ invalidUset)
      : ∃ id, db.columns.ownershipSets.get? id = some exp := by
    cases isFound : db.usets.find? exp with
    | none => simp [Database.ownership, isFound] at found
    | some id => exact ⟨id, (indexed.exact exp id).mp isFound⟩
  refine ⟨fun exp => ⟨isStored, ?_⟩, fun exp found => ?_, indexed.unique⟩
  · intro stored
    obtain ⟨id, atId⟩ := stored
    rw [answer atId]
    exact valid atId
  · obtain ⟨id, atId⟩ := isStored found
    rw [answer atId]
    exact atId

/-- Loading the column of a database. -/
theorem of_loaded {columns : Columns} (usets : db.usets = loadOwnershipSets columns)
    (sets : db.columns.ownershipSets = columns.ownershipSets)
    (ors : OrsOnly columns.ownershipSets)
    (unique : ∀ {exp left right}, columns.ownershipSets.get? left = some exp →
      columns.ownershipSets.get? right = some exp → left = right)
    (inRange : ∀ id exp, columns.ownershipSets.get? id = some exp → id < invalidUset)
    : SetsIndexed db := by
  obtain ⟨loaded, below, bounded⟩ := loadOwnershipSets_spec inRange
  have exact : ExactFor (loadOwnershipSets columns) columns.ownershipSets :=
    loaded.exactFor ors unique
  refine ⟨?_, ?_⟩
  · rw [usets, sets]
    exact exact
  · rw [usets, sets]
    exact ⟨loaded.canonical, below _ _, bounded, (exact _ _).mp⟩

end SetsIndexed

/-- After loading no `And` is found, so that none may be stored. -/
theorem LookupExact.orsOnly {db : Database} {columns : Columns} (exact : LookupExact db)
    (usets : db.usets = loadOwnershipSets columns)
    (sets : db.columns.ownershipSets = columns.ownershipSets)
    : OrsOnly columns.ownershipSets := by
  intro id exp stored
  rw [← sets] at stored
  have found := (exact.finds exp).mpr ⟨id, stored⟩
  cases isFound : db.usets.find? exp with
  | none => simp [Database.ownership, isFound] at found
  | some other =>
      rw [usets] at isFound
      exact ((foldl_loadSet _ _).1.sound isFound).1

section Store

variable {column : SortedMap UsetId SetExpr} {ownership : ComputedOwnership}
  (room : ownership.firstId + ownership.sets.length ≤ invalidUset)

include room

/-- Where a new set is stored. -/
theorem get?_numbered {index : Nat} {exp : SetExpr}
    (isSet : ownership.sets[index]? = some exp)
    : (column.putAll (numberedSets ownership)).get? (ownership.firstId + index) = some exp := by
  have inside : index < ownership.sets.length := (List.getElem?_eq_some_iff.mp isSet).1
  rw [get?_putAll_numberedSets column room, if_pos ⟨by lia, by lia⟩, Nat.add_sub_cancel_left]
  exact isSet

/-- Sets that do not meet the stored ones leave each set stored once. -/
theorem StoresApart.unique (apart : StoresApart column ownership)
    (before : ∀ {exp left right}, column.get? left = some exp → column.get? right = some exp →
      left = right)
    {exp : SetExpr} {left right : UsetId}
    (leftStored : (column.putAll (numberedSets ownership)).get? left = some exp)
    (rightStored : (column.putAll (numberedSets ownership)).get? right = some exp)
    : left = right := by
  rw [get?_putAll_numberedSets column room] at leftStored rightStored
  split_ifs at leftStored rightStored with leftNew rightNew rightNew
  · have inside : left - ownership.firstId < ownership.sets.length := by lia
    have same := (List.getElem?_inj inside apart.distinct).mp
      (leftStored.trans rightStored.symm)
    lia
  · exact (rightNew (apart.apart _ _ rightStored (List.mem_of_getElem? leftStored))).elim
  · exact (leftNew (apart.apart _ _ leftStored (List.mem_of_getElem? rightStored))).elim
  · exact before leftStored rightStored

/-- The new sets and those that keep their ids are `Or`s. -/
theorem StoresApart.orsOnly (apart : StoresApart column ownership)
    : OrsOnly (column.putAll (numberedSets ownership)) := by
  intro id exp stored
  rw [get?_putAll_numberedSets column room] at stored
  split_ifs at stored with isNew
  · exact apart.newOrs exp (List.mem_of_getElem? stored)
  · exact apart.oldOrs id exp stored isNew

/-- The condition is necessary for each set to be stored once, as an `Or`. -/
theorem StoresApart.of_unique (ors : OrsOnly (column.putAll (numberedSets ownership)))
    (unique : ∀ {exp left right},
      (column.putAll (numberedSets ownership)).get? left = some exp →
      (column.putAll (numberedSets ownership)).get? right = some exp → left = right)
    : StoresApart column ownership := by
  have kept {id : UsetId} {exp : SetExpr} (stored : column.get? id = some exp)
      (outside : ¬ (ownership.firstId ≤ id
        ∧ id < ownership.firstId + ownership.sets.length))
      : (column.putAll (numberedSets ownership)).get? id = some exp := by
    rw [get?_putAll_numberedSets column room, if_neg outside]
    exact stored
  refine ⟨?_, ?_, ?_, ?_⟩
  · rw [List.nodup_iff_getElem?_ne_getElem?]
    intro left right less inside same
    obtain ⟨exp, isExp⟩ : ∃ exp, ownership.sets[right]? = some exp :=
      ⟨_, List.getElem?_eq_getElem inside⟩
    have equal := unique (get?_numbered room (same.trans isExp)) (get?_numbered room isExp)
    lia
  · intro id exp stored member
    by_contra outside
    obtain ⟨index, isExp⟩ := List.mem_iff_getElem?.mp member
    have inside := (List.getElem?_eq_some_iff.mp isExp).1
    have equal := unique (kept stored outside) (get?_numbered room isExp)
    lia
  · intro exp member
    obtain ⟨index, isExp⟩ := List.mem_iff_getElem?.mp member
    exact ors _ exp (get?_numbered room isExp)
  · intro id exp stored outside
    exact ors id exp (kept stored outside)

end Store

namespace SetsIndexed

variable {db : Database}

/-- Storing a computation. -/
theorem storeOwnership {ownership : ComputedOwnership} (indexed : SetsIndexed db)
    (room : ownership.firstId + ownership.sets.length ≤ invalidUset)
    (apart : StoresApart db.columns.ownershipSets ownership)
    : SetsIndexed (db.storeOwnership ownership) := by
  refine of_loaded rfl rfl (apart.orsOnly room) (apart.unique room indexed.unique) ?_
  intro id exp stored
  rw [get?_putAll_numberedSets _ room] at stored
  split_ifs at stored with isNew
  · lia
  · exact lt_of_lt_of_le (indexed.index.below stored) indexed.index.bounded

/-- Adding a batch. -/
theorem addDefineOwnership (indexed : SetsIndexed db) {define : DefineOwnership}
    (room : db.usets.nextId + define.created.length ≤ invalidUset)
    : SetsIndexed (db.addDefineOwnership define) := by
  obtain ⟨exact, index⟩ :=
    @ExactFor.foldl_rebase db.columns.ownershipSets (.start db.usets) define.created
      indexed.exact indexed.index room
  exact ⟨exact, index⟩

/-- Opening a database whose sets are `Or`s. -/
theorem reopen {reopened : Database} {mode : Mode} {start : Id} {version : Int}
    (indexed : SetsIndexed db) (ors : OrsOnly db.columns.ownershipSets)
    (existing : mode ≠ .create)
    (opened : Database.openDatabase db.columns mode start version = .ok reopened)
    : SetsIndexed reopened := by
  obtain ⟨columns, -, -, -, -, -, -, usets⟩ := Database.openDatabase_existing existing opened
  refine of_loaded usets (by rw [columns]) ors indexed.unique ?_
  intro id exp stored
  exact lt_of_lt_of_le (indexed.index.below stored) indexed.index.bounded

end SetsIndexed

/-- Runs in which no `And` is stored whenever the sets are loaded, the sets of a computation do
not meet stored ones, and the ids do not run out.
-/
inductive LookupRun : Database → Prop where
  | create {start : Id} {version : Int} {db : Database}
      (opened : Database.openDatabase .empty .create start version = .ok db)
      : LookupRun db
  | store {db : Database} (run : LookupRun db) (ownership : ComputedOwnership)
      (room : ownership.firstId + ownership.sets.length ≤ invalidUset)
      (apart : StoresApart db.columns.ownershipSets ownership)
      : LookupRun (db.storeOwnership ownership)
  | add {db : Database} (run : LookupRun db) (define : DefineOwnership)
      (room : db.usets.nextId + define.created.length ≤ invalidUset)
      : LookupRun (db.addDefineOwnership define)
  | reopen {db reopened : Database} {mode : Mode} {start : Id} {version : Int}
      (run : LookupRun db) (ors : OrsOnly db.columns.ownershipSets) (existing : mode ≠ .create)
      (opened : Database.openDatabase db.columns mode start version = .ok reopened)
      : LookupRun reopened

theorem LookupRun.indexed {db : Database} (run : LookupRun db) : SetsIndexed db := by
  induction run with
  | create opened =>
      rw [Database.openDatabase_create] at opened
      obtain rfl := Except.ok.inj opened
      refine ⟨?_, Usets.new_canonical 0, ?_, ?_, ?_⟩
      · intro exp id
        simp [Database.created, Columns.empty]
      · intro id exp stored
        simp [Database.created, Columns.empty] at stored
      · exact Nat.zero_le _
      · intro set id found
        simp [Database.created] at found
  | store _ ownership room apart ih => exact ih.storeOwnership room apart
  | add _ define room ih => exact ih.addDefineOwnership room
  | reopen _ ors existing opened ih => exact ih.reopen ors existing opened

/-- In every state of such a run `lookupSet` answers for the stored sets. Storing a computation
or opening the database again keeps this exactly under the condition on the step.
-/
theorem LookupRun.answersLookups {db : Database} (run : LookupRun db)
    : LookupExact db
      ∧ (∀ ownership, ownership.firstId + ownership.sets.length ≤ invalidUset →
          (LookupExact (db.storeOwnership ownership)
            ↔ StoresApart db.columns.ownershipSets ownership))
      ∧ ∀ mode start version reopened, mode ≠ .create →
          Database.openDatabase db.columns mode start version = .ok reopened →
          (LookupExact reopened ↔ OrsOnly db.columns.ownershipSets) := by
  refine ⟨run.indexed.lookupExact, fun ownership room => ⟨fun exact => ?_, fun apart => ?_⟩,
    fun mode start version reopened existing opened => ⟨fun exact => ?_, fun ors => ?_⟩⟩
  · exact StoresApart.of_unique room (exact.orsOnly rfl rfl) exact.unique
  · exact (run.indexed.storeOwnership room apart).lookupExact
  · obtain ⟨columns, -, -, -, -, -, -, usets⟩ := Database.openDatabase_existing existing opened
    exact exact.orsOnly usets (by rw [columns])
  · exact (run.indexed.reopen ors existing opened).lookupExact

/-- The `Or` of the units 0 and 1, numbered after them. -/
def orOfUnits : ComputedOwnership :=
  ⟨2, [⟨.or, {0, 1}⟩], []⟩

/-- A batch with one fact, derived from facts of the units 0 and 1. -/
def andOfUnits (db : Database) : DefineOwnership :=
  (DefineOwnership.new db.ownership 1).derivedFrom db.ownership 1024 {0, 1}

/-- Witness: the `Or` and the `And` of two units are stored, and both are found. -/
theorem LookupRun.answersLookups_or_and
    : ∃ db, LookupRun db ∧ LookupExact db ∧ db.ownership.lookupSet ⟨.or, {0, 1}⟩ = 2
        ∧ db.ownership.lookupSet ⟨.and, {0, 1}⟩ = 3 := by
  have created : LookupRun (.created 1024 3) := .create (Database.openDatabase_create 1024 3)
  have apart : StoresApart (Database.created 1024 3).columns.ownershipSets orOfUnits :=
    ⟨by decide, by simp [Database.created, Columns.empty], by decide,
      by simp [Database.created, Columns.empty]⟩
  have stored := created.store orOfUnits (by decide) apart
  have added := stored.add (andOfUnits ((Database.created 1024 3).storeOwnership orOfUnits))
    (by decide)
  exact ⟨_, added, added.answersLookups.1, by decide, by decide⟩

/-- Counterexample: after opening the database again the stored `And` is not found, and the `Or`
of the same elements is found under the id of the `And`.
-/
theorem reopened_and_read_as_or
    : ∃ db reopened,
        Database.openDatabase .empty .create 1024 3 = .ok db
        ∧ Database.openDatabase
            ((db.storeOwnership orOfUnits).addDefineOwnership
              (andOfUnits (db.storeOwnership orOfUnits))).columns .readWrite 1024 3
            = .ok reopened
        ∧ reopened.columns.ownershipSets.get? 3 = some ⟨.and, {0, 1}⟩
        ∧ reopened.ownership.lookupSet ⟨.and, {0, 1}⟩ = invalidUset
        ∧ reopened.ownership.lookupSet ⟨.or, {0, 1}⟩ = 3
        ∧ ¬ LookupExact reopened := by
  refine ⟨_, _, Database.openDatabase_create 1024 3, rfl, by decide, by decide, by decide, ?_⟩
  intro exact
  have stored := exact.stored ⟨.or, {0, 1}⟩ (by decide)
  revert stored
  decide

end Glean.Rocks
