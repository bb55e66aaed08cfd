import Mathlib.Data.List.GetD
import Glean.RocksDB.Database

/-! Raw ownership records (`DatabaseImpl::addOwnership`). Each record of a unit is stored under
the unit's id and a running number; the next number of a unit is kept in memory, and counted
again when the database is opened.
-/

namespace Glean.Rocks

open Glean.RTS

/-- `Database::OwnershipSet`: a unit name and the id ranges it owns. -/
structure OwnershipSet where
  unit : Bytes
  ids : List (Id × Id)
  deriving DecidableEq

/-- The locals of `addOwnership`, with its batch split by column. -/
structure AddOwnership where
  newCount : Nat
  touched : List UnitId
  units : List (Bytes × UnitId)
  raw : List ((UnitId ×ₗ Nat) × List (Id × Id))

namespace AddOwnership

def start : AddOwnership := ⟨0, [], [], []⟩

/-- The body of the loop over the sets. A unit that is not stored gets the next id. -/
def add (db : Database) (state : AddOwnership) (set : OwnershipSet)
    : Except String AddOwnership :=
  let counters := db.ownershipUnitCounters
  match db.columns.ownershipUnits.get? set.unit with
  | some unit =>
      if counters.length ≤ unit then
        .error ("inconsistent unit id " ++ toString unit)
      else
        .ok { state with
                touched := state.touched ++ [unit]
                raw := state.raw ++ [(toLex (unit, counters.getD unit 0), set.ids)] }
  | none =>
      let unit := counters.length + state.newCount
      .ok { state with
              newCount := state.newCount + 1
              units := state.units ++ [(set.unit, unit)]
              raw := state.raw ++ [(toLex (unit, counters.getD unit 0), set.ids)] }

/-- `++ownership_unit_counters[i]` for each touched unit, and 1 for each new one. -/
def counters (state : AddOwnership) (old : List Nat) : List Nat :=
  state.touched.foldl (fun counters unit => counters.modify unit (· + 1)) old
    ++ List.replicate state.newCount 1

end AddOwnership

namespace Database

/-- `addOwnership`, given that rocksdb writes the batch. -/
def addOwnership (db : Database) (ownership : List OwnershipSet)
    : Except String Unit × Database :=
  match ownership.foldlM (AddOwnership.add db) .start with
  | .error text => (.error text, db)
  | .ok state =>
      (.ok (),
        { db with
            columns := {
              db.columns with
                ownershipUnits := db.columns.ownershipUnits.putAll state.units
                ownershipRaw := db.columns.ownershipRaw.putAll state.raw }
            ownershipUnitCounters := state.counters db.ownershipUnitCounters })

/-- `getOwnershipUnitIterator`: the stored records in key order. -/
def ownershipUnits (db : Database) : List OwnershipUnit :=
  db.columns.ownershipRaw.entries.map (fun entry => ⟨(ofLex entry.1).1, entry.2⟩)

end Database

/-- The records that were added for a unit name, in order. -/
def recordsOf (log : List OwnershipSet) (name : Bytes) : List (List (Id × Id)) :=
  (log.filter (fun set => set.unit = name)).map OwnershipSet.ids

/-- No record is lost: the counters are the numbers of stored records, and the records
delivered for a unit are those added under its name.
-/
structure RecordsKept (db : Database) (log : List OwnershipSet) : Prop where
  counted
    : ∀ unit, db.ownershipUnitCounters.getD unit 0
        = db.ownershipUnits.countP (fun record => record.unit = unit)
  named
    : ∀ record ∈ db.ownershipUnits,
        ∃ name, db.columns.ownershipUnits.get? name = some record.unit
  delivered
    : ∀ name,
        ((db.ownershipUnits.filter
            (fun record => db.columns.ownershipUnits.get? name = some record.unit)).map
          OwnershipUnit.ids).Perm
          (recordsOf log name)

/-- The part of a database that records are added to. -/
structure UnitIndex where
  units : SortedMap Bytes UnitId
  raw : SortedMap (UnitId ×ₗ Nat) (List (Id × Id))
  counters : List Nat

/-- The records of each unit are stored under the numbers from 0 on. -/
structure Indexed (index : UnitIndex) (log : List OwnershipSet) : Prop where
  injective
    : ∀ {name other unit}, index.units.get? name = some unit →
        index.units.get? other = some unit → name = other
  numbered : ∀ unit, unit < index.counters.length ↔ ∃ name, index.units.get? name = some unit
  counted
    : ∀ {name unit}, index.units.get? name = some unit →
        index.counters[unit]? = some (recordsOf log name).length
  used : ∀ name, recordsOf log name = [] ↔ index.units.get? name = none
  stored
    : ∀ unit number ids, index.raw.get? (toLex (unit, number)) = some ids
        ↔ ∃ name, index.units.get? name = some unit ∧ (recordsOf log name)[number]? = some ids

theorem recordsOf_concat (log : List OwnershipSet) (set : OwnershipSet) (name : Bytes)
    : recordsOf (log ++ [set]) name
      = if set.unit = name then recordsOf log name ++ [set.ids] else recordsOf log name := by
  unfold recordsOf
  rw [List.filter_append, List.map_append]
  split_ifs with same
  · simp [same]
  · simp [same]

namespace Indexed

variable {index : UnitIndex} {log : List OwnershipSet} {set : OwnershipSet}

/-- A further record of a known unit. -/
theorem addKnown (indexed : Indexed index log) {unit : UnitId}
    (known : index.units.get? set.unit = some unit)
    : Indexed
        { index with
            raw := index.raw.put (toLex (unit, index.counters.getD unit 0)) set.ids
            counters := index.counters.modify unit (· + 1) }
        (log ++ [set]) := by
  have count : index.counters[unit]? = some (recordsOf log set.unit).length :=
    indexed.counted known
  have next : index.counters.getD unit 0 = (recordsOf log set.unit).length := by
    rw [List.getD_eq_getElem?_getD, count, Option.getD_some]
  refine ⟨indexed.injective, ?_, ?_, ?_, ?_⟩
  · intro other
    rw [List.length_modify]
    exact indexed.numbered other
  · intro name other found
    rw [recordsOf_concat, List.getElem?_modify]
    by_cases same : set.unit = name
    · subst same
      obtain rfl : unit = other := Option.some.inj (known.symm.trans found)
      simp [count]
    · have different : unit ≠ other := fun eq =>
        same (indexed.injective known (eq ▸ found))
      simp [same, different, indexed.counted found]
  · intro name
    rw [recordsOf_concat]
    by_cases same : set.unit = name
    · subst same
      simp [known]
    · rw [if_neg same]
      exact indexed.used name
  · intro other number ids
    rw [SortedMap.get?_put, next]
    have keys : toLex (other, number) = toLex (unit, (recordsOf log set.unit).length)
        ↔ other = unit ∧ number = (recordsOf log set.unit).length := by simp
    by_cases here : other = unit
    · subst here
      have only {name : Bytes} (found : index.units.get? name = some other)
          : set.unit = name := indexed.injective known found
      by_cases last : number = (recordsOf log set.unit).length
      · subst last
        rw [if_pos rfl]
        constructor
        · intro same
          obtain rfl := Option.some.inj same
          exact ⟨set.unit, known, by simp [recordsOf_concat]⟩
        · intro found
          obtain ⟨name, named, record⟩ := found
          obtain rfl := only named
          simpa [recordsOf_concat] using record
      · rw [if_neg (fun eq => last (keys.mp eq).2), indexed.stored]
        refine exists_congr (fun name => and_congr_right (fun named => ?_))
        obtain rfl := only named
        rw [recordsOf_concat, if_pos rfl]
        by_cases inside : number < (recordsOf log set.unit).length
        · rw [List.getElem?_append_left inside]
        · have beyond : (recordsOf log set.unit).length < number := by omega
          rw [List.getElem?_eq_none (by omega), List.getElem?_eq_none (by simp; omega)]
    · rw [if_neg (fun eq => here (keys.mp eq).1), indexed.stored]
      refine exists_congr (fun name => and_congr_right (fun named => ?_))
      have different : set.unit ≠ name := by
        intro eq
        subst eq
        exact here (Option.some.inj (named.symm.trans known))
      rw [recordsOf_concat, if_neg different]

/-- The first record of a new unit. -/
theorem addNew (indexed : Indexed index log) (unknown : index.units.get? set.unit = none)
    : Indexed
        { units := index.units.put set.unit index.counters.length
          raw := index.raw.put (toLex (index.counters.length, 0)) set.ids
          counters := index.counters ++ [1] }
        (log ++ [set]) := by
  have below {name : Bytes} {unit : UnitId} (found : index.units.get? name = some unit)
      : unit < index.counters.length := (indexed.numbered unit).mpr ⟨name, found⟩
  have empty : recordsOf log set.unit = [] := (indexed.used set.unit).mpr unknown
  refine ⟨?_, ?_, ?_, ?_, ?_⟩
  · intro name other unit nameFound otherFound
    rw [SortedMap.get?_put] at nameFound otherFound
    split_ifs at nameFound otherFound with nameNew otherNew otherNew
    · exact nameNew.trans otherNew.symm
    · obtain rfl := Option.some.inj nameFound
      exact absurd (below otherFound) (lt_irrefl _)
    · obtain rfl := Option.some.inj otherFound
      exact absurd (below nameFound) (lt_irrefl _)
    · exact indexed.injective nameFound otherFound
  · intro unit
    rw [List.length_append, List.length_singleton, Nat.lt_succ_iff_lt_or_eq,
      indexed.numbered unit]
    constructor
    · intro either
      rcases either with ⟨name, found⟩ | rfl
      · have different : name ≠ set.unit := fun eq => by simp [eq, unknown] at found
        exact ⟨name, by rw [SortedMap.get?_put_of_ne _ _ different, found]⟩
      · exact ⟨set.unit, SortedMap.get?_put_self ..⟩
    · intro found
      obtain ⟨name, found⟩ := found
      rw [SortedMap.get?_put] at found
      split_ifs at found
      · exact Or.inr (Option.some.inj found).symm
      · exact Or.inl ⟨name, found⟩
  · intro name unit found
    rw [SortedMap.get?_put] at found
    rw [recordsOf_concat]
    split_ifs at found with isNew
    · obtain rfl := Option.some.inj found
      simp [isNew, empty]
    · rw [if_neg (Ne.symm isNew), List.getElem?_append_left (below found)]
      exact indexed.counted found
  · intro name
    rw [recordsOf_concat, SortedMap.get?_put]
    by_cases isNew : name = set.unit
    · simp [isNew]
    · rw [if_neg (Ne.symm isNew), if_neg isNew]
      exact indexed.used name
  · intro unit number ids
    rw [SortedMap.get?_put]
    have keys : toLex (unit, number) = toLex (index.counters.length, 0)
        ↔ unit = index.counters.length ∧ number = 0 := by simp
    by_cases here : unit = index.counters.length
    · subst here
      have notOld : ∀ name, index.units.get? name ≠ some index.counters.length :=
        fun name found => absurd (below found) (lt_irrefl _)
      have only {name : Bytes}
          (found : (index.units.put set.unit index.counters.length).get? name
            = some index.counters.length)
          : name = set.unit := by
        rw [SortedMap.get?_put] at found
        split_ifs at found with isNew
        · exact isNew
        · exact (notOld name found).elim
      by_cases first : number = 0
      · subst first
        rw [if_pos rfl]
        constructor
        · intro same
          obtain rfl := Option.some.inj same
          exact ⟨set.unit, SortedMap.get?_put_self .., by simp [recordsOf_concat, empty]⟩
        · intro found
          obtain ⟨name, named, record⟩ := found
          obtain rfl := only named
          simpa [recordsOf_concat, empty] using record
      · rw [if_neg (fun eq => first (keys.mp eq).2), indexed.stored]
        constructor
        · intro found
          obtain ⟨name, named, -⟩ := found
          exact (notOld name named).elim
        · intro found
          obtain ⟨name, named, record⟩ := found
          obtain rfl := only named
          rw [recordsOf_concat, if_pos rfl, empty] at record
          simp [first] at record
    · rw [if_neg (fun eq => here (keys.mp eq).1), indexed.stored]
      refine exists_congr (fun name => ?_)
      by_cases isNew : name = set.unit
      · subst isNew
        simp [unknown, Ne.symm here]
      · rw [SortedMap.get?_put_of_ne _ _ isNew, recordsOf_concat, if_neg (Ne.symm isNew)]

theorem empty : Indexed ⟨.empty, .empty, []⟩ [] where
  injective := by simp
  numbered := by simp
  counted := by simp
  used := by simp [recordsOf]
  stored := by simp

/-- A unit is stored together with its first record. -/
theorem counters_eq_nil (indexed : Indexed index log) (noRecords : index.raw.entries = [])
    : index.counters = [] := by
  by_contra nonempty
  obtain ⟨name, named⟩ := (indexed.numbered 0).mp (List.length_pos_iff.mpr nonempty)
  have nonzero : recordsOf log name ≠ [] := by
    intro none
    rw [(indexed.used name).mp none] at named
    cases named
  obtain ⟨first, rest, records⟩ := List.exists_cons_of_ne_nil nonzero
  have stored : index.raw.get? (toLex (0, 0)) = some first :=
    (indexed.stored 0 0 first).mpr ⟨name, named, by rw [records, List.getElem?_cons_zero]⟩
  rw [SortedMap.get?_eq_some_iff, noRecords] at stored
  cases stored

/-- The stored records of a unit, in key order. -/
theorem entries_of_unit (indexed : Indexed index log) {name : Bytes} {unit : UnitId}
    (named : index.units.get? name = some unit)
    : index.raw.entries.filter (fun entry => (ofLex entry.1).1 = unit)
      = (recordsOf log name).zipIdx.map
          (fun record => (toLex (unit, record.2), record.1)) := by
  refine eq_of_ascending (index.raw.sorted.filter _) ?_ ?_
  · rw [List.pairwise_map, List.pairwise_iff_getElem]
    intro early late earlyIn lateIn before
    simpa [Prod.Lex.toLex_lt_toLex] using before
  · intro entry
    obtain ⟨key, ids⟩ := entry
    obtain ⟨other, number⟩ := key
    have stored : (toLex (other, number), ids) ∈ index.raw.entries ↔ _ :=
      SortedMap.get?_eq_some_iff.symm.trans (indexed.stored other number ids)
    change (toLex (other, number), ids) ∈ _ ↔ (toLex (other, number), ids) ∈ _
    rw [List.mem_filter, stored, List.mem_map]
    constructor
    · intro found
      obtain ⟨⟨owner, ownerNamed, record⟩, same⟩ := found
      obtain rfl : other = unit := of_decide_eq_true same
      obtain rfl : owner = name := indexed.injective ownerNamed named
      exact ⟨(ids, number), List.mk_mem_zipIdx_iff_getElem?.mpr record, rfl⟩
    · intro found
      obtain ⟨⟨recordIds, recordNumber⟩, member, same⟩ := found
      simp only [Prod.mk.injEq, toLex_inj] at same
      obtain ⟨⟨rfl, rfl⟩, rfl⟩ := same
      exact ⟨⟨name, named, List.mk_mem_zipIdx_iff_getElem?.mp member⟩, by simp⟩

end Indexed

def Database.unitIndex (db : Database) : UnitIndex :=
  ⟨db.columns.ownershipUnits, db.columns.ownershipRaw, db.ownershipUnitCounters⟩

namespace AddOwnership

variable {db : Database} {log sets done : List OwnershipSet} {set : OwnershipSet}
  {state : AddOwnership}

/-- What the database holds once the batch collected so far is written. -/
def written (state : AddOwnership) (index : UnitIndex) : UnitIndex :=
  ⟨index.units.putAll state.units, index.raw.putAll state.raw, state.counters index.counters⟩

/-- The loop invariant, with the sets that were added so far. -/
structure Adding (db : Database) (log done : List OwnershipSet) (state : AddOwnership)
    : Prop where
  indexed : Indexed (state.written db.unitIndex) (log ++ done)
  units : ∀ entry ∈ state.units, entry.1 ∈ done.map OwnershipSet.unit
  touched
    : ∀ unit ∈ state.touched, ∃ name ∈ done.map OwnershipSet.unit,
        db.columns.ownershipUnits.get? name = some unit

theorem modify_append_of_lt {left right : List Nat} {unit : UnitId} (inside : unit < left.length)
    : (left ++ right).modify unit (· + 1) = left.modify unit (· + 1) ++ right := by
  apply List.ext_getElem?
  intro position
  rw [List.getElem?_modify, List.getElem?_append, List.getElem?_append, List.length_modify,
    List.getElem?_modify]
  split_ifs with same early early
  · rfl
  · exact absurd (same ▸ inside) early
  · rfl
  · simp

theorem foldl_modify_length (touched : List UnitId) (old : List Nat)
    : (touched.foldl (fun counters unit => counters.modify unit (· + 1)) old).length
      = old.length := by
  induction touched generalizing old with
  | nil => rfl
  | cons unit rest ih => rw [List.foldl_cons, ih, List.length_modify]

theorem foldl_modify_of_not_mem (touched : List UnitId) (old : List Nat) {unit : UnitId}
    (untouched : unit ∉ touched)
    : (touched.foldl (fun counters unit => counters.modify unit (· + 1)) old)[unit]?
      = old[unit]? := by
  induction touched generalizing old with
  | nil => rfl
  | cons head rest ih =>
      simp only [List.mem_cons, not_or] at untouched
      rw [List.foldl_cons, ih _ untouched.2, List.getElem?_modify]
      simp [Ne.symm untouched.1]

theorem counters_length (state : AddOwnership) (old : List Nat)
    : (state.counters old).length = old.length + state.newCount := by
  simp [counters, foldl_modify_length]

/-- The counter of an old unit that the batch has no record of. -/
theorem counters_getD_of_not_mem {unit : UnitId} {old : List Nat} (isOld : unit < old.length)
    (untouched : unit ∉ state.touched)
    : (state.counters old).getD unit 0 = old.getD unit 0 := by
  rw [List.getD_eq_getElem?_getD, List.getD_eq_getElem?_getD, counters,
    List.getElem?_append_left (by rwa [foldl_modify_length]),
    foldl_modify_of_not_mem _ _ untouched]

theorem Adding.start (indexed : Indexed db.unitIndex log) : Adding db log [] .start where
  indexed := by simpa [written, AddOwnership.start, counters, SortedMap.putAll] using indexed
  units := by simp [AddOwnership.start]
  touched := by simp [AddOwnership.start]

/-- A set whose unit is stored. -/
theorem add_known {unit : UnitId} (found : db.columns.ownershipUnits.get? set.unit = some unit)
    (isOld : unit < db.ownershipUnitCounters.length)
    : add db state set
      = .ok { state with
                touched := state.touched ++ [unit]
                raw := state.raw
                  ++ [(toLex (unit, db.ownershipUnitCounters.getD unit 0), set.ids)] } := by
  simp only [add, found]
  rw [if_neg (Nat.not_le.mpr isOld)]

/-- A set whose unit is not stored. -/
theorem add_new (missing : db.columns.ownershipUnits.get? set.unit = none)
    : add db state set
      = .ok { state with
                newCount := state.newCount + 1
                units := state.units
                  ++ [(set.unit, db.ownershipUnitCounters.length + state.newCount)]
                raw := state.raw
                  ++ [(toLex (db.ownershipUnitCounters.length + state.newCount, 0),
                      set.ids)] } := by
  simp only [add, missing]
  rw [List.getD_eq_default _ _ (by omega)]

/-- One more set, with a name that the call has not seen. -/
theorem Adding.add (indexed : Indexed db.unitIndex log) (adding : Adding db log done state)
    (fresh : set.unit ∉ done.map OwnershipSet.unit)
    : ∃ next, AddOwnership.add db state set = .ok next
        ∧ Adding db log (done ++ [set]) next := by
  have notInBatch : ∀ unit, (set.unit, unit) ∉ state.units :=
    fun unit member => fresh (adding.units _ member)
  have lookup : (state.written db.unitIndex).units.get? set.unit
      = db.columns.ownershipUnits.get? set.unit :=
    SortedMap.get?_putAll_of_not_mem _ _ notInBatch
  cases found : db.columns.ownershipUnits.get? set.unit with
  | some unit =>
      have isOld : unit < db.ownershipUnitCounters.length :=
        (indexed.numbered unit).mpr ⟨set.unit, found⟩
      have untouched : unit ∉ state.touched := by
        intro member
        obtain ⟨name, isDone, named⟩ := adding.touched unit member
        have same : name = set.unit := indexed.injective named found
        exact fresh (same ▸ isDone)
      have count : (state.counters db.ownershipUnitCounters).getD unit 0
          = db.ownershipUnitCounters.getD unit 0 := counters_getD_of_not_mem isOld untouched
      have next := adding.indexed.addKnown (lookup.trans found)
      refine ⟨_, add_known found isOld, ?_, ?_, ?_⟩
      · convert next using 1
        · simp only [written, Database.unitIndex, SortedMap.putAll_concat, count]
          congr 1
          simp only [counters, List.foldl_append, List.foldl_cons, List.foldl_nil]
          rw [modify_append_of_lt (by rwa [foldl_modify_length])]
        · simp
      · intro entry member
        rw [List.map_append, List.mem_append]
        exact Or.inl (adding.units entry member)
      · intro other member
        rw [List.map_append]
        rcases List.mem_append.mp member with old | new
        · obtain ⟨name, isDone, named⟩ := adding.touched other old
          exact ⟨name, List.mem_append_left _ isDone, named⟩
        · obtain rfl := List.mem_singleton.mp new
          exact ⟨set.unit, by simp, found⟩
  | none =>
      have next := adding.indexed.addNew (lookup.trans found)
      refine ⟨_, add_new found, ?_, ?_, ?_⟩
      · convert next using 1
        · simp only [written, Database.unitIndex, SortedMap.putAll_concat, counters_length]
          congr 1
          simp only [counters, List.replicate_succ', List.append_assoc]
        · simp
      · intro entry member
        rw [List.map_append, List.mem_append]
        rcases List.mem_append.mp member with old | new
        · exact Or.inl (adding.units entry old)
        · obtain rfl := List.mem_singleton.mp new
          exact Or.inr (by simp)
      · intro other member
        obtain ⟨name, isDone, named⟩ := adding.touched other member
        exact ⟨name, by simp [List.mem_map.mp isDone], named⟩

/-- The whole loop, over sets with pairwise different names. -/
theorem Adding.foldlM (indexed : Indexed db.unitIndex log) (adding : Adding db log done state)
    (distinct : ((done ++ sets).map OwnershipSet.unit).Nodup)
    : ∃ next, sets.foldlM (AddOwnership.add db) state = .ok next
        ∧ Adding db log (done ++ sets) next := by
  induction sets generalizing done state with
  | nil => exact ⟨state, rfl, by simpa using adding⟩
  | cons set rest ih =>
      have fresh : set.unit ∉ done.map OwnershipSet.unit := by
        rw [List.map_append, List.nodup_append] at distinct
        intro member
        exact distinct.2.2 _ member set.unit (by simp) rfl
      obtain ⟨middle, added, addingMiddle⟩ := adding.add indexed fresh
      obtain ⟨next, folded, addingNext⟩ :=
        ih addingMiddle (by simpa using distinct)
      refine ⟨next, ?_, by simpa using addingNext⟩
      rw [List.foldlM_cons, added]
      exact folded

end AddOwnership

/-- A call with pairwise different unit names succeeds and adds every record. -/
theorem Indexed.addOwnership {db : Database} {log sets : List OwnershipSet}
    (indexed : Indexed db.unitIndex log) (distinct : (sets.map OwnershipSet.unit).Nodup)
    : (db.addOwnership sets).1 = .ok ()
      ∧ Indexed (db.addOwnership sets).2.unitIndex (log ++ sets) := by
  obtain ⟨state, folded, adding⟩ :=
    (AddOwnership.Adding.start indexed).foldlM indexed (by simpa using distinct)
  simp only [Database.addOwnership, folded]
  exact ⟨trivial, adding.indexed⟩

/-- A database whose units are indexed keeps every record. -/
theorem Indexed.recordsKept {db : Database} {log : List OwnershipSet}
    (indexed : Indexed db.unitIndex log)
    : RecordsKept db log := by
  have ofUnit {name : Bytes} {unit : UnitId}
      (named : db.columns.ownershipUnits.get? name = some unit)
      : (db.ownershipUnits.filter (fun record => record.unit = unit)).map OwnershipUnit.ids
        = recordsOf log name := by
    rw [Database.ownershipUnits, List.filter_map, List.map_map]
    change List.map _ (db.unitIndex.raw.entries.filter
      (fun entry => (ofLex entry.1).1 = unit)) = _
    rw [indexed.entries_of_unit named, List.map_map]
    exact List.zipIdx_map_fst 0 _
  have isNamed : ∀ record ∈ db.ownershipUnits,
      ∃ name, db.columns.ownershipUnits.get? name = some record.unit := by
    intro record member
    obtain ⟨⟨key, ids⟩, entry, rfl⟩ := List.mem_map.mp member
    have stored := (indexed.stored (ofLex key).1 (ofLex key).2 ids).mp
      (SortedMap.get?_eq_some_iff.mpr entry)
    obtain ⟨name, named, -⟩ := stored
    exact ⟨name, named⟩
  refine ⟨?_, isNamed, ?_⟩
  · intro unit
    by_cases inside : unit < db.ownershipUnitCounters.length
    · obtain ⟨name, named⟩ := (indexed.numbered unit).mp inside
      have count : db.ownershipUnitCounters[unit]? = some (recordsOf log name).length :=
        indexed.counted named
      rw [List.getD_eq_getElem?_getD, count, List.countP_eq_length_filter, ← ofUnit named,
        List.length_map, Option.getD_some]
    · rw [List.getD_eq_default _ _ (Nat.not_lt.mp inside), eq_comm, List.countP_eq_zero]
      intro record member same
      obtain ⟨name, named⟩ := isNamed record member
      rw [of_decide_eq_true same] at named
      exact inside ((indexed.numbered unit).mpr ⟨name, named⟩)
  · intro name
    cases found : db.columns.ownershipUnits.get? name with
    | none => simp [(indexed.used name).mpr found]
    | some unit =>
        rw [← ofUnit found]
        apply List.Perm.of_eq
        congr 2
        funext record
        simp [eq_comm]

end Glean.Rocks
