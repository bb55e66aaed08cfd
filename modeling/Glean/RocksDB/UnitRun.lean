import Glean.RocksDB.AddOwnership

/-! Raw ownership records over whole runs. Opening a database counts the stored records of each
unit again, and counts one too few.
-/

namespace Glean.Rocks

open Glean.RTS

/-- The counters that loading has built from some keys: one less than the number of keys. -/
def OneLess (counters : List Nat) (units : List UnitId) : Prop :=
  ∀ unit, units.count unit
    = if unit < counters.length then counters.getD unit 0 + 1 else 0

theorem OneLess.countUnitKey {counters loaded : List Nat} {units : List UnitId} {unit : UnitId}
    (oneLess : OneLess counters units) (counted : countUnitKey counters unit = .ok loaded)
    : OneLess loaded (units ++ [unit]) := by
  intro other
  unfold Rocks.countUnitKey at counted
  rw [List.count_append, oneLess other]
  split_ifs at counted with isNew isLast
  · obtain rfl := Except.ok.inj counted
    rw [List.count_singleton, List.getD_eq_getElem?_getD, List.getD_eq_getElem?_getD,
      List.getElem?_append, List.length_append]
    grind
  · obtain rfl := Except.ok.inj counted
    rw [List.count_singleton, List.getD_eq_getElem?_getD, List.getD_eq_getElem?_getD,
      List.getElem?_modify, List.length_modify]
    grind

/-- Loading counts one record too few for every unit that has any. -/
theorem loadOwnershipUnitCounters_oneLess {columns : Columns} {counters : List Nat}
    (loaded : loadOwnershipUnitCounters columns = .ok counters)
    : OneLess counters (columns.ownershipRaw.entries.map (fun entry => (ofLex entry.1).1)) := by
  have fold {entries : List ((UnitId ×ₗ Nat) × List (Id × Id))} {old : List Nat}
      {units : List UnitId} (oneLess : OneLess old units)
      (folded : entries.foldlM (fun counters entry => countUnitKey counters (ofLex entry.1).1) old
        = .ok counters)
      : OneLess counters (units ++ entries.map (fun entry => (ofLex entry.1).1)) := by
    induction entries generalizing old units with
    | nil =>
        obtain rfl := Except.ok.inj folded
        simpa using oneLess
    | cons entry rest ih =>
        rw [List.foldlM_cons] at folded
        cases counted : countUnitKey old (ofLex entry.1).1 with
        | error text =>
            rw [counted] at folded
            cases folded
        | ok middle =>
            rw [counted] at folded
            simpa using ih (oneLess.countUnitKey counted) folded
  have none : OneLess [] [] := by simp [OneLess]
  simpa using fold none loaded

/-- After opening a database again, its records are kept exactly if there are none. -/
theorem RecordsKept.reopen_iff {db reopened : Database} {log : List OwnershipSet} {mode : Mode}
    {start : Id} {version : Int} (kept : RecordsKept db log) (existing : mode ≠ .create)
    (opened : Database.openDatabase db.columns mode start version = .ok reopened)
    : RecordsKept reopened log ↔ db.columns.ownershipRaw.entries = [] := by
  obtain ⟨columns, -, -, -, -, loaded, -⟩ := Database.openDatabase_existing existing opened
  have sameUnits : reopened.ownershipUnits = db.ownershipUnits := by
    rw [Database.ownershipUnits, columns, Database.ownershipUnits]
  have oneLess := loadOwnershipUnitCounters_oneLess loaded
  constructor
  · intro keptAgain
    -- a stored record is counted by `RecordsKept` and left out by the loaded counters
    rw [List.eq_nil_iff_forall_not_mem]
    intro entry stored
    have count := keptAgain.counted (ofLex entry.1).1
    have positive : 0 < (db.columns.ownershipRaw.entries.map
        (fun entry => (ofLex entry.1).1)).count (ofLex entry.1).1 :=
      List.count_pos_iff.mpr (List.mem_map.mpr ⟨entry, stored, rfl⟩)
    have same : db.ownershipUnits.countP (fun record => record.unit = (ofLex entry.1).1)
        = (db.columns.ownershipRaw.entries.map
            (fun entry => (ofLex entry.1).1)).count (ofLex entry.1).1 := by
      rw [Database.ownershipUnits, List.countP_map, List.count, List.countP_map]
      rfl
    rw [sameUnits, same] at count
    have less := oneLess (ofLex entry.1).1
    split_ifs at less
    · omega
    · omega
  · intro empty
    have noUnits : db.ownershipUnits = [] := by rw [Database.ownershipUnits, empty, List.map_nil]
    have noCounters : reopened.ownershipUnitCounters = [] := by
      rw [loadOwnershipUnitCounters, empty] at loaded
      exact (Except.ok.inj loaded).symm
    refine ⟨?_, ?_, ?_⟩
    · simp [sameUnits, noUnits, noCounters]
    · simp [sameUnits, noUnits]
    · rw [columns, sameUnits]
      exact kept.delivered

/-- Runs of `addOwnership` with the records added so far, in which the database is opened
again only while no record is stored.
-/
inductive UnitRun : Database → List OwnershipSet → Prop where
  | create {start : Id} {version : Int} {db : Database}
      (opened : Database.openDatabase .empty .create start version = .ok db)
      : UnitRun db []
  | add {db : Database} {log : List OwnershipSet} (run : UnitRun db log)
      (sets : List OwnershipSet) (distinct : (sets.map OwnershipSet.unit).Nodup)
      : UnitRun (db.addOwnership sets).2 (log ++ sets)
  | reopen {db reopened : Database} {log : List OwnershipSet} {mode : Mode} {start : Id}
      {version : Int} (run : UnitRun db log)
      (unused : db.columns.ownershipRaw.entries = []) (existing : mode ≠ .create)
      (opened : Database.openDatabase db.columns mode start version = .ok reopened)
      : UnitRun reopened log

theorem UnitRun.indexed {db : Database} {log : List OwnershipSet} (run : UnitRun db log)
    : Indexed db.unitIndex log := by
  induction run with
  | create opened =>
      rw [Database.openDatabase_create] at opened
      obtain rfl := Except.ok.inj opened
      exact Indexed.empty
  | add _ sets distinct ih => exact (ih.addOwnership distinct).2
  | @reopen db reopened _ _ _ _ _ unused existing opened ih =>
      obtain ⟨columns, -, -, -, -, loaded, -⟩ := Database.openDatabase_existing existing opened
      rw [loadOwnershipUnitCounters, unused] at loaded
      have same : reopened.unitIndex = db.unitIndex := by
        have none : db.ownershipUnitCounters = [] := ih.counters_eq_nil unused
        rw [Database.unitIndex, columns, ← Except.ok.inj loaded, Database.unitIndex, none]
      rw [same]
      exact ih

/-- No record is lost in any state of such a run, and each call succeeds. Opening the database
again is harmless exactly as long as no record is stored.
-/
theorem UnitRun.keepsRecords {db : Database} {log : List OwnershipSet} (run : UnitRun db log)
    : RecordsKept db log
      ∧ (∀ sets : List OwnershipSet, (sets.map OwnershipSet.unit).Nodup →
          (db.addOwnership sets).1 = .ok ())
      ∧ ∀ mode start version reopened, mode ≠ .create →
          Database.openDatabase db.columns mode start version = .ok reopened →
          (RecordsKept reopened log ↔ db.columns.ownershipRaw.entries = []) :=
  ⟨run.indexed.recordsKept,
    fun _ distinct => (run.indexed.addOwnership distinct).1,
    fun _ _ _ _ existing opened => run.indexed.recordsKept.reopen_iff existing opened⟩

/-- Witness: two records of one unit, and one of another. -/
theorem UnitRun.keepsRecords_three_records
    : ∃ db, UnitRun db [⟨[0], [(1024, 1024)]⟩, ⟨[1], []⟩, ⟨[0], [(1025, 1026)]⟩]
        ∧ RecordsKept db [⟨[0], [(1024, 1024)]⟩, ⟨[1], []⟩, ⟨[0], [(1025, 1026)]⟩]
        ∧ db.ownershipUnitCounters = [2, 1] := by
  have created : UnitRun (.created 1024 3) [] := .create (Database.openDatabase_create 1024 3)
  have first := created.add [⟨[0], [(1024, 1024)]⟩, ⟨[1], []⟩] (by decide)
  have second := first.add [⟨[0], [(1025, 1026)]⟩] (by decide)
  exact ⟨_, second, second.keepsRecords.1, by decide⟩

/-- Counterexample: after reopening, the counter of a unit with one record is 0, and the next
record of the unit replaces the one stored.
-/
theorem reopened_record_lost
    : ∃ db reopened,
        Database.openDatabase .empty .create 1024 3 = .ok db
        ∧ Database.openDatabase (db.addOwnership [⟨[0], [(1024, 1024)]⟩]).2.columns .readWrite
            1024 3 = .ok reopened
        ∧ ¬ RecordsKept reopened [⟨[0], [(1024, 1024)]⟩]
        ∧ ¬ RecordsKept (reopened.addOwnership [⟨[0], [(1025, 1026)]⟩]).2
            [⟨[0], [(1024, 1024)]⟩, ⟨[0], [(1025, 1026)]⟩] := by
  refine ⟨_, _, Database.openDatabase_create 1024 3, rfl, ?_, ?_⟩
  · intro kept
    have count := kept.counted 0
    revert count
    decide
  · intro kept
    have records := (kept.delivered [0]).length_eq
    revert records
    decide

end Glean.Rocks
