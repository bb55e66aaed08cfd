import Glean.RocksDB.Answers

/-! Whole runs of commits and reopenings of one database. -/

namespace Glean.Rocks

open Glean.RTS

/-- Opening a stored database again keeps what it represents. -/
theorem Represents.reopen {db reopened : Database} {facts : List Fact} {mode : Mode}
    {start : Id} {version : Int} (represents : Represents db facts) (existing : mode ≠ .create)
    (opened : Database.openDatabase db.columns mode start version = .ok reopened)
    : Represents reopened facts := by
  obtain ⟨columns, sameVersion, startingId, nextId, stats, -⟩ :=
    Database.openDatabase_existing existing opened
  rw [represents.admin, Option.getD_some] at sameVersion startingId nextId
  exact {
    positive := startingId ▸ represents.positive
    ascending := represents.ascending
    distinct := represents.distinct
    inside := by
      rw [startingId, nextId]
      exact represents.inside
    typed := represents.typed
    entities := columns ▸ represents.entities
    keys := columns ▸ represents.keys
    admin := by rw [columns, sameVersion, startingId, nextId, represents.admin]
    mirrored := by rw [columns, stats]
    counted := by
      rw [stats, represents.mirrored]
      exact represents.counted
    next := by
      rw [startingId, nextId]
      exact represents.next }

theorem Represents.created {start : Id} (positive : Id.invalid < start) (version : Int)
    : Represents (.created start version) [] where
  positive := positive
  ascending := .nil
  distinct := .nil
  inside := by simp
  typed := by simp
  entities := by simp [Database.created, Columns.empty]
  keys := by simp [Database.created, Columns.empty]
  admin := rfl
  mirrored := rfl
  counted := by simp [Database.created, MemoryStats.zero]
  next := rfl

/-- The facts that a commit with this result has added. -/
def addedFacts (result : Except String Unit) (facts : FactSet) : List Fact :=
  match result with
  | .ok _ => facts.facts
  | .error _ => []

/-- Runs of commits, successful or not, and reopenings, with the facts committed so far. -/
inductive CommitRun : Database → List Fact → Prop where
  | create {start : Id} {version : Int} {db : Database} (positive : Id.invalid < start)
      (opened : Database.openDatabase .empty .create start version = .ok db)
      : CommitRun db []
  | commit {db : Database} {committed : List Fact} (run : CommitRun db committed)
      (status : Status) (facts : FactSet) (fresh : FreshKeys facts committed)
      : CommitRun (db.commit status facts).2
          (committed ++ addedFacts (db.commit status facts).1 facts)
  | reopen {db reopened : Database} {committed : List Fact} {mode : Mode} {start : Id}
      {version : Int} (run : CommitRun db committed) (existing : mode ≠ .create)
      (opened : Database.openDatabase db.columns mode start version = .ok reopened)
      : CommitRun reopened committed

/-- Every run keeps the columns and the members in memory in step with the committed facts,
by induction on the run.
-/
theorem CommitRun.represents {db : Database} {committed : List Fact}
    (run : CommitRun db committed)
    : Represents db committed := by
  induction run with
  | create positive opened =>
      rw [Database.openDatabase_create] at opened
      exact Except.ok.inj opened ▸ Represents.created positive _
  | @commit db committed _ status facts fresh ih =>
      rcases db.commit_cases status facts with
        ⟨empty, same⟩ | ⟨text, same⟩ | ⟨nonempty, inOrder, written⟩
      · simpa [same, addedFacts, empty] using ih
      · simpa [same, addedFacts] using ih
      · rw [written]
        exact ih.commit nonempty inOrder fresh
  | reopen _ existing opened ih => exact ih.reopen existing opened

/-- In every state of every run the database is consistent with the committed facts, answers
for them, and would not be changed by a failing commit.
-/
theorem CommitRun.consistent {db : Database} {committed : List Fact}
    (run : CommitRun db committed)
    : Represents db committed
      ∧ AnswersFor db committed
      ∧ ∀ status facts text,
          (db.commit status facts).1 = .error text → (db.commit status facts).2 = db :=
  ⟨run.represents, run.represents.answersFor, fun _ _ _ => Database.commit_error⟩

/-- Witness: a fact is committed to a new database. -/
theorem CommitRun.consistent_one_fact
    : ∃ db, CommitRun db [⟨1024, 1, ⟨[], []⟩⟩] ∧ db.nextId = 1025
        ∧ AnswersFor db [⟨1024, 1, ⟨[], []⟩⟩] := by
  have created : CommitRun (.created 1024 3) [] :=
    .create (by decide) (Database.openDatabase_create 1024 3)
  let facts : FactSet :=
    (FactSet.new 1024 (by decide)).push 1 ⟨[], []⟩ (by decide) (by decide)
  have run := created.commit (fun _ => none) facts (by simp [FreshKeys])
  exact ⟨_, run, rfl, run.consistent.2.1⟩

end Glean.Rocks
