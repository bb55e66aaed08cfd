import Glean.Ownership.Compute
import Glean.RocksDB.StoreOwnership

/-! Owners stored as intervals, over whole runs. An interval ends only where the next stored key
begins, so what a key means depends on the keys stored around it.
-/

namespace Glean.Rocks

open Glean.RTS

/-- The owner that a column of owners gives to a fact. -/
def ownerAt (column : SortedMap Id UsetId) (id : Id) : UsetId :=
  ((column.floor? id).map Prod.snd).getD invalidUset

/-- The facts at which a run of equal owners starts. -/
def runs (owners : SortedMap Id UsetId) : SortedMap Id UsetId :=
  ⟨intervals owners.entries, owners.sorted.sublist (intervalsFrom_sublist _ _)⟩

/-- The latest owner of each fact, after a computation that gives owners to some of them. -/
def assign (assigned : Id → UsetId) (owners : SortedMap Id UsetId) (id : Id) : UsetId :=
  (owners.get? id).getD (assigned id)

/-- No run reaches a fact: none starts at or before it, or a key of the column is in between. -/
def Hidden (column owners : SortedMap Id UsetId) (id : Id) : Prop :=
  ∀ start, (runs owners).floor? id = some start →
    ∃ entry, column.floor? id = some entry ∧ start.1 < entry.1

/-- The runs fit into the column. A listed fact whose run is hidden has its owner already, and
so has a fact that is not listed but reached by a run.
-/
structure Fits (column owners : SortedMap Id UsetId) : Prop where
  listed
    : ∀ id owner, owners.get? id = some owner → Hidden column owners id →
        ownerAt column id = owner
  gaps
    : ∀ id start, owners.get? id = none → (runs owners).floor? id = some start →
        ¬ Hidden column owners id → ownerAt column id = start.2

section Runs

variable {column owners : SortedMap Id UsetId} {id : Id}

/-- A run starts at a listed fact with its owner. -/
theorem get?_of_runs {owner : UsetId} (found : (runs owners).get? id = some owner)
    : owners.get? id = some owner := by
  rw [SortedMap.get?_eq_some_iff] at found ⊢
  exact (intervalsFrom_sublist _ _).subset found

/-- The run that reaches a listed fact has its owner. -/
theorem ownerAt_runs {owner : UsetId} (found : owners.get? id = some owner)
    : ownerAt (runs owners) id = owner :=
  intervalOwner_intervals owners.sorted (SortedMap.get?_eq_some_iff.mp found)

/-- Where no run reaches, the column answers as before. -/
theorem ownerAt_write_of_hidden (hidden : Hidden column owners id)
    : ownerAt (column.putAll (runs owners).entries) id = ownerAt column id := by
  rw [ownerAt, SortedMap.floor?_putAll_entries, ownerAt]
  cases found : (runs owners).floor? id with
  | none => simp
  | some start =>
      obtain ⟨entry, stored, later⟩ := hidden start found
      simp [stored, later]

/-- Where a run reaches, its owner is the answer. -/
theorem ownerAt_write_of_not_hidden (reached : ¬ Hidden column owners id)
    : ∃ start, (runs owners).floor? id = some start
        ∧ ownerAt (column.putAll (runs owners).entries) id = start.2 := by
  simp only [Hidden, not_forall] at reached
  obtain ⟨start, found, visible⟩ := reached
  refine ⟨start, found, ?_⟩
  rw [ownerAt, SortedMap.floor?_putAll_entries, found]
  cases stored : column.floor? id with
  | none => simp
  | some entry =>
      have notLater : ¬ start.1 < entry.1 := fun later => visible ⟨entry, stored, later⟩
      simp [notLater]

/-- Writing the runs of a computation gives every fact its latest owner exactly if they fit. -/
theorem ownerAt_write_iff (column owners : SortedMap Id UsetId)
    : (∀ id, ownerAt (column.putAll (runs owners).entries) id
        = assign (ownerAt column) owners id)
      ↔ Fits column owners := by
  constructor
  · intro answers
    refine ⟨fun id owner found hidden => ?_, fun id start missing found reached => ?_⟩
    · have answer := answers id
      rw [ownerAt_write_of_hidden hidden] at answer
      rw [answer, assign, found, Option.getD_some]
    · have answer := answers id
      obtain ⟨other, otherFound, written⟩ := ownerAt_write_of_not_hidden reached
      obtain rfl : start = other := Option.some.inj (found.symm.trans otherFound)
      rw [written, assign, missing, Option.getD_none] at answer
      exact answer.symm
  · intro fits id
    by_cases hidden : Hidden column owners id
    · rw [ownerAt_write_of_hidden hidden, assign]
      cases found : owners.get? id with
      | none => rfl
      | some owner => exact fits.listed id owner found hidden
    · obtain ⟨start, startFound, written⟩ := ownerAt_write_of_not_hidden hidden
      rw [written, assign]
      cases found : owners.get? id with
      | none => exact (fits.gaps id start found startFound hidden).symm
      | some owner =>
          have reached := ownerAt_runs found
          rw [ownerAt, startFound] at reached
          exact reached

end Runs

/-- The owners that `computeOwnership` gives to the facts. -/
def computedOwners (usets : Usets) (facts : UsetVector) : SortedMap Id UsetId where
  entries := factOwners usets facts
  sorted := by
    rw [factOwners, List.pairwise_map]
    exact List.pairwise_lt_range'

theorem get?_computedOwners (usets : Usets) (facts : UsetVector) (id : Id) (owner : UsetId)
    : (computedOwners usets facts).get? id = some owner
      ↔ (Id.lowest ≤ id ∧ id < facts.size) ∧ facts.owner usets id = owner := by
  rw [SortedMap.get?_eq_some_iff]
  simp only [computedOwners, factOwners, List.mem_map, List.mem_range'_1, Prod.mk.injEq]
  constructor
  · intro found
    obtain ⟨other, inside, rfl, rfl⟩ := found
    exact ⟨⟨inside.1, by lia⟩, rfl⟩
  · intro found
    obtain ⟨inside, rfl⟩ := found
    exact ⟨id, ⟨inside.1, by lia⟩, rfl, rfl⟩

/-- What `computeOwnership` returns. -/
theorem computeOwnership_facts {references : References} {lookup : Lookup}
    {units : List OwnershipUnit} {usets : Usets} {facts : UsetVector}
    {ownership : ComputedOwnership}
    (completed : completedSets references lookup units = some (usets, facts))
    (computed : computeOwnership references lookup units = some ownership)
    : ownership.facts = (runs (computedOwners usets facts)).entries := by
  rw [computeOwnership_eq completed] at computed
  by_cases large : 2 ^ 32 ≤ facts.size
  · rw [if_pos large] at computed
    cases computed
  · rw [if_neg large] at computed
    rw [← Option.some.inj computed, runs, computedOwners]

/-- In an empty column the runs fit exactly if the last fact has no owner. -/
theorem fits_computedOwners_iff (usets : Usets) (facts : UsetVector)
    : Fits .empty (computedOwners usets facts)
      ↔ (Id.lowest < facts.size → facts.owner usets (facts.size - 1) = invalidUset) := by
  have unowned (id : Id) : ownerAt .empty id = invalidUset := rfl
  have hidden_iff (id : Id)
      : Hidden .empty (computedOwners usets facts) id
        ↔ (runs (computedOwners usets facts)).floor? id = none := by
    constructor
    · intro hidden
      refine Option.eq_none_iff_forall_ne_some.mpr (fun start found => ?_)
      obtain ⟨entry, stored, -⟩ := hidden start found
      cases stored
    · intro missing start found
      rw [missing] at found
      cases found
  -- beyond the last fact the run of the last fact goes on
  have continues {id : Id} {start : Id × UsetId} (nonempty : Id.lowest < facts.size)
      (beyond : facts.size ≤ id)
      (found : (runs (computedOwners usets facts)).floor? id = some start)
      : facts.owner usets (facts.size - 1) = start.2 := by
    obtain ⟨isRun, -, -⟩ := SortedMap.floor?_eq_some_iff.mp found
    obtain ⟨⟨-, inside⟩, -⟩ := (get?_computedOwners ..).mp (get?_of_runs isRun)
    have reached := SortedMap.floor?_of_le found (show start.1 ≤ facts.size - 1 by lia)
      (show facts.size - 1 ≤ id by lia)
    have last := ownerAt_runs ((get?_computedOwners usets facts (facts.size - 1) _).mpr
      ⟨⟨by lia, by lia⟩, rfl⟩)
    rw [← last, ownerAt, reached]
    rfl
  constructor
  · intro fits nonempty
    have beyond : (computedOwners usets facts).get? facts.size = none := by
      refine Option.eq_none_iff_forall_ne_some.mpr (fun owner found => ?_)
      have inside := ((get?_computedOwners ..).mp found).1
      lia
    cases found : (runs (computedOwners usets facts)).floor? facts.size with
    | some start =>
        have gap := fits.gaps facts.size start beyond found (by simp [hidden_iff, found])
        rw [continues nonempty le_rfl found, ← gap, unowned]
    | none =>
        have last : (computedOwners usets facts).get? (facts.size - 1)
            = some (facts.owner usets (facts.size - 1)) :=
          (get?_computedOwners ..).mpr ⟨⟨by lia, by lia⟩, rfl⟩
        have before : (runs (computedOwners usets facts)).floor? (facts.size - 1) = none := by
          refine SortedMap.floor?_eq_none_iff.mpr (fun key value stored => ?_)
          have above := SortedMap.floor?_eq_none_iff.mp found key value stored
          lia
        rw [← ownerAt_runs last, ownerAt, before]
        rfl
  · intro ended
    refine ⟨fun id owner listed hidden => ?_, fun id start missing found _ => ?_⟩
    · rw [unowned, ← ownerAt_runs listed, ownerAt, (hidden_iff id).mp hidden]
      rfl
    · obtain ⟨isRun, low, -⟩ := SortedMap.floor?_eq_some_iff.mp found
      obtain ⟨⟨fromLowest, inside⟩, -⟩ := (get?_computedOwners ..).mp (get?_of_runs isRun)
      have beyond : facts.size ≤ id := by
        by_contra listed
        have isListed := (get?_computedOwners usets facts id _).mpr ⟨⟨by lia, by lia⟩, rfl⟩
        rw [missing] at isListed
        cases isListed
      rw [unowned, ← continues (by lia) beyond found, ended (by lia)]

/-- Runs that store one computation for facts that are not derived and then computations for
derived facts, with the latest owner of each fact. The last fact of the first computation has
no owner, and the later ones fit into the column.
-/
inductive OwnerRun : Bool → Database → (Id → UsetId) → Prop where
  | start {db : Database} (unowned : db.columns.factOwners = .empty)
      : OwnerRun false db (fun _ => invalidUset)
  | computed {db : Database} {assigned : Id → UsetId} (run : OwnerRun false db assigned)
      {references : References} {lookup : Lookup} {units : List OwnershipUnit} {usets : Usets}
      {facts : UsetVector} {ownership : ComputedOwnership}
      (completed : completedSets references lookup units = some (usets, facts))
      (computed : computeOwnership references lookup units = some ownership)
      (ended : Id.lowest < facts.size → facts.owner usets (facts.size - 1) = invalidUset)
      : OwnerRun true (db.storeOwnership ownership) (assign assigned (computedOwners usets facts))
  | derived {db : Database} {assigned : Id → UsetId} (run : OwnerRun true db assigned)
      (ownership : Ownership) (batches : List DerivedFactOwnership)
      (fits : Fits db.columns.factOwners (derivedOwners ownership batches).2)
      : OwnerRun true (db.storeOwnership (computeDerivedOwnership ownership batches))
          (assign assigned (derivedOwners ownership batches).2)

/-- Storing the intervals of some owners answers for them exactly if they fit. -/
theorem getOwner_storeOwnership_iff {db : Database} {assigned : Id → UsetId}
    (answers : ∀ id, db.getOwner id = assigned id) {owners : SortedMap Id UsetId}
    {ownership : ComputedOwnership} (encoded : ownership.facts = (runs owners).entries)
    : (∀ id, (db.storeOwnership ownership).getOwner id = assign assigned owners id)
      ↔ Fits db.columns.factOwners owners := by
  rw [← ownerAt_write_iff]
  have before : ownerAt db.columns.factOwners = assigned := funext answers
  rw [before, ← encoded]
  rfl

/-- In every state of such a run every fact has the latest owner given to it. Storing one more
computation keeps this exactly under the condition on its step.
-/
theorem OwnerRun.getOwner {stored : Bool} {db : Database} {assigned : Id → UsetId}
    (run : OwnerRun stored db assigned)
    : (∀ id, db.getOwner id = assigned id)
      ∧ (stored = false → ∀ references lookup units usets facts ownership,
          completedSets references lookup units = some (usets, facts) →
          computeOwnership references lookup units = some ownership →
          ((∀ id, (db.storeOwnership ownership).getOwner id
              = assign assigned (computedOwners usets facts) id)
            ↔ (Id.lowest < facts.size → facts.owner usets (facts.size - 1) = invalidUset)))
      ∧ ∀ ownership batches,
          (∀ id, (db.storeOwnership (computeDerivedOwnership ownership batches)).getOwner id
              = assign assigned (derivedOwners ownership batches).2 id)
            ↔ Fits db.columns.factOwners (derivedOwners ownership batches).2 := by
  have unowned {db : Database} {assigned : Id → UsetId} (run : OwnerRun false db assigned)
      : db.columns.factOwners = .empty := by
    cases run with
    | start unowned => exact unowned
  have answers : ∀ id, db.getOwner id = assigned id := by
    induction run with
    | start unowned =>
        intro id
        rw [Database.getOwner, unowned]
        rfl
    | computed run completed computed ended ih =>
        refine (getOwner_storeOwnership_iff ih (computeOwnership_facts completed computed)).mpr ?_
        rw [unowned run]
        exact (fits_computedOwners_iff _ _).mpr ended
    | derived run ownership batches fits ih =>
        exact (getOwner_storeOwnership_iff ih rfl).mpr fits
  refine ⟨answers, ?_, fun ownership batches => getOwner_storeOwnership_iff answers rfl⟩
  intro isFirst references lookup units usets facts ownership completed computed
  subst isFirst
  rw [getOwner_storeOwnership_iff answers (computeOwnership_facts completed computed),
    unowned run]
  exact fits_computedOwners_iff _ _

theorem missing_oneFact
    : ∀ fact ∈ (FactSet.new 1024 Id.invalid_lt_1024).bucket 1, fact.key ≠ (⟨[], []⟩ : Clause).key := by
  decide

/-- A database with fact 1024 alone. -/
def oneFact : FactSet :=
  (FactSet.new 1024 Id.invalid_lt_1024).push 1 ⟨[], []⟩ Pid.one_lt_limit missing_oneFact

/-- Units 0 and 1 list the facts 1024 and 1025. -/
def twoUnits : List OwnershipUnit :=
  [⟨0, [(1024, 1024)]⟩, ⟨1, [(1025, 1025)]⟩]

/-- One derived fact, owned by unit 0. -/
def oneDerived : DerivedFactOwnership :=
  ⟨[1024], [0], rfl, by decide⟩

/-- The derived fact fits where the next fact has a key of its own. -/
theorem oneDerived_fits
    : Fits (SortedMap.putAll .empty (intervals [(1024, 2), (1025, invalidUset)]))
        (derivedOwners (.unitsOnly 1) [oneDerived]).2 := by
  have only {id : Id} {start : Id × UsetId}
      (found : (runs (derivedOwners (.unitsOnly 1) [oneDerived]).2).floor? id = some start)
      : start = (1024, 0) ∧ 1024 ≤ id := by
    obtain ⟨isRun, low, -⟩ := SortedMap.floor?_eq_some_iff.mp found
    have member := SortedMap.get?_eq_some_iff.mp isRun
    obtain rfl : start = (1024, 0) := List.mem_singleton.mp member
    exact ⟨rfl, low⟩
  have next {id : Id} (beyond : 1025 ≤ id)
      : (SortedMap.putAll .empty (intervals [(1024, 2), (1025, invalidUset)])).floor? id
        = some (1025, invalidUset) := by
    refine SortedMap.floor?_eq_some_iff.mpr ⟨by decide, beyond, ?_⟩
    intro key value stored _
    have member : (key, value) ∈ [(1024, 2), (1025, invalidUset)] :=
      SortedMap.get?_eq_some_iff.mp stored
    simp only [List.mem_cons, Prod.mk.injEq, List.not_mem_nil, or_false] at member
    lia
  refine ⟨?_, ?_⟩
  · intro id owner listed hidden
    have member : (id, owner) ∈ [(1024, 0)] := SortedMap.get?_eq_some_iff.mp listed
    obtain ⟨rfl, rfl⟩ := Prod.mk.inj (List.mem_singleton.mp member)
    obtain ⟨entry, stored, later⟩ := hidden (1024, 0) (by decide)
    have low := (SortedMap.floor?_eq_some_iff.mp stored).2.1
    lia
  · intro id start missing found reached
    obtain ⟨rfl, low⟩ := only found
    refine (reached ?_).elim
    intro other otherFound
    obtain ⟨rfl, -⟩ := only otherFound
    have different : id ≠ 1024 := by
      intro same
      rw [same] at missing
      revert missing
      decide
    exact ⟨_, next (by lia), by decide⟩

/-- Witness: fact 1025 is listed but not stored and ends the run of fact 1024, also after the
owner of fact 1024 has changed.
-/
theorem OwnerRun.getOwner_ended
    : ∃ db assigned, OwnerRun true db assigned ∧ db.getOwner 1024 = 0
        ∧ db.getOwner 1025 = invalidUset := by
  have evaluated : (completedSets (fun _ _ => []) oneFact.lookup twoUnits).map
      (fun result => (result.2.size, factOwners result.1 result.2))
        = some (1026, [(1024, 2), (1025, invalidUset)]) := by
    decide +kernel
  obtain ⟨⟨usets, facts⟩, completed, result⟩ := Option.map_eq_some_iff.mp evaluated
  obtain ⟨size, owners⟩ := Prod.mk.inj result
  dsimp only at size owners
  have computed := computeOwnership_eq completed
  rw [if_neg (by rw [size]; decide), owners] at computed
  have listed : (computedOwners usets facts).get? 1025 = some invalidUset := by
    refine SortedMap.get?_eq_some_iff.mpr ?_
    simp only [computedOwners, owners]
    decide
  have last : facts.owner usets 1025 = invalidUset := ((get?_computedOwners ..).mp listed).2
  have base := (@OwnerRun.start (.created 1024 3) rfl).computed completed computed
    (fun _ => by rw [size]; exact last)
  have run := base.derived (.unitsOnly 1) [oneDerived] oneDerived_fits
  refine ⟨_, _, run, ?_, ?_⟩
  · rw [run.getOwner.1]
    rfl
  · have derived : (derivedOwners (.unitsOnly 1) [oneDerived]).2.get? 1025 = none := by decide
    rw [run.getOwner.1, assign, derived, Option.getD_none, assign, listed, Option.getD_some]

/-- Counterexamples: unit 0 owns fact 1024 alone, but fact 1025 gets an owner as well, after
`computeOwnership` and, where that gave no owners, after `computeDerivedOwnership`.
-/
theorem owner_runs_on
    : ((completedSets (fun _ _ => []) oneFact.lookup [⟨0, [(1024, 1024)]⟩]).map
          (fun result => assign (fun _ => invalidUset) (computedOwners result.1 result.2) 1025)
            = some invalidUset
        ∧ (computeOwnership (fun _ _ => []) oneFact.lookup [⟨0, [(1024, 1024)]⟩]).map
            (fun ownership => ((Database.created 1024 3).storeOwnership ownership).getOwner 1025)
              = some 1)
      ∧ assign (fun _ => invalidUset) (derivedOwners (.unitsOnly 1) [oneDerived]).2 1025
          = invalidUset
      ∧ (computeOwnership (fun _ _ => []) EmptyLookup []).map
          (fun ownership =>
            (((Database.created 1024 3).storeOwnership ownership).storeOwnership
              (computeDerivedOwnership (.unitsOnly 1) [oneDerived])).getOwner 1025)
            = some 0 := by
  refine ⟨⟨?_, ?_⟩, ?_, ?_⟩
  · decide +kernel
  · decide +kernel
  · decide
  · decide +kernel

end Glean.Rocks
