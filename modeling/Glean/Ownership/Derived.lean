import Mathlib.Data.Finset.Image
import Glean.Ownership.Computed

/-! Ownership of derived facts (`derived.cpp`).
A log of records assigns owners to derived facts. `computeDerivedOwnership` folds the log into
one owner per fact and encodes the owners as intervals.
-/

namespace Glean.RTS

/-- One batch of the log. A batch is read from a single database value, so that its records
can be counted with 32 bits.
-/
structure DerivedFactOwnership where
  ids : List Id
  owners : List UsetId
  paired : ids.length = owners.length
  short : ids.length < 2 ^ 32

/-- The records of a batch, in the order in which the loop over indices visits them. -/
def DerivedFactOwnership.records (batch : DerivedFactOwnership) : List (Id × UsetId) :=
  batch.ids.zip batch.owners

/-- All records of a log, in order. -/
def logRecords (batches : List DerivedFactOwnership) : List (Id × UsetId) :=
  batches.flatMap DerivedFactOwnership.records

/-- The local maps of `computeDerivedOwnership`. The hash map `factOwnerSets` is kept sorted
here; its iteration order is not observable.
-/
structure DerivedOwners where
  factOwners : SortedMap Id UsetId
  factOwnerSets : SortedMap Id (Finset UsetId)

namespace DerivedOwners

def empty : DerivedOwners := ⟨.empty, .empty⟩

/-- The body of the loop over the records. `insert` keeps an owner that is already there. -/
def record (maps : DerivedOwners) (entry : Id × UsetId) : DerivedOwners :=
  match maps.factOwners.get? entry.1 with
  | some _ => maps
  | none =>
      let set := (maps.factOwnerSets.get? entry.1).getD {entry.2}
      { factOwners := maps.factOwners.put entry.1 entry.2
        factOwnerSets := maps.factOwnerSets.put entry.1 (insert entry.2 set) }

/-- The first pass over the log. -/
def recordAll (batches : List DerivedFactOwnership) : DerivedOwners :=
  (logRecords batches).foldl record empty

end DerivedOwners

/-- Create or find the set of a fact with several owners. -/
def mergeOwners (ownership : Ownership) (state : Usets × SortedMap Id UsetId)
    (entry : Id × Finset UsetId)
    : Usets × SortedMap Id UsetId :=
  if entry.2.card > 1 then
    let usetid := ownership.lookupSet ⟨.or, entry.2⟩
    if usetid = invalidUset then
      let (added, addr) := state.1.add ⟨.or, entry.2⟩ 0
      let usets := added.promote addr
      (usets, state.2.put entry.1 (usets.idAt addr))
    else
      (state.1, state.2.put entry.1 usetid)
  else
    state

/-- The second pass: the new sets, and the owner of each fact. -/
def derivedOwners (ownership : Ownership) (batches : List DerivedFactOwnership)
    : Usets × SortedMap Id UsetId :=
  let maps := DerivedOwners.recordAll batches
  maps.factOwnerSets.entries.foldl (mergeOwners ownership)
    (Usets.new ownership.nextSetId, maps.factOwners)

/-- `computeDerivedOwnership`. -/
def computeDerivedOwnership (ownership : Ownership) (batches : List DerivedFactOwnership)
    : ComputedOwnership :=
  let (usets, factOwners) := derivedOwners ownership batches
  { firstId := usets.firstId
    sets := usets.toEliasFano
    facts := intervals factOwners.entries }

/-- The first owner a list of records gives to a fact. -/
def firstOwner? (records : List (Id × UsetId)) (id : Id) : Option UsetId :=
  (records.find? (fun entry => entry.1 = id)).map Prod.snd

/-- Recording one more entry keeps the owner of its fact if there is one. -/
theorem firstOwner?_concat (records : List (Id × UsetId)) (entry : Id × UsetId) (id : Id)
    : firstOwner? (records ++ [entry]) id
      = (firstOwner? records id).or (if entry.1 = id then some entry.2 else none) := by
  unfold firstOwner?
  rw [List.find?_append]
  cases found : records.find? (fun entry => entry.1 = id) with
  | some first => simp
  | none =>
      by_cases same : entry.1 = id
      · simp [same]
      · simp [same]

namespace DerivedOwners

/-- What the maps hold after a list of records: the first owner of each fact, alone. -/
structure Holds (maps : DerivedOwners) (records : List (Id × UsetId)) : Prop where
  owners : ∀ id, maps.factOwners.get? id = firstOwner? records id
  sets : ∀ id, maps.factOwnerSets.get? id = (firstOwner? records id).map (fun owner => {owner})

/-- One record extends what the maps hold. -/
theorem Holds.record {maps : DerivedOwners} {records : List (Id × UsetId)}
    (holds : maps.Holds records) (entry : Id × UsetId)
    : (maps.record entry).Holds (records ++ [entry]) := by
  obtain ⟨id, owner⟩ := entry
  unfold DerivedOwners.record
  cases known : maps.factOwners.get? id with
  | some first =>
      have old : firstOwner? records id = some first := (holds.owners id).symm.trans known
      have kept (other : Id)
          : firstOwner? (records ++ [(id, owner)]) other = firstOwner? records other := by
        rw [firstOwner?_concat]
        by_cases same : id = other
        · simp [← same, old]
        · simp [same]
      exact ⟨fun other => by rw [holds.owners, kept],
        fun other => by rw [holds.sets, kept]⟩
  | none =>
      have missing : firstOwner? records id = none := (holds.owners id).symm.trans known
      have noSet : maps.factOwnerSets.get? id = none := by simp [holds.sets, missing]
      refine ⟨fun other => ?_, fun other => ?_⟩
      · rw [firstOwner?_concat, SortedMap.get?_put]
        by_cases same : other = id
        · simp [same, missing]
        · simp [same, Ne.symm same, holds.owners]
      · rw [firstOwner?_concat, SortedMap.get?_put]
        by_cases same : other = id
        · simp [same, missing, noSet]
        · simp [same, Ne.symm same, holds.sets]

/-- The first pass keeps the first owner of each fact, by induction on the records read. -/
theorem foldl_holds (records : List (Id × UsetId))
    : (records.foldl DerivedOwners.record empty).Holds records := by
  induction records using List.reverseRecOn with
  | nil => exact ⟨fun _ => rfl, fun _ => rfl⟩
  | append_singleton records entry ih =>
      rw [List.foldl_append]
      exact ih.record entry

theorem recordAll_holds (batches : List DerivedFactOwnership)
    : (recordAll batches).Holds (logRecords batches) :=
  foldl_holds (logRecords batches)

end DerivedOwners

/-- The second pass changes nothing when no fact has several owners. -/
theorem foldl_mergeOwners_of_card_le (ownership : Ownership)
    {entries : List (Id × Finset UsetId)} (single : ∀ entry ∈ entries, entry.2.card ≤ 1)
    (state : Usets × SortedMap Id UsetId)
    : entries.foldl (mergeOwners ownership) state = state := by
  induction entries with
  | nil => rfl
  | cons entry rest ih =>
      have unchanged : mergeOwners ownership state entry = state := by
        have small := single entry (by simp)
        simp [mergeOwners, small]
      rw [List.foldl_cons, unchanged]
      exact ih (fun other member => single other (by simp [member]))

/-- The computation as a whole: no sets, and the intervals of the first owners. -/
theorem computeDerivedOwnership_eq (ownership : Ownership)
    (batches : List DerivedFactOwnership)
    : computeDerivedOwnership ownership batches
      = { firstId := ownership.nextSetId
          sets := []
          facts := intervals (DerivedOwners.recordAll batches).factOwners.entries } := by
  have holds := DerivedOwners.recordAll_holds batches
  have single : ∀ entry ∈ (DerivedOwners.recordAll batches).factOwnerSets.entries,
      entry.2.card ≤ 1 := by
    intro entry member
    have found := holds.sets entry.1
    rw [SortedMap.get?_eq_some_iff.mpr member] at found
    obtain ⟨owner, -, only⟩ := Option.map_eq_some_iff.mp found.symm
    simp [← only]
  unfold computeDerivedOwnership derivedOwners
  simp only [foldl_mergeOwners_of_card_le ownership single]
  rfl

/-- Every recorded fact is given the first owner recorded for it. -/
theorem computeDerivedOwnership_owner (ownership : Ownership)
    (batches : List DerivedFactOwnership) {id : Id} {owner : UsetId}
    (first : firstOwner? (logRecords batches) id = some owner)
    : (computeDerivedOwnership ownership batches).owner id = owner := by
  have holds := DerivedOwners.recordAll_holds batches
  rw [computeDerivedOwnership_eq]
  refine intervalOwner_intervals (SortedMap.sorted _) ?_
  exact SortedMap.get?_eq_some_iff.mp ((holds.owners id).trans first)

/-- The distinct owners recorded for a fact. -/
def recordedOwners (batches : List DerivedFactOwnership) (id : Id) : Finset UsetId :=
  (((logRecords batches).filter (fun entry => entry.1 = id)).map Prod.snd).toFinset

/-- The set a computation created under an id. -/
def ComputedOwnership.created? (computed : ComputedOwnership) (usetid : UsetId)
    : Option SetExpr :=
  if computed.firstId ≤ usetid then computed.sets[usetid - computed.firstId]? else none

/-- A set id stands for an expression: the database finds it, or the computation created it. -/
def Denotes (ownership : Ownership) (computed : ComputedOwnership) (usetid : UsetId)
    (exp : SetExpr)
    : Prop :=
  (usetid ≠ invalidUset ∧ ownership.lookupSet exp = usetid)
    ∨ computed.created? usetid = some exp

/-- The owner computed for a fact is the disjunction of all owners recorded for it. -/
def KeepsEveryDerivation (ownership : Ownership) (batches : List DerivedFactOwnership) : Prop :=
  let computed := computeDerivedOwnership ownership batches
  ∀ id,
    (∀ owner, recordedOwners batches id = {owner} → computed.owner id = owner)
      ∧ (1 < (recordedOwners batches id).card
          → Denotes ownership computed (computed.owner id) ⟨.or, recordedOwners batches id⟩)

/-- A database numbers a set after the members of the set. -/
def Ownership.MembersBelow (ownership : Ownership) : Prop :=
  ∀ exp, ownership.lookupSet exp ≠ invalidUset
    → ∀ usetid ∈ exp.set, usetid < ownership.lookupSet exp

theorem mem_recordedOwners {batches : List DerivedFactOwnership} {id : Id} {owner : UsetId}
    : owner ∈ recordedOwners batches id ↔ (id, owner) ∈ logRecords batches := by
  simp [recordedOwners]

/-- The first owner of a fact is one of the recorded owners. -/
theorem exists_firstOwner? {batches : List DerivedFactOwnership} {id : Id} {owner : UsetId}
    (recorded : owner ∈ recordedOwners batches id)
    : ∃ first ∈ recordedOwners batches id, firstOwner? (logRecords batches) id = some first := by
  have member := mem_recordedOwners.mp recorded
  cases found : (logRecords batches).find? (fun entry => entry.1 = id) with
  | none =>
      have absent := List.find?_eq_none.mp found _ member
      simp at absent
  | some entry =>
      have same : entry.1 = id := by simpa using List.find?_some found
      refine ⟨entry.2, mem_recordedOwners.mpr ?_, by simp [firstOwner?, found]⟩
      rw [← same]
      exact List.mem_of_find?_eq_some found

/-- A fact derived with two different owners loses one of them: it keeps its first owner, a
member of the set that its owner should denote.
-/
theorem KeepsEveryDerivation.owner_unique {ownership : Ownership}
    (numbered : ownership.MembersBelow) {batches : List DerivedFactOwnership}
    (keeps : KeepsEveryDerivation ownership batches) {id : Id} {left right : UsetId}
    (leftMember : (id, left) ∈ logRecords batches)
    (rightMember : (id, right) ∈ logRecords batches)
    : left = right := by
  by_contra different
  have leftRecorded := mem_recordedOwners.mpr leftMember
  have rightRecorded := mem_recordedOwners.mpr rightMember
  have several : 1 < (recordedOwners batches id).card :=
    Finset.one_lt_card.mpr ⟨left, leftRecorded, right, rightRecorded, different⟩
  obtain ⟨first, firstRecorded, isFirst⟩ := exists_firstOwner? leftRecorded
  have denotes := (keeps id).2 several
  rw [computeDerivedOwnership_owner ownership batches isFirst] at denotes
  rcases denotes with ⟨valid, found⟩ | created
  · have below := numbered _ (by rw [found]; exact valid) first firstRecorded
    rw [found] at below
    exact lt_irrefl _ below
  · simp [computeDerivedOwnership_eq, ComputedOwnership.created?] at created

/-- Every derivation is kept exactly when no fact is derived with two different owners. -/
theorem keepsEveryDerivation_iff {ownership : Ownership} (numbered : ownership.MembersBelow)
    (batches : List DerivedFactOwnership)
    : KeepsEveryDerivation ownership batches
      ↔ ∀ id left right,
          (id, left) ∈ logRecords batches → (id, right) ∈ logRecords batches
            → left = right := by
  constructor
  · intro keeps id left right leftMember rightMember
    exact keeps.owner_unique numbered leftMember rightMember
  · intro alike id
    refine ⟨fun owner only => ?_, fun several => ?_⟩
    · have recorded : owner ∈ recordedOwners batches id := by simp [only]
      obtain ⟨first, firstRecorded, isFirst⟩ := exists_firstOwner? recorded
      rw [only, Finset.mem_singleton] at firstRecorded
      rw [computeDerivedOwnership_owner ownership batches isFirst, firstRecorded]
    · obtain ⟨left, leftRecorded, right, rightRecorded, different⟩ :=
        Finset.one_lt_card.mp several
      exact (different (alike id left right (mem_recordedOwners.mp leftRecorded)
        (mem_recordedOwners.mp rightRecorded))).elim

theorem Ownership.unitsOnly_membersBelow (units : UsetId) : (unitsOnly units).MembersBelow :=
  fun _ stored => (stored rfl).elim

/-- The log in which one fact is derived once from unit 0 and once from unit 1. -/
def derivedTwice : DerivedFactOwnership where
  ids := [1024, 1024]
  owners := [0, 1]
  paired := rfl
  short := by decide

/-- Witness: a log with one record keeps its derivation. -/
theorem keepsEveryDerivation_iff_one_record
    : KeepsEveryDerivation (.unitsOnly 2) [⟨[1024], [0], rfl, by decide⟩] := by
  apply (keepsEveryDerivation_iff (Ownership.unitsOnly_membersBelow 2) _).mpr
  intro id left right leftMember rightMember
  simp [logRecords, DerivedFactOwnership.records] at leftMember rightMember
  exact leftMember.2.trans rightMember.2.symm

/-- A fact derived from unit 0 and from unit 1 is owned by unit 0 alone. -/
theorem not_keepsEveryDerivation_derivedTwice
    : ¬ KeepsEveryDerivation (.unitsOnly 2) [derivedTwice]
      ∧ (computeDerivedOwnership (.unitsOnly 2) [derivedTwice]).owner 1024 = 0 := by
  refine ⟨fun keeps => ?_, computeDerivedOwnership_owner _ _ (by decide)⟩
  have left : (1024, 0) ∈ logRecords [derivedTwice] := by decide
  have right : (1024, 1) ∈ logRecords [derivedTwice] := by decide
  have same := keeps.owner_unique (Ownership.unitsOnly_membersBelow 2) left right
  cases same

end Glean.RTS
