import Glean.Library.Machine
import Glean.RTS.RebaseBatch
import Glean.RTS.ValidateTyped
import Glean.RocksDB.CommitRun
import Glean.RocksDB.Enumerate

/-! Writers of one database, that rename their batches and commit them in turn
(`Glean.Database.Write.Batch`).
-/

namespace Glean.Database.WriteBatch

open Glean.RTS Glean.Rocks

section Model

variable (varint : Varint) (u8 : U8Next) (inventory : Inventory)

/-- `renameBatch`: the new facts of a batch on top of the database, and its substitution. -/
def renameBatch (db : Rocks.Database) (nextId : Id) (batch : Batch)
    : Outcome (FactSet × Substitution) :=
  if positive : Id.invalid < nextId then
    match defineUntrustedBatch varint u8 inventory
      (.stacked db.lookup (.factSet (.new nextId positive))) batch.first batch.ids batch.count
      batch.facts with
    | (def_, .ok subst) => .ok (def_.topSet, subst)
    | (_, .error message) => .error message
    | (_, .undefined) => .undefined
  else
    .undefined

/-- What the writers share. The holder of `wrLock` has renamed a batch and is about to commit it. -/
structure State where
  db : Rocks.Database
  /-- `wrNextId` -/
  nextId : Id
  pending : Option (Batch × FactSet × Substitution)
  /-- What calls of `writeDatabase` have returned. -/
  returned : List (Batch × Substitution)

inductive Event where
  /-- A writer takes the lock, with the batch of its client or with what is left of it when it has
  been deduplicated meanwhile.
  -/
  | rename (batch : Batch)
  | commit (status : Status)
  /-- An exception between the two. -/
  | cancel
  /-- The database is opened again, and with it `setupWriting`. -/
  | reopen (mode : Rocks.Mode) (start : Id) (version : Int)

/-- `writeDatabase`, in the two parts that others come between. -/
def step (state : State) : Event → Option State
  | .rename batch =>
      match state.pending with
      | some _ => none
      | none =>
          match renameBatch varint u8 inventory state.db state.nextId batch with
          | .ok (facts, subst) =>
              some { state with
                nextId := facts.firstFreeId
                pending := some (batch, facts, subst) }
          | .error _ => some state
          | .undefined => none
  | .commit status =>
      match state.pending with
      | none => none
      | some (batch, facts, subst) =>
          match state.db.commit status facts with
          | (.ok _, db) =>
              some { state with
                db
                pending := none
                returned := (batch, subst) :: state.returned }
          | (.error _, db) => some { state with db, pending := none }
  | .cancel => some { state with pending := none }
  | .reopen mode start version =>
      if mode ≠ .create ∧ state.pending.isNone then
        match Rocks.Database.openDatabase state.db.columns mode start version with
        | .ok db => some { state with db, nextId := db.nextId }
        | .error _ => none
      else
        none

/-- A database that has just been created. -/
def Created (state : State) : Prop :=
  ∃ start version, Id.invalid < start ∧ state = ⟨.created start version, start, none, []⟩

/-- The batches that are written have ids that are left, can be read inside their bytes, and have no
key that the database has but that is not looked for there, since the fact refers to a new one.
-/
def Sound (state : State) : Event → Prop
  | .rename batch =>
      ∀ positive : Id.invalid < state.nextId, state.nextId + batch.count ≤ 2 ^ 64
        ∧ (Id.lowest ≤ batch.first →
          Guarded varint u8 inventory batch.first batch.ids
            (batch.count = 0 ∨ batch.first + batch.count < 2 ^ 64) batch.count 0
            (.start (.stacked state.db.lookup (.factSet (.new state.nextId positive))) batch.first
              batch.count batch.facts))
  | _ => True

/-- Each fact of a batch denotes the one that the substitution gives it. -/
def Written (facts : Set Fact) (batch : Batch) (subst : Substitution) : Prop :=
  ∃ clauses, deserializeBatch varint batch.count batch.facts = .ok clauses
    ∧ clauses.length = batch.count
    ∧ ∀ (index : Nat) (type : Pid) (clause : Clause), clauses[index]? = some (type, clause) →
      DenotesFact varint u8 inventory facts
        (fun id => subst.subst ((namesBefore batch.first batch.ids index).get id)) type clause
        (subst.subst ((batch.first + index) % 2 ^ 64))

end Model

section Onto

variable {base : Lookup} {start : Id}

/-- New facts go to a fact set on top of a base, which stays as it is. -/
def Onto (base : Lookup) (start : Id) (def_ : Define) : Prop :=
  ∃ set, def_ = .stacked base (.factSet set) ∧ set.startingId = start

theorem Onto.define {def_ after : Define} {type : Pid} {bounded : type < Pid.limit}
    {clause : Clause} {maxRef id : Id} (onto : Onto base start def_)
    (defined : def_.define type bounded clause maxRef = .ok (after, id))
    : Onto base start after := by
  obtain ⟨set, rfl, isStart⟩ := onto
  rw [Define.define] at defined
  split at defined
  next =>
    cases defined
    exact ⟨set, rfl, isStart⟩
  next =>
    rw [Define.define] at defined
    cases isDefined : set.define type bounded clause with
    | error message =>
        rw [isDefined] at defined
        cases defined
    | ok result =>
        rw [isDefined] at defined
        cases defined
        refine ⟨result.1, rfl, ?_⟩
        rw [FactSet.define] at isDefined
        split at isDefined
        next => cases isDefined
        next =>
          split at isDefined <;> cases isDefined <;> exact isStart

variable (varint : Varint) (u8 : U8Next) (inventory : Inventory)

theorem Onto.defineFact {state : BatchState} (onto : Onto base start state.def_) (first : Id)
    (ids : Nat → Id) (index : Nat)
    : Onto base start (defineFact varint u8 inventory first ids index state).1 := by
  rw [RTS.defineFact]
  split
  next => exact onto
  next => exact onto
  next fact _ =>
    split
    next => exact onto
    next def_ id defined => split <;> exact onto.define defined

/-- By induction on the facts that are left. -/
theorem Onto.defineFacts (first : Id) (ids : Nat → Id) (count index : Nat) (state : BatchState)
    (onto : Onto base start state.def_)
    : Onto base start (defineFacts varint u8 inventory first ids count index state).1 := by
  induction count generalizing index state with
  | zero => exact onto
  | succ count ih =>
      have next := onto.defineFact varint u8 inventory first ids index
      have same := (keeps_defineFact varint u8 inventory first ids index state).2
      rw [RTS.defineFacts]
      split
      next def_ after isOk =>
        rw [isOk] at next same
        exact ih (index + 1) after (same after rfl ▸ next)
      next isError =>
        rw [isError] at next
        exact next
      next isUndefined =>
        rw [isUndefined] at next
        exact next

theorem Onto.defineUntrustedBatch {def_ : Define} (onto : Onto base start def_) (batch : Batch)
    : Onto base start (defineUntrustedBatch varint u8 inventory def_ batch.first batch.ids
        batch.count batch.facts).1 := by
  rw [RTS.defineUntrustedBatch]
  split
  next => exact onto
  next =>
    have next := Onto.defineFacts varint u8 inventory batch.first batch.ids batch.count 0
      ⟨def_, .new batch.first batch.count, [], batch.facts⟩ onto
    split
    next isOk =>
      rw [isOk] at next
      exact next
    next isError =>
      rw [isError] at next
      exact next
    next isUndefined =>
      rw [isUndefined] at next
      exact next

end Onto

section Stored

variable {varint : Varint} {u8 : U8Next} {inventory : Inventory} {db : Rocks.Database}
  {committed : List Fact}

theorem find?_id_eq_some (represents : Represents db committed) {id : Id} {fact : Fact}
    : committed.find? (fun fact => fact.id = id) = some fact ↔ fact ∈ committed ∧ fact.id = id := by
  constructor
  · intro found
    exact ⟨List.mem_of_find?_eq_some found, by simpa using List.find?_some found⟩
  · rintro ⟨member, rfl⟩
    cases found : committed.find? (fun other => other.id = fact.id) with
    | none =>
        have missing := List.find?_eq_none.mp found fact member
        simp at missing
    | some other =>
        have isOther : other.id = fact.id := by simpa using List.find?_some found
        rw [represents.id_unique (List.mem_of_find?_eq_some found) member isOther]

/-- A database holds the facts that have been committed to it. -/
theorem holds_of_represents (represents : Represents db committed)
    (valid : ∀ fact ∈ committed, fact.type ≠ Pid.invalid)
    : db.lookup.Holds {fact | fact ∈ committed} where
  factById := by
    intro id type clause
    change db.factById id = _ ↔ _
    rw [represents.factById_eq, Option.map_eq_some_iff]
    constructor
    · rintro ⟨fact, found, same⟩
      obtain ⟨member, rfl⟩ := (find?_id_eq_some represents).mp found
      cases same
      exact member
    · intro member
      exact ⟨_, (find?_id_eq_some represents).mpr ⟨member, rfl⟩, rfl⟩
  typeById := by
    intro fact member
    change db.typeById fact.id = _
    rw [represents.typeById_eq, (find?_id_eq_some represents).mpr ⟨member, rfl⟩]
    rfl
  unknown := by
    intro id known
    change db.typeById id ≠ _ at known
    rw [represents.typeById_eq] at known
    cases found : committed.find? (fun fact => fact.id = id) with
    | none =>
        rw [found] at known
        exact absurd rfl known
    | some fact => exact ⟨fact, (find?_id_eq_some represents).mp found⟩
  idByKey := by
    intro fact member
    change db.idByKey fact.type fact.key = _
    rw [represents.idByKey_eq]
    cases found : committed.find? (fun other => other.type = fact.type ∧ other.key = fact.key) with
    | none =>
        have missing := List.find?_eq_none.mp found fact member
        simp at missing
    | some other =>
        have isOther : other.type = fact.type ∧ other.key = fact.key := by
          simpa using List.find?_some found
        have symmetric : Std.Symm (fun left right : Fact => left.type = right.type →
            left.key ≠ right.key) :=
          ⟨fun _ _ distinct sameType sameKey => distinct sameType.symm sameKey.symm⟩
        by_contra different
        refine represents.distinct.forall (List.mem_of_find?_eq_some found) member ?_ isOther.1
          isOther.2
        rintro rfl
        exact different rfl
  absent := by
    intro type key found
    change db.idByKey type key ≠ _ at found
    rw [represents.idByKey_eq] at found
    cases isFound : committed.find? (fun fact => fact.type = type ∧ fact.key = key) with
    | none =>
        rw [isFound] at found
        exact absurd rfl found
    | some fact =>
        exact ⟨fact, List.mem_of_find?_eq_some isFound, by simpa using List.find?_some isFound⟩
  inside := represents.inside
  valid := fun fact member =>
    ⟨(represents.positive.trans_le (represents.inside fact member).1).ne', valid fact member⟩

theorem valid_of_typed {facts : Set Fact} (typed : WellTyped varint u8 inventory facts)
    : ∀ fact ∈ facts, fact.type ≠ Pid.invalid := by
  intro fact member
  obtain ⟨predicate, key, value, isPredicate, -⟩ := typed fact member
  exact (Inventory.mem_of_lookupPredicate isPredicate).2.2

theorem startingId_le_nextId (represents : Represents db committed) : db.startingId ≤ db.nextId := by
  rw [represents.next]
  cases last : committed.getLast? with
  | none => exact le_rfl
  | some fact =>
      exact (represents.inside fact (List.mem_of_getLast? last)).1.trans (Nat.le_succ _)

/-- Databases whose facts are well typed are valid. -/
theorem validates (represents : Represents db committed)
    (typed : WellTyped varint u8 inventory {fact | fact ∈ committed}) (words : db.nextId < 2 ^ 64)
    (val : Validate)
    : Validate.validate varint u8 inventory val db.lookup = .ok () := by
  have holds := holds_of_represents represents (valid_of_typed typed)
  have yields := represents.enumerate_yields Id.invalid Id.invalid .getFirst
  rw [factsInRange_unbounded] at yields
  exact Validate.validate_typed val yields (startingId_le_nextId represents) words
    ⟨represents.ascending, holds.inside, typed, holds.idByKey⟩

/-- What is renamed on top of a database can be committed to it. -/
structure Renames (varint : Varint) (u8 : U8Next) (inventory : Inventory) (committed : List Fact)
    (nextId : Id) (batch : Batch) (facts : FactSet) (subst : Substitution) : Prop where
  start : facts.startingId = nextId
  fresh : FreshKeys facts committed
  typed : WellTyped varint u8 inventory {fact | fact ∈ committed ++ facts.facts}
  written : Written varint u8 inventory {fact | fact ∈ committed ++ facts.facts} batch subst

/-- What a stack of new facts on a database holds. -/
theorem holds_stacked (represents : Represents db committed) {facts : FactSet} {stored : Set Fact}
    (valid : ∀ fact ∈ committed, fact.type ≠ Pid.invalid) (inOrder : db.nextId ≤ facts.startingId)
    (holds : (Define.stacked db.lookup (.factSet facts)).Holds stored)
    : stored = {fact | fact ∈ committed ++ facts.facts} ∧ FreshKeys facts committed := by
  have base := holds_of_represents represents valid
  cases holds with
  | @stacked _ _ below above isBase isUpper ordered distinct =>
      cases isUpper
      have same : below = {fact | fact ∈ committed} := by
        ext fact
        exact isBase.factById.symm.trans base.factById
      subst same
      have isBelow : ∀ fact ∈ committed, fact.id < facts.startingId :=
        fun fact member => (represents.inside fact member).2.trans_le inOrder
      constructor
      · ext fact
        change _ ↔ fact ∈ committed ++ facts.facts
        rw [List.mem_append]
        constructor
        · rintro (⟨member, -⟩ | isNew)
          · exact .inl member
          · exact .inr isNew
        · rintro (member | isNew)
          · exact .inl ⟨member, isBelow fact member⟩
          · exact .inr isNew
      · intro fact isNew old isOld
        exact distinct old isOld (isBelow old isOld) fact isNew

/-- A sound batch is renamed, or raises an error. -/
theorem renameBatch_cases (represents : Represents db committed)
    (typed : WellTyped varint u8 inventory {fact | fact ∈ committed}) {nextId : Id}
    (inOrder : db.nextId ≤ nextId) {batch : Batch} {returned : List (Batch × Substitution)}
    (sound : Sound varint u8 inventory ⟨db, nextId, none, returned⟩ (.rename batch))
    : (∃ facts subst, renameBatch varint u8 inventory db nextId batch = .ok (facts, subst)
          ∧ Renames varint u8 inventory committed nextId batch facts subst)
      ∨ ∃ message, renameBatch varint u8 inventory db nextId batch = .error message := by
  have valid := valid_of_typed typed
  have positive : Id.invalid < nextId :=
    represents.positive.trans_le ((startingId_le_nextId represents).trans inOrder)
  obtain ⟨words, guarded⟩ := sound positive
  have holds : (Define.stacked db.lookup (.factSet (.new nextId positive))).Holds
      ({fact ∈ {fact | fact ∈ committed} | fact.id < nextId} ∪ (FactSet.new nextId positive).members) :=
    .stacked (holds_of_represents represents valid) (.factSet (by simp [FactSet.new]))
      ((startingId_le_nextId represents).trans inOrder) (fun _ _ _ fact isNew => by cases isNew)
  have onto : Onto db.lookup nextId (.stacked db.lookup (.factSet (.new nextId positive))) :=
    ⟨_, rfl, rfl⟩
  obtain ⟨same, -⟩ := holds_stacked represents valid inOrder holds
  rw [same] at holds
  change (Define.stacked _ _).Holds {fact | fact ∈ committed ++ []} at holds
  rw [List.append_nil] at holds
  rw [renameBatch, dif_pos positive]
  have after := onto.defineUntrustedBatch varint u8 inventory batch
  by_cases large : Id.lowest ≤ batch.first
  · have outcome := sound_of_guarded holds typed words large (guarded large)
    generalize defineUntrustedBatch varint u8 inventory _ batch.first batch.ids batch.count
      batch.facts = result at after outcome
    obtain ⟨def_, result⟩ := result
    obtain ⟨facts, rfl, isStart⟩ := after
    obtain ⟨defined, stored, -, storedHolds, storedTyped, isSubst⟩ := outcome
    obtain ⟨rfl, fresh⟩ := holds_stacked represents valid (isStart.symm ▸ inOrder) storedHolds
    cases result with
    | ok subst => exact .inl ⟨facts, subst, rfl, isStart, fresh, storedTyped, isSubst subst rfl⟩
    | error message => exact .inr ⟨message, rfl⟩
    | undefined => exact (defined rfl).elim
  · rw [RTS.defineUntrustedBatch, if_pos (Nat.lt_of_not_le large)]
    exact .inr ⟨_, rfl⟩

end Stored

section Runs

variable {varint : Varint} {u8 : U8Next} {inventory : Inventory}

theorem Written.mono {facts larger : Set Fact} {batch : Batch} {subst : Substitution}
    (written : Written varint u8 inventory facts batch subst) (subset : facts ⊆ larger)
    (valid : ∀ fact ∈ facts, fact.id ≠ Id.invalid)
    : Written varint u8 inventory larger batch subst := by
  obtain ⟨clauses, isRead, length, denotes⟩ := written
  refine ⟨clauses, isRead, length, fun index type clause isClause => ?_⟩
  exact (denotes index type clause isClause).mono subset valid (fun _ _ => rfl)

/-- The database has well-typed facts, what is about to be committed adds such facts, and what has
been returned is about facts that are stored.
-/
structure Inv (varint : Varint) (u8 : U8Next) (inventory : Inventory) (state : State)
    (committed : List Fact) : Prop where
  represents : Represents state.db committed
  typed : WellTyped varint u8 inventory {fact | fact ∈ committed}
  inOrder : state.db.nextId ≤ state.nextId
  pending
    : ∀ batch facts subst, state.pending = some (batch, facts, subst) →
        facts.firstFreeId = state.nextId ∧ state.db.nextId ≤ facts.startingId
          ∧ Renames varint u8 inventory committed facts.startingId batch facts subst
  returned
    : ∀ write ∈ state.returned,
        Written varint u8 inventory {fact | fact ∈ committed} write.1 write.2

def Consistent (varint : Varint) (u8 : U8Next) (inventory : Inventory) (state : State) : Prop :=
  ∃ committed, Inv varint u8 inventory state committed

/-- A commit that succeeds stores the facts, and one that fails changes nothing but the ids that are
left.
-/
theorem Inv.commit {state after : State} {committed : List Fact} {status : Status}
    (inv : Inv varint u8 inventory state committed)
    (next : step varint u8 inventory state (.commit status) = some after)
    : Consistent varint u8 inventory after := by
  rw [step] at next
  split at next
  next => cases next
  next batch facts subst isPending =>
    obtain ⟨isNext, inOrder, renames⟩ := inv.pending batch facts subst isPending
    have idValid : ∀ fact ∈ committed, fact.id ≠ Id.invalid := fun fact member =>
      (inv.represents.positive.trans_le (inv.represents.inside fact member).1).ne'
    have grows : {fact | fact ∈ committed} ⊆ {fact | fact ∈ committed ++ facts.facts} :=
      fun fact member => List.mem_append_left _ member
    rcases state.db.commit_cases status facts with
      ⟨empty, same⟩ | ⟨text, same⟩ | ⟨nonempty, -, written⟩
    · rw [same] at next
      cases next
      refine ⟨committed, inv.represents, inv.typed, inv.inOrder, by simp, ?_⟩
      rintro write isWrite
      rcases List.mem_cons.mp isWrite with rfl | isOld
      · have isWritten := renames.written
        rwa [empty, List.append_nil] at isWritten
      · exact inv.returned write isOld
    · rw [same] at next
      cases next
      exact ⟨committed, inv.represents, inv.typed, inv.inOrder, by simp, inv.returned⟩
    · rw [written] at next
      cases next
      refine ⟨committed ++ facts.facts, inv.represents.commit nonempty inOrder renames.fresh,
        renames.typed, isNext.le, by simp, ?_⟩
      rintro write isWrite
      rcases List.mem_cons.mp isWrite with rfl | isOld
      · exact renames.written
      · exact (inv.returned write isOld).mono grows idValid

theorem Inv.step {state after : State} {committed : List Fact} {event : Event}
    (inv : Inv varint u8 inventory state committed)
    (sound : Sound varint u8 inventory state event)
    (next : step varint u8 inventory state event = some after)
    : Consistent varint u8 inventory after := by
  obtain ⟨db, nextId, pending, returned⟩ := state
  cases event with
  | rename batch =>
      rw [WriteBatch.step] at next
      cases pending with
      | some _ => cases next
      | none =>
          dsimp only at next
          rcases renameBatch_cases inv.represents inv.typed inv.inOrder sound with
            ⟨facts, subst, isOk, renames⟩ | ⟨message, isError⟩
          · rw [isOk] at next
            cases next
            refine ⟨committed, inv.represents, inv.typed, ?_, ?_, inv.returned⟩
            · refine inv.inOrder.trans (renames.start.symm.le.trans ?_)
              exact Nat.le_add_right _ _
            · rintro _ _ _ ⟨⟩
              exact ⟨rfl, renames.start.symm ▸ inv.inOrder, renames.start.symm ▸ renames⟩
          · rw [isError] at next
            cases next
            exact ⟨committed, inv⟩
  | commit status => exact inv.commit next
  | cancel =>
      cases next
      exact ⟨committed, inv.represents, inv.typed, inv.inOrder, by simp, inv.returned⟩
  | reopen mode start version =>
      rw [WriteBatch.step] at next
      split at next
      next reopens =>
        split at next
        next reopened opened =>
          cases next
          refine ⟨committed, inv.represents.reopen reopens.1 opened, inv.typed, le_rfl, ?_,
            inv.returned⟩
          intro batch facts subst isPending
          rw [Option.isNone_iff_eq_none.mp reopens.2] at isPending
          cases isPending
        next => cases next
      next => cases next

/-- In every state of every run of sound writes, the database answers for facts with different keys
that are well typed, validation accepts it, each fact of a batch whose write has returned denotes the
stored fact that the substitution gives it, and a writer with the lock gets on.
-/
theorem writes_sound {state : State}
    (run : Machine.Run (step varint u8 inventory) (Sound varint u8 inventory) Created state)
    : ∃ facts, Represents state.db facts ∧ AnswersFor state.db facts
      ∧ WellTyped varint u8 inventory {fact | fact ∈ facts}
      ∧ (state.db.nextId < 2 ^ 64 →
        ∀ val, Validate.validate varint u8 inventory val state.db.lookup = .ok ())
      ∧ (∀ write ∈ state.returned,
        Written varint u8 inventory {fact | fact ∈ facts} write.1 write.2)
      ∧ ∀ batch, state.pending = none → Sound varint u8 inventory state (.rename batch) →
        (step varint u8 inventory state (.rename batch)).isSome := by
  obtain ⟨facts, inv⟩ : Consistent varint u8 inventory state := by
    refine run.invariant ?_ ?_
    · rintro _ ⟨start, version, positive, rfl⟩
      exact ⟨[], .created positive version, (fun _ isFact => by cases isFact), le_rfl, by simp,
        by simp⟩
    · rintro before event after ⟨facts, inv⟩ sound next
      exact inv.step sound next
  refine ⟨facts, inv.represents, inv.represents.answersFor, inv.typed,
    fun words val => validates inv.represents inv.typed words val, inv.returned, ?_⟩
  intro batch isFree sound
  obtain ⟨db, nextId, pending, returned⟩ := state
  obtain rfl : pending = none := isFree
  rw [step]
  rcases renameBatch_cases inv.represents inv.typed inv.inOrder sound with
    ⟨facts, subst, isOk, -⟩ | ⟨message, isError⟩
  · simp [isOk]
  · simp [isError]

/-- A new database for nodes. -/
def newState : State := ⟨.created 1024 3, 1024, none, []⟩

/-- A batch with a node. -/
def oneNode : Batch := ⟨1024, fun _ => Id.invalid, 1, nodeBatch⟩

theorem sound_oneNode : Sound .folly .ascii nodeInventory newState (.rename oneNode) := by
  refine fun positive => ⟨by decide, fun _ => ?_⟩
  have renamed : renameFact .folly .ascii nodeInventory (.start (.stacked newState.db.lookup
        (.factSet (.new newState.nextId positive))) oneNode.first oneNode.count oneNode.facts)
      = .ok ⟨1024, ⟨"example.Node", 1, .byte, .maybe (.predicate 1024)⟩, ⟨[1], [0]⟩, Id.invalid, [],
          rfl⟩ := rfl
  refine ⟨by simp [renamed], ?_, fun _ _ => .inr (by decide)⟩
  rw [renamed]
  rintro fact isFact -
  obtain rfl := Outcome.ok.inj isFact
  intro hides
  change (if _ then _ else False) at hides
  split at hides
  next found => exact found.1 (by decide : newState.db.lookup.idByKey 1024 [1] = Id.invalid)
  next => exact hides

/-- The node is written. -/
theorem writes_sound_node
    : ∃ state : State, state.returned = [(oneNode, ⟨1024, [1024]⟩)]
        ∧ state.db.lookup.factById 1024 = some (1024, ⟨[1], [0]⟩)
        ∧ Validate.validate .folly .ascii nodeInventory .default state.db.lookup = .ok () := by
  let events : List Event := [.rename oneNode, .commit (fun _ => none)]
  have sound : Machine.SoundEvents (step .folly .ascii nodeInventory)
      (Sound .folly .ascii nodeInventory) newState events :=
    ⟨sound_oneNode, trivial, trivial⟩
  obtain ⟨state, executed⟩ : ∃ state,
      Machine.runEvents (step .folly .ascii nodeInventory) newState events = some state :=
    ⟨_, rfl⟩
  have run := Machine.Run.of_runEvents
    (.start ⟨1024, 3, by decide, rfl⟩ :
      Machine.Run _ (Sound .folly .ascii nodeInventory) Created newState) sound executed
  obtain ⟨facts, -, -, -, valid, -⟩ := writes_sound run
  obtain rfl := Option.some.inj executed
  exact ⟨_, rfl, rfl, valid (by decide) .default⟩

end Runs

end Glean.Database.WriteBatch
