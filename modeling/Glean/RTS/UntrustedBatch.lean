import Glean.RTS.DefineHolds
import Glean.RTS.TypedValue

/-! What `defineUntrustedBatch` does to the facts of a define object.
-/

namespace Glean.RTS

-- Facts that are well typed

/-- An id is the one of a fact of a predicate, and lies below a bound. -/
def Earlier (facts : Set Fact) (bound : Id) (pid : Pid) (id : Id) : Prop :=
  id < bound ∧ ∃ fact ∈ facts, fact.id = id ∧ fact.type = pid

section Typed

variable (varint : Varint) (u8 : U8Next) (inventory : Inventory)

/-- The clause of a fact is the encoding of a key and a value of its predicate. They refer to facts
of the expected predicates with smaller ids.
-/
def Fact.WellTyped (facts : Set Fact) (fact : Fact) : Prop :=
  ∃ predicate key value, inventory.lookupPredicate fact.type = some predicate
    ∧ HasType u8 (Earlier facts fact.id) predicate.keyTy.repType key
    ∧ HasType u8 (Earlier facts fact.id) predicate.valTy.repType value
    ∧ fact.clause = ⟨encodeValue varint key, encodeValue varint value⟩

def WellTyped (facts : Set Fact) : Prop :=
  ∀ fact ∈ facts, fact.WellTyped varint u8 inventory facts

/-- The stored fact with an id is a clause of a batch with its references changed. -/
def DenotesFact (facts : Set Fact) (change : Id → Id) (type : Pid) (clause : Clause) (id : Id) : Prop :=
  ∃ stored ∈ facts, stored.id = id ∧ stored.type = type
    ∧ ∃ predicate key value, inventory.lookupPredicate type = some predicate
      ∧ Reads varint u8 predicate.keyTy.repType clause.key key []
      ∧ Reads varint u8 predicate.valTy.repType clause.value value []
      ∧ HasType u8 (Earlier facts id) predicate.keyTy.repType (key.rename change)
      ∧ HasType u8 (Earlier facts id) predicate.valTy.repType (value.rename change)
      ∧ stored.clause
        = ⟨encodeValue varint (key.rename change), encodeValue varint (value.rename change)⟩

end Typed

theorem Earlier.mono {facts larger : Set Fact} (subset : facts ⊆ larger) {bound : Id} {pid : Pid}
    {id : Id} (earlier : Earlier facts bound pid id)
    : Earlier larger bound pid id := by
  obtain ⟨small, fact, member, isFact⟩ := earlier
  exact ⟨small, fact, subset member, isFact⟩

variable {varint : Varint} {u8 : U8Next} {inventory : Inventory} {facts larger : Set Fact}

theorem Fact.WellTyped.mono {fact : Fact} (typed : fact.WellTyped varint u8 inventory facts)
    (subset : facts ⊆ larger)
    : fact.WellTyped varint u8 inventory larger := by
  obtain ⟨predicate, key, value, isPredicate, keyType, valueType, isClause⟩ := typed
  exact ⟨predicate, key, value, isPredicate, keyType.mono (fun _ _ => Earlier.mono subset),
    valueType.mono (fun _ _ => Earlier.mono subset), isClause⟩

theorem WellTyped.insert {fact : Fact} (typed : WellTyped varint u8 inventory facts)
    (isTyped : fact.WellTyped varint u8 inventory facts)
    : WellTyped varint u8 inventory (insert fact facts) := by
  rintro other (rfl | member)
  · exact isTyped.mono (Set.subset_insert _ _)
  · exact (typed other member).mono (Set.subset_insert _ _)

-- Substitutions that get more entries

/-- An entry that is set stays as it is. -/
structure Substitution.Extends (before after : Substitution) : Prop where
  base : after.base = before.base
  length : after.items.length = before.items.length
  items
    : ∀ {index : Nat} {id : Id}, before.items[index]? = some id → id ≠ Id.invalid →
        after.items[index]? = some id

theorem Substitution.Extends.refl (subst : Substitution) : subst.Extends subst :=
  ⟨rfl, rfl, fun isItem _ => isItem⟩

theorem Substitution.Extends.trans {first second third : Substitution}
    (left : first.Extends second) (right : second.Extends third)
    : first.Extends third :=
  ⟨right.base.trans left.base, right.length.trans left.length,
    fun isItem isSet => right.items (left.items isItem isSet) isSet⟩

theorem Substitution.extends_setAt {subst : Substitution} {index : Nat}
    (unset : subst.items[index]? = some Id.invalid) (id : Id)
    : subst.Extends (subst.setAt index id) := by
  refine ⟨rfl, List.length_set, fun {other known} isItem isSet => ?_⟩
  rw [setAt, List.getElem?_set_ne, isItem]
  rintro rfl
  rw [unset] at isItem
  exact isSet (Option.some.inj isItem).symm

theorem Substitution.Extends.subst {before after : Substitution} (extends_ : before.Extends after)
    {id : Id} (isSet : before.subst id ≠ Id.invalid)
    : after.subst id = before.subst id := by
  have sameFinish : after.finish = before.finish := by
    rw [finish, finish, extends_.base, extends_.length]
  rw [Substitution.subst, Substitution.subst, extends_.base, sameFinish]
  rw [Substitution.subst] at isSet
  split
  next inside =>
    rw [if_pos inside] at isSet
    cases isItem : before.items[id - before.base]? with
    | none =>
        rw [isItem] at isSet
        exact absurd rfl isSet
    | some item =>
        rw [isItem] at isSet
        rw [extends_.items isItem isSet]
  next => rfl

mutual

/-- Renaming depends on the references that it gives. -/
theorem rename_congr {ref : Pid → Id → Prop} {change other : Id → Id}
    (valid : ∀ {pid id}, ref pid id → id ≠ Id.invalid)
    (agree : ∀ id, change id ≠ Id.invalid → other id = change id)
    : (value : Value) → {rep : Rep} → HasType u8 ref rep (value.rename change) →
        value.rename other = value.rename change
  | .byte _, _, _ => rfl
  | .nat _, _, _ => rfl
  | .string _, _, _ => rfl
  | .array elements, _, .array _ all => by
      rw [Value.rename, Value.rename, renameAll_congr valid agree elements all]
  | .tuple fields, _, .tuple all => by
      rw [Value.rename, Value.rename, renameAll_congr valid agree fields all]
  | .alt _ value, _, .alt _ _ inside => by
      rw [Value.rename, Value.rename, rename_congr valid agree value inside]
  | .ref id, _, .ref _ isRef => by
      rw [Value.rename, Value.rename, agree id (valid isRef)]

theorem renameAll_congr {ref : Pid → Id → Prop} {change other : Id → Id}
    (valid : ∀ {pid id}, ref pid id → id ≠ Id.invalid)
    (agree : ∀ id, change id ≠ Id.invalid → other id = change id)
    : (values : List Value) → {reps : List Rep} → HasTypes u8 ref reps (renameAll change values) →
        renameAll other values = renameAll change values
  | [], _, _ => rfl
  | value :: values, _, .cons first others => by
      rw [renameAll, renameAll, rename_congr valid agree value first,
        renameAll_congr valid agree values others]

end

/-- A fact that is denoted stays so when more facts are defined. -/
theorem DenotesFact.mono {change other : Id → Id} {type : Pid} {clause : Clause} {id : Id}
    (denotes : DenotesFact varint u8 inventory facts change type clause id) (subset : facts ⊆ larger)
    (valid : ∀ fact ∈ facts, fact.id ≠ Id.invalid)
    (agree : ∀ id, change id ≠ Id.invalid → other id = change id)
    : DenotesFact varint u8 inventory larger other type clause id := by
  obtain ⟨stored, member, isId, isType, predicate, key, value, isPredicate, readsKey, readsValue,
    keyType, valueType, isClause⟩ := denotes
  have validRef {pid : Pid} {ref : Id} (earlier : Earlier facts id pid ref) : ref ≠ Id.invalid := by
    obtain ⟨-, fact, isFact, rfl, -⟩ := earlier
    exact valid fact isFact
  have sameKey := rename_congr validRef agree key keyType
  have sameValue := rename_congr validRef agree value valueType
  rw [← sameKey] at keyType
  rw [← sameValue] at valueType
  rw [← sameKey, ← sameValue] at isClause
  exact ⟨stored, subset member, isId, isType, predicate, key, value, isPredicate, readsKey,
    readsValue, keyType.mono (fun _ _ => Earlier.mono subset),
    valueType.mono (fun _ _ => Earlier.mono subset), isClause⟩

-- One fact

section Step

variable {state : BatchState}

/-- What the renamer does to a reference. -/
def BatchState.change (state : BatchState) (id : Id) : Id :=
  state.subst.subst (state.idmap.get id)

theorem renamer_eq_ok (holds : state.def_.Holds facts)
    (room : state.def_.lookup.firstFreeId ≤ 2 ^ 64) {id : Id} {pid : Pid} {maxRef result after : Id}
    (valid : pid ≠ Pid.invalid)
    (renamed : renamer inventory state.def_ state.subst state.idmap id pid maxRef
      = .ok (result, after))
    : result = state.change id ∧ result < 2 ^ 64
      ∧ Earlier facts state.def_.lookup.firstFreeId pid result := by
  rw [renamer] at renamed
  split at renamed
  next isType =>
    cases renamed
    obtain ⟨fact, member, isId, isPid⟩ := holds.lookup.typeById_eq valid isType
    have small := (holds.lookup.inside fact member).2
    rw [isId] at small
    exact ⟨rfl, small.trans_le room, small, fact, member, isId, isPid⟩
  next =>
    split at renamed
    next => cases renamed
    next => split at renamed <;> cases renamed

/-- A fact that is read and renamed has a key and a value of its predicate, with the references that
the renamer gives.
-/
theorem renameFact_eq_ok_of {ref : Pid → Id → Prop} {fact : Renamed inventory}
    (refers : ∀ {id pid maxRef result after}, pid ≠ Pid.invalid →
      renamer inventory state.def_ state.subst state.idmap id pid maxRef = .ok (result, after) →
      result = state.change id ∧ result < 2 ^ 64 ∧ ref pid result)
    (renamed : renameFact varint u8 inventory state = .ok fact)
    : ∃ clause key value,
        Fact.deserialize varint state.input = .ok (fact.type, clause, fact.rest)
        ∧ Reads varint u8 fact.predicate.keyTy.repType clause.key key []
        ∧ Reads varint u8 fact.predicate.valTy.repType clause.value value []
        ∧ HasType u8 ref fact.predicate.keyTy.repType (key.rename state.change)
        ∧ HasType u8 ref fact.predicate.valTy.repType (value.rename state.change)
        ∧ fact.clause = ⟨encodeValue varint (key.rename state.change),
          encodeValue varint (value.rename state.change)⟩ := by
  obtain ⟨⟨type, clause, rest⟩, isRead, more⟩ := Outcome.bind_eq_ok.mp renamed
  dsimp only at more
  split at more
  next predicate found =>
    obtain ⟨⟨output, keySize, maxRef⟩, checked, isResult⟩ := Outcome.bind_eq_ok.mp more
    cases isResult
    obtain ⟨key, value, renamedKey, renamedValue, between, readsKey, readsValue, renamesKey,
      renamesValue, isOutput, isSize⟩ := checkClause_eq_ok.mp checked
    obtain ⟨keyRefers, valueRefers⟩ := inventory.refers predicate
      (Inventory.mem_of_lookupPredicate found).1
    let rename := renamer inventory state.def_ state.subst state.idmap
    obtain ⟨rfl, keyType⟩ := hasType_of_renames rename refers key keyRefers readsKey renamesKey
    obtain ⟨rfl, valueType⟩ := hasType_of_renames rename refers value valueRefers readsValue
      renamesValue
    refine ⟨clause, key, value, isRead, readsKey, readsValue, keyType, valueType, ?_⟩
    rw [Clause.from, isOutput, isSize, List.take_left, List.drop_left]
  next => cases more

/-- The references are those of facts that exist. -/
theorem renameFact_eq_ok (holds : state.def_.Holds facts)
    (room : state.def_.lookup.firstFreeId ≤ 2 ^ 64) {fact : Renamed inventory}
    (renamed : renameFact varint u8 inventory state = .ok fact)
    : ∃ clause key value,
        Fact.deserialize varint state.input = .ok (fact.type, clause, fact.rest)
        ∧ Reads varint u8 fact.predicate.keyTy.repType clause.key key []
        ∧ Reads varint u8 fact.predicate.valTy.repType clause.value value []
        ∧ HasType u8 (Earlier facts state.def_.lookup.firstFreeId)
          fact.predicate.keyTy.repType (key.rename state.change)
        ∧ HasType u8 (Earlier facts state.def_.lookup.firstFreeId)
          fact.predicate.valTy.repType (value.rename state.change)
        ∧ fact.clause = ⟨encodeValue varint (key.rename state.change),
          encodeValue varint (value.rename state.change)⟩ :=
  renameFact_eq_ok_of (renamer_eq_ok holds room) renamed

/-- The names of the facts before an index. -/
def namesBefore (first : Id) (ids : Nat → Id) : Nat → Names
  | 0 => []
  | index + 1 =>
      if ids index ≠ Id.invalid then
        (ids index, (first + index) % 2 ^ 64) :: namesBefore first ids index
      else
        namesBefore first ids index

variable {first : Id} {ids : Nat → Id} {total limit index : Nat}

/-- The loop is about to define the fact at an index. -/
structure Ready (varint : Varint) (u8 : U8Next) (inventory : Inventory) (first : Id)
    (ids : Nat → Id) (total : Nat) (limit : Id) (index : Nat) (state : BatchState)
    (facts : Set Fact) : Prop where
  holds : state.def_.Holds facts
  typed : WellTyped varint u8 inventory facts
  room : state.def_.lookup.firstFreeId + (total - index) ≤ limit
  base : state.subst.base = first
  length : state.subst.items.length = total
  unset : ∀ later, index ≤ later → later < total → state.subst.items[later]? = some Id.invalid
  names : state.idmap = namesBefore first ids index

/-- A fact of the batch has been defined. -/
structure Defines (varint : Varint) (u8 : U8Next) (inventory : Inventory) (first : Id)
    (ids : Nat → Id) (total : Nat) (limit : Id) (index : Nat) (state next : BatchState)
    (facts after : Set Fact) : Prop where
  subset : facts ⊆ after
  ready : Ready varint u8 inventory first ids total limit (index + 1) next after
  extends_ : state.subst.Extends next.subst
  denotes
    : ∃ type clause id, Fact.deserialize varint state.input = .ok (type, clause, next.input)
        ∧ DenotesFact varint u8 inventory after state.change type clause id
        ∧ next.subst.items[index]? = some id

/-- The state after a fact of the batch got an id. -/
theorem Ready.next (ready : Ready varint u8 inventory first ids total limit index state facts)
    (inside : index < total) {def_ : Define} {after : Set Fact} (subset : facts ⊆ after)
    (holds : def_.Holds after) (typed : WellTyped varint u8 inventory after)
    (grows : def_.lookup.firstFreeId ≤ state.def_.lookup.firstFreeId + 1) {type : Pid}
    {clause : Clause} {rest : Bytes} {id : Id}
    (isRead : Fact.deserialize varint state.input = .ok (type, clause, rest))
    (denotes : DenotesFact varint u8 inventory after state.change type clause id)
    : Defines varint u8 inventory first ids total limit index state
        { def_
          subst := state.subst.setAt index id
          idmap := if ids index ≠ Id.invalid then
              (ids index, (first + index) % 2 ^ 64) :: state.idmap
            else
              state.idmap
          input := rest } facts after where
  subset := subset
  ready := by
    have room := ready.room
    refine ⟨holds, typed, ?_, ready.base, ?_, ?_, ?_⟩
    · change def_.lookup.firstFreeId + _ ≤ limit
      lia
    · exact List.length_set.trans ready.length
    · intro later large small
      exact (List.getElem?_set_ne (by lia)).trans (ready.unset later (by lia) small)
    · rw [namesBefore, ← ready.names]
  extends_ := Substitution.extends_setAt (ready.unset index le_rfl inside) id
  denotes := by
    refine ⟨type, clause, id, isRead, denotes, ?_⟩
    exact List.getElem?_set_self (ready.length.symm ▸ inside)

/-- The fact that `define` found is the one of the batch: encodings can be read in one way. -/
theorem Fact.WellTyped.denotes {stored : Fact} (typed : stored.WellTyped varint u8 inventory facts)
    (member : stored ∈ facts) {ref : Pid → Id → Prop} {change : Id → Id} {predicate : Predicate}
    {clause : Clause} {key value : Value}
    (isPredicate : inventory.lookupPredicate stored.type = some predicate)
    (readsKey : Reads varint u8 predicate.keyTy.repType clause.key key [])
    (readsValue : Reads varint u8 predicate.valTy.repType clause.value value [])
    (keyType : HasType u8 ref predicate.keyTy.repType (key.rename change))
    (valueType : HasType u8 ref predicate.valTy.repType (value.rename change))
    (sameKey : stored.key = encodeValue varint (key.rename change))
    (sameValue : stored.value = encodeValue varint (value.rename change))
    : DenotesFact varint u8 inventory facts change stored.type clause stored.id := by
  obtain ⟨known, storedKey, storedValue, isKnown, storedKeyType, storedValueType, isClause⟩ := typed
  obtain rfl := Option.some.inj (isKnown.symm.trans isPredicate)
  have isKey : stored.key = encodeValue varint storedKey := congrArg Clause.key isClause
  have isValue : stored.value = encodeValue varint storedValue := congrArg Clause.value isClause
  obtain ⟨rfl, -⟩ := encodeValue_injective storedKey _ storedKeyType keyType
    (congrArg (· ++ []) (isKey.symm.trans sameKey))
  obtain ⟨rfl, -⟩ := encodeValue_injective storedValue _ storedValueType valueType
    (congrArg (· ++ []) (isValue.symm.trans sameValue))
  exact ⟨stored, member, rfl, rfl, known, key, value, isKnown, readsKey, readsValue, storedKeyType,
    storedValueType, isClause⟩

/-- What `defineFact` does to a fact whose key is not hidden. -/
theorem defineFact_cases
    (ready : Ready varint u8 inventory first ids total limit index state facts)
    (words : limit ≤ 2 ^ 64) (inside : index < total)
    (visible : ∀ fact, renameFact varint u8 inventory state = .ok fact →
      fact.clause.key.length ≤ FactSet.maxKeySize →
        ¬ state.def_.Hides fact.type fact.clause.key fact.maxRef)
    : (∃ message, defineFact varint u8 inventory first ids index state
        = (state.def_, .error message))
      ∨ (renameFact varint u8 inventory state = .undefined
        ∧ defineFact varint u8 inventory first ids index state = (state.def_, .undefined))
      ∨ ∃ next after, defineFact varint u8 inventory first ids index state = (next.def_, .ok next)
          ∧ Defines varint u8 inventory first ids total limit index state next facts after := by
  have room := ready.room
  rw [defineFact]
  cases renamed : renameFact varint u8 inventory state with
  | error message => exact .inl ⟨message, rfl⟩
  | undefined => exact .inr (.inl ⟨rfl, rfl⟩)
  | ok fact =>
      obtain ⟨clause, key, value, isRead, readsKey, readsValue, keyType, valueType, isClause⟩ :=
        renameFact_eq_ok ready.holds (by lia) renamed
      obtain ⟨-, bounded, validType⟩ := Inventory.mem_of_lookupPredicate fact.found
      dsimp only
      cases defined : state.def_.define fact.type bounded fact.clause fact.maxRef with
      | error message => exact .inl ⟨message, rfl⟩
      | ok result =>
          obtain ⟨def_, id⟩ := result
          have emptyValue : ∀ stored ∈ facts, stored.type = fact.type →
              stored.key = fact.clause.key → fact.clause.value = [] → stored.value = [] := by
            intro stored member sameType _ isEmpty
            obtain ⟨known, storedKey, storedValue, isKnown, _, storedType, isStored⟩ :=
              ready.typed stored member
            obtain rfl := Option.some.inj (isKnown.symm.trans (sameType ▸ fact.found))
            rw [isClause] at isEmpty
            rw [Fact.value, isStored]
            exact encodeValue_eq_nil _ _ valueType storedType isEmpty
          have notHidden : ¬ state.def_.Hides fact.type fact.clause.key fact.maxRef := by
            intro hides
            exact visible fact renamed (hides.short ready.holds defined) hides
          dsimp only
          rcases ready.holds.define validType emptyValue notHidden defined with found | ⟨-, adds⟩
          · obtain ⟨rfl, stored, member, sameType, sameKey, isId⟩ := found
            by_cases sameValue : fact.clause.value = stored.value
            · rw [if_pos sameValue] at isId
              subst isId
              rw [if_neg (ready.holds.lookup.valid stored member).1]
              have denotes := (ready.typed stored member).denotes member (sameType ▸ fact.found)
                readsKey readsValue keyType valueType (sameKey.trans (congrArg Clause.key isClause))
                (sameValue.symm.trans (congrArg Clause.value isClause))
              have defines := ready.next inside subset_rfl ready.holds ready.typed (Nat.le_succ _)
                isRead (sameType ▸ denotes)
              refine .inr (.inr ⟨_, facts, ?_, defines⟩)
              rfl
            · rw [if_neg sameValue] at isId
              rw [if_pos isId]
              exact .inl ⟨_, rfl⟩
          · have isFree := adds.isFree
            subst isFree
            let added : Fact := ⟨state.def_.lookup.firstFreeId, fact.type, fact.clause⟩
            have isTyped : added.WellTyped varint u8 inventory facts :=
              ⟨fact.predicate, _, _, fact.found, keyType, valueType, isClause⟩
            have member : added ∈ insert added facts := .inl rfl
            have denotes := (isTyped.mono (Set.subset_insert _ _)).denotes member fact.found readsKey
              readsValue keyType valueType (congrArg Clause.key isClause)
              (congrArg Clause.value isClause)
            rw [if_neg (adds.holds.lookup.valid added member).1]
            have defines := ready.next inside (Set.subset_insert _ _) adds.holds
              (ready.typed.insert isTyped) adds.firstFreeId.le isRead denotes
            refine .inr (.inr ⟨_, insert added facts, ?_, defines⟩)
            rfl

end Step

-- The loop

section Loop

variable (varint : Varint) (u8 : U8Next) (inventory : Inventory) (first : Id) (ids : Nat → Id)

/-- The facts of a batch. -/
def deserializeBatch : Nat → Bytes → Outcome (List (Pid × Clause))
  | 0, _ => .ok []
  | count + 1, input => do
      let (type, clause, rest) ← Fact.deserialize varint input
      let others ← deserializeBatch count rest
      return (type, clause) :: others

/-- A condition on each state before a fact: it is read inside the input, and its key is not one
that a base has but is not looked for there. A property holds when the batch has been read.
-/
def Guarded (last : Prop) : Nat → Nat → BatchState → Prop
  | 0, _, _ => last
  | count + 1, index, state =>
      renameFact varint u8 inventory state ≠ .undefined
      ∧ (∀ fact, renameFact varint u8 inventory state = .ok fact →
        fact.clause.key.length ≤ FactSet.maxKeySize →
          ¬ state.def_.Hides fact.type fact.clause.key fact.maxRef)
      ∧ ∀ next, (defineFact varint u8 inventory first ids index state).2 = .ok next →
        Guarded last count (index + 1) next

/-- Each fact from an index on denotes the one that a substitution gives it. -/
def DenotesAll (stored : Set Fact) (subst : Substitution) (index : Nat)
    (clauses : List (Pid × Clause)) : Prop :=
  ∀ (offset : Nat) (type : Pid) (clause : Clause), clauses[offset]? = some (type, clause) →
    ∃ id, subst.items[index + offset]? = some id
      ∧ DenotesFact varint u8 inventory stored
        (fun id => subst.subst ((namesBefore first ids (index + offset)).get id)) type clause id

/-- The loop ends with facts that are well typed. -/
def Finishes (total : Nat) (limit : Id) (last : Prop) (count index : Nat) (state : BatchState)
    (facts : Set Fact) (result : Define × Outcome BatchState) : Prop :=
  result.2 ≠ .undefined
  ∧ ∃ stored, facts ⊆ stored ∧ result.1.Holds stored ∧ WellTyped varint u8 inventory stored
    ∧ ∀ final, result.2 = .ok final → last ∧ state.subst.Extends final.subst
      ∧ Ready varint u8 inventory first ids total limit (index + count) final stored
      ∧ ∃ clauses, deserializeBatch varint count state.input = .ok clauses ∧ clauses.length = count
        ∧ DenotesAll varint u8 inventory first ids stored final.subst index clauses

variable {varint u8 inventory first ids} {total limit : Nat} {last : Prop}

theorem Finishes.stop {count index : Nat} {state : BatchState}
    (ready : Ready varint u8 inventory first ids total limit index state facts) (message : String)
    : Finishes varint u8 inventory first ids total limit last count index state facts
        (state.def_, .error message) := by
  refine ⟨by simp, facts, subset_rfl, ready.holds, ready.typed, fun final isOk => ?_⟩
  cases isOk

/-- Put a fact that has been defined in front of those that follow. -/
theorem Finishes.step {count index : Nat} {state next : BatchState} {after : Set Fact}
    {result : Define × Outcome BatchState} (valid : ∀ fact ∈ after, fact.id ≠ Id.invalid)
    (names : state.idmap = namesBefore first ids index)
    (defines : Defines varint u8 inventory first ids total limit index state next facts after)
    (finishes : Finishes varint u8 inventory first ids total limit last count (index + 1) next after
      result)
    : Finishes varint u8 inventory first ids total limit last (count + 1) index state facts
        result := by
  obtain ⟨isDefined, stored, subset, holds, typed, isFinal⟩ := finishes
  refine ⟨isDefined, stored, defines.subset.trans subset, holds, typed, fun final isOk => ?_⟩
  obtain ⟨isLast, extends_, ready, clauses, isRead, length, denotesAll⟩ := isFinal final isOk
  obtain ⟨type, clause, id, isFirst, denotes, isItem⟩ := defines.denotes
  have allExtends := defines.extends_.trans extends_
  refine ⟨isLast, allExtends, Nat.succ_add_eq_add_succ index count ▸ ready, (type, clause) :: clauses,
    ?_, congrArg (· + 1) length, ?_⟩
  · rw [deserializeBatch, isFirst, Outcome.ok_bind]
    dsimp only
    rw [isRead]
    rfl
  · intro offset otherType otherClause isClause
    cases offset with
    | zero =>
        cases isClause
        have isValid : id ≠ Id.invalid := by
          obtain ⟨found, member, isId, -⟩ := denotes
          exact isId ▸ valid found member
        refine ⟨id, extends_.items isItem isValid, ?_⟩
        refine denotes.mono subset valid (fun ref isSet => ?_)
        rw [BatchState.change, names] at isSet ⊢
        exact allExtends.subst isSet
    | succ offset =>
        have inOthers := denotesAll offset otherType otherClause isClause
        rwa [Nat.succ_add_eq_add_succ] at inOthers

/-- A guarded run of the loop keeps the facts well typed. -/
theorem defineFacts_finishes (words : limit ≤ 2 ^ 64) {count index : Nat} {state : BatchState}
    (ready : Ready varint u8 inventory first ids total limit index state facts)
    (isTotal : index + count = total)
    (guarded : Guarded varint u8 inventory first ids last count index state)
    : Finishes varint u8 inventory first ids total limit last count index state facts
        (defineFacts varint u8 inventory first ids count index state) := by
  induction count generalizing index state facts with
  | zero =>
      refine ⟨by simp [defineFacts], facts, subset_rfl, ready.holds, ready.typed, fun final isOk => ?_⟩
      cases isOk
      refine ⟨guarded, .refl _, ready, [], rfl, rfl, fun offset type clause isClause => ?_⟩
      cases isClause
  | succ count ih =>
      obtain ⟨isDefined, visible, others⟩ := guarded
      rw [defineFacts]
      rcases defineFact_cases ready words (by lia) visible with
        ⟨message, isError⟩ | ⟨undefined, -⟩ | ⟨next, after, isNext, defines⟩
      · rw [isError]
        exact .stop ready message
      · exact absurd undefined isDefined
      · rw [isNext]
        have valid : ∀ fact ∈ after, fact.id ≠ Id.invalid := fun fact member =>
          (defines.ready.holds.lookup.valid fact member).1
        refine .step valid ready.names defines (ih defines.ready (by lia) ?_)
        exact others next (congrArg Prod.snd isNext)

section Keeps

variable (varint u8 inventory first ids)

theorem keeps_defineFact (index : Nat) (state : BatchState)
    : state.def_.Keeps (defineFact varint u8 inventory first ids index state).1
      ∧ ∀ next, (defineFact varint u8 inventory first ids index state).2 = .ok next →
        next.def_ = (defineFact varint u8 inventory first ids index state).1 := by
  rw [defineFact]
  split
  next => exact ⟨.refl _, fun next isOk => by cases isOk⟩
  next => exact ⟨.refl _, fun next isOk => by cases isOk⟩
  next fact _ =>
    split
    next => exact ⟨.refl _, fun next isOk => by cases isOk⟩
    next def_ id defined =>
      have keeps := Define.keeps_define state.def_ defined
      split
      next => exact ⟨keeps, fun next isOk => by cases isOk⟩
      next => exact ⟨keeps, fun next isOk => by cases isOk; rfl⟩

theorem keeps_defineFacts (count index : Nat) (state : BatchState)
    : state.def_.Keeps (defineFacts varint u8 inventory first ids count index state).1 := by
  induction count generalizing index state with
  | zero => exact .refl _
  | succ count ih =>
      obtain ⟨keeps, isNext⟩ := keeps_defineFact varint u8 inventory first ids index state
      rw [defineFacts]
      split
      next def_ next isOk =>
        rw [isOk] at keeps isNext
        exact (isNext next rfl ▸ keeps).trans (ih (index + 1) next)
      next isError =>
        rw [isError] at keeps
        exact keeps
      next isUndefined =>
        rw [isUndefined] at keeps
        exact keeps

end Keeps

/-- A fact whose key is hidden is stored twice at the end. -/
theorem duplicate_of_hides {count index : Nat} {state : BatchState} (holds : state.def_.Holds facts)
    {fact : Renamed inventory} (renamed : renameFact varint u8 inventory state = .ok fact)
    (short : fact.clause.key.length ≤ FactSet.maxKeySize)
    (hides : state.def_.Hides fact.type fact.clause.key fact.maxRef)
    : (defineFacts varint u8 inventory first ids (count + 1) index state).1.Duplicate := by
  obtain ⟨-, bounded, validType⟩ := Inventory.mem_of_lookupPredicate fact.found
  obtain ⟨after, id, defined⟩ := state.def_.define_ok fact.type bounded fact.maxRef short
  have duplicate := hides.duplicate holds validType defined
  have isAfter : (defineFact varint u8 inventory first ids index state).1 = after := by
    rw [defineFact, renamed]
    dsimp only
    rw [defined]
    dsimp only
    split <;> rfl
  have isNext := (keeps_defineFact varint u8 inventory first ids index state).2
  rw [isAfter] at isNext
  rw [defineFacts]
  split
  next def_ next isOk =>
    rw [isOk] at isNext
    refine duplicate.keeps ?_
    rw [← isNext next rfl]
    exact keeps_defineFacts varint u8 inventory first ids count (index + 1) next
  next isError =>
    rw [isError] at isAfter
    exact isAfter ▸ duplicate
  next isUndefined =>
    rw [isUndefined] at isAfter
    exact isAfter ▸ duplicate

/-- The conditions are necessary. -/
theorem guarded_of_not_duplicate (words : limit ≤ 2 ^ 64) {count index : Nat} {state : BatchState}
    (ready : Ready varint u8 inventory first ids total limit index state facts)
    (isTotal : index + count = total)
    (isDefined : (defineFacts varint u8 inventory first ids count index state).2 ≠ .undefined)
    (distinct : ¬ (defineFacts varint u8 inventory first ids count index state).1.Duplicate)
    (isLast : ∀ final, (defineFacts varint u8 inventory first ids count index state).2 = .ok final →
      last)
    : Guarded varint u8 inventory first ids last count index state := by
  induction count generalizing index state facts with
  | zero => exact isLast state rfl
  | succ count ih =>
      have visible : ∀ fact, renameFact varint u8 inventory state = .ok fact →
          fact.clause.key.length ≤ FactSet.maxKeySize →
            ¬ state.def_.Hides fact.type fact.clause.key fact.maxRef := by
        intro fact renamed short hides
        exact distinct (duplicate_of_hides ready.holds renamed short hides)
      rw [defineFacts] at isDefined distinct isLast
      rcases defineFact_cases ready words (by lia) visible with
        ⟨message, isError⟩ | ⟨undefined, isUndefined⟩ | ⟨next, after, isNext, defines⟩
      · refine ⟨fun undefined => ?_, visible, fun next isOk => ?_⟩
        · rw [defineFact, undefined] at isError
          cases isError
        · rw [isError] at isOk
          cases isOk
      · rw [isUndefined] at isDefined
        exact absurd rfl isDefined
      · rw [isNext] at isDefined distinct isLast
        refine ⟨fun undefined => ?_, visible, fun other isOk => ?_⟩
        · rw [defineFact, undefined] at isNext
          cases congrArg Prod.snd isNext
        · rw [isNext] at isOk
          cases isOk
          exact ih defines.ready (by lia) isDefined distinct isLast

end Loop

-- Batches

section Batch

variable (varint : Varint) (u8 : U8Next) (inventory : Inventory)

/-- The facts after a batch, whether or not it fails, are well typed and have different keys. If it
does not fail, then each of its facts denotes the stored fact that the substitution gives it, with
references renamed through the names of the facts before it and the substitution.
-/
def Sound (facts : Set Fact) (first : Id) (ids : Nat → Id) (count : Nat) (batch : Bytes)
    (result : Define × Outcome Substitution) : Prop :=
  result.2 ≠ .undefined
  ∧ ∃ stored, facts ⊆ stored ∧ result.1.Holds stored ∧ WellTyped varint u8 inventory stored
    ∧ ∀ subst, result.2 = .ok subst →
      ∃ clauses, deserializeBatch varint count batch = .ok clauses ∧ clauses.length = count
        ∧ ∀ (index : Nat) (type : Pid) (clause : Clause), clauses[index]? = some (type, clause) →
          DenotesFact varint u8 inventory stored
            (fun id => subst.subst ((namesBefore first ids index).get id)) type clause
            (subst.subst ((first + index) % 2 ^ 64))

/-- The state before the first fact. -/
def BatchState.start (def_ : Define) (first : Id) (count : Nat) (batch : Bytes) : BatchState :=
  ⟨def_, .new first count, [], batch⟩

variable {varint u8 inventory} {def_ : Define} {first : Id} {ids : Nat → Id} {count : Nat}
  {batch : Bytes}

section Start

variable (varint u8 inventory def_ first ids count batch)

theorem ready_start (holds : def_.Holds facts) (typed : WellTyped varint u8 inventory facts)
    : Ready varint u8 inventory first ids count (def_.lookup.firstFreeId + count) 0
        (.start def_ first count batch) facts where
  holds := holds
  typed := typed
  room := le_rfl
  base := rfl
  length := List.length_replicate
  unset := fun _ _ inside => List.getElem?_replicate_of_lt inside
  names := rfl

/-- The outcome of a batch from the outcome of the loop. -/
theorem defineUntrustedBatch_eq (large : Id.lowest ≤ first)
    : let result := defineFacts varint u8 inventory first ids count 0 (.start def_ first count batch)
      (defineUntrustedBatch varint u8 inventory def_ first ids count batch).1 = result.1
      ∧ ((defineUntrustedBatch varint u8 inventory def_ first ids count batch).2 = .undefined
        ↔ result.2 = .undefined)
      ∧ ∀ subst, (defineUntrustedBatch varint u8 inventory def_ first ids count batch).2 = .ok subst
        ↔ ∃ final, result.2 = .ok final ∧ final.subst = subst := by
  dsimp only
  rw [defineUntrustedBatch, if_neg (Nat.not_lt.mpr large), BatchState.start]
  split
  next isOk => simp [isOk]
  next isError => simp [isError]
  next isUndefined => simp [isUndefined]

end Start

/-- A substitution whose range does not wrap around maps the ids of the range to its entries. -/
theorem Substitution.subst_eq {subst : Substitution} {index : Nat} {id : Id}
    (small : subst.base + subst.items.length < 2 ^ 64) (isItem : subst.items[index]? = some id)
    : subst.subst ((subst.base + index) % 2 ^ 64) = id := by
  have inside := (List.getElem?_eq_some_iff.mp isItem).1
  have isFinish : subst.finish = subst.base + subst.items.length := Nat.mod_eq_of_lt small
  rw [Nat.mod_eq_of_lt (by lia), Substitution.subst, isFinish, if_pos (by lia),
    Nat.add_sub_cancel_left, isItem]
  rfl

/-- If the range wraps around, then its first id is not changed. -/
theorem Substitution.subst_base {subst : Substitution} (isWord : subst.base < 2 ^ 64)
    (few : subst.items.length < 2 ^ 64) (wraps : 2 ^ 64 ≤ subst.base + subst.items.length)
    : subst.subst ((subst.base + 0) % 2 ^ 64) = subst.base := by
  have isFinish : subst.finish = subst.base + subst.items.length - 2 ^ 64 := by
    rw [finish, Nat.mod_eq_sub_mod wraps, Nat.mod_eq_of_lt (by lia)]
  rw [Nat.add_zero, Nat.mod_eq_of_lt isWord, Substitution.subst, if_neg (by lia)]

section Sound

variable (holds : def_.Holds facts) (typed : WellTyped varint u8 inventory facts)

include holds typed

theorem sound_of_guarded (words : def_.lookup.firstFreeId + count ≤ 2 ^ 64)
    (large : Id.lowest ≤ first)
    (guarded : Guarded varint u8 inventory first ids (count = 0 ∨ first + count < 2 ^ 64) count 0
      (.start def_ first count batch))
    : Sound varint u8 inventory facts first ids count batch
        (defineUntrustedBatch varint u8 inventory def_ first ids count batch) := by
  have ready := ready_start varint u8 inventory def_ first ids count batch holds typed
  obtain ⟨isDefined, stored, subset, storedHolds, storedTyped, finishes⟩ :=
    defineFacts_finishes words ready (Nat.zero_add count) guarded
  obtain ⟨sameDefine, sameUndefined, sameOk⟩ :=
    defineUntrustedBatch_eq varint u8 inventory def_ first ids count batch large
  refine ⟨fun undefined => isDefined (sameUndefined.mp undefined), stored, subset,
    sameDefine ▸ storedHolds, storedTyped, fun subst isOk => ?_⟩
  obtain ⟨final, isFinal, rfl⟩ := (sameOk subst).mp isOk
  obtain ⟨inRange, -, isReady, clauses, isRead, length, denotes⟩ := finishes final isFinal
  refine ⟨clauses, isRead, length, fun index type clause isClause => ?_⟩
  obtain ⟨id, isItem, isDenoted⟩ := denotes index type clause isClause
  rw [Nat.zero_add] at isItem isDenoted
  have inside := (List.getElem?_eq_some_iff.mp isClause).1
  have small : final.subst.base + final.subst.items.length < 2 ^ 64 := by
    rw [isReady.base, isReady.length]
    lia
  have isId := Substitution.subst_eq small isItem
  rw [isReady.base] at isId
  rw [isId]
  exact isDenoted

theorem guarded_of_sound (isWord : first < 2 ^ 64)
    (room : def_.lookup.firstFreeId + 2 * count ≤ 2 ^ 64) (large : Id.lowest ≤ first)
    (sound : Sound varint u8 inventory facts first ids count batch
      (defineUntrustedBatch varint u8 inventory def_ first ids count batch))
    : Guarded varint u8 inventory first ids (count = 0 ∨ first + count < 2 ^ 64) count 0
        (.start def_ first count batch) := by
  have ready := ready_start varint u8 inventory def_ first ids count batch holds typed
  have words : def_.lookup.firstFreeId + count ≤ 2 ^ 64 := by lia
  obtain ⟨isDefined, stored, -, storedHolds, -, isSubst⟩ := sound
  obtain ⟨sameDefine, sameUndefined, sameOk⟩ :=
    defineUntrustedBatch_eq varint u8 inventory def_ first ids count batch large
  rw [sameDefine] at storedHolds
  have defined := fun undefined => isDefined (sameUndefined.mpr undefined)
  refine guarded_of_not_duplicate words ready (Nat.zero_add count) defined
    storedHolds.not_duplicate (fun final isFinal => ?_)
  by_contra wraps
  -- The first id of a range that wraps around would have to be the id of a stored fact.
  have steps : Guarded varint u8 inventory first ids True count 0 (.start def_ first count batch) :=
    guarded_of_not_duplicate words ready (Nat.zero_add count) defined storedHolds.not_duplicate
      (fun _ _ => trivial)
  obtain ⟨-, known, -, knownHolds, -, finishes⟩ :=
    defineFacts_finishes words ready (Nat.zero_add count) steps
  obtain ⟨-, -, isReady, -⟩ := finishes final isFinal
  obtain ⟨clauses, -, length, denotes⟩ := isSubst final.subst ((sameOk _).mpr ⟨final, isFinal, rfl⟩)
  cases clauses with
  | nil => exact wraps (.inl length.symm)
  | cons clause clauses =>
      obtain ⟨fact, member, isId, -⟩ := denotes 0 clause.1 clause.2 rfl
      have isBase := Substitution.subst_base (isReady.base.symm ▸ isWord)
        (isReady.length.symm ▸ by lia) (by rw [isReady.base, isReady.length]; lia)
      rw [isReady.base] at isBase
      rw [isBase] at isId
      have isKnown : fact ∈ known :=
        knownHolds.lookup.factById.mp (storedHolds.lookup.factById.mpr member)
      have inside := (isReady.holds.lookup.inside fact isKnown).2
      have bound := isReady.room
      lia

end Sound

/-- A batch is sound if and only if the loop is guarded, and the range of the substitution does not
wrap around if the batch is read to its end.
-/
theorem defineUntrustedBatch_sound (holds : def_.Holds facts)
    (typed : WellTyped varint u8 inventory facts) (isWord : first < 2 ^ 64)
    (room : def_.lookup.firstFreeId + 2 * count ≤ 2 ^ 64)
    : Sound varint u8 inventory facts first ids count batch
        (defineUntrustedBatch varint u8 inventory def_ first ids count batch)
      ↔ (Id.lowest ≤ first →
        Guarded varint u8 inventory first ids (count = 0 ∨ first + count < 2 ^ 64) count 0
          (.start def_ first count batch)) := by
  constructor
  · intro sound large
    exact guarded_of_sound holds typed isWord room large sound
  · intro guarded
    by_cases small : first < Id.lowest
    · rw [defineUntrustedBatch, if_pos small]
      refine ⟨by simp, facts, subset_rfl, holds, typed, fun subst isOk => ?_⟩
      cases isOk
    · have large := Nat.le_of_not_lt small
      exact sound_of_guarded holds typed (by lia) large (guarded large)

/-- A predicate of numbered nodes that may have a parent. -/
def nodeInventory : Inventory where
  firstId := 1024
  preds := [some ⟨"example.Node", 1, .byte, .maybe (.predicate 1024)⟩]
  bounded := by decide
  valid := by
    intro index _ _ isInvalid
    exact absurd (Nat.eq_zero_of_add_eq_zero_right isInvalid) (by decide)
  refers := by
    intro predicate member
    obtain rfl := Option.some.inj (List.mem_singleton.mp member)
    exact ⟨trivial, trivial, (by decide : (1024 : Pid) ≠ Pid.invalid), trivial⟩

/-- A database with one node. -/
def nodeBase : FactSet :=
  (FactSet.new 1024 Id.invalid_lt_1024).push 1024 ⟨[0], [0]⟩ Pid.firstFree_lt_limit
    (by simp [FactSet.new, FactSet.bucket])

def nodeStore : Define :=
  .stacked nodeBase.lookup (.factSet (.new 1025 Id.invalid_lt_1025))

def nodeFacts : Set Fact :=
  {⟨1024, 1024, ⟨[0], [0]⟩⟩}

theorem nodeStore_holds : nodeStore.Holds nodeFacts := by
  have members : nodeBase.members = nodeFacts := by
    ext fact
    simp [nodeBase, nodeFacts, FactSet.members, FactSet.push, FactSet.new, FactSet.firstFreeId]
  have isBase : nodeBase.lookup.Holds nodeFacts := by
    rw [← members]
    refine FactSet.lookup_holds nodeBase (fun fact member => ?_)
    have isNode : fact ∈ nodeFacts := members ▸ member
    obtain rfl := isNode
    simp [Pid.invalid]
  have isUpper : (Define.factSet (.new 1025 (by decide))).Holds (FactSet.new 1025 (by decide)).members :=
    .factSet (by simp [FactSet.new])
  have stacked := Define.Holds.stacked isBase isUpper (by decide)
    (fun _ _ _ fact member => by cases member)
  have same : {fact ∈ nodeFacts | fact.id < Define.mid (.factSet (.new 1025 (by decide)))}
      ∪ (FactSet.new 1025 (by decide)).members = nodeFacts := by
    ext fact
    constructor
    · rintro (⟨member, -⟩ | member)
      · exact member
      · cases member
    · rintro rfl
      exact .inl ⟨rfl, by decide⟩
  rw [same] at stacked
  exact stacked

theorem nodeFacts_wellTyped : WellTyped .folly .ascii nodeInventory nodeFacts := by
  rintro fact rfl
  refine ⟨⟨"example.Node", 1, .byte, .maybe (.predicate 1024)⟩, .byte 0, .alt 0 (.tuple []), rfl,
    .byte, .alt (by decide) rfl (.tuple .nil), ?_⟩
  rfl

/-- The bytes of a new node. -/
def nodeBatch : Bytes :=
  [128, 8, 1, 1, 1, 0]

/-- The bytes of a new node, and of the node in the database with the new one as its parent. -/
def nodesBatch : Bytes :=
  nodeBatch ++ [128, 8, 1, 3, 0, 1, 129, 8]

theorem defineUntrustedBatch_sound_node
    : Sound .folly .ascii nodeInventory nodeFacts 1025 (fun _ => Id.invalid) 1 nodeBatch
        (defineUntrustedBatch .folly .ascii nodeInventory nodeStore 1025 (fun _ => Id.invalid) 1
          nodeBatch) := by
  refine (defineUntrustedBatch_sound nodeStore_holds nodeFacts_wellTyped (by decide)
    (by decide)).mpr (fun _ => ?_)
  have renamed : renameFact .folly .ascii nodeInventory (.start nodeStore 1025 1 nodeBatch)
      = .ok ⟨1024, ⟨"example.Node", 1, .byte, .maybe (.predicate 1024)⟩, ⟨[1], [0]⟩, Id.invalid, [],
          rfl⟩ := rfl
  refine ⟨by simp [renamed], ?_, fun _ _ => .inr (by decide)⟩
  rw [renamed]
  rintro fact isFact -
  obtain rfl := Outcome.ok.inj isFact
  have missing : ¬ (nodeBase.lookup.idByKey 1024 [1] ≠ Id.invalid
      ∧ nodeBase.lookup.idByKey 1024 [1] < Define.mid (.factSet (.new 1025 (by decide)))) := by
    decide
  change ¬ (if _ then _ else False)
  rw [if_neg missing]
  exact not_false

/-- The second fact refers to the first one, which is not in the database, so that its key is not
looked up there, and the database gets another node with the key `0`.
-/
theorem defineUntrustedBatch_duplicate
    : nodeStore.Holds nodeFacts ∧ WellTyped .folly .ascii nodeInventory nodeFacts
      ∧ (defineUntrustedBatch .folly .ascii nodeInventory nodeStore 1025 (fun _ => Id.invalid) 2
          nodesBatch).2 = .ok ⟨1025, [1025, 1026]⟩
      ∧ ¬ Sound .folly .ascii nodeInventory nodeFacts 1025 (fun _ => Id.invalid) 2 nodesBatch
          (defineUntrustedBatch .folly .ascii nodeInventory nodeStore 1025 (fun _ => Id.invalid) 2
            nodesBatch) := by
  refine ⟨nodeStore_holds, nodeFacts_wellTyped, by rfl, ?_⟩
  rintro ⟨-, stored, -, holds, -⟩
  refine holds.not_duplicate ⟨1024, 1026, 1024, ⟨[0], [0]⟩, ⟨[0], [1, 129, 8]⟩, ?_, ?_, ?_, ?_, ?_, ?_⟩
  · decide
  · decide
  · decide
  · rfl
  · rfl
  · rfl

end Batch

end Glean.RTS
