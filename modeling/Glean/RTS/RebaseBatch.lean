import Glean.RTS.Rebase

/-! Defining a batch on top of a fact set and a cache of the server's facts, which others change
meanwhile (`Glean.Write.SendAndRebaseQueue.rebase`).
-/

namespace Glean.RTS

/-- `LookupCache.withCache EmptyLookup`, for the facts that the cache has at some time. -/
def cacheLookup (facts : List Fact) : Lookup :=
  { EmptyLookup with
    idByKey := fun type key =>
      ((facts.find? (fun fact => fact.type = type ∧ fact.key = key)).map Fact.id).getD Id.invalid
    typeById := fun id => ((facts.find? (fun fact => fact.id = id)).map Fact.type).getD Pid.invalid
    factById := fun id =>
      (facts.find? (fun fact => fact.id = id)).map (fun fact => (fact.type, fact.clause)) }

/-- The fact set that new facts go to. -/
def Define.topSet : Define → FactSet
  | .factSet set => set
  | .stacked _ upper => upper.topSet

/-- `Thrift.Batch`; the id of a fact without a name is invalid. -/
structure Batch where
  first : Id
  ids : Nat → Id
  count : Nat
  facts : Bytes

section Rebase

variable (varint : Varint) (u8 : U8Next) (inventory : Inventory)

/-- `stacked (stacked lookup base) factSet` -/
def rebaseDefine (base : FactSet) (cached : List Fact) (factSet : FactSet) : Define :=
  .stacked (Stacked (cacheLookup cached) base.lookup) (.factSet factSet)

/-- The loop of `defineUntrustedBatch`; `cached` is what the cache has for each fact. -/
def rebaseFacts (base : FactSet) (cached : Nat → List Fact) (first : Id) (ids : Nat → Id)
    : Nat → Nat → BatchState → Outcome BatchState
  | 0, _, state => .ok state
  | count + 1, index, state => do
      let next ← (defineFact varint u8 inventory first ids index
        { state with def_ := rebaseDefine base (cached index) state.def_.topSet }).2
      rebaseFacts base cached first ids count (index + 1) next

/-- `rebase`: the new facts of a batch, with ids from the first free one of the base on. -/
def rebaseBatch (base : FactSet) (cached : Nat → List Fact) (batch : Batch)
    : Outcome (FactSet × Substitution) :=
  if batch.first < Id.lowest then
    .error ("invalid base id " ++ toString batch.first ++ " in batch")
  else
    let factSet := FactSet.new base.firstFreeId (base.positive.trans_le (Nat.le_add_right _ _))
    match rebaseFacts varint u8 inventory base cached batch.first batch.ids batch.count 0
      ⟨rebaseDefine base (cached 0) factSet, .new batch.first batch.count, [], batch.facts⟩ with
    | .ok state => .ok (state.def_.topSet, state.subst)
    | .error message => .error message
    | .undefined => .undefined

end Rebase

/-- The answers of a lookup are about known facts. It need not have them all. -/
structure Lookup.Tells (lookup : Lookup) (known : Set Fact) : Prop where
  typeById
    : ∀ {id}, lookup.typeById id ≠ Pid.invalid →
        ∃ fact ∈ known, fact.id = id ∧ fact.type = lookup.typeById id
  factById : ∀ {id type clause}, lookup.factById id = some (type, clause) → ⟨id, type, clause⟩ ∈ known
  idByKey
    : ∀ {type key}, lookup.idByKey type key ≠ Id.invalid →
        ∃ fact ∈ known, fact.id = lookup.idByKey type key ∧ fact.type = type ∧ fact.key = key
          ∧ (lookup.factById fact.id).isSome

variable {varint : Varint} {u8 : U8Next} {inventory : Inventory} {known below above : Set Fact}

theorem Lookup.Holds.tells {lookup : Lookup} (holds : lookup.Holds known) : lookup.Tells known where
  typeById isType := by
    obtain ⟨fact, member, isId⟩ := holds.unknown isType
    exact ⟨fact, member, isId, by rw [← isId, holds.typeById fact member]⟩
  factById found := holds.factById.mp found
  idByKey found := by
    obtain ⟨fact, member, isType, isKey, isId⟩ := holds.of_idByKey found
    refine ⟨fact, member, isId.symm, isType, isKey, ?_⟩
    exact Option.isSome_of_eq_some (holds.factById.mpr member)

theorem tells_cacheLookup {facts : List Fact} (areKnown : ∀ fact ∈ facts, fact ∈ known)
    : (cacheLookup facts).Tells known where
  typeById {id} isType := by
    change ((facts.find? (fun fact => fact.id = id)).map Fact.type).getD Pid.invalid ≠ _ at isType
    change ∃ fact ∈ known, fact.id = id
      ∧ fact.type = ((facts.find? (fun fact => fact.id = id)).map Fact.type).getD Pid.invalid
    cases found : facts.find? (fun fact => fact.id = id) with
    | none =>
        rw [found] at isType
        exact absurd rfl isType
    | some fact =>
        exact ⟨fact, areKnown fact (List.mem_of_find?_eq_some found), by simpa using List.find?_some found, rfl⟩
  factById {id type clause} isFact := by
    obtain ⟨⟨otherId, otherType, otherClause⟩, found, same⟩ := Option.map_eq_some_iff.mp isFact
    cases same
    obtain rfl : otherId = id := by simpa using List.find?_some found
    exact areKnown _ (List.mem_of_find?_eq_some found)
  idByKey {type key} isId := by
    change ((facts.find? (fun fact => fact.type = type ∧ fact.key = key)).map Fact.id).getD Id.invalid
      ≠ _ at isId
    change ∃ fact ∈ known, fact.id
        = ((facts.find? (fun fact => fact.type = type ∧ fact.key = key)).map Fact.id).getD Id.invalid
      ∧ fact.type = type ∧ fact.key = key ∧ ((facts.find? (fun other => other.id = fact.id)).map _).isSome
    cases found : facts.find? (fun fact => fact.type = type ∧ fact.key = key) with
    | none =>
        rw [found] at isId
        exact absurd rfl isId
    | some fact =>
        have member := List.mem_of_find?_eq_some found
        obtain ⟨isType, isKey⟩ : fact.type = type ∧ fact.key = key := by simpa using List.find?_some found
        refine ⟨fact, areKnown fact member, rfl, isType, isKey, ?_⟩
        rw [Option.isSome_map, List.find?_isSome]
        exact ⟨fact, member, by simp⟩

/-- A fact set on top of a lookup. -/
theorem Stacked.tells {base stacked : Lookup} (isBase : base.Tells below) (isUpper : stacked.Holds above)
    : (Stacked base stacked).Tells ({fact ∈ below | fact.id < stacked.startingId} ∪ above) where
  typeById {id} isType := by
    change (if id < stacked.startingId then base.typeById id else stacked.typeById id) ≠ _ at isType
    change ∃ fact : Fact, fact ∈ _ ∧ fact.id = id
      ∧ fact.type = if id < stacked.startingId then base.typeById id else stacked.typeById id
    split at isType
    next small =>
      obtain ⟨fact, member, isId, sameType⟩ := isBase.typeById isType
      exact ⟨fact, .inl ⟨member, isId ▸ small⟩, isId, by rw [if_pos small, sameType]⟩
    next large =>
      obtain ⟨fact, member, isId, sameType⟩ := isUpper.tells.typeById isType
      exact ⟨fact, .inr member, isId, by rw [if_neg large, sameType]⟩
  factById {id type clause} found := by
    change (if id < stacked.startingId then base.factById id else stacked.factById id) = _ at found
    split at found
    next small => exact .inl ⟨isBase.factById found, small⟩
    next => exact .inr (isUpper.tells.factById found)
  idByKey {type key} found := by
    change (if stacked.idByKey type key ≠ Id.invalid then stacked.idByKey type key
      else if base.idByKey type key < stacked.startingId then base.idByKey type key
        else Id.invalid) ≠ _ at found
    change ∃ fact : Fact, fact ∈ _ ∧ fact.id = (if stacked.idByKey type key ≠ Id.invalid then stacked.idByKey type key
        else if base.idByKey type key < stacked.startingId then base.idByKey type key else Id.invalid)
      ∧ fact.type = type ∧ fact.key = key
      ∧ (if fact.id < stacked.startingId then base.factById fact.id else stacked.factById fact.id).isSome
    split at found
    next inUpper =>
      obtain ⟨fact, member, isId, isType, isKey, isSome⟩ := isUpper.tells.idByKey inUpper
      refine ⟨fact, .inr member, by rw [if_pos inUpper, isId], isType, isKey, ?_⟩
      rwa [if_neg (Nat.not_lt.mpr (isUpper.inside fact member).1)]
    next notUpper =>
      split at found
      next small =>
        obtain ⟨fact, member, isId, isType, isKey, isSome⟩ := isBase.idByKey found
        refine ⟨fact, .inl ⟨member, isId ▸ small⟩, by rw [if_neg notUpper, if_pos small, isId], isType,
          isKey, ?_⟩
        rwa [if_pos (isId ▸ small)]
      next => exact absurd rfl found

/-- Facts that are well typed, below an id. -/
structure Basis (varint : Varint) (u8 : U8Next) (inventory : Inventory) (known : Set Fact) (bound : Id)
    : Prop where
  typed : WellTyped varint u8 inventory known
  unique : ∀ left ∈ known, ∀ right ∈ known, left.id = right.id → left = right
  valid : ∀ fact ∈ known, fact.id ≠ Id.invalid ∧ fact.type ≠ Pid.invalid
  below : ∀ fact ∈ known, fact.id < bound

/-- A fact with the next id. -/
theorem Basis.insert {bound : Id} {fact : Fact} (basis : Basis varint u8 inventory known bound)
    (typed : fact.WellTyped varint u8 inventory known) (isId : fact.id = bound)
    (valid : fact.id ≠ Id.invalid ∧ fact.type ≠ Pid.invalid)
    : Basis varint u8 inventory (insert fact known) (bound + 1) where
  typed := basis.typed.insert typed
  unique := by
    rintro left (rfl | isLeft) right (rfl | isRight) same
    · rfl
    · exact absurd (same.symm.trans isId) (basis.below right isRight).ne
    · exact absurd (same.trans isId) (basis.below left isLeft).ne
    · exact basis.unique left isLeft right isRight same
  valid := by
    rintro other (rfl | member)
    · exact valid
    · exact basis.valid other member
  below := by
    rintro other (rfl | member)
    · exact Nat.lt_succ_of_le isId.le
    · exact (basis.below other member).trans (Nat.lt_succ_self _)

section Step

variable {base : Lookup} {upper : FactSet} {state next : BatchState} {first : Id} {ids : Nat → Id}
  {index : Nat}

/-- The fact with a key that the base finds, if it has the value that is wanted. -/
theorem baseId_known {mid : Id} {type : Pid} {clause : Clause} {id : Id} (tells : base.Tells known)
    (unique : ∀ left ∈ known, ∀ right ∈ known, left.id = right.id → left = right)
    (emptyValue : ∀ fact ∈ known, fact.type = type → clause.value = [] → fact.value = [])
    (found : Define.baseId base mid type clause = some id) (valid : id ≠ Id.invalid)
    : ∃ fact ∈ known, fact.id = id ∧ fact.type = type ∧ fact.key = clause.key
      ∧ fact.value = clause.value := by
  rw [Define.baseId] at found
  split at found
  next isFound =>
    obtain ⟨fact, member, isId, isType, isKey, isSome⟩ := tells.idByKey isFound.1
    split at found
    next hasValue =>
      obtain ⟨⟨storedType, stored⟩, isStored⟩ := Option.isSome_iff_exists.mp isSome
      have same := unique _ (tells.factById isStored) fact member rfl
      rw [isId] at isStored
      rw [isStored] at found
      dsimp only at found
      split at found
      next => exact absurd (Option.some.inj found).symm valid
      next sameValue =>
        refine ⟨fact, member, isId.trans (Option.some.inj found), isType, isKey, ?_⟩
        rw [not_not.mp sameValue, ← same]
        rfl
    next noValue =>
      have isEmpty : clause.value = [] := not_not.mp noValue
      refine ⟨fact, member, isId.trans (Option.some.inj found), isType, isKey, ?_⟩
      rw [isEmpty, emptyValue fact member isType isEmpty]
  next => cases found

/-- `define` finds a known fact, or appends a new one. -/
theorem define_known {type : Pid} {bounded : type < Pid.limit} {clause : Clause} {maxRef id : Id}
    {after : Define} (tells : base.Tells known)
    (unique : ∀ left ∈ known, ∀ right ∈ known, left.id = right.id → left = right)
    (emptyValue : ∀ fact ∈ known, fact.type = type → clause.value = [] → fact.value = [])
    (defined : Define.define type bounded clause maxRef (.stacked base (.factSet upper)) = .ok (after, id))
    (valid : id ≠ Id.invalid)
    : (after = .stacked base (.factSet upper) ∧ ∃ fact ∈ known ∪ upper.members, fact.id = id
        ∧ fact.type = type ∧ fact.key = clause.key ∧ fact.value = clause.value)
      ∨ ∃ grown : FactSet, after = .stacked base (.factSet grown) ∧ grown.startingId = upper.startingId
          ∧ id = upper.firstFreeId ∧ grown.facts = upper.facts ++ [⟨id, type, clause⟩] := by
  rw [Define.define] at defined
  split at defined
  next found isFound =>
    cases defined
    split at isFound
    next =>
      obtain ⟨fact, member, isFact⟩ := baseId_known tells unique emptyValue isFound valid
      exact .inl ⟨rfl, fact, .inl member, isFact⟩
    next => cases isFound
  next =>
    rw [Define.define] at defined
    cases isDefined : upper.define type bounded clause with
    | error message =>
        rw [isDefined] at defined
        cases defined
    | ok result =>
        obtain ⟨grown, newId⟩ := result
        rw [isDefined] at defined
        cases defined
        rcases FactSet.define_cases isDefined with ⟨rfl, fact, member, isType, isKey, isId⟩ | ⟨isStart, rfl, isFacts⟩
        · split at isId
          next sameValue => exact .inl ⟨rfl, fact, .inr member, isId.symm, isType, isKey, sameValue.symm⟩
          next => exact absurd isId valid
        · exact .inr ⟨grown, rfl, isStart, rfl, isFacts⟩

/-- What the loop does to one fact, if the base tells of known facts. -/
theorem defineFact_known (isDef : state.def_ = .stacked base (.factSet upper))
    (tells : base.Tells known)
    (basis : Basis varint u8 inventory (known ∪ upper.members) upper.firstFreeId)
    (words : upper.firstFreeId ≤ 2 ^ 64)
    (defined : (defineFact varint u8 inventory first ids index state).2 = .ok next)
    : ∃ type clause id, ∃ after : FactSet,
        Fact.deserialize varint state.input = .ok (type, clause, next.input)
        ∧ next.def_ = .stacked base (.factSet after) ∧ after.startingId = upper.startingId
        ∧ (∀ fact ∈ upper.facts, fact ∈ after.facts) ∧ after.facts.length ≤ upper.facts.length + 1
        ∧ next.subst = state.subst.setAt index id
        ∧ next.idmap = (if ids index ≠ Id.invalid then
            (ids index, (first + index) % 2 ^ 64) :: state.idmap
          else
            state.idmap)
        ∧ Basis varint u8 inventory (known ∪ after.members) after.firstFreeId
        ∧ DenotesFact varint u8 inventory (known ∪ after.members) state.change type clause id := by
  have validUpper : ∀ fact ∈ upper.facts, fact.type ≠ Pid.invalid :=
    fun fact member => (basis.valid fact (.inr member)).2
  have lookupTells := Stacked.tells tells (upper.lookup_holds validUpper)
  have subset : {fact ∈ known | fact.id < upper.lookup.startingId} ∪ upper.members
      ⊆ known ∪ upper.members := Set.union_subset_union_left _ (Set.sep_subset _ _)
  have isLookup : state.def_.lookup = Stacked base upper.lookup := by
    rw [isDef]
    rfl
  have refers : ∀ {id pid maxRef result after}, pid ≠ Pid.invalid →
      renamer inventory state.def_ state.subst state.idmap id pid maxRef = .ok (result, after) →
      result = state.change id ∧ result < 2 ^ 64
        ∧ Earlier (known ∪ upper.members) upper.firstFreeId pid result := by
    intro id pid maxRef result after valid renamed
    rw [renamer] at renamed
    split at renamed
    next isType =>
      cases renamed
      rw [isLookup] at isType
      obtain ⟨fact, member, isId, sameType⟩ := lookupTells.typeById (isType.trans_ne valid)
      have small := basis.below fact (subset member)
      rw [isId] at small
      exact ⟨rfl, small.trans_le words, small, fact, subset member, isId, sameType.trans isType⟩
    next =>
      split at renamed
      next => cases renamed
      next => split at renamed <;> cases renamed
  rw [defineFact] at defined
  cases renamed : renameFact varint u8 inventory state with
  | error message =>
      rw [renamed] at defined
      cases defined
  | undefined =>
      rw [renamed] at defined
      cases defined
  | ok fact =>
      rw [renamed] at defined
      dsimp only at defined
      obtain ⟨clause, key, value, isRead, readsKey, readsValue, keyType, valueType, isClause⟩ :=
        renameFact_eq_ok_of refers renamed
      obtain ⟨-, bounded, validType⟩ := Inventory.mem_of_lookupPredicate fact.found
      have emptyValue : ∀ stored ∈ known, stored.type = fact.type → fact.clause.value = [] →
          stored.value = [] := by
        intro stored member sameType isEmpty
        obtain ⟨predicate, _, _, isPredicate, _, storedType, isStored⟩ := basis.typed stored (.inl member)
        obtain rfl := Option.some.inj (isPredicate.symm.trans (sameType ▸ fact.found))
        rw [isClause] at isEmpty
        rw [Fact.value, isStored]
        exact encodeValue_eq_nil _ _ valueType storedType isEmpty
      have unique : ∀ left ∈ known, ∀ right ∈ known, left.id = right.id → left = right :=
        fun left isLeft right isRight => basis.unique left (.inl isLeft) right (.inl isRight)
      cases isDefined : state.def_.define fact.type bounded fact.clause fact.maxRef with
      | error message =>
          rw [isDefined] at defined
          cases defined
      | ok result =>
          obtain ⟨def_, id⟩ := result
          rw [isDefined] at defined
          dsimp only at defined
          split at defined
          next => cases defined
          next valid =>
            cases defined
            rw [isDef] at isDefined
            rcases define_known tells unique emptyValue isDefined valid with
              ⟨rfl, stored, member, rfl, sameType, sameKey, sameValue⟩ | ⟨grown, rfl, isStart, rfl, isFacts⟩
            · have denotes := (basis.typed stored member).denotes member (sameType ▸ fact.found) readsKey
                readsValue keyType valueType (sameKey.trans (congrArg Clause.key isClause))
                (sameValue.trans (congrArg Clause.value isClause))
              exact ⟨fact.type, clause, stored.id, upper, isRead, rfl, rfl, fun _ member => member,
                Nat.le_succ _, rfl, rfl, basis, sameType ▸ denotes⟩
            · let added : Fact := ⟨upper.firstFreeId, fact.type, fact.clause⟩
              have members : known ∪ grown.members = insert added (known ∪ upper.members) := by
                ext other
                simp [FactSet.members, isFacts, added, or_assoc, or_comm, or_left_comm]
              have isTyped : added.WellTyped varint u8 inventory (known ∪ upper.members) :=
                ⟨fact.predicate, _, _, fact.found, keyType, valueType, isClause⟩
              have isGrown : grown.firstFreeId = upper.firstFreeId + 1 := by
                rw [FactSet.firstFreeId, FactSet.firstFreeId, isStart, isFacts, List.length_append]
                rfl
              have larger := basis.insert isTyped rfl ⟨valid, validType⟩
              have denotes := (isTyped.mono (Set.subset_insert _ _)).denotes (.inl rfl) fact.found readsKey
                readsValue keyType valueType (congrArg Clause.key isClause)
                (congrArg Clause.value isClause)
              refine ⟨fact.type, clause, upper.firstFreeId, grown, isRead, rfl, isStart, fun _ member => ?_,
                ?_, rfl, rfl, ?_, ?_⟩
              · rw [isFacts]
                exact List.mem_append_left _ member
              · rw [isFacts, List.length_append]
                rfl
              · rw [members, isGrown]
                exact larger
              · rw [members]
                exact denotes

end Step

section Loop

variable {server : Set Fact} {base upper : FactSet} {cached : Nat → List Fact} {first : Id}
  {ids : Nat → Id} {count index total : Nat} {state final : BatchState}

/-- What the loop has done when it ends. -/
structure BatchRebased (varint : Varint) (u8 : U8Next) (inventory : Inventory) (known : Set Fact)
    (upper : FactSet) (first : Id) (ids : Nat → Id) (count index : Nat) (state final : BatchState)
    : Prop where
  startingId : final.def_.topSet.startingId = upper.startingId
  subset : ∀ fact ∈ upper.facts, fact ∈ final.def_.topSet.facts
  length : final.def_.topSet.facts.length ≤ upper.facts.length + count
  basis
    : Basis varint u8 inventory (known ∪ final.def_.topSet.members) final.def_.topSet.firstFreeId
  extends_ : state.subst.Extends final.subst
  denotes
    : ∃ clauses, deserializeBatch varint count state.input = .ok clauses ∧ clauses.length = count
        ∧ DenotesAll varint u8 inventory first ids (known ∪ final.def_.topSet.members) final.subst index
          clauses

theorem rebaseFacts_eq_ok (areCached : ∀ index, ∀ fact ∈ cached index, fact ∈ server)
    (isUpper : state.def_.topSet = upper)
    (basis : Basis varint u8 inventory (Known server base ∪ upper.members) upper.firstFreeId)
    (words : upper.firstFreeId + count ≤ 2 ^ 64) (isTotal : index + count = total)
    (length : state.subst.items.length = total)
    (unset : ∀ later, index ≤ later → later < total → state.subst.items[later]? = some Id.invalid)
    (names : state.idmap = namesBefore first ids index)
    (rebased : rebaseFacts varint u8 inventory base cached first ids count index state = .ok final)
    : BatchRebased varint u8 inventory (Known server base) upper first ids count index state final := by
  induction count generalizing upper index state with
  | zero =>
      cases rebased
      rw [← isUpper] at basis ⊢
      refine ⟨rfl, fun _ member => member, le_rfl, basis, .refl _, [], rfl, rfl, ?_⟩
      intro offset type clause isClause
      cases isClause
  | succ count ih =>
      obtain ⟨next, defined, isRest⟩ := Outcome.bind_eq_ok.mp rebased
      have validBase : ∀ fact ∈ base.facts, fact.type ≠ Pid.invalid :=
        fun fact member => (basis.valid fact (.inl (.inr member))).2
      have tells : (Stacked (cacheLookup (cached index)) base.lookup).Tells (Known server base) :=
        Stacked.tells (tells_cacheLookup (areCached index)) (base.lookup_holds validBase)
      let current : BatchState :=
        { state with def_ := rebaseDefine base (cached index) state.def_.topSet }
      have isCurrent : current.def_
          = .stacked (Stacked (cacheLookup (cached index)) base.lookup) (.factSet upper) := by
        rw [← isUpper]
        rfl
      obtain ⟨type, clause, id, grown, isRead, isDef, isStart, subset, larger, isSubst, isNames, grownBasis,
        denotes⟩ := defineFact_known isCurrent tells basis (by lia) defined
      have isTop : next.def_.topSet = grown := by
        rw [isDef]
        rfl
      have isValid : id ≠ Id.invalid := by
        obtain ⟨stored, member, isId, _⟩ := denotes
        exact isId ▸ (grownBasis.valid stored member).1
      have extendsNext : state.subst.Extends next.subst := by
        rw [isSubst]
        exact Substitution.extends_setAt (unset index le_rfl (by lia)) id
      have isItem : next.subst.items[index]? = some id := by
        rw [isSubst]
        exact List.getElem?_set_self (by lia)
      have result := ih isTop grownBasis (by rw [FactSet.firstFreeId] at words ⊢; lia) (by lia)
        (extendsNext.length.trans length)
        (fun later large small => by
          rw [isSubst]
          exact (List.getElem?_set_ne (by lia)).trans (unset later (by lia) small))
        (by rw [isNames, namesBefore, ← names])
        isRest
      obtain ⟨clauses, areRead, isCount, denotesAll⟩ := result.denotes
      have grows : Known server base ∪ grown.members ⊆ Known server base ∪ final.def_.topSet.members :=
        Set.union_subset_union_right _ result.subset
      have allExtends := extendsNext.trans result.extends_
      refine ⟨result.startingId.trans isStart, fun fact member => result.subset fact (subset fact member),
        by have := result.length; lia, result.basis, allExtends, (type, clause) :: clauses, ?_,
        congrArg (· + 1) isCount, ?_⟩
      · change Fact.deserialize varint state.input = _ at isRead
        rw [deserializeBatch, isRead, Outcome.ok_bind]
        dsimp only
        rw [areRead]
        rfl
      · intro offset otherType otherClause isClause
        cases offset with
        | zero =>
            cases isClause
            refine ⟨id, result.extends_.items isItem isValid, ?_⟩
            refine denotes.mono grows (fun fact member => (grownBasis.valid fact member).1)
              (fun ref isSet => ?_)
            change state.subst.subst (state.idmap.get ref) ≠ _ at isSet
            change _ = state.subst.subst (state.idmap.get ref)
            rw [names] at isSet ⊢
            exact allExtends.subst isSet
        | succ offset =>
            have inOthers := denotesAll offset otherType otherClause isClause
            rwa [Nat.succ_add_eq_add_succ] at inOthers

/-- The facts that a fact set knows. -/
theorem Known.basis (store : Store varint u8 inventory server)
    (typed : ∀ fact ∈ base.facts, fact.WellTyped varint u8 inventory (Known server base))
    : Basis varint u8 inventory (Known server base) base.firstFreeId where
  typed := by
    rintro fact (⟨isStored, low⟩ | isOwn)
    · refine (store.typed fact isStored).narrow (fun other isOther smaller => ?_)
      exact .inl ⟨isOther, smaller.trans low⟩
    · exact typed fact isOwn
  unique := by
    have inside := fun fact (member : fact ∈ base.facts) => (base.mem_bounds member).1
    rintro left (⟨leftStored, leftLow⟩ | leftOwn) right (⟨rightStored, rightLow⟩ | rightOwn) same
    · exact store.unique left leftStored right rightStored same
    · exact absurd (same ▸ leftLow) (Nat.not_lt.mpr (inside right rightOwn))
    · exact absurd (same ▸ rightLow) (Nat.not_lt.mpr (inside left leftOwn))
    · have found := FactSet.fact?_eq_some.mpr ⟨leftOwn, rfl⟩
      rw [same, FactSet.fact?_eq_some.mpr ⟨rightOwn, rfl⟩] at found
      exact (Option.some.inj found).symm
  valid := by
    rintro fact (⟨isStored, -⟩ | isOwn)
    · exact store.valid fact isStored
    · obtain ⟨predicate, _, _, isPredicate, _⟩ := typed fact isOwn
      have large := base.positive.trans_le (base.mem_bounds isOwn).1
      exact ⟨large.ne', (Inventory.mem_of_lookupPredicate isPredicate).2.2⟩
  below := by
    rintro fact (⟨-, low⟩ | isOwn)
    · exact low.trans_le (Nat.le_add_right _ _)
    · exact (base.mem_bounds isOwn).2

end Loop

/-- Each fact of a batch denotes a known fact: `subst` gives its id when the batch was defined, and
`place` what this id has become.
-/
def DenotesBatch (varint : Varint) (u8 : U8Next) (inventory : Inventory) (known : Set Fact)
    (batch : Batch) (subst : Substitution) (place : Id → Id) : Prop :=
  ∃ clauses, deserializeBatch varint batch.count batch.facts = .ok clauses
    ∧ clauses.length = batch.count
    ∧ ∀ (offset : Nat) type clause, clauses[offset]? = some (type, clause) →
      ∃ id, subst.items[offset]? = some id
        ∧ DenotesFact varint u8 inventory known
          (fun ref => place (subst.subst ((namesBefore batch.first batch.ids offset).get ref))) type
          clause (place id)

section Batches

variable {server larger : Set Fact} {base factSet after : FactSet} {cached : Nat → List Fact}
  {batch : Batch} {subst : Substitution} {place : Id → Id}

theorem DenotesBatch.mono (denotes : DenotesBatch varint u8 inventory known batch subst place)
    (subset : known ⊆ larger) (valid : ∀ fact ∈ known, fact.id ≠ Id.invalid)
    : DenotesBatch varint u8 inventory larger batch subst place := by
  obtain ⟨clauses, areRead, length, all⟩ := denotes
  refine ⟨clauses, areRead, length, fun offset type clause isClause => ?_⟩
  obtain ⟨id, isItem, denotes⟩ := all offset type clause isClause
  exact ⟨id, isItem, denotes.mono subset valid (fun _ _ => rfl)⟩

/-- What is denoted changes its place. -/
theorem DenotesBatch.move (denotes : DenotesBatch varint u8 inventory known batch subst place)
    {rename : Id → Id}
    (moves : ∀ change type clause id, DenotesFact varint u8 inventory known change type clause id →
      DenotesFact varint u8 inventory larger (rename ∘ change) type clause (rename id))
    : DenotesBatch varint u8 inventory larger batch subst (rename ∘ place) := by
  obtain ⟨clauses, areRead, length, all⟩ := denotes
  refine ⟨clauses, areRead, length, fun offset type clause isClause => ?_⟩
  obtain ⟨id, isItem, denotes⟩ := all offset type clause isClause
  exact ⟨id, isItem, moves _ _ _ _ denotes⟩

/-- A batch that has been rebased and appended. -/
structure Appended (varint : Varint) (u8 : U8Next) (inventory : Inventory) (server : Set Fact)
    (base factSet after : FactSet) (batch : Batch) (subst : Substitution) : Prop where
  startingId : after.startingId = base.startingId
  facts : after.facts = base.facts ++ factSet.facts
  length : factSet.facts.length ≤ batch.count
  typed : ∀ fact ∈ after.facts, fact.WellTyped varint u8 inventory (Known server after)
  denotes : DenotesBatch varint u8 inventory (Known server after) batch subst id

theorem appended_rebaseBatch (store : Store varint u8 inventory server)
    (typed : ∀ fact ∈ base.facts, fact.WellTyped varint u8 inventory (Known server base))
    (areCached : ∀ index, ∀ fact ∈ cached index, fact ∈ server)
    (words : base.firstFreeId + batch.count ≤ 2 ^ 64)
    (rebased : rebaseBatch varint u8 inventory base cached batch = .ok (factSet, subst))
    (isAfter : base.append factSet = some after)
    : Appended varint u8 inventory server base factSet after batch subst := by
  rw [rebaseBatch] at rebased
  split at rebased
  next => cases rebased
  next =>
    let empty := FactSet.new base.firstFreeId (base.positive.trans_le (Nat.le_add_right _ _))
    have noMembers : Known server base ∪ empty.members = Known server base := by
      rw [Set.union_eq_left]
      rintro fact ⟨⟩
    have basis : Basis varint u8 inventory (Known server base ∪ empty.members) empty.firstFreeId := by
      rw [noMembers]
      exact Known.basis store typed
    dsimp only at rebased
    split at rebased
    next final isFinal =>
      cases rebased
      have done := rebaseFacts_eq_ok areCached rfl basis words (Nat.zero_add _)
        List.length_replicate
        (fun later _ small => List.getElem?_replicate_of_lt small) rfl isFinal
      obtain ⟨isStart, isFacts⟩ := FactSet.append_eq_some isAfter done.startingId
      have members : Known server after = Known server base ∪ final.def_.topSet.members := by
        ext fact
        simp [Known, FactSet.members, isStart, isFacts, or_assoc]
      refine ⟨isStart, isFacts, ?_, fun fact member => ?_, ?_⟩
      · exact done.length.trans (Nat.zero_add _).le
      · rw [members]
        refine done.basis.typed fact ?_
        rw [← members]
        exact .inr member
      · rw [members]
        obtain ⟨clauses, areRead, length, all⟩ := done.denotes
        refine ⟨clauses, areRead, length, fun offset type clause isClause => ?_⟩
        have here := all offset type clause isClause
        rwa [Nat.zero_add] at here
    next => cases rebased
    next => cases rebased

end Batches

end Glean.RTS
