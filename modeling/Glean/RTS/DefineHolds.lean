import Glean.RTS.Define

/-! What objects that define facts hold, and how `define` changes that.
-/

namespace Glean.RTS

/-- The lookups by id and by key answer for a set of facts. -/
structure Lookup.Holds (lookup : Lookup) (facts : Set Fact) : Prop where
  factById : ∀ {id type clause}, lookup.factById id = some (type, clause) ↔ ⟨id, type, clause⟩ ∈ facts
  typeById : ∀ fact ∈ facts, lookup.typeById fact.id = fact.type
  unknown : ∀ {id}, lookup.typeById id ≠ Pid.invalid → ∃ fact ∈ facts, fact.id = id
  idByKey : ∀ fact ∈ facts, lookup.idByKey fact.type fact.key = fact.id
  absent
    : ∀ {type key}, lookup.idByKey type key ≠ Id.invalid →
        ∃ fact ∈ facts, fact.type = type ∧ fact.key = key
  inside : ∀ fact ∈ facts, lookup.startingId ≤ fact.id ∧ fact.id < lookup.firstFreeId
  valid : ∀ fact ∈ facts, fact.id ≠ Id.invalid ∧ fact.type ≠ Pid.invalid

namespace Lookup.Holds

variable {lookup : Lookup} {facts : Set Fact}

theorem id_unique (holds : lookup.Holds facts) {left right : Fact} (isLeft : left ∈ facts)
    (isRight : right ∈ facts) (same : left.id = right.id)
    : left = right := by
  have found := holds.factById.mpr isLeft
  rw [same, holds.factById.mpr isRight] at found
  obtain ⟨leftId, leftType, leftClause⟩ := left
  obtain ⟨rightId, rightType, rightClause⟩ := right
  cases found
  cases same
  rfl

theorem key_unique (holds : lookup.Holds facts) {left right : Fact} (isLeft : left ∈ facts)
    (isRight : right ∈ facts) (sameType : left.type = right.type) (sameKey : left.key = right.key)
    : left = right := by
  refine holds.id_unique isLeft isRight ?_
  rw [← holds.idByKey left isLeft, sameType, sameKey, holds.idByKey right isRight]

/-- A fact of a type has an id of that type. -/
theorem typeById_eq (holds : lookup.Holds facts) {id : Id} {type : Pid} (valid : type ≠ Pid.invalid)
    (isType : lookup.typeById id = type)
    : ∃ fact ∈ facts, fact.id = id ∧ fact.type = type := by
  obtain ⟨fact, member, rfl⟩ := holds.unknown (isType.trans_ne valid)
  exact ⟨fact, member, rfl, (holds.typeById fact member).symm.trans isType⟩

/-- What is found by a key has that key. -/
theorem of_idByKey (holds : lookup.Holds facts) {type : Pid} {key : Bytes}
    (found : lookup.idByKey type key ≠ Id.invalid)
    : ∃ fact ∈ facts, fact.type = type ∧ fact.key = key ∧ lookup.idByKey type key = fact.id := by
  obtain ⟨fact, member, rfl, rfl⟩ := holds.absent found
  exact ⟨fact, member, rfl, rfl, holds.idByKey fact member⟩

end Lookup.Holds

namespace FactSet

variable (set : FactSet)

theorem fact?_eq_some {set : FactSet} {id : Id} {fact : Fact}
    : set.fact? id = some fact ↔ fact ∈ set.facts ∧ fact.id = id := by
  rw [fact?]
  constructor
  · intro found
    split at found
    next large =>
      obtain ⟨inside, rfl⟩ := List.getElem?_eq_some_iff.mp found
      refine ⟨List.getElem_mem inside, ?_⟩
      rw [set.id_getElem]
      lia
    next => cases found
  · rintro ⟨member, rfl⟩
    obtain ⟨low, high⟩ := set.mem_bounds member
    obtain ⟨index, inside, rfl⟩ := List.mem_iff_getElem.mp member
    have isId := set.id_getElem index inside
    have position : set.facts[index].id - set.startingId = index := by lia
    rw [if_pos low, position, List.getElem?_eq_getElem inside]

theorem lookup_holds (valid : ∀ fact ∈ set.facts, fact.type ≠ Pid.invalid)
    : set.lookup.Holds set.members where
  factById := by
    intro id type clause
    change (set.fact? id).map (fun fact => (fact.type, fact.clause)) = some (type, clause) ↔ _
    rw [Option.map_eq_some_iff]
    constructor
    · rintro ⟨⟨factId, factType, factClause⟩, found, same⟩
      cases same
      obtain ⟨member, rfl⟩ := fact?_eq_some.mp found
      exact member
    · intro member
      exact ⟨⟨id, type, clause⟩, fact?_eq_some.mpr ⟨member, rfl⟩, rfl⟩
  typeById := by
    intro fact member
    change set.typeById fact.id = _
    rw [FactSet.typeById, fact?_eq_some.mpr ⟨member, rfl⟩]
  unknown := by
    intro id known
    change set.typeById id ≠ _ at known
    rw [FactSet.typeById] at known
    split at known
    next fact found => exact ⟨fact, fact?_eq_some.mp found⟩
    next => exact absurd rfl known
  idByKey := by
    intro fact member
    change set.idByKey fact.type fact.key = _
    rw [FactSet.idByKey]
    split
    next other found =>
      have inBucket := (set.keyed fact.type other).mp (List.mem_of_find?_eq_some found)
      have sameKey : other.key = fact.key := by simpa using List.find?_some found
      have same : other = fact := by
        by_contra different
        have symmetric : Std.Symm (fun left right : Fact =>
            left.type = right.type → left.key ≠ right.key) :=
          ⟨fun _ _ apart types keys => apart types.symm keys.symm⟩
        exact set.distinctKeys.forall inBucket.1 member different inBucket.2 sameKey
      rw [same]
    next missing =>
      have inBucket := (set.keyed fact.type fact).mpr ⟨member, rfl⟩
      exact absurd (List.find?_eq_none.mp missing fact inBucket) (by simp)
  absent := by
    intro type key found
    change set.idByKey type key ≠ _ at found
    rw [FactSet.idByKey] at found
    split at found
    next fact isFound =>
      obtain ⟨member, isType⟩ := (set.keyed type fact).mp (List.mem_of_find?_eq_some isFound)
      exact ⟨fact, member, isType, by simpa using List.find?_some isFound⟩
    next => exact absurd rfl found
  inside := fun fact member => set.mem_bounds member
  valid := by
    intro fact member
    have low := (set.mem_bounds member).1
    have positive := set.positive
    exact ⟨by lia, valid fact member⟩

end FactSet

/-- The facts of a define object: those of a fact set, or those of the base below the starting id
of what is stacked on it and the facts of the latter, which have other keys.
-/
inductive Define.Holds : Define → Set Fact → Prop where
  | factSet {set : FactSet} (valid : ∀ fact ∈ set.facts, fact.type ≠ Pid.invalid)
      : Holds (.factSet set) set.members
  | stacked {base : Lookup} {upper : Define} {below above : Set Fact} (isBase : base.Holds below)
      (isUpper : upper.Holds above) (ordered : base.startingId ≤ upper.mid)
      (distinct : ∀ lower ∈ below, lower.id < upper.mid → ∀ fact ∈ above,
        fact.type = lower.type → fact.key ≠ lower.key)
      : Holds (.stacked base upper) ({fact ∈ below | fact.id < upper.mid} ∪ above)

theorem Stacked.holds {base stacked : Lookup} {below above : Set Fact} (isBase : base.Holds below)
    (isUpper : stacked.Holds above) (ordered : base.startingId ≤ stacked.startingId)
    (bounded : stacked.startingId ≤ stacked.firstFreeId)
    (distinct : ∀ lower ∈ below, lower.id < stacked.startingId → ∀ fact ∈ above,
      fact.type = lower.type → fact.key ≠ lower.key)
    : (Stacked base stacked).Holds ({fact ∈ below | fact.id < stacked.startingId} ∪ above) where
  factById := by
    intro id type clause
    change (if id < stacked.startingId then base.factById id else stacked.factById id) = _ ↔ _
    split
    next small =>
      rw [isBase.factById]
      constructor
      · intro member
        exact .inl ⟨member, small⟩
      · rintro (⟨member, -⟩ | member)
        · exact member
        · exact absurd (isUpper.inside _ member).1 (Nat.not_le.mpr small)
    next large =>
      rw [isUpper.factById]
      constructor
      · intro member
        exact .inr member
      · rintro (⟨-, small⟩ | member)
        · exact absurd small large
        · exact member
  typeById := by
    intro fact member
    change (if fact.id < stacked.startingId then base.typeById fact.id
      else stacked.typeById fact.id) = _
    rcases member with ⟨isBelow, small⟩ | isAbove
    · rw [if_pos small]
      exact isBase.typeById fact isBelow
    · rw [if_neg (Nat.not_lt.mpr (isUpper.inside fact isAbove).1)]
      exact isUpper.typeById fact isAbove
  unknown := by
    intro id known
    change (if id < stacked.startingId then base.typeById id else stacked.typeById id) ≠ _ at known
    split at known
    next small =>
      obtain ⟨fact, member, rfl⟩ := isBase.unknown known
      exact ⟨fact, .inl ⟨member, small⟩, rfl⟩
    next =>
      obtain ⟨fact, member, rfl⟩ := isUpper.unknown known
      exact ⟨fact, .inr member, rfl⟩
  idByKey := by
    intro fact member
    change (if stacked.idByKey fact.type fact.key ≠ Id.invalid then _ else _) = _
    rcases member with ⟨isBelow, small⟩ | isAbove
    · have isId := isBase.idByKey fact isBelow
      split
      next found =>
        obtain ⟨other, isOther, sameType, sameKey, -⟩ := isUpper.of_idByKey found
        exact absurd sameKey (distinct fact isBelow small other isOther sameType)
      next =>
        rw [isId]
        exact if_pos small
    · have isId := isUpper.idByKey fact isAbove
      rw [isId]
      exact if_pos (isUpper.valid fact isAbove).1
  absent := by
    intro type key found
    change (if stacked.idByKey type key ≠ Id.invalid then stacked.idByKey type key
      else if base.idByKey type key < stacked.startingId then base.idByKey type key
        else Id.invalid) ≠ _ at found
    split at found
    next =>
      obtain ⟨fact, member, isKey⟩ := isUpper.absent found
      exact ⟨fact, .inr member, isKey⟩
    next =>
      split at found
      next small =>
        obtain ⟨fact, member, isType, isKey, isId⟩ := isBase.of_idByKey found
        exact ⟨fact, .inl ⟨member, isId ▸ small⟩, isType, isKey⟩
      next => exact absurd rfl found
  inside := by
    rintro fact (⟨isBelow, small⟩ | isAbove)
    · exact ⟨(isBase.inside fact isBelow).1, small.trans_le bounded⟩
    · obtain ⟨low, high⟩ := isUpper.inside fact isAbove
      exact ⟨ordered.trans low, high⟩
  valid := by
    rintro fact (⟨isBelow, -⟩ | isAbove)
    · exact isBase.valid fact isBelow
    · exact isUpper.valid fact isAbove

namespace Define

variable {def_ : Define} {facts : Set Fact}

theorem Holds.startingId_le (holds : def_.Holds facts)
    : def_.lookup.startingId ≤ def_.lookup.firstFreeId := by
  induction holds with
  | factSet => exact Nat.le_add_right _ _
  | stacked _ _ ordered _ ih => exact ordered.trans ih

theorem Holds.lookup (holds : def_.Holds facts) : def_.lookup.Holds facts := by
  induction holds with
  | factSet valid => exact FactSet.lookup_holds _ valid
  | stacked isBase isUpper ordered distinct ih =>
      exact Stacked.holds isBase ih ordered isUpper.startingId_le distinct

/-- `Stacked<Define>::define` does not look for the key in the base, where it is: a reference to a
fact at or above the starting id makes it skip the base.
-/
def Hides (type : Pid) (key : Bytes) (maxRef : Id) : Define → Prop
  | .factSet _ => False
  | .stacked base upper =>
      if base.idByKey type key ≠ Id.invalid ∧ base.idByKey type key < upper.mid then
        upper.mid ≤ maxRef
      else
        upper.Hides type key maxRef

variable {type : Pid} {bounded : type < Pid.limit} {clause : Clause} {maxRef id : Id}
  {after : Define}

/-- A fact with a new key gets the first free id. -/
structure Adds (def_ : Define) (type : Pid) (clause : Clause) (facts : Set Fact) (after : Define)
    (id : Id) : Prop where
  isFree : id = def_.lookup.firstFreeId
  holds : after.Holds (insert ⟨id, type, clause⟩ facts)
  firstFreeId : after.lookup.firstFreeId = def_.lookup.firstFreeId + 1
  startingId : after.lookup.startingId = def_.lookup.startingId

theorem adds_factSet {set : FactSet} (valid : ∀ fact ∈ set.facts, fact.type ≠ Pid.invalid)
    (validType : type ≠ Pid.invalid) (missing : ∀ fact ∈ set.bucket type, fact.key ≠ clause.key)
    : Adds (.factSet set) type clause set.members (.factSet (set.push type clause bounded missing))
        set.firstFreeId := by
  have members : (set.push type clause bounded missing).members
      = insert ⟨set.firstFreeId, type, clause⟩ set.members := by
    ext fact
    simp [FactSet.members, FactSet.push, or_comm]
  refine ⟨rfl, ?_, ?_, rfl⟩
  · rw [← members]
    refine .factSet (fun fact member => ?_)
    rcases List.mem_append.mp member with old | new
    · exact valid fact old
    · obtain rfl := List.mem_singleton.mp new
      exact validType
  · change _ + (set.facts ++ [_]).length = _ + set.facts.length + 1
    simp [Nat.add_assoc]
    rfl

/-- Defining a fact whose key is new in the upper part of a stack. -/
theorem Adds.stacked {base : Lookup} {upper next : Define} {below above : Set Fact}
    (isBase : base.Holds below) (ordered : base.startingId ≤ upper.mid)
    (distinct : ∀ lower ∈ below, lower.id < upper.mid → ∀ fact ∈ above,
      fact.type = lower.type → fact.key ≠ lower.key)
    (adds : Adds upper type clause above next id)
    (isNew : ∀ lower ∈ below, lower.id < upper.mid → lower.type = type → lower.key ≠ clause.key)
    : Adds (.stacked base upper) type clause ({fact ∈ below | fact.id < upper.mid} ∪ above)
        (.stacked base next) id := by
  have sameMid : next.mid = upper.mid := adds.startingId
  refine ⟨adds.isFree, ?_, adds.firstFreeId, rfl⟩
  rw [← Set.union_insert, ← sameMid]
  refine .stacked isBase adds.holds (sameMid ▸ ordered) ?_
  rintro lower isBelow small fact (rfl | isAbove) sameType sameKey
  · exact isNew lower isBelow (sameMid ▸ small) sameType.symm sameKey.symm
  · exact distinct lower isBelow (sameMid ▸ small) fact isAbove sameType sameKey

/-- What `define` finds in the base. -/
theorem baseId_eq {base : Lookup} {below : Set Fact} {mid : Id} (isBase : base.Holds below)
    (finds : base.idByKey type clause.key ≠ Id.invalid ∧ base.idByKey type clause.key < mid)
    (emptyValue : ∀ fact ∈ below, fact.id < mid → fact.type = type → fact.key = clause.key →
      clause.value = [] → fact.value = [])
    : ∃ fact ∈ below, fact.id < mid ∧ fact.type = type ∧ fact.key = clause.key
        ∧ baseId base mid type clause
          = some (if clause.value = fact.value then fact.id else Id.invalid) := by
  obtain ⟨fact, member, isType, isKey, isId⟩ := isBase.of_idByKey finds.1
  have small : fact.id < mid := isId ▸ finds.2
  refine ⟨fact, member, small, isType, isKey, ?_⟩
  have found : base.factById fact.id = some (fact.type, fact.clause) := isBase.factById.mpr member
  have visible : fact.id ≠ Id.invalid ∧ fact.id < mid := ⟨(isBase.valid fact member).1, small⟩
  simp only [baseId, isId, found, if_pos visible]
  by_cases isEmpty : clause.value = []
  · rw [if_neg (not_not.mpr isEmpty), if_pos]
    rw [isEmpty, emptyValue fact member small isType isKey isEmpty]
  · rw [if_pos isEmpty]
    by_cases same : clause.value = fact.value
    · rw [if_pos same]
      exact congrArg some (if_neg (not_not.mpr same))
    · rw [if_neg same]
      exact congrArg some (if_pos same)

theorem baseId_eq_none {base : Lookup} {mid : Id}
    (missing : ¬ (base.idByKey type clause.key ≠ Id.invalid ∧ base.idByKey type clause.key < mid))
    : baseId base mid type clause = none := by
  simp only [baseId, if_neg missing]

/-- A fact whose key is known is found, and has its id if the values agree. -/
structure Finds (def_ : Define) (type : Pid) (clause : Clause) (facts : Set Fact) (after : Define)
    (id : Id) : Prop where
  same : after = def_
  found
    : ∃ fact ∈ facts, fact.type = type ∧ fact.key = clause.key
        ∧ id = if clause.value = fact.value then fact.id else Id.invalid

theorem define_factSet {set : FactSet} (valid : ∀ fact ∈ set.facts, fact.type ≠ Pid.invalid)
    (validType : type ≠ Pid.invalid)
    (defined : Define.define type bounded clause maxRef (.factSet set) = .ok (after, id))
    : Finds (.factSet set) type clause set.members after id
      ∨ (∀ fact ∈ set.members, fact.type = type → fact.key ≠ clause.key)
        ∧ Adds (.factSet set) type clause set.members after id := by
  rw [Define.define, FactSet.define] at defined
  split at defined
  next isDefined =>
    cases defined
    split at isDefined
    next => cases isDefined
    next =>
      split at isDefined
      next missing =>
        cases isDefined
        refine .inr ⟨fun fact member isType isKey => ?_, adds_factSet valid validType _⟩
        have inBucket := (set.keyed type fact).mpr ⟨member, isType⟩
        exact absurd (List.find?_eq_none.mp missing fact inBucket) (by simpa using isKey)
      next fact found =>
        cases isDefined
        obtain ⟨member, isType⟩ := (set.keyed type fact).mp (List.mem_of_find?_eq_some found)
        exact .inl ⟨rfl, fact, member, isType, by simpa using List.find?_some found, rfl⟩
  next => cases defined

theorem define_stacked {base : Lookup} {upper : Define}
    (defined : Define.define type bounded clause maxRef (.stacked base upper) = .ok (after, id))
    (skips : maxRef < upper.mid → baseId base upper.mid type clause = none)
    : ∃ next, upper.define type bounded clause maxRef = .ok (next, id)
        ∧ after = .stacked base next := by
  have nothing : (if maxRef < upper.mid then baseId base upper.mid type clause else none) = none := by
    split
    next small => exact skips small
    next => rfl
  rw [Define.define, nothing] at defined
  dsimp only at defined
  cases isDefined : Define.define type bounded clause maxRef upper with
  | error message =>
      rw [isDefined] at defined
      cases defined
  | ok result =>
      rw [isDefined] at defined
      cases defined
      exact ⟨result.1, rfl, rfl⟩

/-- A key that no fact below the upper part has is not found in the base. -/
theorem missing_of_absent {base : Lookup} {below : Set Fact} {mid : Id} (isBase : base.Holds below)
    (absent : ∀ lower ∈ below, lower.id < mid → lower.type = type → lower.key ≠ clause.key)
    : ¬ (base.idByKey type clause.key ≠ Id.invalid ∧ base.idByKey type clause.key < mid) := by
  intro finds
  obtain ⟨lower, isBelow, isType, isKey, isId⟩ := isBase.of_idByKey finds.1
  exact absent lower isBelow (isId ▸ finds.2) isType isKey

/-- `define` finds the fact with the key, or adds a new one. -/
theorem Holds.define (holds : def_.Holds facts) (validType : type ≠ Pid.invalid)
    (emptyValue : ∀ fact ∈ facts, fact.type = type → fact.key = clause.key → clause.value = [] →
      fact.value = [])
    (visible : ¬ def_.Hides type clause.key maxRef)
    (defined : def_.define type bounded clause maxRef = .ok (after, id))
    : Finds def_ type clause facts after id
      ∨ (∀ fact ∈ facts, fact.type = type → fact.key ≠ clause.key)
        ∧ Adds def_ type clause facts after id := by
  induction holds generalizing after with
  | factSet valid => exact define_factSet valid validType defined
  | @stacked base upper below above isBase isUpper ordered distinct ih =>
      rw [Hides] at visible
      split at visible
      next finds =>
        obtain ⟨fact, isBelow, small, isType, isKey, isId⟩ := baseId_eq isBase finds
          (fun fact isBelow small => emptyValue fact (.inl ⟨isBelow, small⟩))
        rw [Define.define, if_pos (Nat.lt_of_not_le visible), isId] at defined
        cases defined
        exact .inl ⟨rfl, fact, .inl ⟨isBelow, small⟩, isType, isKey, rfl⟩
      next missing =>
        obtain ⟨next, isNext, rfl⟩ := define_stacked defined (fun _ => baseId_eq_none missing)
        have isNew : ∀ lower ∈ below, lower.id < upper.mid → lower.type = type →
            lower.key ≠ clause.key := by
          intro lower isBelow small isType isKey
          have isId := isBase.idByKey lower isBelow
          rw [isType, isKey] at isId
          exact missing (isId ▸ ⟨(isBase.valid lower isBelow).1, small⟩)
        rcases ih (fun fact isAbove => emptyValue fact (.inr isAbove)) visible isNext with
          found | ⟨absent, adds⟩
        · obtain ⟨rfl, fact, isAbove, found⟩ := found
          exact .inl ⟨rfl, fact, .inr isAbove, found⟩
        · refine .inr ⟨?_, adds.stacked isBase ordered distinct isNew⟩
          rintro fact (⟨isBelow, small⟩ | isAbove)
          · exact isNew fact isBelow small
          · exact absent fact isAbove

theorem Hides.fact (hides : def_.Hides type clause.key maxRef) (holds : def_.Holds facts)
    : ∃ fact ∈ facts, fact.type = type ∧ fact.key = clause.key := by
  induction holds with
  | factSet => exact hides.elim
  | stacked isBase isUpper ordered distinct ih =>
      rw [Hides] at hides
      split at hides
      next finds =>
        obtain ⟨fact, isBelow, isType, isKey, isId⟩ := isBase.of_idByKey finds.1
        exact ⟨fact, .inl ⟨isBelow, isId ▸ finds.2⟩, isType, isKey⟩
      next =>
        obtain ⟨fact, isAbove, isKey⟩ := ih hides
        exact ⟨fact, .inr isAbove, isKey⟩

/-- A new fact has a key that is not too large. -/
theorem Holds.short_of_define (holds : def_.Holds facts)
    (absent : ∀ fact ∈ facts, fact.type = type → fact.key ≠ clause.key)
    (defined : def_.define type bounded clause maxRef = .ok (after, id))
    : clause.key.length ≤ FactSet.maxKeySize := by
  induction holds generalizing after with
  | factSet =>
      by_contra long
      rw [Define.define, FactSet.define, if_pos (Nat.lt_of_not_le long)] at defined
      cases defined
  | stacked isBase isUpper ordered distinct ih =>
      have missing := missing_of_absent isBase
        (fun lower isBelow small => absent lower (.inl ⟨isBelow, small⟩))
      obtain ⟨next, isNext, rfl⟩ := define_stacked defined (fun _ => baseId_eq_none missing)
      exact ih (fun fact isAbove => absent fact (.inr isAbove)) isNext

theorem Hides.short (hides : def_.Hides type clause.key maxRef) (holds : def_.Holds facts)
    (defined : def_.define type bounded clause maxRef = .ok (after, id))
    : clause.key.length ≤ FactSet.maxKeySize := by
  induction holds generalizing after with
  | factSet => exact hides.elim
  | stacked isBase isUpper ordered distinct ih =>
      rw [Hides] at hides
      split at hides
      next finds =>
        obtain ⟨next, isNext, rfl⟩ := define_stacked defined
          (fun small => absurd hides (Nat.not_le.mpr small))
        obtain ⟨lower, isBelow, isType, isKey, isId⟩ := isBase.of_idByKey finds.1
        refine isUpper.short_of_define (fun fact isAbove sameType sameKey => ?_) isNext
        exact distinct lower isBelow (isId ▸ finds.2) fact isAbove (sameType.trans isType.symm)
          (sameKey.trans isKey.symm)
      next missing =>
        obtain ⟨next, isNext, rfl⟩ := define_stacked defined (fun _ => baseId_eq_none missing)
        exact ih hides isNext

/-- `define` throws on large keys only. -/
theorem define_ok (def_ : Define) (type : Pid) (bounded : type < Pid.limit) (maxRef : Id)
    (short : clause.key.length ≤ FactSet.maxKeySize)
    : ∃ after id, def_.define type bounded clause maxRef = .ok (after, id) := by
  induction def_ with
  | factSet set =>
      rw [Define.define, FactSet.define, if_neg (Nat.not_lt.mpr short)]
      split
      next result id _ => exact ⟨.factSet result, id, rfl⟩
      next failed =>
        split at failed
        next => cases failed
        next => cases failed
  | stacked base upper ih =>
      obtain ⟨next, id, isNext⟩ := ih
      rw [Define.define]
      split
      next id _ => exact ⟨.stacked base upper, id, rfl⟩
      next =>
        rw [isNext]
        exact ⟨.stacked base next, id, rfl⟩

/-- Facts are never changed. -/
structure Keeps (before after : Define) : Prop where
  startingId : after.lookup.startingId = before.lookup.startingId
  factById
    : ∀ {id fact}, before.lookup.startingId ≤ id → before.lookup.factById id = some fact →
        after.lookup.factById id = some fact

theorem Keeps.refl (def_ : Define) : Keeps def_ def_ :=
  ⟨rfl, fun _ found => found⟩

theorem Keeps.trans {first second third : Define} (left : Keeps first second)
    (right : Keeps second third)
    : Keeps first third := by
  refine ⟨right.startingId.trans left.startingId, fun inside found => ?_⟩
  exact right.factById (left.startingId.symm ▸ inside) (left.factById inside found)

theorem keeps_push {set : FactSet} (missing : ∀ fact ∈ set.bucket type, fact.key ≠ clause.key)
    : Keeps (.factSet set) (.factSet (set.push type clause bounded missing)) := by
  refine ⟨rfl, fun {id fact} inside found => ?_⟩
  obtain ⟨stored, isStored, same⟩ := Option.map_eq_some_iff.mp found
  obtain ⟨member, isId⟩ := FactSet.fact?_eq_some.mp isStored
  exact Option.map_eq_some_iff.mpr
    ⟨stored, FactSet.fact?_eq_some.mpr ⟨List.mem_append_left _ member, isId⟩, same⟩

theorem keeps_define (def_ : Define)
    (defined : def_.define type bounded clause maxRef = .ok (after, id))
    : Keeps def_ after := by
  induction def_ generalizing after with
  | factSet set =>
      rw [Define.define, FactSet.define] at defined
      split at defined
      next isDefined =>
        cases defined
        split at isDefined
        next => cases isDefined
        next =>
          split at isDefined
          next =>
            cases isDefined
            exact keeps_push _
          next =>
            cases isDefined
            exact .refl _
      next => cases defined
  | stacked base upper ih =>
      rw [Define.define] at defined
      split at defined
      next =>
        cases defined
        exact .refl _
      next =>
        cases isNext : upper.define type bounded clause maxRef with
        | error message =>
            rw [isNext] at defined
            cases defined
        | ok result =>
            rw [isNext] at defined
            cases defined
            have keeps := ih isNext
            refine ⟨rfl, fun {id fact} inside found => ?_⟩
            change (if id < upper.lookup.startingId then _ else _) = _ at found
            change (if id < result.1.lookup.startingId then _ else _) = _
            rw [keeps.startingId]
            split at found
            next small => rw [if_pos small, found]
            next large =>
              rw [if_neg large]
              exact keeps.factById (Nat.le_of_not_lt large) found

/-- Two facts have one key. -/
def Duplicate (def_ : Define) : Prop :=
  ∃ left right type leftClause rightClause,
    def_.lookup.startingId ≤ left ∧ def_.lookup.startingId ≤ right ∧ left ≠ right
    ∧ def_.lookup.factById left = some (type, leftClause)
    ∧ def_.lookup.factById right = some (type, rightClause)
    ∧ leftClause.key = rightClause.key

theorem Duplicate.keeps (duplicate : def_.Duplicate) (keeps : Keeps def_ after)
    : after.Duplicate := by
  obtain ⟨left, right, type, leftClause, rightClause, leftInside, rightInside, different, isLeft,
    isRight, sameKey⟩ := duplicate
  refine ⟨left, right, type, leftClause, rightClause, ?_, ?_, different,
    keeps.factById leftInside isLeft, keeps.factById rightInside isRight, sameKey⟩
  · rw [keeps.startingId]
    exact leftInside
  · rw [keeps.startingId]
    exact rightInside

theorem Holds.not_duplicate (holds : def_.Holds facts) : ¬ def_.Duplicate := by
  rintro ⟨left, right, type, leftClause, rightClause, -, -, different, isLeft, isRight, sameKey⟩
  have isLookup := holds.lookup
  have same := isLookup.key_unique (isLookup.factById.mp isLeft) (isLookup.factById.mp isRight)
    rfl sameKey
  exact different (congrArg Fact.id same)

theorem Duplicate.stacked {base : Lookup} {upper : Define} (duplicate : upper.Duplicate)
    (ordered : base.startingId ≤ upper.mid)
    : (Define.stacked base upper).Duplicate := by
  obtain ⟨left, right, type, leftClause, rightClause, leftInside, rightInside, different, isLeft,
    isRight, sameKey⟩ := duplicate
  refine ⟨left, right, type, leftClause, rightClause, ordered.trans leftInside,
    ordered.trans rightInside, different, ?_, ?_, sameKey⟩
  · exact (if_neg (Nat.not_lt.mpr leftInside)).trans isLeft
  · exact (if_neg (Nat.not_lt.mpr rightInside)).trans isRight

/-- A fact whose key is in the base, but is not looked for there, is added once more. -/
theorem Hides.duplicate (hides : def_.Hides type clause.key maxRef) (holds : def_.Holds facts)
    (validType : type ≠ Pid.invalid)
    (defined : def_.define type bounded clause maxRef = .ok (after, id))
    : after.Duplicate := by
  induction holds generalizing after with
  | factSet => exact hides.elim
  | @stacked base upper below above isBase isUpper ordered distinct ih =>
      have sameMid {next : Define} (isNext : upper.define type bounded clause maxRef = .ok (next, id))
          : next.mid = upper.mid :=
        (keeps_define upper isNext).startingId
      rw [Hides] at hides
      split at hides
      next finds =>
        obtain ⟨next, isNext, rfl⟩ := define_stacked defined
          (fun small => absurd hides (Nat.not_le.mpr small))
        obtain ⟨lower, isBelow, isType, isKey, isId⟩ := isBase.of_idByKey finds.1
        have small : lower.id < upper.mid := isId ▸ finds.2
        have absent : ∀ fact ∈ above, fact.type = type → fact.key ≠ clause.key := by
          intro fact isAbove sameType sameKey
          exact distinct lower isBelow small fact isAbove (sameType.trans isType.symm)
            (sameKey.trans isKey.symm)
        have visible : ¬ upper.Hides type clause.key maxRef := by
          intro hidesUpper
          obtain ⟨fact, isAbove, sameType, sameKey⟩ := hidesUpper.fact isUpper
          exact absent fact isAbove sameType sameKey
        have emptyValue : ∀ fact ∈ above, fact.type = type → fact.key = clause.key →
            clause.value = [] → fact.value = [] := by
          intro fact isAbove sameType sameKey
          exact absurd sameKey (absent fact isAbove sameType)
        rcases isUpper.define validType emptyValue visible isNext with found | ⟨-, adds⟩
        · obtain ⟨-, fact, isAbove, sameType, sameKey, -⟩ := found
          exact absurd sameKey (absent fact isAbove sameType)
        · have isLookup := adds.holds.lookup
          have added : next.lookup.factById id = some (type, clause) :=
            isLookup.factById.mpr (.inl rfl)
          have inside : next.mid ≤ id := (isLookup.inside ⟨id, type, clause⟩ (.inl rfl)).1
          rw [sameMid isNext] at inside
          have isLower : base.factById lower.id = some (type, lower.clause) :=
            isType ▸ isBase.factById.mpr isBelow
          refine ⟨lower.id, id, type, lower.clause, clause, (isBase.inside lower isBelow).1,
            ordered.trans inside, ?_, ?_, ?_, isKey⟩
          · exact (small.trans_le inside).ne
          · rw [← sameMid isNext] at small
            exact (if_pos small).trans isLower
          · rw [← sameMid isNext] at inside
            exact (if_neg (Nat.not_lt.mpr inside)).trans added
      next missing =>
        obtain ⟨next, isNext, rfl⟩ := define_stacked defined (fun _ => baseId_eq_none missing)
        refine (ih hides isNext).stacked ?_
        rw [sameMid isNext]
        exact ordered

end Define

end Glean.RTS
