import Glean.RTS.FactSetRun
import Glean.RTS.Rebase
import Glean.RTS.References

/-! Rebasing a fact set on its fields, where ids wrap around and sizes are bounded (`factset.cpp`,
`substitution.cpp`, `inventory.h`, `fact.h`).
-/

namespace Glean.RTS

/-- The sizes of a clause that `Clause::from` and `Fact::create` can store. -/
def Clause.Fits (clause : Clause) : Prop :=
  clause.key.length ≤ FactSet.maxKeySize ∧ clause.key.length + clause.value.length < 2 ^ 32

instance (clause : Clause) : Decidable clause.Fits :=
  inferInstanceAs (Decidable (_ ∧ _))

section Model

variable (varint : Varint) (u8 : U8Next) (inventory : Inventory)

namespace FactSetFields

/-- Insert a renamed fact into the global store. -/
def insertFact (subst : Substitution) (fact : Fact) : Outcome Fact := do
  let clause ← substituteFact varint u8 inventory subst.rebaser fact
  if clause.Fits then return ⟨subst.subst fact.id, fact.type, clause⟩ else .undefined

/-- Define a renamed fact in the local set. The id that is expected is its first free one. -/
def rebaseFact (subst : Substitution) (fields : FactSetFields) (fact : Fact)
    : Outcome FactSetFields := do
  let clause ← substituteFact varint u8 inventory subst.rebaser fact
  let (next, id) ← fields.define fact.type clause
  if id = fields.firstFreeId then return next else .error "Check failed: id == expected"

end FactSetFields

/-- `FactSet::rebase`: the facts that are inserted into the global store, and the local set. -/
def FactSet.rebaseFields (set : FactSet) (subst : Substitution)
    : Outcome (List Fact × FactSetFields) := do
  let split := set.lowerBound subst.finish
  let inserted ← (set.facts.take split).mapM
    (FactSetFields.insertFact varint u8 inventory subst)
  let rest ← (set.facts.drop split).foldlM
    (FactSetFields.rebaseFact varint u8 inventory subst) (.new subst.firstFreeId)
  return (inserted, rest)

-- What rebasing is for

/-- A fact is the encoding of a key and a value of its predicate, which refer to facts below it. -/
structure Fact.Decodes (fact : Fact) (predicate : Predicate) (key value : Value) : Prop where
  found : inventory.lookupPredicate fact.type = some predicate
  keyType : HasType u8 (fun _ id => id < fact.id) predicate.keyTy.repType key
  valueType : HasType u8 (fun _ id => id < fact.id) predicate.valTy.repType value
  clause : fact.clause = ⟨encodeValue varint key, encodeValue varint value⟩

/-- All facts are well typed and refer to facts below them. -/
def FactSet.TypedBelow (set : FactSet) : Prop :=
  ∀ fact ∈ set.facts, ∃ predicate key value,
    fact.Decodes varint u8 inventory predicate key value

/-- The ids of the facts of a set and of those that they refer to. -/
def FactSet.ids (set : FactSet) : Set Id :=
  {id | ∃ fact ∈ set.facts, id = fact.id ∨ ∃ predicate key value,
    fact.Decodes varint u8 inventory predicate key value ∧ id ∈ key.refs ++ value.refs}

/-- A substitution covers the ids from the start of a set up to some id within the set, with
valid ids as images.
-/
structure Substitution.Covers (subst : Substitution) (set : FactSet) : Prop where
  base : subst.base = set.startingId
  inside : subst.items.length ≤ set.facts.length
  finish : subst.base + subst.items.length < 2 ^ 64
  images : ∀ image ∈ subst.items, Id.lowest ≤ image ∧ image < 2 ^ 64

/-- The ids that facts have after the facts of a set have become those of a list. -/
def FactSet.newId (set : FactSet) (made : List Fact) (id : Id) : Id :=
  if id < set.startingId then
    id
  else
    match made[id - set.startingId]? with
    | some fact => fact.id
    | none => Id.invalid

/-- A fact set has been renamed consistently: the first facts have the images of the substitution
as ids, the others consecutive words from its first free id on, and all references are to the new
ids.
-/
structure FactSet.Renamed (set : FactSet) (subst : Substitution) (inserted : List Fact)
    (rest : FactSetFields) : Prop where
  images : inserted.map Fact.id = subst.items
  startingId : rest.startingId = subst.firstFreeId
  consecutive
    : rest.facts.map Fact.id
      = (List.range (set.facts.length - subst.items.length)).map
          (fun index => (subst.firstFreeId + index) % 2 ^ 64)
  apart : ∀ fact ∈ rest.facts, fact.id ∉ subst.items
  isSet : subst.firstFreeId + rest.facts.length ≤ 2 ^ 64 → rest.Ok
  length : (inserted ++ rest.facts).length = set.facts.length
  clauses
    : ∀ (index : Nat) (fact target : Fact), set.facts[index]? = some fact →
        (inserted ++ rest.facts)[index]? = some target →
        target.type = fact.type
          ∧ ∀ predicate key value, fact.Decodes varint u8 inventory predicate key value →
              target.clause
                = ⟨encodeValue varint (key.rename (set.newId (inserted ++ rest.facts))),
                    encodeValue varint (value.rename (set.newId (inserted ++ rest.facts)))⟩

end Model

-- The map of a substitution with the offset

variable {varint : Varint} {u8 : U8Next} {inventory : Inventory}

namespace Substitution.Covers

variable {subst : Substitution} {set : FactSet}

theorem finish_eq (covers : subst.Covers set)
    : subst.finish = set.startingId + subst.items.length := by
  rw [Substitution.finish, Nat.mod_eq_of_lt covers.finish, covers.base]

theorem lowerBound_eq (covers : subst.Covers set)
    : set.lowerBound subst.finish = subst.items.length := by
  have inside := covers.inside
  rw [covers.finish_eq, FactSet.lowerBound]
  split <;> lia

/-- Facts below the set keep their ids. -/
theorem rebaser_low (covers : subst.Covers set) {id : Id} (low : id < set.startingId)
    : subst.rebaser id = id := by
  have below : id < subst.finish := by
    rw [covers.finish_eq]
    exact Nat.lt_of_lt_of_le low (Nat.le_add_right _ _)
  have outside : ¬ (subst.base ≤ id ∧ id < subst.finish) := by
    intro inside
    rw [covers.base] at inside
    exact Nat.lt_irrefl _ (low.trans_le inside.1)
  rw [Replied.rebaser_below subst below, Substitution.subst, if_neg outside]

/-- The first facts get the images of the substitution. -/
theorem subst_image (covers : subst.Covers set) {index : Nat}
    (inside : index < subst.items.length)
    : subst.subst (set.startingId + index) = subst.items[index] := by
  have covered
      : subst.base ≤ set.startingId + index ∧ set.startingId + index < subst.finish := by
    rw [covers.finish_eq, covers.base]
    exact ⟨Nat.le_add_right _ _, Nat.add_lt_add_left inside _⟩
  rw [Substitution.subst, if_pos covered, covers.base, Nat.add_sub_cancel_left,
    List.getElem?_eq_getElem inside]
  rfl

theorem rebaser_image (covers : subst.Covers set) {index : Nat}
    (inside : index < subst.items.length)
    : subst.rebaser (set.startingId + index) = subst.items[index] := by
  have below : set.startingId + index < subst.finish := by
    rw [covers.finish_eq]
    exact Nat.add_lt_add_left inside _
  rw [Replied.rebaser_below subst below, covers.subst_image inside]

/-- The others are shifted to the ids from the first free one on. -/
theorem rebaser_shifted (covers : subst.Covers set) (index : Nat)
    : subst.rebaser (set.startingId + subst.items.length + index)
      = (subst.firstFreeId + index) % 2 ^ 64 := by
  have isFinish := covers.finish_eq
  have larger := Replied.finish_le subst
  rw [Substitution.rebaser, Substitution.substituter, if_neg (by lia)]
  congr 1
  lia

theorem rebaser_lt (covers : subst.Covers set) (id : Id) : subst.rebaser id < 2 ^ 64 := by
  have isWord := covers.finish
  rcases Nat.lt_or_ge id set.startingId with low | large
  · rw [covers.rebaser_low low]
    have base := covers.base
    lia
  · obtain ⟨offset, rfl⟩ := Nat.exists_eq_add_of_le large
    rcases Nat.lt_or_ge offset subst.items.length with inside | outside
    · rw [covers.rebaser_image inside]
      exact (covers.images _ (List.getElem_mem inside)).2
    · obtain ⟨index, rfl⟩ := Nat.exists_eq_add_of_le outside
      rw [← Nat.add_assoc, covers.rebaser_shifted]
      exact Nat.mod_lt _ (by decide)

theorem firstFreeId_positive (covers : subst.Covers set) : Id.invalid < subst.firstFreeId := by
  have positive := set.positive
  have larger := Replied.finish_le subst
  rw [covers.finish_eq] at larger
  exact positive.trans_le ((Nat.le_add_right _ _).trans larger)

end Substitution.Covers

-- Renamed clauses

namespace Fact.Decodes

variable {fact other : Fact} {predicate otherPredicate : Predicate}
  {key value otherKey otherValue : Value}

theorem substitute (decodes : fact.Decodes varint u8 inventory predicate key value)
    (rename : Id → Id)
    : substituteFact varint u8 inventory rename fact
      = .ok ⟨encodeValue varint (key.rename rename), encodeValue varint (value.rename rename)⟩ :=
  substituteFact_eq rename decodes.found decodes.keyType decodes.valueType decodes.clause

/-- Facts of one predicate have one key if their renamed keys are encoded alike. -/
theorem key_eq_of_renamed {rename : Id → Id} {ids : Set Id}
    (decodes : fact.Decodes varint u8 inventory predicate key value)
    (otherDecodes : other.Decodes varint u8 inventory otherPredicate otherKey otherValue)
    (words : ∀ id, rename id < 2 ^ 64) (injective : Set.InjOn rename ids)
    (areIds : ∀ id ∈ key.refs, id ∈ ids) (otherIds : ∀ id ∈ otherKey.refs, id ∈ ids)
    (sameType : fact.type = other.type)
    (same : encodeValue varint (key.rename rename) = encodeValue varint (otherKey.rename rename))
    : fact.key = other.key := by
  have samePredicate : predicate = otherPredicate := by
    have found := decodes.found
    rw [sameType, otherDecodes.found] at found
    exact (Option.some.inj found).symm
  subst samePredicate
  have keyType : HasType u8 (fun _ _ => True) predicate.keyTy.repType (key.rename rename) :=
    decodes.keyType.rename (fun _ id _ => ⟨words id, trivial⟩)
  have otherType
      : HasType u8 (fun _ _ => True) predicate.keyTy.repType (otherKey.rename rename) :=
    otherDecodes.keyType.rename (fun _ id _ => ⟨words id, trivial⟩)
  have sameEncoding
      : encodeValue varint (key.rename rename) ++ []
        = encodeValue varint (otherKey.rename rename) ++ [] := by
    rw [same]
  have sameRenamed := (encodeValue_injective _ _ keyType otherType sameEncoding).1
  have sameKey := rename_injective injective key otherKey areIds otherIds sameRenamed
  rw [Fact.key, decodes.clause, Fact.key, otherDecodes.clause, sameKey]

theorem type_lt (decodes : fact.Decodes varint u8 inventory predicate key value)
    : fact.type < Pid.limit :=
  (Inventory.mem_of_lookupPredicate decodes.found).2.1

end Fact.Decodes

-- The local set

namespace FactSetFields

/-- Facts with consecutive words as ids. -/
def number (start : Id) (clauses : List (Pid × Clause)) : List Fact :=
  clauses.mapIdx (fun index clause => ⟨(start + index) % 2 ^ 64, clause.1, clause.2⟩)

/-- A set has been filled with clauses, one after the other. -/
structure Filled (start : Id) (clauses : List (Pid × Clause)) (fields : FactSetFields) : Prop where
  startingId : fields.startingId = start
  facts : fields.facts = number start clauses
  bucket : ∀ type, fields.bucket type = fields.facts.filter (·.type = type)
  factMemory : fields.factMemory = (fields.facts.map Fact.size).sum
  index : fields.index = .empty

theorem number_append_one (start : Id) (clauses : List (Pid × Clause)) (clause : Pid × Clause)
    : number start (clauses ++ [clause])
      = number start clauses
        ++ [⟨(start + clauses.length) % 2 ^ 64, clause.1, clause.2⟩] := by
  simp [number, List.mapIdx_append]

theorem length_number (start : Id) (clauses : List (Pid × Clause))
    : (number start clauses).length = clauses.length := by
  simp [number]

theorem mem_number {start : Id} {clauses : List (Pid × Clause)} {fact : Fact}
    (member : fact ∈ number start clauses)
    : (fact.type, fact.clause) ∈ clauses := by
  obtain ⟨index, inside, rfl⟩ := List.mem_iff_getElem.mp member
  rw [length_number] at inside
  simp [number, List.getElem_mapIdx]

theorem filled_new (start : Id) : Filled start [] (new start) where
  startingId := rfl
  facts := rfl
  bucket := fun _ => rfl
  factMemory := rfl
  index := rfl

/-- Facts of different predicates or with different keys. -/
def Differ (left right : Pid × Clause) : Prop :=
  left.1 = right.1 → left.2.key ≠ right.2.key

variable {start : Id} {clauses : List (Pid × Clause)} {fields : FactSetFields}

theorem Filled.firstFreeId (filled : Filled start clauses fields)
    : fields.firstFreeId = (start + clauses.length) % 2 ^ 64 := by
  rw [FactSetFields.firstFreeId, filled.startingId, filled.facts, length_number]

/-- A new clause that fits gets the next id; one that does not is refused or not defined. -/
theorem Filled.define (filled : Filled start clauses fields) {type : Pid} {clause : Clause}
    (bounded : type < Pid.limit) (new : ∀ known ∈ clauses, Differ known (type, clause))
    : (clause.Fits ∧ ∃ next, fields.define type clause = .ok (next, fields.firstFreeId)
        ∧ Filled start (clauses ++ [(type, clause)]) next)
      ∨ ¬ clause.Fits ∧ (fields.define type clause
            = .error ("key too large: " ++ toString clause.key.length)
          ∨ fields.define type clause = .undefined) := by
  have absent : (fields.bucket type).find? (fun fact => fact.key = clause.key) = none := by
    refine List.find?_eq_none.mpr (fun fact member => ?_)
    rw [filled.bucket, List.mem_filter, decide_eq_true_eq, filled.facts] at member
    obtain ⟨listed, ofType⟩ := member
    exact fun same => new _ (mem_number listed) ofType (of_decide_eq_true same)
  unfold FactSetFields.define
  split
  next large => exact .inr ⟨fun fits => absurd fits.1 (not_le.mpr large), .inl rfl⟩
  next short =>
    split
    next small =>
      refine .inl ⟨⟨not_lt.mp short, small.1⟩, ?_⟩
      rw [absent]
      refine ⟨_, rfl, filled.startingId, ?_, fun other => ?_, ?_, filled.index⟩
      · rw [number_append_one, ← filled.facts, ← filled.firstFreeId]
      · rw [FactSetFields.bucket, SortedMap.get?_put, List.filter_append]
        by_cases same : other = type
        · subst same
          rw [if_pos rfl, Option.getD_some, filled.bucket]
          simp
        · have others : ([⟨fields.firstFreeId, type, clause⟩] : List Fact).filter
              (·.type = other) = [] := by
            simp [Ne.symm same]
          rw [if_neg same, others, List.append_nil]
          exact filled.bucket other
      · rw [filled.factMemory, List.map_append, List.sum_append]
        rfl
    next unfit =>
      refine .inr ⟨fun fits => unfit ⟨fits.2, bounded⟩, .inr rfl⟩

/-- The sum of the facts of a filled set, whose ids do not wrap around, is a fact set. -/
theorem Filled.ok (filled : Filled start clauses fields) (positive : Id.invalid < start)
    (room : start + clauses.length ≤ 2 ^ 64) (typed : ∀ clause ∈ clauses, clause.1 < Pid.limit)
    (distinct : clauses.Pairwise Differ)
    : fields.Ok := by
  have ids : fields.facts.map Fact.id = List.range' start fields.facts.length := by
    refine List.ext_getElem (by simp) (fun index inside _ => ?_)
    rw [List.length_map, filled.facts, length_number] at inside
    simp only [filled.facts, number, List.getElem_map, List.getElem_mapIdx, List.getElem_range',
      Nat.one_mul]
    exact Nat.mod_eq_of_lt (by lia)
  have keysDistinct : fields.facts.Pairwise
      (fun left right => left.type = right.type → left.key ≠ right.key) := by
    rw [filled.facts, List.pairwise_iff_getElem]
    intro i j iInside jInside less
    rw [length_number] at iInside jInside
    simp only [number, List.getElem_mapIdx]
    exact List.pairwise_iff_getElem.mp distinct i j iInside jInside less
  refine ⟨⟨fields.startingId, fields.facts, fields.keys, fields.index, ?_, ?_, ?_, ?_, ?_, ?_⟩,
    ?_, ?_⟩
  · rw [filled.startingId]
    exact positive
  · rw [filled.startingId]
    exact ids
  · intro fact member
    rw [filled.facts] at member
    exact typed _ (mem_number member)
  · intro type fact
    have isBucket := filled.bucket type
    rw [FactSetFields.bucket] at isBucket
    rw [isBucket, List.mem_filter, decide_eq_true_eq]
  · intro type
    have isBucket := filled.bucket type
    rw [FactSetFields.bucket] at isBucket
    rw [isBucket]
    refine (keysDistinct.filter _).imp_of_mem (fun leftMember rightMember different => ?_)
    rw [List.mem_filter, decide_eq_true_eq] at leftMember rightMember
    exact different (leftMember.2.trans rightMember.2.symm)
  · intro type map found
    rw [filled.index, SortedMap.get?_empty] at found
    cases found
  · obtain ⟨startingId, facts, keys, factMemory, index⟩ := fields
    have isMemory : factMemory = (facts.map Fact.size).sum := filled.factMemory
    subst isMemory
    rfl
  · change fields.startingId + fields.facts.length ≤ 2 ^ 64
    rw [filled.startingId, filled.facts, length_number]
    exact room

-- The loops

/-- What a fact becomes, if it is well typed. -/
def renamedClause (varint : Varint) (u8 : U8Next) (inventory : Inventory) (subst : Substitution)
    (fact : Fact)
    : Pid × Clause :=
  (fact.type,
    match substituteFact varint u8 inventory subst.rebaser fact with
    | .ok clause => clause
    | _ => ⟨[], []⟩)

section Loops

variable {subst : Substitution} {set : FactSet} {facts : List Fact}

theorem substituteFact_eq_renamed (typed : set.TypedBelow varint u8 inventory) {fact : Fact}
    (member : fact ∈ set.facts)
    : substituteFact varint u8 inventory subst.rebaser fact
      = .ok (renamedClause varint u8 inventory subst fact).2 := by
  obtain ⟨predicate, key, value, decodes⟩ := typed fact member
  rw [renamedClause, decodes.substitute]

/-- If all renamed clauses fit, the first facts are inserted under the images. -/
theorem mapM_insertFact
    (renamed : ∀ fact ∈ facts, substituteFact varint u8 inventory subst.rebaser fact
      = .ok (renamedClause varint u8 inventory subst fact).2)
    : (facts.mapM (insertFact varint u8 inventory subst)
          = .ok (facts.map (fun fact => ⟨subst.subst fact.id, fact.type,
              (renamedClause varint u8 inventory subst fact).2⟩)))
      ∨ (∃ fact ∈ facts, ¬ (renamedClause varint u8 inventory subst fact).2.Fits)
        ∧ facts.mapM (insertFact varint u8 inventory subst) = .undefined := by
  induction facts with
  | nil => exact .inl rfl
  | cons fact rest ih =>
      have isClause := renamed fact List.mem_cons_self
      have rest := ih (fun other member => renamed other (List.mem_cons_of_mem _ member))
      rw [List.mapM_cons, insertFact, isClause, Outcome.ok_bind]
      by_cases fits : (renamedClause varint u8 inventory subst fact).2.Fits
      · rw [if_pos fits, Outcome.pure_eq, Outcome.ok_bind]
        rcases rest with isRest | ⟨⟨other, member, unfit⟩, isUndefined⟩
        · left
          rw [isRest]
          rfl
        · right
          rw [isUndefined]
          exact ⟨⟨other, List.mem_cons_of_mem _ member, unfit⟩, rfl⟩
      · right
        rw [if_neg fits]
        exact ⟨⟨fact, List.mem_cons_self, fits⟩, rfl⟩

/-- The local set is filled with the renamed clauses, or one of them does not fit. -/
theorem foldlM_rebaseFact {start : Id} {clauses : List (Pid × Clause)} {fields : FactSetFields}
    (filled : Filled start clauses fields)
    (renamed : ∀ fact ∈ facts, substituteFact varint u8 inventory subst.rebaser fact
      = .ok (renamedClause varint u8 inventory subst fact).2)
    (bounded : ∀ fact ∈ facts, fact.type < Pid.limit)
    (distinct
      : (clauses ++ facts.map (renamedClause varint u8 inventory subst)).Pairwise Differ)
    : (∃ after, facts.foldlM (rebaseFact varint u8 inventory subst) fields = .ok after
        ∧ Filled start (clauses ++ facts.map (renamedClause varint u8 inventory subst)) after)
      ∨ (∃ fact ∈ facts, ¬ (renamedClause varint u8 inventory subst fact).2.Fits)
        ∧ ((∃ size : Nat, facts.foldlM (rebaseFact varint u8 inventory subst) fields
              = .error ("key too large: " ++ toString size))
          ∨ facts.foldlM (rebaseFact varint u8 inventory subst) fields = .undefined) := by
  induction facts generalizing clauses fields with
  | nil =>
      rw [List.map_nil, List.append_nil]
      exact .inl ⟨fields, rfl, filled⟩
  | cons fact rest ih =>
      have isClause := renamed fact List.mem_cons_self
      have isNew : ∀ known ∈ clauses,
          Differ known (fact.type, (renamedClause varint u8 inventory subst fact).2) :=
        fun known member =>
          (List.pairwise_append.mp distinct).2.2 known member _ List.mem_cons_self
      have defined := filled.define (bounded fact List.mem_cons_self) isNew
      rw [List.foldlM_cons, rebaseFact, isClause, Outcome.ok_bind]
      rcases defined with ⟨fits, next, isNext, nextFilled⟩ | ⟨unfit, isError | isUndefined⟩
      · rw [isNext, Outcome.ok_bind]
        simp only [if_true, Outcome.pure_eq, Outcome.ok_bind]
        rw [List.map_cons, List.append_cons] at distinct
        have more := ih nextFilled
          (fun other member => renamed other (List.mem_cons_of_mem _ member))
          (fun other member => bounded other (List.mem_cons_of_mem _ member)) distinct
        rcases more with ⟨after, isAfter, afterFilled⟩ | ⟨⟨other, member, otherUnfit⟩, fails⟩
        · left
          rw [List.append_assoc] at afterFilled
          exact ⟨after, isAfter, afterFilled⟩
        · exact .inr ⟨⟨other, List.mem_cons_of_mem _ member, otherUnfit⟩, fails⟩
      · right
        rw [isError]
        exact ⟨⟨fact, List.mem_cons_self, unfit⟩, .inl ⟨_, rfl⟩⟩
      · right
        rw [isUndefined]
        exact ⟨⟨fact, List.mem_cons_self, unfit⟩, .inr rfl⟩

end Loops

end FactSetFields

theorem Outcome.mapM_congr {α β : Type} {left right : α → Outcome β} {items : List α}
    (same : ∀ item ∈ items, left item = right item)
    : items.mapM left = items.mapM right := by
  induction items with
  | nil => rfl
  | cons item rest ih =>
      have sameRest := ih (fun other member => same other (List.mem_cons_of_mem _ member))
      rw [List.mapM_cons, List.mapM_cons, same item List.mem_cons_self, sameRest]

-- The renamed set

namespace FactSet

open FactSetFields (renamedClause number Differ)

variable {subst : Substitution} {set : FactSet}

/-- A fact under its new id. -/
def renamedFact (varint : Varint) (u8 : U8Next) (inventory : Inventory) (subst : Substitution)
    (fact : Fact)
    : Fact :=
  ⟨subst.rebaser fact.id, fact.type, (renamedClause varint u8 inventory subst fact).2⟩

theorem inserted_eq (covers : subst.Covers set)
    : (set.facts.take subst.items.length).map (fun fact => ⟨subst.subst fact.id, fact.type,
          (renamedClause varint u8 inventory subst fact).2⟩)
      = (set.facts.take subst.items.length).map (renamedFact varint u8 inventory subst) := by
  refine List.map_congr_left (fun fact member => ?_)
  obtain ⟨index, inside, rfl⟩ := List.mem_iff_getElem.mp member
  rw [List.length_take] at inside
  have isImage : index < subst.items.length := by lia
  rw [renamedFact, List.getElem_take, set.id_getElem, covers.subst_image isImage,
    covers.rebaser_image isImage]

theorem rest_eq (covers : subst.Covers set)
    : number subst.firstFreeId
          ((set.facts.drop subst.items.length).map (renamedClause varint u8 inventory subst))
      = (set.facts.drop subst.items.length).map (renamedFact varint u8 inventory subst) := by
  refine List.ext_getElem (by simp [number]) (fun index inside _ => ?_)
  simp only [number, List.getElem_mapIdx, List.getElem_map, List.getElem_drop, renamedFact,
    set.id_getElem]
  rw [← Nat.add_assoc, covers.rebaser_shifted]
  rfl

/-- Renamed facts of one predicate have different keys. -/
theorem differ_renamed (typed : set.TypedBelow varint u8 inventory) (covers : subst.Covers set)
    (injective : Set.InjOn subst.rebaser (set.ids varint u8 inventory))
    : (set.facts.map (renamedClause varint u8 inventory subst)).Pairwise Differ := by
  refine List.pairwise_map.mpr (set.distinctKeys.imp_of_mem ?_)
  intro left right leftMember rightMember different sameType sameKey
  obtain ⟨predicate, key, value, decodes⟩ := typed left leftMember
  obtain ⟨otherPredicate, otherKey, otherValue, otherDecodes⟩ := typed right rightMember
  simp only [renamedClause, decodes.substitute, otherDecodes.substitute] at sameKey
  refine different sameType (decodes.key_eq_of_renamed otherDecodes covers.rebaser_lt injective
    ?_ ?_ sameType sameKey)
  · exact fun id member => ⟨left, leftMember, .inr ⟨_, _, _, decodes,
      List.mem_append_left _ member⟩⟩
  · exact fun id member => ⟨right, rightMember, .inr ⟨_, _, _, otherDecodes,
      List.mem_append_left _ member⟩⟩

/-- The new id of what a fact refers to is the one that the renaming gives it. -/
theorem newId_eq (covers : subst.Covers set) {index : Nat} (inside : index < set.facts.length)
    {id : Id} (below : id < set.startingId + index)
    : set.newId (set.facts.map (renamedFact varint u8 inventory subst)) id
      = subst.rebaser id := by
  rw [newId]
  split
  next low => exact (covers.rebaser_low low).symm
  next large =>
    obtain ⟨offset, rfl⟩ := Nat.exists_eq_add_of_le (Nat.le_of_not_lt large)
    have offsetInside : offset < set.facts.length := by lia
    rw [Nat.add_sub_cancel_left, List.getElem?_map, List.getElem?_eq_getElem offsetInside,
      Option.map_some]
    simp only [renamedFact, set.id_getElem]

/-- The new ids of the facts that are left are no images. -/
theorem id_not_image (covers : subst.Covers set)
    (injective : Set.InjOn subst.rebaser (set.ids varint u8 inventory)) {fact : Fact}
    (member : fact ∈ set.facts.drop subst.items.length)
    : subst.rebaser fact.id ∉ subst.items := by
  intro isImage
  obtain ⟨index, inside, rfl⟩ := List.mem_iff_getElem.mp member
  obtain ⟨image, imageInside, isSame⟩ := List.mem_iff_getElem.mp isImage
  have covered := covers.inside
  rw [List.length_drop] at inside
  have isFact {index : Nat} (small : index < set.facts.length)
      : set.startingId + index ∈ set.ids varint u8 inventory :=
    ⟨_, List.getElem_mem small, .inl (set.id_getElem index small).symm⟩
  rw [List.getElem_drop, set.id_getElem, ← covers.rebaser_image imageInside] at isSame
  have sameIndex := injective (isFact (by lia)) (isFact (by lia)) isSame
  lia

/-- The facts of a rebased set are the renamed ones. -/
theorem renamed_of_filled {rest : FactSetFields} (typed : set.TypedBelow varint u8 inventory)
    (covers : subst.Covers set)
    (injective : Set.InjOn subst.rebaser (set.ids varint u8 inventory))
    (filled : rest.Filled subst.firstFreeId
      ((set.facts.drop subst.items.length).map (renamedClause varint u8 inventory subst)))
    : set.Renamed varint u8 inventory subst
        ((set.facts.take subst.items.length).map (renamedFact varint u8 inventory subst)) rest := by
  have restFacts := filled.facts.trans (rest_eq covers)
  have made : (set.facts.take subst.items.length).map (renamedFact varint u8 inventory subst)
      ++ rest.facts = set.facts.map (renamedFact varint u8 inventory subst) := by
    rw [restFacts, ← List.map_append, List.take_append_drop]
  refine ⟨?_, filled.startingId, ?_, ?_, ?_, ?_, ?_⟩
  · have covered := covers.inside
    refine List.ext_getElem (by simp [covered]) (fun index _ inside => ?_)
    simp only [List.getElem_map, List.getElem_take, renamedFact, set.id_getElem]
    exact covers.rebaser_image inside
  · rw [filled.facts]
    refine List.ext_getElem (by simp [number]) (fun index _ _ => ?_)
    simp [number, List.getElem_mapIdx]
  · intro fact member
    rw [restFacts] at member
    obtain ⟨old, oldMember, rfl⟩ := List.mem_map.mp member
    exact id_not_image covers injective oldMember
  · intro room
    rw [filled.facts, FactSetFields.length_number] at room
    refine filled.ok covers.firstFreeId_positive room ?_ ?_
    · intro clause member
      obtain ⟨fact, factMember, rfl⟩ := List.mem_map.mp member
      obtain ⟨_, _, _, decodes⟩ := typed fact (List.mem_of_mem_drop factMember)
      exact decodes.type_lt
    · exact (differ_renamed typed covers injective).sublist
        ((List.drop_sublist _ _).map _)
  · rw [made, List.length_map]
  · intro index fact target isFact isTarget
    rw [made, List.getElem?_map, isFact, Option.map_some] at isTarget
    obtain rfl := Option.some.inj isTarget
    refine ⟨rfl, fun predicate key value decodes => ?_⟩
    obtain ⟨inside, rfl⟩ := List.getElem?_eq_some_iff.mp isFact
    have agree : ∀ (_ : Pid) (id : Id), id < set.facts[index].id →
        subst.rebaser id
          = set.newId (set.facts.map (renamedFact varint u8 inventory subst)) id := by
      intro _ id below
      rw [set.id_getElem] at below
      exact (newId_eq covers inside below).symm
    rw [made, ← rename_eq_of_refs agree key decodes.keyType,
      ← rename_eq_of_refs agree value decodes.valueType]
    simp only [renamedFact, renamedClause, decodes.substitute]

-- Rebasing without overflow

/-- Within words `define` does the same to the fields. -/
theorem fields_define_of_eq_ok {after : FactSet} {type : Pid} {bounded : type < Pid.limit}
    {clause : Clause} {id : Id} (defined : set.define type bounded clause = .ok (after, id))
    (fits : clause.Fits) (room : set.startingId + set.facts.length < 2 ^ 64)
    : set.fields.define type clause = .ok (after.fields, id) := by
  have result := set.fields_define fits.1 fits.2 bounded (fun _ => room)
  rw [FactSet.define, if_neg (not_lt.mpr fits.1)] at defined
  split at defined
  next missing =>
    cases defined
    rw [set.find?_bucket] at missing
    split at result
    next fact found => cases missing.symm.trans found
    next found => exact result
  next fact known =>
    cases defined
    rw [set.find?_bucket] at known
    split at result
    next other found =>
      obtain rfl := Option.some.inj (known.symm.trans found)
      exact result
    next found => cases known.symm.trans found

theorem fields_rebaseFact {after : FactSet} {fact : Fact}
    (rebased : rebaseFact varint u8 inventory subst.rebaser set fact = .ok after)
    (fits : ∀ clause,
      substituteFact varint u8 inventory subst.rebaser fact = .ok clause → clause.Fits)
    (room : set.startingId + set.facts.length < 2 ^ 64)
    : FactSetFields.rebaseFact varint u8 inventory subst set.fields fact = .ok after.fields := by
  obtain ⟨clause, isClause, more⟩ := Outcome.bind_eq_ok.mp rebased
  rw [FactSetFields.rebaseFact, isClause, Outcome.ok_bind]
  split at more
  next bounded =>
    split at more
    next next id defined =>
      split at more
      next isFree =>
        cases more
        rw [fields_define_of_eq_ok defined (fits clause isClause) room, Outcome.ok_bind]
        simp only [set.firstFreeId_fields room, if_pos isFree]
        rfl
      next => cases more
    next => cases more
  next => cases more

theorem fields_foldlM_rebaseFact {facts : List Fact} {after : FactSet}
    (rebased : facts.foldlM (rebaseFact varint u8 inventory subst.rebaser) set = .ok after)
    (fits : ∀ fact ∈ facts, ∀ clause,
      substituteFact varint u8 inventory subst.rebaser fact = .ok clause → clause.Fits)
    (room : set.startingId + (set.facts.length + facts.length) ≤ 2 ^ 64)
    : facts.foldlM (FactSetFields.rebaseFact varint u8 inventory subst) set.fields
      = .ok after.fields := by
  induction facts generalizing set with
  | nil =>
      cases rebased
      rfl
  | cons fact rest ih =>
      rw [List.foldlM_cons] at rebased
      obtain ⟨middle, isMiddle, isRest⟩ := Outcome.bind_eq_ok.mp rebased
      obtain ⟨_, -, sameStart, isFacts⟩ := rebaseFact_eq_ok isMiddle
      rw [List.length_cons] at room
      have isStep := fields_rebaseFact isMiddle (fits fact List.mem_cons_self) (by lia)
      rw [List.foldlM_cons, isStep, Outcome.ok_bind]
      refine ih isRest (fun other member => fits other (List.mem_cons_of_mem _ member)) ?_
      rw [sameStart, isFacts, List.length_append, List.length_singleton]
      lia

/-- Where ids and sizes do not overflow, the fields are rebased as the set is. -/
theorem fields_rebase {inserted : List Fact} {after : FactSet}
    (rebased : set.rebase varint u8 inventory subst = .ok (inserted, after))
    (fits : ∀ fact ∈ set.facts, ∀ clause,
      substituteFact varint u8 inventory subst.rebaser fact = .ok clause → clause.Fits)
    (room : subst.firstFreeId + set.facts.length ≤ 2 ^ 64)
    : set.rebaseFields varint u8 inventory subst = .ok (inserted, after.fields) := by
  rw [rebase] at rebased
  split at rebased
  next positive =>
    obtain ⟨numbered, isNumbered, more⟩ := Outcome.bind_eq_ok.mp rebased
    obtain ⟨rest, isRest, same⟩ := Outcome.bind_eq_ok.mp more
    cases same
    have sameInserted : (set.facts.take (set.lowerBound subst.finish)).mapM
        (FactSetFields.insertFact varint u8 inventory subst) = .ok inserted := by
      rw [← isNumbered]
      refine Outcome.mapM_congr (fun fact member => ?_)
      have fitsFact := fits fact (List.mem_of_mem_take member)
      rw [FactSetFields.insertFact]
      change _ = (substituteFact varint u8 inventory subst.rebaser fact >>= _)
      cases isClause : substituteFact varint u8 inventory subst.rebaser fact with
      | ok clause =>
          rw [Outcome.ok_bind, Outcome.ok_bind, if_pos (fitsFact clause isClause)]
      | error message => rfl
      | undefined => rfl
    have short : (set.facts.drop (set.lowerBound subst.finish)).length ≤ set.facts.length := by
      simp
    have sameRest := fields_foldlM_rebaseFact isRest
      (fun fact member => fits fact (List.mem_of_mem_drop member)) (by
        change subst.firstFreeId + (0 + _) ≤ 2 ^ 64
        lia)
    rw [rebaseFields, sameInserted, Outcome.ok_bind]
    change (List.foldlM _ (FactSet.new subst.firstFreeId positive).fields _ >>= _) = _
    rw [sameRest]
    rfl
  next => cases rebased

-- Rebased sets

/-- Rebasing never fails its check of ids, and when all renamed clauses fit it renames the set. -/
theorem rebaseFields_renamed (typed : set.TypedBelow varint u8 inventory)
    (covers : subst.Covers set)
    (injective : Set.InjOn subst.rebaser (set.ids varint u8 inventory))
    : set.rebaseFields varint u8 inventory subst ≠ .error "Check failed: id == expected"
      ∧ ((∀ fact ∈ set.facts, ∀ clause,
            substituteFact varint u8 inventory subst.rebaser fact = .ok clause → clause.Fits) →
          ∃ inserted rest, set.rebaseFields varint u8 inventory subst = .ok (inserted, rest)
            ∧ set.Renamed varint u8 inventory subst inserted rest) := by
  have isRenamed : ∀ fact ∈ set.facts, substituteFact varint u8 inventory subst.rebaser fact
      = .ok (renamedClause varint u8 inventory subst fact).2 :=
    fun fact member => FactSetFields.substituteFact_eq_renamed typed member
  have bounded : ∀ fact ∈ set.facts, fact.type < Pid.limit := fun fact member => by
    obtain ⟨_, _, _, decodes⟩ := typed fact member
    exact decodes.type_lt
  have distinct := (differ_renamed typed covers injective).sublist
    ((List.drop_sublist subst.items.length set.facts).map _)
  have first := @FactSetFields.mapM_insertFact varint u8 inventory subst _
    (fun fact member => isRenamed fact (List.mem_of_mem_take (i := subst.items.length) member))
  have others := FactSetFields.foldlM_rebaseFact
    (FactSetFields.filled_new subst.firstFreeId)
    (fun fact member => isRenamed fact (List.mem_of_mem_drop (i := subst.items.length) member))
    (fun fact member => bounded fact (List.mem_of_mem_drop member))
    (by rwa [List.nil_append])
  rw [rebaseFields, covers.lowerBound_eq]
  constructor
  · rcases first with isFirst | ⟨-, isUndefined⟩
    · rw [isFirst, Outcome.ok_bind]
      rcases others with ⟨after, isAfter, -⟩ | ⟨-, ⟨size, isError⟩ | isUndefined⟩
      · rw [isAfter]
        intro same
        cases same
      · rw [isError]
        intro same
        have texts := congrArg String.toList (Outcome.error.inj same)
        rw [String.toList_append] at texts
        exact absurd (congrArg List.head? texts) (by simp)
      · rw [isUndefined]
        intro same
        cases same
    · rw [isUndefined]
      intro same
      cases same
  · intro fits
    have allFit : ∀ fact ∈ set.facts, (renamedClause varint u8 inventory subst fact).2.Fits :=
      fun fact member => fits fact member _ (isRenamed fact member)
    rcases first with isFirst | ⟨⟨fact, member, unfit⟩, -⟩
    · rcases others with ⟨after, isAfter, filled⟩ | ⟨⟨fact, member, unfit⟩, -⟩
      · rw [isFirst, Outcome.ok_bind, isAfter, inserted_eq covers]
        exact ⟨_, after, rfl, renamed_of_filled typed covers injective filled⟩
      · exact absurd (allFit fact (List.mem_of_mem_drop member)) unfit
    · exact absurd (allFit fact (List.mem_of_mem_take member)) unfit

/-- A fact refers to facts below it, so that the ids of a set lie below its first free one. -/
theorem lt_of_mem_ids {id : Id} (member : id ∈ set.ids varint u8 inventory)
    : id < set.firstFreeId := by
  obtain ⟨fact, factMember, rfl | ⟨predicate, key, value, decodes, isRef⟩⟩ := member
  · exact (set.mem_bounds factMember).2
  · have below : id < fact.id := by
      rcases List.mem_append.mp isRef with inKey | inValue
      · exact (HasType.of_mem_refs key decodes.keyType id inKey).choose_spec
      · exact (HasType.of_mem_refs value decodes.valueType id inValue).choose_spec
    exact below.trans (set.mem_bounds factMember).2

theorem missing_nodePair
    : ∀ fact ∈ (FactSet.new 1025 Id.invalid_lt_1025).bucket 1024,
        fact.key ≠ (⟨[1], [0]⟩ : Clause).key := by
  simp [FactSet.new, FactSet.bucket]

/-- A node and its child. -/
def nodePair : FactSet :=
  ((FactSet.new 1025 Id.invalid_lt_1025).push 1024 ⟨[1], [0]⟩ Pid.firstFree_lt_limit
      missing_nodePair).push 1024 ⟨[2], [1, 129, 8]⟩ Pid.firstFree_lt_limit
    (by decide)

/-- The first of two nodes is inserted as 2000, and the second one gets the next id. -/
theorem rebaseFields_renamed_pair
    : ∃ inserted rest, nodePair.rebaseFields .folly .ascii nodeInventory ⟨1025, [2000]⟩
          = .ok (inserted, rest)
        ∧ nodePair.Renamed .folly .ascii nodeInventory ⟨1025, [2000]⟩ inserted rest := by
  have typed : nodePair.TypedBelow .folly .ascii nodeInventory := by
    intro fact member
    obtain rfl | rfl : fact = ⟨1025, 1024, ⟨[1], [0]⟩⟩ ∨ fact = ⟨1026, 1024, ⟨[2], [1, 129, 8]⟩⟩ := by
      simpa [nodePair, FactSet.push, FactSet.new, FactSet.firstFreeId] using member
    · exact ⟨⟨"example.Node", 1, .byte, .maybe (.predicate 1024)⟩, .byte 1, .alt 0 (.tuple []), rfl,
        .byte, .alt (by decide) rfl (.tuple .nil), rfl⟩
    · exact ⟨⟨"example.Node", 1, .byte, .maybe (.predicate 1024)⟩, .byte 2, .alt 1 (.ref 1025), rfl,
        .byte, .alt (by decide) rfl (.ref (by decide) (by decide)), rfl⟩
  have covers : Substitution.Covers ⟨1025, [2000]⟩ nodePair :=
    ⟨rfl, by decide, by decide, by decide⟩
  refine (rebaseFields_renamed typed covers ?_).2 ?_
  · intro left isLeft right isRight same
    have leftBelow : left < 1027 := lt_of_mem_ids isLeft
    have rightBelow : right < 1027 := lt_of_mem_ids isRight
    have renamed {id : Id} (below : id < 1027)
        : Substitution.rebaser ⟨1025, [2000]⟩ id
          = if id < 1025 then id else if id = 1025 then 2000 else 2001 := by
      rcases Nat.lt_or_ge id 1025 with low | large
      · rw [covers.rebaser_low low, if_pos low]
      · obtain rfl | rfl : id = 1025 ∨ id = 1026 := by lia
        · rfl
        · rfl
    rw [renamed leftBelow, renamed rightBelow] at same
    split_ifs at same <;> lia
  · intro fact member clause isClause
    obtain rfl | rfl : fact = ⟨1025, 1024, ⟨[1], [0]⟩⟩ ∨ fact = ⟨1026, 1024, ⟨[2], [1, 129, 8]⟩⟩ := by
      simpa [nodePair, FactSet.push, FactSet.new, FactSet.firstFreeId] using member
    · obtain rfl : (⟨[1], [0]⟩ : Clause) = clause := Outcome.ok.inj isClause
      decide
    · obtain rfl : (⟨[2], [1, 208, 15]⟩ : Clause) = clause := Outcome.ok.inj isClause
      decide

/-- A predicate whose keys are lists of facts of the same predicate. -/
def listInventory : Inventory where
  firstId := 1024
  preds := [some ⟨"example.List", 1, .array (.predicate 1024), .record []⟩]
  bounded := by decide
  valid := by
    intro index _ _ isInvalid
    exact absurd (Nat.eq_zero_of_add_eq_zero_right isInvalid) (by decide)
  refers := by
    intro predicate member
    obtain rfl := Option.some.inj (List.mem_singleton.mp member)
    exact ⟨(by decide : (1024 : Pid) ≠ Pid.invalid), trivial⟩

/-- A list that has the first fact as its elements. -/
def manyRefs (count : Nat) : Value :=
  .array (List.replicate count (.ref 1024))

theorem length_encode_replicate (count : Nat) (value : Value)
    : (encodeValues .folly (List.replicate count value)).length
      = count * (encodeValue .folly value).length := by
  induction count with
  | zero => simp [encodeValues]
  | succ count ih =>
      rw [List.replicate_succ, encodeValues, List.length_append, ih, Nat.succ_mul, Nat.add_comm]

theorem renameAll_replicate (rename : Id → Id) (count : Nat) (value : Value)
    : renameAll rename (List.replicate count value)
      = List.replicate count (value.rename rename) := by
  induction count with
  | zero => rfl
  | succ count ih => rw [List.replicate_succ, renameAll, ih, List.replicate_succ]

theorem length_encode_manyRefs (rename : Id → Id) (count : Nat)
    : (encodeValue .folly ((manyRefs count).rename rename)).length
      = (Varint.folly.encodeVarint count).length
        + count * (Varint.folly.encodeVarint (rename 1024)).length := by
  rw [manyRefs, Value.rename, renameAll_replicate, encodeValue, List.length_append,
    List.length_replicate, length_encode_replicate]
  rfl

theorem missing_listPair
    : ∀ fact ∈ (FactSet.new 1024 Id.invalid_lt_1024).bucket 1024,
        fact.key ≠ (⟨[0], []⟩ : Clause).key := by
  simp [FactSet.new, FactSet.bucket]

theorem missing_manyRefs {count : Nat} (positive : 0 < count)
    : ∀ fact ∈ ((FactSet.new 1024 Id.invalid_lt_1024).push 1024 ⟨[0], []⟩ Pid.firstFree_lt_limit
          missing_listPair).bucket 1024,
        fact.key ≠ (⟨encodeValue .folly (manyRefs count), []⟩ : Clause).key := by
  intro fact member same
  have isFirst : fact = ⟨1024, 1024, ⟨[0], []⟩⟩ := by
    simpa [FactSet.push, FactSet.new, FactSet.bucket, FactSet.firstFreeId] using member
  have lengths := congrArg List.length same
  have grown := length_encode_manyRefs id count
  rw [rename_id] at grown
  have wide : (Varint.folly.encodeVarint (id 1024)).length = 2 := by decide
  rw [isFirst, grown, wide] at lengths
  have one : ([0] : Bytes).length = 1 := rfl
  change ([0] : Bytes).length = _ at lengths
  lia

/-- An empty list and one that has the empty list many times. -/
def listPair (count : Nat) (positive : 0 < count) : FactSet :=
  ((FactSet.new 1024 Id.invalid_lt_1024).push 1024 ⟨[0], []⟩ Pid.firstFree_lt_limit
      missing_listPair).push 1024
    ⟨encodeValue .folly (manyRefs count), []⟩ Pid.firstFree_lt_limit (missing_manyRefs positive)

theorem mem_listPair {count : Nat} {positive : 0 < count} {fact : Fact}
    : fact ∈ (listPair count positive).facts
      ↔ fact = ⟨1024, 1024, ⟨[0], []⟩⟩
        ∨ fact = ⟨1025, 1024, ⟨encodeValue .folly (manyRefs count), []⟩⟩ := by
  simp [listPair, FactSet.push, FactSet.new, FactSet.firstFreeId]

theorem lookupPredicate_list
    : listInventory.lookupPredicate 1024
      = some ⟨"example.List", 1, .array (.predicate 1024), .record []⟩ :=
  rfl

theorem decodes_empty
    : (⟨1024, 1024, ⟨[0], []⟩⟩ : Fact).Decodes .folly .ascii listInventory
        ⟨"example.List", 1, .array (.predicate 1024), .record []⟩ (.array []) (.tuple []) :=
  ⟨lookupPredicate_list, .array (by decide) .nil, .tuple .nil, rfl⟩

theorem decodes_manyRefs {count : Nat} (small : count < 2 ^ 64)
    : (⟨1025, 1024, ⟨encodeValue .folly (manyRefs count), []⟩⟩ : Fact).Decodes .folly .ascii
        listInventory ⟨"example.List", 1, .array (.predicate 1024), .record []⟩ (manyRefs count)
        (.tuple []) where
  found := lookupPredicate_list
  keyType := by
    have below : (1024 : Id) < 1025 := Nat.lt_succ_self 1024
    have isWord : (1024 : Id) < 2 ^ 64 := by decide
    have elements : HasTypes .ascii (fun _ id => id < 1025)
        (List.replicate (List.replicate count (Value.ref 1024)).length (.predicate 1024))
        (List.replicate count (.ref 1024)) := by
      rw [List.length_replicate]
      exact hasTypes_replicate (.ref isWord below) count
    refine .array ?_ elements
    rwa [List.length_replicate]
  valueType := .tuple .nil
  clause := by
    have isNil : encodeValue .folly (.tuple []) = [] := by
      rw [encodeValue, encodeValues]
    rw [isNil]

/-- Keys grow when short references become long ones, and the local set refuses large keys. -/
theorem rebaseFields_grows {count : Nat} (positive : 0 < count) (small : count < 2 ^ 64)
    (large : maxKeySize < 9 * count) {result : List Fact × FactSetFields}
    : (listPair count positive).rebaseFields .folly .ascii listInventory ⟨1024, [2 ^ 60]⟩
        ≠ .ok result := by
  intro rebased
  obtain ⟨inserted, -, more⟩ := Outcome.bind_eq_ok.mp rebased
  obtain ⟨rest, isRest, -⟩ := Outcome.bind_eq_ok.mp more
  have dropped : (listPair count positive).facts.drop
      ((listPair count positive).lowerBound (Substitution.finish ⟨1024, [2 ^ 60]⟩))
      = [⟨1025, 1024, ⟨encodeValue .folly (manyRefs count), []⟩⟩] := rfl
  rw [dropped, List.foldlM_cons] at isRest
  obtain ⟨next, isNext, -⟩ := Outcome.bind_eq_ok.mp isRest
  rw [FactSetFields.rebaseFact, (decodes_manyRefs small).substitute, Outcome.ok_bind] at isNext
  have grown := length_encode_manyRefs (Substitution.rebaser ⟨1024, [2 ^ 60]⟩) count
  have wide : (Varint.folly.encodeVarint
      (Substitution.rebaser ⟨1024, [2 ^ 60]⟩ 1024)).length = 9 := by decide
  rw [wide] at grown
  have tooLarge : maxKeySize < (encodeValue .folly ((manyRefs count).rename
      (Substitution.rebaser ⟨1024, [2 ^ 60]⟩))).length := by
    rw [grown]
    lia
  rw [FactSetFields.define, if_pos tooLarge] at isNext
  cases isNext

/-- A list with a hundred million references to a fact that gets a large id: its key had less than
200 megabytes, and the renamed key is larger than a key may be.
-/
theorem rebaseFields_not_renamed
    : ¬ ∀ (varint : Varint) (u8 : U8Next) (inventory : Inventory) (set : FactSet)
          (subst : Substitution), set.TypedBelow varint u8 inventory →
          (∀ fact ∈ set.facts, fact.clause.Fits) → subst.Covers set →
          Set.InjOn subst.rebaser (set.ids varint u8 inventory) →
          ∃ inserted rest, set.rebaseFields varint u8 inventory subst = .ok (inserted, rest)
            ∧ set.Renamed varint u8 inventory subst inserted rest := by
  intro claim
  have positive : 0 < 100000000 := by decide
  have covers : Substitution.Covers ⟨1024, [2 ^ 60]⟩ (listPair 100000000 positive) :=
    ⟨rfl, (by decide : 1 ≤ 2), by decide, by decide⟩
  have claimed := claim .folly .ascii listInventory (listPair 100000000 positive)
    ⟨1024, [2 ^ 60]⟩ ?_ ?_ covers ?_
  · obtain ⟨inserted, rest, isOk, -⟩ := claimed
    exact rebaseFields_grows positive (by decide) (by decide) isOk
  · intro fact member
    rcases mem_listPair.mp member with rfl | rfl
    · exact ⟨_, _, _, decodes_empty⟩
    · exact ⟨_, _, _, decodes_manyRefs (by decide)⟩
  · intro fact member
    rcases mem_listPair.mp member with rfl | rfl
    · decide
    · have size := length_encode_manyRefs id 100000000
      rw [rename_id] at size
      have wide : (Varint.folly.encodeVarint (id 1024)).length = 2 := by decide
      have counted : (Varint.folly.encodeVarint 100000000).length = 4 := by decide
      rw [wide, counted] at size
      constructor
      · rw [size]
        decide
      · rw [size]
        decide
  · intro left isLeft right isRight same
    have leftBelow : left < 1026 := lt_of_mem_ids isLeft
    have rightBelow : right < 1026 := lt_of_mem_ids isRight
    have renamed {id : Id} (below : id < 1026)
        : Substitution.rebaser ⟨1024, [2 ^ 60]⟩ id
          = if id < 1024 then id else if id = 1024 then 2 ^ 60 else 2 ^ 60 + 1 := by
      rcases Nat.lt_or_ge id 1024 with low | large
      · rw [covers.rebaser_low low, if_pos low]
      · obtain rfl | rfl : id = 1024 ∨ id = 1025 := by lia
        · rfl
        · rfl
    rw [renamed leftBelow, renamed rightBelow] at same
    split_ifs at same <;> lia

end FactSet

end Glean.RTS
