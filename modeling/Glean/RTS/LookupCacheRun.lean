import Glean.RTS.LookupCache

/-! The index, the storage and the buffers of a cache agree, and its answers are those of the lookup
behind it.
-/

namespace Glean.RTS.LookupCache

def hasKey (cached : Cached) : Bool :=
  cached.tag ≠ .type

/-- The index has some facts by their ids, and those with a key by their keys. -/
structure Describes (index : Index) (facts : List Cached) : Prop where
  ids : index.ids.Perm facts
  keys : index.keys.Perm (facts.filter hasKey)
  uniqueIds : facts.Pairwise (fun left right => left.fact.id ≠ right.fact.id)
  uniqueKeys
    : (facts.filter hasKey).Pairwise (fun left right =>
        ¬ (left.fact.type = right.fact.type ∧ left.fact.key = right.fact.key))

namespace Describes

variable {index : Index} {facts others : List Cached} {fact cached : Cached}

theorem perm (describes : Describes index facts) (isPerm : facts.Perm others) : Describes index others where
  ids := describes.ids.trans isPerm
  keys := describes.keys.trans (isPerm.filter _)
  uniqueIds := describes.uniqueIds.perm isPerm (fun different same => different same.symm)
  uniqueKeys := by
    refine describes.uniqueKeys.perm (isPerm.filter _) (fun different same => different ?_)
    exact ⟨same.1.symm, same.2.symm⟩

theorem delete (describes : Describes index (fact :: facts)) : Describes (index.delete fact) facts := by
  obtain ⟨ids, keys, uniqueIds, uniqueKeys⟩ := describes
  obtain ⟨others, restIds⟩ := List.pairwise_cons.mp uniqueIds
  refine ⟨?_, ?_, restIds, ?_⟩
  · have isRest : (fact :: facts).filter (fun cached => cached.fact.id ≠ fact.fact.id) = facts := by
      rw [List.filter_cons_of_neg (by simp), List.filter_eq_self]
      intro other member
      simpa using (others other member).symm
    have result := ids.filter (fun cached => cached.fact.id ≠ fact.fact.id)
    rwa [isRest] at result
  · by_cases isKeyed : hasKey fact = true
    · rw [List.filter_cons_of_pos isKeyed] at keys uniqueKeys
      have isTag : fact.tag ≠ .type := by simpa [hasKey] using isKeyed
      obtain ⟨others, -⟩ := List.pairwise_cons.mp uniqueKeys
      let other : Cached → Bool := fun cached =>
        ¬ (cached.fact.type = fact.fact.type ∧ cached.fact.key = fact.fact.key)
      have isRest : (fact :: facts.filter hasKey).filter other = facts.filter hasKey := by
        rw [List.filter_cons_of_neg (by simp [other]), List.filter_eq_self]
        intro cached member
        have different := others cached member
        simp only [other, decide_eq_true_eq]
        exact fun same => different ⟨same.1.symm, same.2.symm⟩
      have result := keys.filter other
      rw [isRest] at result
      rw [Index.delete]
      simpa only [if_pos isTag] using result
    · rw [List.filter_cons_of_neg isKeyed] at keys
      have isTag : ¬ fact.tag ≠ .type := by simpa [hasKey] using isKeyed
      rw [Index.delete]
      simpa only [if_neg isTag] using keys
  · exact uniqueKeys.sublist ((List.sublist_cons_self _ _).filter _)

theorem eq_of_id (describes : Describes index facts) (member : cached ∈ facts) (isFact : fact ∈ facts)
    (same : cached.fact.id = fact.fact.id)
    : cached = fact := by
  by_contra different
  have isSymmetric : Std.Symm (fun left right : Cached => left.fact.id ≠ right.fact.id) :=
    ⟨fun _ _ notSame isSame => notSame isSame.symm⟩
  exact describes.uniqueIds.forall member isFact different same

/-- What is found by an id. -/
theorem findId (describes : Describes index facts) {id : Id}
    : index.findId id = some cached ↔ cached ∈ facts ∧ cached.fact.id = id := by
  constructor
  · intro found
    exact ⟨describes.ids.mem_iff.mp (List.mem_of_find?_eq_some found), by simpa using List.find?_some found⟩
  · rintro ⟨member, isId⟩
    have isSome : (index.findId id).isSome := by
      rw [Index.findId, List.find?_isSome]
      exact ⟨cached, describes.ids.mem_iff.mpr member, by simpa using isId⟩
    obtain ⟨other, found⟩ := Option.isSome_iff_exists.mp isSome
    have isOther := describes.ids.mem_iff.mp (List.mem_of_find?_eq_some found)
    have otherId : other.fact.id = id := by simpa using List.find?_some found
    rw [found, describes.eq_of_id isOther member (otherId.trans isId.symm)]

theorem findId_eq_none (describes : Describes index facts) {id : Id}
    : index.findId id = none ↔ ∀ cached ∈ facts, cached.fact.id ≠ id := by
  rw [Index.findId, List.find?_eq_none]
  constructor
  · intro absent cached member
    simpa using absent cached (describes.ids.mem_iff.mpr member)
  · intro absent cached member
    simpa using absent cached (describes.ids.mem_iff.mp member)

/-- What is found by a key. -/
theorem of_findKey (describes : Describes index facts) {type : Pid} {key : Bytes}
    (found : index.findKey type key = some cached)
    : cached ∈ facts ∧ cached.tag ≠ .type ∧ cached.fact.type = type ∧ cached.fact.key = key := by
  have member := describes.keys.mem_iff.mp (List.mem_of_find?_eq_some found)
  obtain ⟨isFact, isKeyed⟩ := List.mem_filter.mp member
  exact ⟨isFact, by simpa [hasKey] using isKeyed, by simpa using List.find?_some found⟩

/-- A fact with a new id, and with a new key. -/
theorem insert (describes : Describes index facts) (newId : ∀ other ∈ facts, other.fact.id ≠ fact.fact.id)
    (newKey : fact.tag ≠ .type → ∀ other ∈ facts, other.tag ≠ .type →
      ¬ (other.fact.type = fact.fact.type ∧ other.fact.key = fact.fact.key))
    : Describes (if fact.tag ≠ .type then (index.insertId fact).insertKey fact else index.insertId fact)
        (facts ++ [fact]) := by
  have isInserted : index.insertId fact = { index with ids := fact :: index.ids } := by
    rw [Index.insertId, describes.findId_eq_none.mpr newId]
  have ids : (fact :: index.ids).Perm (facts ++ [fact]) :=
    (describes.ids.cons fact).trans (List.perm_append_singleton fact facts).symm
  have uniqueIds : (facts ++ [fact]).Pairwise (fun left right => left.fact.id ≠ right.fact.id) := by
    refine List.pairwise_append.mpr ⟨describes.uniqueIds, List.pairwise_singleton _ _, ?_⟩
    intro other member _ isFact
    rw [List.mem_singleton.mp isFact]
    exact newId other member
  rw [isInserted]
  by_cases isTag : fact.tag ≠ .type
  · have isKeyed : hasKey fact = true := by simpa [hasKey] using isTag
    have notFound : Index.findKey { index with ids := fact :: index.ids } fact.fact.type fact.fact.key
        = none := by
      refine List.find?_eq_none.mpr (fun other member => ?_)
      obtain ⟨isOther, otherKeyed⟩ := List.mem_filter.mp (describes.keys.mem_iff.mp member)
      have different := newKey isTag other isOther (by simpa [hasKey] using otherKeyed)
      simpa using different
    have isFilter : (facts ++ [fact]).filter hasKey = facts.filter hasKey ++ [fact] := by
      rw [List.filter_append, List.filter_singleton, isKeyed]
      rfl
    rw [if_pos isTag, Index.insertKey, notFound]
    refine ⟨ids, ?_, uniqueIds, ?_⟩
    · rw [isFilter]
      exact (describes.keys.cons fact).trans (List.perm_append_singleton fact _).symm
    · rw [isFilter]
      refine List.pairwise_append.mpr ⟨describes.uniqueKeys, List.pairwise_singleton _ _, ?_⟩
      intro other member _ isFact
      obtain ⟨isOther, otherKeyed⟩ := List.mem_filter.mp member
      rw [List.mem_singleton.mp isFact]
      exact newKey isTag other isOther (by simpa [hasKey] using otherKeyed)
  · have isKeyed : hasKey fact = false := by simpa [hasKey] using isTag
    have isFilter : (facts ++ [fact]).filter hasKey = facts.filter hasKey := by
      rw [List.filter_append, List.filter_singleton, isKeyed]
      exact List.append_nil _
    rw [if_neg isTag]
    refine ⟨ids, ?_, uniqueIds, ?_⟩
    · rw [isFilter]
      exact describes.keys
    · rw [isFilter]
      exact describes.uniqueKeys

end Describes

def sizes (facts : List Cached) : Nat :=
  (facts.map Cached.size).sum

/-- The index and the storage have the same facts, and the storage counts them. -/
structure Tidy (cache : LookupCache) : Prop where
  describes : Describes cache.index cache.storage.facts
  bytes : cache.storage.bytes = sizes cache.storage.facts
  count : cache.storage.count = cache.storage.facts.length

section Storage

variable {storage : Storage} {fact : Cached} {buffer facts : List Cached} {buffers : List (List Cached)}
  {cache : LookupCache}

theorem sizes_perm {others : List Cached} (isPerm : facts.Perm others) : sizes facts = sizes others :=
  (isPerm.map _).sum_nat

theorem touch_perm (member : fact ∈ storage.facts) : (storage.touch fact).facts.Perm storage.facts :=
  (List.perm_append_singleton fact _).trans (List.perm_cons_erase member).symm

/-- Draining changes the order of the facts. -/
structure SameFacts (before after : Storage) : Prop where
  facts : after.facts.Perm before.facts
  bytes : after.bytes = before.bytes
  count : after.count = before.count

theorem drain_same (cached : ∀ fact ∈ buffer, fact ∈ storage.facts)
    : SameFacts storage (drain storage buffer) := by
  induction buffer generalizing storage with
  | nil => exact ⟨.refl _, rfl, rfl⟩
  | cons fact buffer ih =>
      have isPerm := touch_perm (cached fact List.mem_cons_self)
      have rest : ∀ other ∈ buffer, other ∈ (storage.touch fact).facts :=
        fun other member => isPerm.mem_iff.mpr (cached other (List.mem_cons_of_mem _ member))
      obtain ⟨facts, bytes, count⟩ := ih rest
      exact ⟨facts.trans isPerm, bytes, count⟩

theorem foldl_drain_same (cached : ∀ buffer ∈ buffers, ∀ fact ∈ buffer, fact ∈ storage.facts)
    : SameFacts storage (buffers.foldl drain storage) := by
  induction buffers generalizing storage with
  | nil => exact ⟨.refl _, rfl, rfl⟩
  | cons buffer buffers ih =>
      obtain ⟨facts, bytes, count⟩ := drain_same (cached buffer List.mem_cons_self)
      obtain ⟨moreFacts, moreBytes, moreCount⟩ := ih (fun other member fact isFact =>
        facts.mem_iff.mpr (cached other (List.mem_cons_of_mem _ member) fact isFact))
      exact ⟨moreFacts.trans facts, moreBytes.trans bytes, moreCount.trans count⟩

theorem Tidy.reorder {touched : List (List Cached)} (tidy : Tidy cache)
    (same : SameFacts cache.storage storage)
    : Tidy { cache with storage, touched } where
  describes := tidy.describes.perm same.facts.symm
  bytes := by
    rw [same.bytes, tidy.bytes]
    exact sizes_perm same.facts.symm
  count := by
    rw [same.count, tidy.count]
    exact same.facts.length_eq.symm

theorem Tidy.release (tidy : Tidy cache) (member : fact ∈ cache.storage.facts)
    : Tidy { cache with index := cache.index.delete fact, storage := cache.storage.release fact } := by
  have isPerm := List.perm_cons_erase member
  refine ⟨(tidy.describes.perm isPerm).delete, ?_, ?_⟩
  · change cache.storage.bytes - fact.size = sizes (cache.storage.facts.erase fact)
    rw [tidy.bytes, sizes_perm isPerm]
    exact Nat.add_sub_cancel_left ..
  · change cache.storage.count - 1 = (cache.storage.facts.erase fact).length
    rw [tidy.count, isPerm.length_eq]
    rfl

/-- What the loop of `evict` leaves. -/
theorem evictFacts_tidy {index : Index} {total target bytes count : Nat} (describes : Describes index facts)
    (isTotal : total = bytes + sizes facts)
    {after : Index} {rest : List Cached} {afterBytes afterCount : Nat}
    (evicted : evictFacts total target facts bytes count index = (after, rest, afterBytes, afterCount))
    : Describes after rest ∧ rest <:+ facts ∧ total = afterBytes + sizes rest
      ∧ afterCount + rest.length = count + facts.length ∧ (sizes rest ≤ target ∨ rest = []) := by
  induction facts generalizing index bytes count with
  | nil =>
      cases evicted
      exact ⟨describes, List.suffix_refl _, isTotal, rfl, .inr rfl⟩
  | cons fact facts ih =>
      rw [evictFacts] at evicted
      split at evicted
      next =>
        obtain ⟨restDescribes, isSuffix, restTotal, restCount, isSmall⟩ := ih describes.delete
          (by rw [isTotal, sizes, List.map_cons, List.sum_cons, ← Nat.add_assoc]; rfl) evicted
        refine ⟨restDescribes, isSuffix.trans (List.suffix_cons _ _), restTotal, ?_, isSmall⟩
        rw [restCount, List.length_cons, Nat.add_right_comm, Nat.add_assoc]
      next notMore =>
        cases evicted
        refine ⟨describes, List.suffix_refl _, isTotal, rfl, .inl ?_⟩
        rw [isTotal, Nat.add_sub_cancel_left] at notMore
        exact Nat.le_of_not_lt notMore

theorem Tidy.evict (tidy : Tidy cache) (target : Nat)
    : Tidy (cache.evict target) ∧ (cache.evict target).storage.facts <:+ cache.storage.facts
      ∧ ((cache.evict target).storage.bytes ≤ target ∨ (cache.evict target).storage.bytes = 0) := by
  rw [LookupCache.evict]
  split
  next index rest bytes count evicted =>
    obtain ⟨describes, isSuffix, isTotal, isCount, isSmall⟩ := evictFacts_tidy tidy.describes
      (by rw [tidy.bytes, Nat.zero_add]) evicted
    have isBytes : cache.storage.bytes - bytes = sizes rest := by
      rw [isTotal, Nat.add_sub_cancel_left]
    refine ⟨⟨describes, isBytes, ?_⟩, isSuffix, ?_⟩
    · change cache.storage.count - count = rest.length
      rw [tidy.count]
      lia
    · change cache.storage.bytes - bytes ≤ target ∨ cache.storage.bytes - bytes = 0
      rw [isBytes]
      rcases isSmall with isSmall | rfl
      · exact .inl isSmall
      · exact .inr rfl

end Storage

/-- What a cached fact has is what a stored fact has. -/
def Agrees (known : Set Fact) (cached : Cached) : Prop :=
  ∃ stored ∈ known, stored.id = cached.fact.id ∧ stored.type = cached.fact.type
    ∧ (cached.tag ≠ .type → stored.key = cached.fact.key)
    ∧ (cached.tag = .full → stored.clause = cached.fact.clause)

structure Consistent (options : Options) (known : Set Fact) (cache : LookupCache) : Prop where
  tidy : Tidy cache
  capacity : cache.storage.bytes ≤ options.capacity
  shards : cache.touched.length = options.shards
  touched : ∀ buffer ∈ cache.touched, ∀ fact ∈ buffer, fact ∈ cache.storage.facts
  agrees : ∀ cached ∈ cache.storage.facts, Agrees known cached

section Consistent

variable {options : Options} {known : Set Fact} {base : Lookup} {cache : LookupCache} {fact owned : Cached}

theorem Consistent.new : Consistent options known (new options) where
  tidy := ⟨⟨.refl _, .refl _, .nil, .nil⟩, rfl, rfl⟩
  capacity := Nat.zero_le _
  shards := List.length_replicate
  touched := by
    intro buffer member fact isFact
    rw [List.eq_of_mem_replicate member] at isFact
    cases isFact
  agrees := by rintro _ ⟨⟩

/-- The same facts in another order. -/
theorem Consistent.reorder {storage : Storage} {touched : List (List Cached)}
    (consistent : Consistent options known cache) (same : SameFacts cache.storage storage)
    (length : touched.length = cache.touched.length)
    (cached : ∀ buffer ∈ touched, ∀ fact ∈ buffer, fact ∈ cache.storage.facts)
    : Consistent options known { cache with storage, touched } where
  tidy := consistent.tidy.reorder same
  capacity := same.bytes.trans_le consistent.capacity
  shards := length.trans consistent.shards
  touched buffer member fact isFact := same.facts.mem_iff.mpr (cached buffer member fact isFact)
  agrees cached member := consistent.agrees cached (same.facts.mem_iff.mp member)

theorem Consistent.touch (consistent : Consistent options known cache) (shard : Nat)
    (member : fact ∈ cache.storage.facts)
    : Consistent options known (cache.touch options shard fact) := by
  rw [LookupCache.touch]
  split
  next =>
    let place := shard % options.shards
    have isBuffer : ∀ other ∈ cache.touched.getD place [], other ∈ cache.storage.facts := by
      rw [List.getD_eq_getElem?_getD]
      cases isBuffer : cache.touched[place]? with
      | none => rintro _ ⟨⟩
      | some buffer => exact consistent.touched buffer (List.mem_of_getElem? isBuffer)
    dsimp only
    split
    next =>
      refine consistent.reorder ⟨.refl _, rfl, rfl⟩ List.length_set (fun buffer isMember => ?_)
      rcases List.mem_or_eq_of_mem_set isMember with before | rfl
      · exact consistent.touched buffer before
      · intro other isOther
        rcases List.mem_append.mp isOther with old | isNew
        · exact isBuffer other old
        · rwa [List.mem_singleton.mp isNew]
    next =>
      refine consistent.reorder (drain_same isBuffer) List.length_set (fun buffer isMember => ?_)
      rcases List.mem_or_eq_of_mem_set isMember with before | rfl
      · exact consistent.touched buffer before
      · rintro _ ⟨⟩
  next => exact consistent.reorder ⟨touch_perm member, rfl, rfl⟩ rfl consistent.touched

/-- No buffer refers to a fact, so that facts can be deleted. -/
theorem drainAll_same (consistent : Consistent options known cache)
    : Tidy cache.drainAll ∧ SameFacts cache.storage cache.drainAll.storage
      ∧ cache.drainAll.touched.length = options.shards ∧ ∀ buffer ∈ cache.drainAll.touched, buffer = [] := by
  have same := foldl_drain_same consistent.touched
  refine ⟨consistent.tidy.reorder same, same, (List.length_map _).trans consistent.shards, ?_⟩
  intro buffer member
  obtain ⟨_, _, rfl⟩ := List.mem_map.mp member
  rfl

/-- What `makeRoom` leaves has room, and lacks the fact that is replaced. -/
structure HasRoom (options : Options) (known : Set Fact) (size : Nat) (existing : Option Cached)
    (before after : LookupCache) : Prop where
  tidy : Tidy after
  room : after.storage.bytes + size ≤ options.capacity
  shards : after.touched.length = options.shards
  touched : ∀ buffer ∈ after.touched, ∀ fact ∈ buffer, fact ∈ after.storage.facts
  facts : ∀ cached ∈ after.storage.facts, cached ∈ before.storage.facts ∧ some cached ≠ existing

theorem replace_tidy {existing : Option Cached} (tidy : Tidy cache)
    (isExisting : ∀ cached, existing = some cached → cached ∈ cache.storage.facts)
    : Tidy (cache.replace existing) ∧ (cache.replace existing).touched = cache.touched
      ∧ ∀ cached ∈ (cache.replace existing).storage.facts,
        cached ∈ cache.storage.facts ∧ some cached ≠ existing := by
  cases existing with
  | none => exact ⟨tidy, rfl, fun cached member => ⟨member, by rintro ⟨⟩⟩⟩
  | some existing =>
      have member := isExisting existing rfl
      have released := tidy.release member
      refine ⟨released, rfl, fun cached isCached => ⟨List.mem_of_mem_erase isCached, ?_⟩⟩
      rintro ⟨⟩
      have unique := (tidy.describes.perm (List.perm_cons_erase member)).uniqueIds
      exact (List.pairwise_cons.mp unique).1 existing isCached rfl

theorem makeRoom_hasRoom {size : Nat} {existing : Option Cached}
    (consistent : Consistent options known cache) (small : size ≤ options.capacity)
    (isExisting : ∀ cached, existing = some cached → cached ∈ cache.storage.facts)
    : HasRoom options known size existing cache (cache.makeRoom options size existing) := by
  rw [makeRoom]
  split
  next =>
    obtain ⟨drained, same, length, isEmpty⟩ := drainAll_same consistent
    obtain ⟨replaced, isTouched, facts⟩ := replace_tidy drained
      (fun cached isCached => same.facts.mem_iff.mpr (isExisting cached isCached))
    have kept : ∀ cached ∈ (cache.drainAll.replace existing).storage.facts,
        cached ∈ cache.storage.facts ∧ some cached ≠ existing :=
      fun cached member => ⟨same.facts.mem_iff.mp (facts cached member).1, (facts cached member).2⟩
    have noTouched : ∀ buffer ∈ (cache.drainAll.replace existing).touched, ∀ fact ∈ buffer, False := by
      intro buffer member fact isFact
      rw [isEmpty buffer (isTouched ▸ member)] at isFact
      cases isFact
    dsimp only
    split
    next =>
      obtain ⟨evicted, isSuffix, isSmall⟩ := replaced.evict (options.shrunk - size)
      have less := options.less
      refine ⟨evicted, ?_, isTouched ▸ length, ?_, fun cached member => kept cached (isSuffix.subset member)⟩
      · rcases isSmall with isSmall | isZero
        · lia
        · lia
      · exact fun buffer member fact isFact => (noTouched buffer member fact isFact).elim
    next fits =>
      exact ⟨replaced, Nat.le_of_not_lt fits, isTouched ▸ length,
        fun buffer member fact isFact => (noTouched buffer member fact isFact).elim, kept⟩
  next unchanged =>
    rw [not_or] at unchanged
    obtain rfl : existing = none := by simpa using unchanged.1
    exact ⟨consistent.tidy, Nat.le_of_not_lt unchanged.2, consistent.shards, consistent.touched,
      fun cached member => ⟨member, by rintro ⟨⟩⟩⟩

/-- Facts that agree with the same stored fact are cached once. -/
theorem Agrees.same_id (holds : base.Holds known) {left right : Cached} (isLeft : Agrees known left)
    (isRight : Agrees known right) (leftKey : left.tag ≠ .type) (rightKey : right.tag ≠ .type)
    (sameType : left.fact.type = right.fact.type) (sameKey : left.fact.key = right.fact.key)
    : left.fact.id = right.fact.id := by
  obtain ⟨stored, member, isId, isType, isKey, -⟩ := isLeft
  obtain ⟨other, isOther, otherId, otherType, otherKey, -⟩ := isRight
  have same : stored = other := by
    refine holds.key_unique member isOther ?_ ?_
    · rw [isType, otherType, sameType]
    · rw [isKey leftKey, otherKey rightKey, sameKey]
  rw [← isId, ← otherId, same]

theorem Consistent.insertOne (consistent : Consistent options known cache) (holds : base.Holds known)
    (agrees : Agrees known owned)
    : Consistent options known (cache.insertOne options owned) := by
  rw [LookupCache.insertOne]
  split
  next => exact consistent
  next small =>
    dsimp only
    split
    next => exact consistent
    next =>
      let existing := cache.index.findId owned.fact.id
      have describes := consistent.tidy.describes
      have isExisting : ∀ cached, existing = some cached → cached ∈ cache.storage.facts :=
        fun cached found => (describes.findId.mp found).1
      obtain ⟨tidy, room, shards, touched, facts⟩ :=
        makeRoom_hasRoom consistent (Nat.le_of_not_lt small) isExisting
      have newId : ∀ other ∈ (cache.makeRoom options owned.size existing).storage.facts,
          other.fact.id ≠ owned.fact.id := by
        intro other member isId
        obtain ⟨before, different⟩ := facts other member
        exact different (describes.findId.mpr ⟨before, isId⟩).symm
      have inserted := tidy.describes.insert newId (fun ownedKey other member otherKey same =>
        newId other member (Agrees.same_id holds (consistent.agrees other (facts other member).1) agrees
          otherKey ownedKey same.1 same.2))
      have isSum : sizes ((cache.makeRoom options owned.size existing).storage.facts ++ [owned])
          = (cache.makeRoom options owned.size existing).storage.bytes + owned.size := by
        rw [sizes, List.map_append, List.sum_append, tidy.bytes]
        rfl
      refine ⟨⟨inserted, isSum.symm, ?_⟩, room, shards, ?_, ?_⟩
      · change (cache.makeRoom options owned.size existing).storage.count + 1 = _
        rw [tidy.count]
        change _ = ((cache.makeRoom options owned.size existing).storage.facts ++ [owned]).length
        rw [List.length_append]
        rfl
      · exact fun buffer member fact isFact => List.mem_append_left _ (touched buffer member fact isFact)
      · intro cached member
        rcases List.mem_append.mp member with before | isNew
        · exact consistent.agrees cached (facts cached before).1
        · rwa [List.mem_singleton.mp isNew]

theorem Consistent.insert (consistent : Consistent options known cache) (holds : base.Holds known)
    {fact : Fact} {tag : Tag} (agrees : ∀ address, Agrees known ⟨address, fact, tag⟩)
    : Consistent options known (cache.insert options fact tag) := by
  have renamed : Consistent options known { cache with address := cache.address + 1 } :=
    ⟨⟨consistent.tidy.describes, consistent.tidy.bytes, consistent.tidy.count⟩, consistent.capacity,
      consistent.shards, consistent.touched, consistent.agrees⟩
  exact renamed.insertOne holds (agrees _)

end Consistent

/-- An operation of an anchor, on a thread of some shard, or one of `withBulkStore`. -/
inductive Operation where
  | idByKey (shard : Nat) (type : Pid) (key : Bytes)
  | typeById (shard : Nat) (id : Id)
  | factById (shard : Nat) (id : Id)
  | insert (fact : Fact)

inductive Answer where
  | id (id : Id)
  | type (type : Pid)
  | fact (fact : Option (Pid × Clause))
  | none

def perform (options : Options) (base : Lookup) (cache : LookupCache) : Operation → Answer × LookupCache
  | .idByKey shard type key =>
      let (id, after) := Anchor.idByKey options base cache shard type key
      (.id id, after)
  | .typeById shard id =>
      let (type, after) := Anchor.typeById options base cache shard id
      (.type type, after)
  | .factById shard id =>
      let (fact, after) := Anchor.factById options base cache shard id
      (.fact fact, after)
  | .insert fact => (.none, cache.insert options fact .full)

/-- What the lookup behind a cache answers. -/
def answer (base : Lookup) : Operation → Answer
  | .idByKey _ type key => .id (base.idByKey type key)
  | .typeById _ id => .type (base.typeById id)
  | .factById _ id => .fact (base.factById id)
  | .insert _ => .none

/-- The facts that are inserted are those of the lookup. -/
def Sound (known : Set Fact) (_ : LookupCache) : Operation → Prop
  | .insert fact => fact ∈ known
  | _ => True

def step (options : Options) (base : Lookup) (cache : LookupCache) (operation : Operation)
    : Option LookupCache :=
  some (perform options base cache operation).2

section Runs

variable {options : Options} {known : Set Fact} {base : Lookup} {cache : LookupCache}

theorem idByKey_transparent (consistent : Consistent options known cache) (holds : base.Holds known)
    (shard : Nat) (type : Pid) (key : Bytes)
    : (Anchor.idByKey options base cache shard type key).1 = base.idByKey type key
      ∧ Consistent options known (Anchor.idByKey options base cache shard type key).2 := by
  rw [Anchor.idByKey]
  cases found : cache.index.findKey type key with
  | some cached =>
      obtain ⟨member, hasKey, rfl, rfl⟩ := consistent.tidy.describes.of_findKey found
      obtain ⟨stored, isStored, isId, isType, isKey, -⟩ := consistent.agrees cached member
      have isAnswer : base.idByKey cached.fact.type cached.fact.key = cached.fact.id := by
        rw [← isType, ← isKey hasKey, ← isId]
        exact holds.idByKey stored isStored
      have valid : cached.fact.id ≠ Id.invalid := isId ▸ (holds.valid stored isStored).1
      dsimp only
      rw [if_pos valid]
      exact ⟨isAnswer.symm, consistent.touch shard member⟩
  | none =>
      dsimp only
      rw [if_neg (fun different => different rfl)]
      split
      next isFound =>
        obtain ⟨stored, isStored, isType, isKey, isId⟩ := holds.of_idByKey isFound
        refine ⟨rfl, consistent.insert holds (fun address => ?_)⟩
        exact ⟨stored, isStored, isId.symm, isType, fun _ => isKey, by rintro ⟨⟩⟩
      next notFound => exact ⟨(not_not.mp notFound).symm, consistent⟩

theorem typeById_transparent (consistent : Consistent options known cache) (holds : base.Holds known)
    (shard : Nat) (id : Id)
    : (Anchor.typeById options base cache shard id).1 = base.typeById id
      ∧ Consistent options known (Anchor.typeById options base cache shard id).2 := by
  rw [Anchor.typeById]
  cases found : cache.index.findId id with
  | some cached =>
      obtain ⟨member, rfl⟩ := consistent.tidy.describes.findId.mp found
      obtain ⟨stored, isStored, isId, isType, -⟩ := consistent.agrees cached member
      have isAnswer : base.typeById cached.fact.id = cached.fact.type := by
        rw [← isType, ← isId]
        exact holds.typeById stored isStored
      have valid : cached.fact.type ≠ Pid.invalid := isType ▸ (holds.valid stored isStored).2
      dsimp only
      rw [if_pos valid]
      exact ⟨isAnswer.symm, consistent.touch shard member⟩
  | none =>
      dsimp only
      rw [if_neg (fun different => different rfl)]
      split
      next isFound =>
        obtain ⟨stored, isStored, isId, isType⟩ := holds.typeById_eq isFound rfl
        refine ⟨rfl, consistent.insert holds (fun address => ?_)⟩
        exact ⟨stored, isStored, isId, isType, fun notType => absurd rfl notType, by rintro ⟨⟩⟩
      next notFound => exact ⟨(not_not.mp notFound).symm, consistent⟩

theorem factById_transparent (consistent : Consistent options known cache) (holds : base.Holds known)
    (shard : Nat) (id : Id)
    : (Anchor.factById options base cache shard id).1 = base.factById id
      ∧ Consistent options known (Anchor.factById options base cache shard id).2 := by
  rw [Anchor.factById]
  split
  next cached isFull =>
    obtain ⟨found, isTag⟩ := Option.filter_eq_some_iff.mp isFull
    obtain ⟨member, rfl⟩ := consistent.tidy.describes.findId.mp found
    obtain ⟨stored, isStored, isId, isType, -, isClause⟩ := consistent.agrees cached member
    refine ⟨?_, consistent.touch shard member⟩
    symm
    refine holds.factById.mpr ?_
    rw [← isId, ← isType, ← isClause (by simpa using isTag)]
    exact isStored
  next =>
    split
    next type clause isFact =>
      have isStored := holds.factById.mp isFact
      refine ⟨isFact.symm, consistent.insert holds (fun address => ?_)⟩
      exact ⟨_, isStored, rfl, rfl, fun _ => rfl, fun _ => rfl⟩
    next isNone => exact ⟨isNone.symm, consistent⟩

theorem perform_transparent {operation : Operation} (consistent : Consistent options known cache)
    (holds : base.Holds known) (sound : Sound known cache operation)
    : (perform options base cache operation).1 = answer base operation
      ∧ Consistent options known (perform options base cache operation).2 := by
  cases operation with
  | idByKey shard type key =>
      obtain ⟨isAnswer, after⟩ := idByKey_transparent consistent holds shard type key
      exact ⟨congrArg Answer.id isAnswer, after⟩
  | typeById shard id =>
      obtain ⟨isAnswer, after⟩ := typeById_transparent consistent holds shard id
      exact ⟨congrArg Answer.type isAnswer, after⟩
  | factById shard id =>
      obtain ⟨isAnswer, after⟩ := factById_transparent consistent holds shard id
      exact ⟨congrArg Answer.fact isAnswer, after⟩
  | insert fact =>
      refine ⟨rfl, consistent.insert holds (fun address => ?_)⟩
      exact ⟨fact, sound, rfl, rfl, fun _ => rfl, fun _ => rfl⟩

/-- The cache answers like the lookup behind it. Its indexes and its storage have the same facts,
which are counted and fit into it, and its buffers refer to them.
-/
structure Transparent (options : Options) (base : Lookup) (known : Set Fact) (cache : LookupCache)
    : Prop where
  answers
    : ∀ operation, Sound known cache operation →
        (perform options base cache operation).1 = answer base operation
  ids : cache.index.ids.Perm cache.storage.facts
  keys : cache.index.keys.Perm (cache.storage.facts.filter hasKey)
  unique : cache.storage.facts.Pairwise (fun left right => left.fact.id ≠ right.fact.id)
  bytes : cache.storage.bytes = (cache.storage.facts.map Cached.size).sum
  count : cache.storage.count = cache.storage.facts.length
  capacity : cache.storage.bytes ≤ options.capacity
  touched : ∀ buffer ∈ cache.touched, ∀ fact ∈ buffer, fact ∈ cache.storage.facts

/-- After all operations, a cache is transparent. -/
theorem lookupCache_transparent (holds : base.Holds known)
    (run : Machine.Run (step options base) (Sound known) (fun cache => cache = new options) cache)
    : Transparent options base known cache := by
  have consistent : Consistent options known cache := by
    refine run.invariant ?_ (fun before operation after consistent sound next => ?_)
    · rintro _ rfl
      exact .new
    · cases next
      exact (perform_transparent consistent holds sound).2
  exact
    { answers := fun _ sound => (perform_transparent consistent holds sound).1
      ids := consistent.tidy.describes.ids
      keys := consistent.tidy.describes.keys
      unique := consistent.tidy.describes.uniqueIds
      bytes := consistent.tidy.bytes
      count := consistent.tidy.count
      capacity := consistent.capacity
      touched := consistent.touched }

end Runs

/-- A database with one fact. -/
def oneFact : FactSet :=
  (FactSet.new 1024 Id.invalid_lt_1024).push 1024 ⟨[1], [0]⟩ Pid.firstFree_lt_limit
    (by simp [FactSet.new, FactSet.bucket])

theorem oneFact_holds : oneFact.lookup.Holds oneFact.members := by
  refine FactSet.lookup_holds oneFact (fun fact member => ?_)
  obtain rfl := List.mem_singleton.mp member
  simp [Pid.invalid]

def smallCache : Options :=
  ⟨50, 45, 1, 2, by decide⟩

/-- The type, the key and the fact are cached one after the other, each instead of what was there. -/
theorem lookupCache_transparent_oneFact
    : ∃ cache, Machine.Run (step smallCache oneFact.lookup) (Sound oneFact.members)
          (fun cache => cache = new smallCache) cache
        ∧ cache.storage.facts = [⟨2, ⟨1024, 1024, ⟨[1], [0]⟩⟩, .full⟩] ∧ cache.storage.bytes = 42
        ∧ Transparent smallCache oneFact.lookup oneFact.members cache := by
  have start : Machine.Run (step smallCache oneFact.lookup) (Sound oneFact.members)
      (fun cache => cache = new smallCache) (new smallCache) := .start rfl
  obtain ⟨cache, executed, isCached, isSize⟩ : ∃ cache,
      Machine.runEvents (step smallCache oneFact.lookup) (new smallCache)
          [.typeById 0 1024, .typeById 0 1024, .idByKey 0 1024 [1], .factById 0 1024] = some cache
        ∧ cache.storage.facts = [⟨2, ⟨1024, 1024, ⟨[1], [0]⟩⟩, .full⟩] ∧ cache.storage.bytes = 42 := by
    exact ⟨_, rfl, by decide +kernel, by decide +kernel⟩
  have sound : Machine.SoundEvents (step smallCache oneFact.lookup) (Sound oneFact.members)
      (new smallCache) [.typeById 0 1024, .typeById 0 1024, .idByKey 0 1024 [1], .factById 0 1024] :=
    ⟨trivial, trivial, trivial, trivial, trivial⟩
  have run := start.of_runEvents sound executed
  exact ⟨cache, run, isCached, isSize, lookupCache_transparent oneFact_holds run⟩

/-- A fact is inserted that the lookup does not have. -/
theorem lookupCache_opaque
    : ∃ cache, Machine.Run (step smallCache EmptyLookup) (fun _ _ => True)
          (fun cache => cache = new smallCache) cache
        ∧ (Anchor.idByKey smallCache EmptyLookup cache 0 1024 [1]).1 = 1024
        ∧ EmptyLookup.idByKey 1024 [1] = Id.invalid ∧ (1024 : Id) ≠ Id.invalid := by
  have start : Machine.Run (step smallCache EmptyLookup) (fun _ _ => True)
      (fun cache => cache = new smallCache) (new smallCache) := .start rfl
  obtain ⟨cache, executed, isFound⟩ : ∃ cache,
      Machine.runEvents (step smallCache EmptyLookup) (new smallCache)
          [.insert ⟨1024, 1024, ⟨[1], [0]⟩⟩] = some cache
        ∧ (Anchor.idByKey smallCache EmptyLookup cache 0 1024 [1]).1 = 1024 :=
    ⟨_, rfl, by decide⟩
  have run := start.of_runEvents (Machine.soundEvents_true _ _ _) executed
  exact ⟨cache, run, isFound, rfl, by decide⟩

end Glean.RTS.LookupCache
