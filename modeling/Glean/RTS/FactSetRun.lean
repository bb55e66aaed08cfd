import Mathlib.Logic.Function.Basic
import Glean.Library.Machine
import Glean.RTS.DefineHolds
import Glean.RTS.FactSetFields

/-! Runs of the operations that change fact sets: defining facts, seeking, appending a set to
another one and moving sets. Appending to an empty set keeps its starting id, whatever the ids of
the appended facts are.
-/

namespace Glean.RTS

namespace FactSet

open FactSetFields (byKey byId)

variable (set : FactSet)

theorem fact?_eq_byId (id : Id) : set.fact? id = byId set.facts id := by
  cases found : set.fact? id with
  | some fact =>
      obtain ⟨member, isId⟩ := fact?_eq_some.mp found
      refine (find?_eq_some_of_unique member (by simpa using isId) ?_).symm
      intro other otherMember otherId
      have otherFound := fact?_eq_some.mpr ⟨otherMember, of_decide_eq_true otherId⟩
      rw [found] at otherFound
      exact (Option.some.inj otherFound).symm
  | none =>
      refine (List.find?_eq_none.mpr ?_).symm
      intro fact member isId
      have known := fact?_eq_some.mpr ⟨member, of_decide_eq_true isId⟩
      rw [found] at known
      cases known

theorem mem_bucket {type : Pid} {fact : Fact}
    : fact ∈ set.bucket type ↔ fact ∈ set.facts ∧ fact.type = type :=
  set.keyed type fact

/-- Facts with one key in the bucket of a predicate are equal. -/
theorem bucket_key_unique {type : Pid} {left right : Fact} (isLeft : left ∈ set.bucket type)
    (isRight : right ∈ set.bucket type) (same : left.key = right.key)
    : left = right := by
  by_contra different
  have symmetric : Std.Symm (fun left right : Fact => left.key ≠ right.key) :=
    ⟨fun _ _ => Ne.symm⟩
  exact (set.distinct type).forall isLeft isRight different same

/-- Searching the bucket of a predicate for a key finds what a search of all facts finds. -/
theorem find?_bucket (type : Pid) (key : Bytes)
    : (set.bucket type).find? (fun fact => fact.key = key) = byKey set.facts type key := by
  cases found : (set.bucket type).find? (fun fact => fact.key = key) with
  | some fact =>
      have inBucket := List.mem_of_find?_eq_some found
      have isKey : fact.key = key := by simpa using List.find?_some found
      obtain ⟨member, ofType⟩ := set.mem_bucket.mp inBucket
      refine (find?_eq_some_of_unique member (by simpa using ⟨ofType, isKey⟩) ?_).symm
      intro other otherMember test
      obtain ⟨otherType, otherKey⟩ : other.type = type ∧ other.key = key := by simpa using test
      exact set.bucket_key_unique (set.mem_bucket.mpr ⟨otherMember, otherType⟩) inBucket
        (otherKey.trans isKey.symm)
  | none =>
      refine (List.find?_eq_none.mpr ?_).symm
      intro fact member test
      obtain ⟨ofType, isKey⟩ : fact.type = type ∧ fact.key = key := by simpa using test
      have absent := List.find?_eq_none.mp found fact (set.mem_bucket.mpr ⟨member, ofType⟩)
      exact absent (by simpa using isKey)

theorem nodup : set.facts.Nodup :=
  set.ascending.imp (fun less same => (congrArg Fact.id same).not_lt less)

theorem length_bucket (type : Pid)
    : (set.bucket type).length = set.facts.countP (·.type = type) := by
  have bucketNodup : (set.bucket type).Nodup :=
    (set.distinct type).imp (fun different same => different (congrArg Fact.key same))
  have perm : (set.bucket type).Perm (set.facts.filter (·.type = type)) := by
    refine (List.perm_ext_iff_of_nodup bucketNodup (set.nodup.filter _)).mpr ?_
    intro fact
    rw [set.mem_bucket, List.mem_filter, decide_eq_true_eq]
  rw [perm.length_eq, List.countP_eq_length_filter]

/-- What a seek returns yields the facts it looks for. -/
theorem fields_seek (type : Pid) (start : Bytes) (prefixSize : Nat)
    : (set.fields.seek type start prefixSize).2 = set.seek type start prefixSize := by
  unfold FactSetFields.seek seek
  cases known : set.keys.get? type with
  | none => rw [show set.fields.keys.get? type = none from known]
  | some bucket =>
      rw [show set.fields.keys.get? type = some bucket from known]
      rfl

/-- All views of a set that keeps its invariant describe its facts. -/
theorem describes : set.fields.Describes where
  ids := set.id_getElem
  distinct := set.distinctKeys.imp (fun different same => different same.1 same.2)
  idByKey := by
    intro type key
    have found := set.find?_bucket type key
    change set.idByKey type key = ((byKey set.facts type key).map Fact.id).getD Id.invalid
    rw [FactSet.idByKey, found]
    cases byKey set.facts type key <;> rfl
  typeById := by
    intro id
    change set.typeById id = ((byId set.facts id).map Fact.type).getD Pid.invalid
    rw [FactSet.typeById, fact?_eq_byId]
    cases byId set.facts id <;> rfl
  factById := by
    intro id
    change set.factById id = _
    rw [FactSet.factById, fact?_eq_byId]
    rfl
  count := by
    intro type
    exact congrArg Interval.exactly (set.length_bucket type)
  seek := by
    intro protocol type start prefixSize bounded
    rw [fields_seek]
    exact set.seek_yields protocol type start prefixSize bounded
  factMemory := rfl

theorem firstFreeId_fields (room : set.startingId + set.facts.length < 2 ^ 64)
    : set.fields.firstFreeId = set.firstFreeId :=
  Nat.mod_eq_of_lt room

theorem missing_of_byKey {type : Pid} {clause : Clause}
    (absent : byKey set.facts type clause.key = none)
    : ∀ fact ∈ set.bucket type, fact.key ≠ clause.key := by
  rw [← set.find?_bucket] at absent
  simpa using absent

/-- A clause with a known key is not added, and one with a new key gets the next id. -/
theorem fields_define {type : Pid} {clause : Clause} (short : clause.key.length ≤ maxKeySize)
    (fits : clause.key.length + clause.value.length < 2 ^ 32) (bounded : type < Pid.limit)
    (room : byKey set.facts type clause.key = none →
      set.startingId + set.facts.length < 2 ^ 64)
    : match found : byKey set.facts type clause.key with
      | some fact =>
          set.fields.define type clause
            = .ok (set.fields, if clause.value = fact.value then fact.id else Id.invalid)
      | none =>
          set.fields.define type clause
            = .ok ((set.push type clause bounded (set.missing_of_byKey found)).fields,
                set.firstFreeId) := by
  have searched : (set.fields.bucket type).find? (fun fact => fact.key = clause.key)
      = byKey set.facts type clause.key := set.find?_bucket type clause.key
  split
  next fact found =>
    rw [found] at searched
    simp only [FactSetFields.define, if_neg (not_lt.mpr short), if_pos (And.intro fits bounded),
      searched]
  next found =>
    have nextId := set.firstFreeId_fields (room found)
    rw [found] at searched
    simp only [FactSetFields.define, if_neg (not_lt.mpr short), if_pos (And.intro fits bounded),
      searched, nextId]
    simp only [fields, push, List.map_append, List.sum_append, List.map_cons, List.map_nil,
      List.sum_cons, List.sum_nil, Nat.add_zero]
    rfl

theorem defineHolds {type : Pid} {clause : Clause} (short : clause.key.length ≤ maxKeySize)
    (fits : clause.key.length + clause.value.length < 2 ^ 32) (bounded : type < Pid.limit)
    (room : byKey set.facts type clause.key = none →
      set.startingId + set.facts.length < 2 ^ 64)
    : set.fields.DefineHolds type clause := by
  have defined := set.fields_define short fits bounded room
  have sameFacts : set.fields.facts = set.facts := rfl
  unfold FactSetFields.DefineHolds
  rw [sameFacts]
  split at defined
  next fact found =>
    rw [found]
    exact defined
  next found =>
    rw [found]
    have positive : Id.invalid < set.startingId := set.positive
    refine ⟨_, _, defined, rfl, rfl, rfl, ?_, fun fact member => (set.mem_bounds member).2⟩
    exact (Nat.lt_of_lt_of_le positive (Nat.le_add_right _ _)).ne'

end FactSet

namespace FactSetFields

/-- Inserting facts with new and distinct keys adds all of them. -/
theorem insertAll_eq_append {left right : List Fact}
    (apart : ∀ old ∈ left, ∀ new ∈ right, old.key ≠ new.key)
    (distinct : right.Pairwise (fun early late => early.key ≠ late.key))
    : insertAll left right = left ++ right := by
  induction right generalizing left with
  | nil => exact (List.append_nil left).symm
  | cons fact rest ih =>
      obtain ⟨different, restDistinct⟩ := List.pairwise_cons.mp distinct
      have absent : left.any (fun other => other.key = fact.key) = false := by
        simpa using fun other member => apart other member fact List.mem_cons_self
      have restApart : ∀ old ∈ left ++ [fact], ∀ new ∈ rest, old.key ≠ new.key := by
        intro old member new newMember
        rcases List.mem_append.mp member with isOld | isFact
        · exact apart old isOld new (List.mem_cons_of_mem _ newMember)
        · obtain rfl := List.mem_singleton.mp isFact
          exact different new newMember
      have added := ih restApart restDistinct
      rw [List.append_assoc] at added
      rw [insertAll, List.foldl_cons, absent]
      exact added

/-- A merge changes the hash sets of the predicates on the right. -/
theorem get?_mergeKeys (left right : SortedMap Pid (List Fact)) (type : Pid)
    : (mergeKeys left right).get? type
      = match right.get? type with
        | none => left.get? type
        | some added =>
            some (match left.get? type with
              | some facts => insertAll facts added
              | none => added) := by
  cases found : right.get? type with
  | none =>
      refine SortedMap.get?_putAll_of_not_mem _ _ (fun value member => ?_)
      obtain ⟨entry, entryMember, same⟩ := List.mem_map.mp member
      obtain ⟨rfl, -⟩ := Prod.mk.inj same
      exact SortedMap.get?_eq_none_iff.mp found entry.2 entryMember
  | some added =>
      refine SortedMap.get?_putAll_of_mem _ _ ?_ ?_
      · rw [List.map_map, List.nodup_iff_pairwise_ne, List.pairwise_map]
        exact right.sorted.imp ne_of_lt
      · exact List.mem_map.mpr ⟨(type, added), SortedMap.get?_eq_some_iff.mp found, rfl⟩

/-- The merged hash set of a predicate, when no key is in both. -/
theorem bucket_mergeKeys {left right : SortedMap Pid (List Fact)} {type : Pid}
    (apart : ∀ old ∈ (left.get? type).getD [], ∀ new ∈ (right.get? type).getD [],
      old.key ≠ new.key)
    (distinct : ((right.get? type).getD []).Pairwise (fun early late => early.key ≠ late.key))
    : ((mergeKeys left right).get? type).getD []
      = (left.get? type).getD [] ++ (right.get? type).getD [] := by
  rw [get?_mergeKeys]
  cases onRight : right.get? type with
  | none => simp
  | some added =>
      rw [onRight] at apart distinct
      cases onLeft : left.get? type with
      | none => simp
      | some facts =>
          rw [onLeft] at apart
          exact insertAll_eq_append apart distinct

end FactSetFields

namespace FactSet

variable (set other : FactSet)

/-- No fact of one set has the predicate and the key of a fact of the other. -/
def Apart : Prop :=
  ∀ type, ∀ old ∈ set.bucket type, ∀ new ∈ other.bucket type, old.key ≠ new.key

/-- The facts of another set behind those of a set, when their ids follow. -/
def join (follows : other.facts ≠ [] → set.firstFreeId = other.startingId)
    (apart : set.Apart other)
    : FactSet :=
  { set with
      facts := set.facts ++ other.facts
      keys := FactSetFields.mergeKeys set.keys other.keys
      dense := by
        rw [List.map_append, set.dense, other.dense, List.length_append]
        by_cases empty : other.facts = []
        · simp [empty]
        · rw [← follows empty]
          exact List.range'_append_1
      typed := by
        intro fact member
        rcases List.mem_append.mp member with old | new
        · exact set.typed fact old
        · exact other.typed fact new
      keyed := by
        intro type fact
        rw [FactSetFields.bucket_mergeKeys (apart type) (other.distinct type), List.mem_append,
          set.keyed, other.keyed, List.mem_append, or_and_right]
      distinct := by
        intro type
        rw [FactSetFields.bucket_mergeKeys (apart type) (other.distinct type)]
        exact List.pairwise_append.mpr ⟨set.distinct type, other.distinct type, apart type⟩
      cached := by
        intro type map found entry member
        obtain ⟨key, known⟩ := set.cached type map found entry member
        rw [FactSetFields.bucket_mergeKeys (apart type) (other.distinct type)]
        exact ⟨key, List.mem_append_left _ known⟩ }

theorem fields_append (follows : other.facts ≠ [] → set.firstFreeId = other.startingId)
    (apart : set.Apart other)
    : set.fields.append other.fields = (set.join other follows apart).fields := by
  simp only [FactSetFields.append, fields, join, List.map_append, List.sum_append]

/-- What a check of all hash sets establishes: the sets are apart, and unless one of them is empty
the ids of the other set follow.
-/
theorem of_appendable (appendable : set.fields.appendable other.fields)
    (room : set.startingId + set.facts.length ≤ 2 ^ 64)
    : set.Apart other
      ∧ (set.facts ≠ [] → other.facts ≠ [] → set.firstFreeId = other.startingId) := by
  have bucket_nil {set : FactSet} (empty : set.facts = []) (type : Pid)
      : set.bucket type = [] := by
    refine List.eq_nil_iff_forall_not_mem.mpr (fun fact member => ?_)
    have listed := (set.mem_bucket.mp member).1
    rw [empty] at listed
    cases listed
  unfold FactSetFields.appendable at appendable
  split at appendable
  next someEmpty =>
    have eitherEmpty : set.facts = [] ∨ other.facts = [] := by
      simpa [fields] using someEmpty
    refine ⟨fun type old oldMember new newMember => ?_, fun left right => ?_⟩
    · rcases eitherEmpty with empty | empty
      · simp [bucket_nil empty] at oldMember
      · simp [bucket_nil empty] at newMember
    · exact (eitherEmpty.elim left right).elim
  next noneEmpty =>
    split at appendable
    next => cases appendable
    next sameId =>
      have follows : set.fields.firstFreeId = other.startingId := not_not.mp sameId
      refine ⟨fun type old oldMember new newMember same => ?_, fun _ _ => ?_⟩
      · have known : set.fields.keys.get? type = some (set.bucket type) := by
          cases stored : set.keys.get? type with
          | none => simp [bucket, stored] at oldMember
          | some facts => simp [fields, bucket, stored]
        have otherKnown : other.keys.get? type = some (other.bucket type) := by
          cases stored : other.keys.get? type with
          | none => simp [bucket, stored] at newMember
          | some facts => simp [bucket, stored]
        have checked := List.all_eq_true.mp appendable _
          (SortedMap.get?_eq_some_iff.mp otherKnown)
        simp only [known] at checked
        have missing := List.all_eq_true.mp checked new newMember
        simp only [Bool.not_eq_eq_eq_not, Bool.not_true, List.any_eq_false,
          decide_eq_true_eq] at missing
        exact missing old oldMember same
      · have otherPositive : Id.invalid < other.startingId := other.positive
        rcases Nat.lt_or_eq_of_le room with below | full
        · rw [← follows, set.firstFreeId_fields below]
        · have wraps : set.fields.firstFreeId = 0 := by
            change (set.startingId + set.facts.length) % 2 ^ 64 = 0
            rw [full, Nat.mod_self]
          rw [← follows, wraps] at otherPositive
          exact (lt_irrefl _ otherPositive).elim

end FactSet

namespace FactSetFields

/-- The fact sets of a program by name. A set that has been moved from is not used again. -/
abbrev Sets := Nat → Option FactSetFields

/-- The operations that change sets. -/
inductive Op where
  | create (name : Nat) (start : Id)
  | define (name : Nat) (type : Pid) (clause : Clause)
  | seek (name : Nat) (type : Pid) (start : Bytes) (prefixSize : Nat)
  | append (target source : Nat)
  | move (target source : Nat)

/-- Move what a set becomes to a name. -/
def Sets.moveTo (sets : Sets) (target source : Nat) (fields : FactSetFields) : Sets :=
  Function.update (Function.update sets source none) target (some fields)

/-- One operation. An exception leaves the set as it was; `seek` and `append` have assertions. -/
def step (sets : Sets) : Op → Option Sets
  | .create name start => some (Function.update sets name (some (new start)))
  | .define name type clause => do
      let fields ← sets name
      match fields.define type clause with
      | .ok (next, _) => some (Function.update sets name (some next))
      | .error _ => some sets
      | .undefined => none
  | .seek name type start prefixSize => do
      let fields ← sets name
      if prefixSize ≤ start.length then
        some (Function.update sets name (some (fields.seek type start prefixSize).1))
      else
        none
  | .append target source => do
      let fields ← sets target
      let other ← sets source
      if target ≠ source ∧ fields.appendable other then
        some (sets.moveTo target source (fields.append other))
      else
        none
  | .move target source => do
      let fields ← sets source
      if target ≠ source then some (sets.moveTo target source fields) else none

/-- A set into which another one may be appended: if it is empty and the other one is not, they
start with the same id.
-/
def SameStart (fields other : FactSetFields) : Prop :=
  fields.facts = [] → other.facts = [] ∨ fields.startingId = other.startingId

/-- A clause that a set can define: its sizes fit in 32 bits, its predicate id has a successor, and
there is an id left if its key is new.
-/
structure Definable (fields : FactSetFields) (type : Pid) (clause : Clause) : Prop where
  fits : clause.key.length + clause.value.length < 2 ^ 32
  bounded : type < Pid.limit
  room : byKey fields.facts type clause.key = none →
    fields.startingId + fields.facts.length < 2 ^ 64

/-- The steps after which sets are as they should be. -/
def SoundOp (sets : Sets) : Op → Prop
  | .create _ start => Id.invalid < start ∧ start < 2 ^ 64
  | .define name type clause => ∀ fields, sets name = some fields →
      clause.key.length ≤ FactSet.maxKeySize → fields.Definable type clause
  | .append target source => ∀ fields other, sets target = some fields →
      sets source = some other → fields.SameStart other
  | .seek .. | .move .. => True

/-- The fields are those of a fact set with its invariant, whose ids are words. -/
def Ok (fields : FactSetFields) : Prop :=
  ∃ set : FactSet, fields = set.fields ∧ set.startingId + set.facts.length ≤ 2 ^ 64

theorem Ok.new {start : Id} (positive : Id.invalid < start) (word : start < 2 ^ 64)
    : Ok (new start) :=
  ⟨.new start positive, rfl, Nat.le_of_lt word⟩

theorem Ok.seek {fields : FactSetFields} (ok : fields.Ok) (type : Pid) (start : Bytes)
    (prefixSize : Nat)
    : Ok (fields.seek type start prefixSize).1 := by
  obtain ⟨set, rfl, bounded⟩ := ok
  cases known : set.keys.get? type with
  | none =>
      have same : (set.fields.seek type start prefixSize).1 = set.fields := by
        rw [FactSetFields.seek, show set.fields.keys.get? type = none from known]
      rw [same]
      exact ⟨set, rfl, bounded⟩
  | some bucket =>
      have remembers : (set.fields.seek type start prefixSize).1 = (set.remember type).fields := by
        rw [FactSetFields.seek, show set.fields.keys.get? type = some bucket from known]
        rfl
      rw [remembers]
      exact ⟨set.remember type, rfl, bounded⟩

theorem Ok.defineHolds {fields : FactSetFields} (ok : fields.Ok) {type : Pid} {clause : Clause}
    (definable : fields.Definable type clause)
    (short : clause.key.length ≤ FactSet.maxKeySize)
    : fields.DefineHolds type clause := by
  obtain ⟨set, rfl, -⟩ := ok
  exact set.defineHolds short definable.fits definable.bounded definable.room

theorem Ok.define {fields next : FactSetFields} (ok : fields.Ok) {type : Pid} {clause : Clause}
    {id : Id}
    (definable : clause.key.length ≤ FactSet.maxKeySize → fields.Definable type clause)
    (defined : fields.define type clause = .ok (next, id))
    : next.Ok := by
  obtain ⟨set, rfl, bounded⟩ := ok
  have short : clause.key.length ≤ FactSet.maxKeySize := by
    by_contra large
    rw [FactSetFields.define, if_pos (not_le.mp large)] at defined
    cases defined
  have definable := definable short
  have outcome := set.fields_define short definable.fits definable.bounded definable.room
  split at outcome
  next fact found =>
    rw [outcome] at defined
    obtain ⟨rfl, -⟩ := Prod.mk.inj (Outcome.ok.inj defined)
    exact ⟨set, rfl, bounded⟩
  next found =>
    rw [outcome] at defined
    obtain ⟨rfl, -⟩ := Prod.mk.inj (Outcome.ok.inj defined)
    refine ⟨_, rfl, ?_⟩
    have room := definable.room found
    change set.startingId + (set.facts ++ [_]).length ≤ 2 ^ 64
    rw [List.length_append, List.length_singleton, ← Nat.add_assoc]
    exact room

/-- Where a set may be appended, the ids of its facts follow those of the target. -/
theorem follows_of_sameStart {set other : FactSet} (same : set.fields.SameStart other.fields)
    (follows : set.facts ≠ [] → other.facts ≠ [] → set.firstFreeId = other.startingId)
    (nonempty : other.facts ≠ [])
    : set.firstFreeId = other.startingId := by
  by_cases empty : set.facts = []
  · rcases same empty with otherEmpty | start
    · exact (nonempty otherEmpty).elim
    · have starts : set.startingId = other.startingId := start
      rw [FactSet.firstFreeId, empty, starts]
      rfl
  · exact follows empty nonempty

theorem Ok.append {fields other : FactSetFields} (ok : fields.Ok) (otherOk : other.Ok)
    (appendable : fields.appendable other) (same : fields.SameStart other)
    : (fields.append other).Ok := by
  obtain ⟨set, rfl, bounded⟩ := ok
  obtain ⟨added, rfl, addedBounded⟩ := otherOk
  obtain ⟨apart, follows⟩ := set.of_appendable added appendable bounded
  have nextIds := follows_of_sameStart same follows
  refine ⟨set.join added nextIds apart, set.fields_append added nextIds apart, ?_⟩
  change set.startingId + (set.facts ++ added.facts).length ≤ 2 ^ 64
  by_cases empty : added.facts = []
  · rw [empty, List.append_nil]
    exact bounded
  · have start : set.startingId + set.facts.length = added.startingId := nextIds empty
    rw [List.length_append, ← Nat.add_assoc, start]
    exact addedBounded

/-- An append of a nonempty set to an empty one that starts elsewhere gives its first fact another
id than its position says.
-/
theorem sameStart_of_describes {fields other : FactSetFields} (otherOk : other.Ok)
    (described : (fields.append other).Describes)
    : fields.SameStart other := by
  intro empty
  by_cases nothing : other.facts = []
  · exact .inl nothing
  · obtain ⟨added, rfl, -⟩ := otherOk
    have some : 0 < added.facts.length := List.length_pos_of_ne_nil nothing
    have joined : (fields.append added.fields).facts = added.facts := by
      rw [FactSetFields.append, empty]
      rfl
    have first := described.ids 0 (by rwa [joined])
    simp only [joined, added.id_getElem 0 some] at first
    exact .inr first.symm

/-- Names other than those of an operation keep their sets. -/
theorem all_update {property : FactSetFields → Prop} {sets : Sets}
    (all : ∀ name fields, sets name = some fields → property fields) (name : Nat)
    {value : Option FactSetFields} (holds : ∀ fields, value = some fields → property fields)
    : ∀ other fields, Function.update sets name value other = some fields → property fields := by
  intro other fields found
  by_cases same : other = name
  · rw [same, Function.update_self] at found
    exact holds fields found
  · rw [Function.update_of_ne same] at found
    exact all other fields found

theorem all_moveTo {property : FactSetFields → Prop} {sets : Sets}
    (all : ∀ name fields, sets name = some fields → property fields) {target source : Nat}
    {fields : FactSetFields} (holds : property fields)
    : ∀ other next, sets.moveTo target source fields other = some next → property next := by
  refine all_update (all_update all source (fun _ isNone => ?_)) target (fun next isSome => ?_)
  · cases isNone
  · obtain rfl := Option.some.inj isSome
    exact holds

/-- Every sound operation keeps the invariant of all sets. -/
theorem step_ok {sets next : Sets} {op : Op}
    (ok : ∀ name fields, sets name = some fields → fields.Ok) (sound : SoundOp sets op)
    (stepped : step sets op = some next)
    : ∀ name fields, next name = some fields → fields.Ok := by
  cases op with
  | create name start =>
      obtain rfl := Option.some.inj stepped
      refine all_update ok name (fun fields isNew => ?_)
      obtain rfl := Option.some.inj isNew
      exact .new sound.1 sound.2
  | define name type clause =>
      obtain ⟨fields, found, defined⟩ := Option.bind_eq_some_iff.mp stepped
      split at defined
      next after id result =>
        obtain rfl := Option.some.inj defined
        refine all_update ok name (fun fields' isAfter => ?_)
        obtain rfl := Option.some.inj isAfter
        exact (ok name fields found).define (sound fields found) result
      next =>
        obtain rfl := Option.some.inj defined
        exact ok
      next => cases defined
  | seek name type start prefixSize =>
      obtain ⟨fields, found, sought⟩ := Option.bind_eq_some_iff.mp stepped
      split at sought
      next =>
        obtain rfl := Option.some.inj sought
        refine all_update ok name (fun fields' isAfter => ?_)
        obtain rfl := Option.some.inj isAfter
        exact (ok name fields found).seek type start prefixSize
      next => cases sought
  | append target source =>
      obtain ⟨fields, found, rest⟩ := Option.bind_eq_some_iff.mp stepped
      obtain ⟨other, otherFound, appended⟩ := Option.bind_eq_some_iff.mp rest
      split at appended
      next allowed =>
        obtain rfl := Option.some.inj appended
        refine all_moveTo ok ?_
        exact (ok target fields found).append (ok source other otherFound) allowed.2
          (sound fields other found otherFound)
      next => cases appended
  | move target source =>
      obtain ⟨fields, found, moved⟩ := Option.bind_eq_some_iff.mp stepped
      split at moved
      next =>
        obtain rfl := Option.some.inj moved
        exact all_moveTo ok (ok source fields found)
      next => cases moved

/-- A program starts without fact sets. -/
def Starts (sets : Sets) : Prop :=
  ∀ name, sets name = none

theorem run_ok {sets : Sets} (run : Machine.Run step SoundOp Starts sets) {name : Nat}
    {fields : FactSetFields} (found : sets name = some fields)
    : fields.Ok := by
  have all : ∀ name fields, sets name = some fields → fields.Ok := by
    refine run.invariant ?_ (fun _ _ _ ok sound stepped => step_ok ok sound stepped)
    intro sets starts name fields found
    rw [starts name] at found
    cases found
  exact all name fields found

theorem Ok.describes {fields : FactSetFields} (ok : fields.Ok) : fields.Describes := by
  obtain ⟨set, rfl, -⟩ := ok
  exact set.describes

/-- In every run of sound operations every set is described by its list of facts, defining a
clause does what it should, and an appendable set can be appended with this result exactly if it
starts where an empty target starts.
-/
theorem sets_described {sets : Sets} (run : Machine.Run step SoundOp Starts sets) {name : Nat}
    {fields : FactSetFields} (found : sets name = some fields)
    : fields.Describes
      ∧ (∀ type clause, fields.Definable type clause → clause.key.length ≤ FactSet.maxKeySize →
          fields.DefineHolds type clause)
      ∧ ∀ source other, sets source = some other → fields.appendable other →
          ((fields.append other).Describes ↔ fields.SameStart other) := by
  have ok := run_ok run found
  refine ⟨ok.describes, fun type clause definable short => ok.defineHolds definable short, ?_⟩
  intro source other otherFound appendable
  have otherOk := run_ok run otherFound
  constructor
  · exact sameStart_of_describes otherOk
  · intro same
    exact (ok.append otherOk appendable same).describes

/-- A set with one fact after it has been created and the fact has been defined. -/
theorem sets_described_one
    : Describes ⟨1024, [⟨1024, 1, ⟨[7], []⟩⟩], .put .empty 1 [⟨1024, 1, ⟨[7], []⟩⟩], 41, .empty⟩ := by
  have created
      : Machine.Run step SoundOp Starts
          (Function.update (fun _ => none) 0 (some (new 1024))) :=
    .step (.start (fun _ => rfl)) (.create 0 1024) ⟨by decide, by decide⟩ rfl
  refine (@sets_described _ (.step created (.define 0 1 ⟨[7], []⟩) ?_ rfl) 0 _ rfl).1
  intro fields found short
  obtain rfl := Option.some.inj found
  exact ⟨by decide, by decide, fun _ => by decide⟩

/-- Appending to an empty set that starts elsewhere: the fact that is found by its key has the id
1024, under which the set has no fact.
-/
theorem append_not_described
    : ¬ ∀ sets name fields, Machine.Run step (fun _ _ => True) Starts sets →
        sets name = some fields → fields.Describes := by
  intro claim
  let ops : List Op :=
    [.create 0 2048, .create 1 1024, .define 1 1 ⟨[7], []⟩, .append 0 1]
  have run : Machine.Run step (fun _ _ => True) Starts _ :=
    .of_runEvents (.start (fun _ => rfl)) (Machine.soundEvents_true step _ ops) rfl
  have described := claim _ 0 _ run rfl
  have first := described.ids 0 (by decide)
  exact absurd first (by decide)

end FactSetFields

end Glean.RTS
