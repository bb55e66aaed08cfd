import Glean.RTS.UntrustedBatch

/-! Renaming the facts of a fact set after the server has numbered a part of them (`factset.cpp`,
`substitution.cpp`, `inventory.h`).
-/

namespace Glean.RTS

-- Substituters

/-- `Substitution::firstFreeId` -/
def Substitution.firstFreeId (subst : Substitution) : Id :=
  match subst.items.max? with
  | some last => max ((last + 1) % 2 ^ 64) subst.finish
  | none => subst.finish

/-- `Substituter` with an offset for the ids that the substitution does not cover. -/
def Substitution.substituter (subst : Substitution) (offset : Nat) (id : Id) : Id :=
  if id < subst.finish then subst.subst id else (id + offset) % 2 ^ 64

section Substitute

variable (varint : Varint) (u8 : U8Next) (inventory : Inventory)

/-- `substituteFact`: substitution is done by the typechecker. -/
def substituteFact (rename : Id → Id) (fact : Fact) : Outcome Clause :=
  match inventory.lookupPredicate fact.type with
  | some predicate => do
      let out ← predicate.typecheck varint u8 (fun id _ maxRef => .ok (rename id, maxRef)) fact.clause
      return .from out.output out.keySize
  | none => .error "Check failed: 'predicate' Must be non NULL"

namespace FactSet

/-- Define a renamed fact with the next id. -/
def rebaseFact (rename : Id → Id) (set : FactSet) (fact : Fact) : Outcome FactSet := do
  let clause ← substituteFact varint u8 inventory rename fact
  if bounded : fact.type < Pid.limit then
    match set.define fact.type bounded clause with
    | .ok (after, id) =>
        if id = set.firstFreeId then .ok after else .error "Check failed: id == expected"
    | .error message => .error message
  else
    .undefined

/-- `FactSet::rebase`: the facts that it inserts into the global store, and those that are left. -/
def rebase (set : FactSet) (subst : Substitution) : Outcome (List Fact × FactSet) :=
  let newStart := subst.firstFreeId
  let rename := subst.substituter (newStart - subst.finish)
  let split := set.lowerBound subst.finish
  if positive : Id.invalid < newStart then do
    let inserted ← (set.facts.take split).mapM (fun fact => do
      let clause ← substituteFact varint u8 inventory rename fact
      return (⟨subst.subst fact.id, fact.type, clause⟩ : Fact))
    let rest ← (set.facts.drop split).foldlM (rebaseFact varint u8 inventory rename)
      (.new newStart positive)
    return (inserted, rest)
  else
    .undefined

end FactSet

end Substitute

/-- Append a fact with a new key. -/
def FactSet.appendFact (set : FactSet) (fact : Fact) : Option FactSet :=
  if bounded : fact.type < Pid.limit then
    if missing : ∀ known ∈ set.bucket fact.type, known.key ≠ fact.clause.key then
      some (set.push fact.type fact.clause bounded missing)
    else
      none
  else
    none

/-- `FactSet::append`, which asserts that the keys are new. -/
def FactSet.append (set other : FactSet) : Option FactSet :=
  other.facts.foldlM FactSet.appendFact set

-- Renaming values

variable {varint : Varint} {u8 : U8Next} {inventory : Inventory}

mutual

theorem rename_rename (first second : Id → Id)
    : (value : Value) → (value.rename first).rename second = value.rename (second ∘ first)
  | .byte _ => rfl
  | .nat _ => rfl
  | .string _ => rfl
  | .array elements => congrArg Value.array (renameAll_renameAll first second elements)
  | .tuple fields => congrArg Value.tuple (renameAll_renameAll first second fields)
  | .alt selector value => congrArg (Value.alt selector) (rename_rename first second value)
  | .ref _ => rfl

theorem renameAll_renameAll (first second : Id → Id)
    : (values : List Value) →
        renameAll second (renameAll first values) = renameAll (second ∘ first) values
  | [] => rfl
  | value :: values =>
      congrArg₂ List.cons (rename_rename first second value) (renameAll_renameAll first second values)

end

mutual

theorem rename_id : (value : Value) → value.rename id = value
  | .byte _ => rfl
  | .nat _ => rfl
  | .string _ => rfl
  | .array elements => congrArg Value.array (renameAll_id elements)
  | .tuple fields => congrArg Value.tuple (renameAll_id fields)
  | .alt selector value => congrArg (Value.alt selector) (rename_id value)
  | .ref _ => rfl

theorem renameAll_id : (values : List Value) → renameAll id values = values
  | [] => rfl
  | value :: values => congrArg₂ List.cons (rename_id value) (renameAll_id values)

end

section Refs

variable {ref other : Pid → Id → Prop} {change same : Id → Id}

mutual

/-- Renaming looks at the references only. -/
theorem rename_eq_of_refs (agree : ∀ pid id, ref pid id → change id = same id)
    : (value : Value) → {rep : Rep} → HasType u8 ref rep value → value.rename change = value.rename same
  | .byte _, _, _ => rfl
  | .nat _, _, _ => rfl
  | .string _, _, _ => rfl
  | .array elements, _, .array _ all => congrArg Value.array (renameAll_eq_of_refs agree elements all)
  | .tuple fields, _, .tuple all => congrArg Value.tuple (renameAll_eq_of_refs agree fields all)
  | .alt selector value, _, .alt _ _ inside =>
      congrArg (Value.alt selector) (rename_eq_of_refs agree value inside)
  | .ref _, _, .ref _ isRef => congrArg Value.ref (agree _ _ isRef)

theorem renameAll_eq_of_refs (agree : ∀ pid id, ref pid id → change id = same id)
    : (values : List Value) → {reps : List Rep} → HasTypes u8 ref reps values →
        renameAll change values = renameAll same values
  | [], _, _ => rfl
  | value :: values, _, .cons first others =>
      congrArg₂ List.cons (rename_eq_of_refs agree value first) (renameAll_eq_of_refs agree values others)

end

mutual

theorem HasType.rename
    (renamed : ∀ pid id, ref pid id → change id < 2 ^ 64 ∧ other pid (change id))
    : (value : Value) → {rep : Rep} → HasType u8 ref rep value → HasType u8 other rep (value.rename change)
  | .byte _, _, .byte => .byte
  | .nat _, _, .nat small => .nat small
  | .string _, _, .string accepted => .string accepted
  | .array elements, _, .array small all => by
      have renamedAll := HasTypes.rename renamed elements all
      rw [← length_renameAll elements] at small renamedAll
      exact .array small renamedAll
  | .tuple fields, _, .tuple all => .tuple (HasTypes.rename renamed fields all)
  | .alt _ value, _, .alt small isField inside => .alt small isField (inside.rename renamed value)
  | .ref _, _, .ref _ isRef => .ref (renamed _ _ isRef).1 (renamed _ _ isRef).2

theorem HasTypes.rename
    (renamed : ∀ pid id, ref pid id → change id < 2 ^ 64 ∧ other pid (change id))
    : (values : List Value) → {reps : List Rep} → HasTypes u8 ref reps values →
        HasTypes u8 other reps (renameAll change values)
  | [], _, .nil => .nil
  | value :: values, _, .cons first others =>
      .cons (first.rename renamed value) (others.rename renamed values)

end

mutual

/-- A value is read back from its encoding. -/
theorem reads_encodeValue
    : (value : Value) → {rep : Rep} → {rest : Bytes} → HasType u8 ref rep value →
        Reads varint u8 rep (encodeValue varint value ++ rest) value rest
  | .byte _, _, _, .byte => .byte
  | .nat _, _, _, .nat small => .nat (varint.decode_encode _ small)
  | .string mangled, _, rest, .string accepted => by
      have reads : Reads varint u8 .string (mangled ++ rest)
          (.string ((mangled ++ rest).take mangled.length)) ((mangled ++ rest).drop mangled.length) :=
        .string (Input.validateUntrustedString_append accepted rest)
      rwa [List.take_left, List.drop_left] at reads
  | .array elements, _, _, .array small all => by
      rw [encodeValue, List.append_assoc]
      exact .array (varint.decode_encode _ small) (reads_encodeValues elements all)
  | .tuple fields, _, _, .tuple all => .tuple (reads_encodeValues fields all)
  | .alt _ value, _, _, .alt small isField inside => by
      rw [encodeValue, List.append_assoc]
      exact .alt (varint.decode_encode _ small) isField (reads_encodeValue value inside)
  | .ref _, _, _, .ref small _ => .ref (varint.decode_encode _ small)

theorem reads_encodeValues
    : (values : List Value) → {reps : List Rep} → {rest : Bytes} → HasTypes u8 ref reps values →
        ReadsAll varint u8 reps (encodeValues varint values ++ rest) values rest
  | [], _, _, .nil => .nil
  | value :: values, _, _, .cons first others => by
      rw [encodeValues, List.append_assoc]
      exact .cons (reads_encodeValue value first) (reads_encodeValues values others)

end

variable {σ : Type} {rename : Nat → Nat → σ → Outcome (Nat × σ)}

mutual

/-- A renamer that never fails. -/
theorem renames_of_total (total : ∀ id pid state, rename id pid state = .ok (change id, state))
    : (value : Value) → {rep : Rep} → {input rest : Bytes} → (state : σ) →
        Reads varint u8 rep input value rest →
        Renames rename rep value state (value.rename change) state
  | .byte _, _, _, _, _, .byte => .byte
  | .nat _, _, _, _, _, .nat _ => .nat
  | .string _, _, _, _, _, .string _ => .string
  | .array elements, _, _, _, state, .array _ all => .array (renamesAll_of_total total elements state all)
  | .tuple fields, _, _, _, state, .tuple all => .tuple (renamesAll_of_total total fields state all)
  | .alt _ value, _, _, _, state, .alt _ isField inside =>
      .alt isField (renames_of_total total value state inside)
  | .ref id, _, _, _, state, .ref _ => .ref (total id _ state)

theorem renamesAll_of_total (total : ∀ id pid state, rename id pid state = .ok (change id, state))
    : (values : List Value) → {reps : List Rep} → {input rest : Bytes} → (state : σ) →
        ReadsAll varint u8 reps input values rest →
        RenamesAll rename reps values state (renameAll change values) state
  | [], _, _, _, _, .nil => .nil
  | value :: values, _, _, _, state, .cons first others =>
      .cons (renames_of_total total value state first) (renamesAll_of_total total values state others)

end

end Refs

-- Renamed facts

section Facts

variable {facts larger known after : Set Fact} {fact target : Fact} {change same : Id → Id}

/-- What renaming does to a fact that can be read. -/
theorem substituteFact_of_reads {predicate : Predicate} {key value : Value} (change : Id → Id)
    (isPredicate : inventory.lookupPredicate fact.type = some predicate)
    (readsKey : Reads varint u8 predicate.keyTy.repType fact.clause.key key [])
    (readsValue : Reads varint u8 predicate.valTy.repType fact.clause.value value [])
    : substituteFact varint u8 inventory change fact
      = .ok ⟨encodeValue varint (key.rename change), encodeValue varint (value.rename change)⟩ := by
  rw [substituteFact, isPredicate]
  refine Outcome.bind_eq_ok.mpr ⟨_, checkClause_eq_ok.mpr ⟨key, value, _, _, _, readsKey, readsValue,
    renames_of_total (fun _ _ _ => rfl) key Id.invalid readsKey,
    renames_of_total (fun _ _ _ => rfl) value Id.invalid readsValue, rfl, rfl⟩, ?_⟩
  rw [Clause.from, List.take_left, List.drop_left]
  rfl

/-- What renaming does to a fact that is well typed. -/
theorem substituteFact_eq {predicate : Predicate} {key value : Value} {ref : Pid → Id → Prop}
    (change : Id → Id) (isPredicate : inventory.lookupPredicate fact.type = some predicate)
    (keyType : HasType u8 ref predicate.keyTy.repType key)
    (valueType : HasType u8 ref predicate.valTy.repType value)
    (isClause : fact.clause = ⟨encodeValue varint key, encodeValue varint value⟩)
    : substituteFact varint u8 inventory change fact
      = .ok ⟨encodeValue varint (key.rename change), encodeValue varint (value.rename change)⟩ := by
  refine substituteFact_of_reads change isPredicate ?_ ?_
  · have reads : Reads varint u8 predicate.keyTy.repType (encodeValue varint key ++ []) key [] :=
      reads_encodeValue key keyType
    rw [isClause]
    rwa [List.append_nil] at reads
  · have reads : Reads varint u8 predicate.valTy.repType (encodeValue varint value ++ []) value [] :=
      reads_encodeValue value valueType
    rw [isClause]
    rwa [List.append_nil] at reads

/-- Renaming depends on the facts that are referred to. -/
theorem substituteFact_congr (typed : fact.WellTyped varint u8 inventory known)
    (agree : ∀ pid id, Earlier known fact.id pid id → change id = same id)
    : substituteFact varint u8 inventory change fact = substituteFact varint u8 inventory same fact := by
  obtain ⟨predicate, key, value, isPredicate, keyType, valueType, isClause⟩ := typed
  rw [substituteFact_eq change isPredicate keyType valueType isClause,
    substituteFact_eq same isPredicate keyType valueType isClause,
    rename_eq_of_refs agree key keyType, rename_eq_of_refs agree value valueType]

/-- A fact with renamed references is well typed if they are those of other facts. -/
theorem Fact.WellTyped.substitute (typed : fact.WellTyped varint u8 inventory known)
    (sameType : target.type = fact.type)
    (isClause : substituteFact varint u8 inventory change fact = .ok target.clause)
    (renamed : ∀ pid id, Earlier known fact.id pid id →
      change id < 2 ^ 64 ∧ Earlier after target.id pid (change id))
    : target.WellTyped varint u8 inventory after := by
  obtain ⟨predicate, key, value, isPredicate, keyType, valueType, isFact⟩ := typed
  rw [substituteFact_eq change isPredicate keyType valueType isFact] at isClause
  exact ⟨predicate, _, _, sameType ▸ isPredicate, keyType.rename renamed, valueType.rename renamed,
    (Outcome.ok.inj isClause).symm⟩

/-- A fact refers to earlier ones only. -/
theorem Fact.WellTyped.narrow (typed : fact.WellTyped varint u8 inventory known)
    (below : ∀ other ∈ known, other.id < fact.id → other ∈ facts)
    : fact.WellTyped varint u8 inventory facts := by
  obtain ⟨predicate, key, value, isPredicate, keyType, valueType, isClause⟩ := typed
  have earlier : ∀ pid id, Earlier known fact.id pid id → Earlier facts fact.id pid id := by
    rintro pid id ⟨small, other, member, rfl, isType⟩
    exact ⟨small, other, below other member small, rfl, isType⟩
  exact ⟨predicate, key, value, isPredicate, keyType.mono earlier, valueType.mono earlier, isClause⟩

/-- A fact that a batch denotes is denoted under its new name. -/
theorem DenotesFact.substitute {rename : Id → Id} {type : Pid} {clause : Clause} {id : Id}
    (denotes : DenotesFact varint u8 inventory known change type clause id)
    (valid : ∀ fact ∈ known, fact.id = id → ∃ target ∈ after, target.id = rename id
      ∧ target.type = fact.type ∧ substituteFact varint u8 inventory rename fact = .ok target.clause
      ∧ target.WellTyped varint u8 inventory after)
    (small : ∀ pid ref, Earlier known id pid ref → rename ref < 2 ^ 64)
    : DenotesFact varint u8 inventory after (rename ∘ change) type clause (rename id) := by
  obtain ⟨stored, member, isId, isType, predicate, key, value, isPredicate, readsKey, readsValue,
    keyType, valueType, isStored⟩ := denotes
  obtain ⟨target, isTarget, targetId, sameType, isClause, typed⟩ := valid stored member isId
  have renamed : ∀ pid ref, Earlier known id pid ref → rename ref < 2 ^ 64 ∧ True :=
    fun pid ref earlier => ⟨small pid ref earlier, trivial⟩
  have newKey : HasType u8 (fun _ _ => True) predicate.keyTy.repType (key.rename (rename ∘ change)) := by
    rw [← rename_rename]
    exact keyType.rename renamed
  have newValue : HasType u8 (fun _ _ => True) predicate.valTy.repType
      (value.rename (rename ∘ change)) := by
    rw [← rename_rename]
    exact valueType.rename renamed
  rw [substituteFact_eq rename (isType ▸ isPredicate) keyType valueType isStored, rename_rename,
    rename_rename] at isClause
  have isTargetClause := (Outcome.ok.inj isClause).symm
  have targetType : target.type = type := sameType.trans isType
  have result := typed.denotes isTarget (targetType ▸ isPredicate) readsKey readsValue newKey newValue
    (congrArg Clause.key isTargetClause) (congrArg Clause.value isTargetClause)
  rwa [targetType, targetId] at result

/-- Renaming nothing. -/
theorem substituteFact_self (typed : fact.WellTyped varint u8 inventory known)
    (agree : ∀ pid id, Earlier known fact.id pid id → change id = id)
    : substituteFact varint u8 inventory change fact = .ok fact.clause := by
  rw [substituteFact_congr typed agree]
  obtain ⟨predicate, key, value, isPredicate, keyType, valueType, isClause⟩ := typed
  rw [substituteFact_eq (fun id => id) isPredicate keyType valueType isClause]
  change Outcome.ok (Clause.mk (encodeValue varint (key.rename id)) (encodeValue varint (value.rename id))) = _
  rw [rename_id, rename_id, isClause]

end Facts

-- The loops of `rebase`

section Loops

variable {rename : Id → Id} {set after : FactSet} {fact : Fact}

theorem Outcome.getElem?_mapM {α β : Type} {each : α → Outcome β} {items : List α} {results : List β}
    (mapped : items.mapM each = .ok results)
    : results.length = items.length
      ∧ ∀ (index : Nat) (item : α), items[index]? = some item →
        ∃ result, results[index]? = some result ∧ each item = .ok result := by
  induction items generalizing results with
  | nil =>
      cases mapped
      exact ⟨rfl, fun index item isItem => by cases isItem⟩
  | cons first rest ih =>
      rw [List.mapM_cons] at mapped
      obtain ⟨result, isResult, more⟩ := Outcome.bind_eq_ok.mp mapped
      obtain ⟨others, areOthers, same⟩ := Outcome.bind_eq_ok.mp more
      cases same
      obtain ⟨length, isOther⟩ := ih areOthers
      refine ⟨congrArg (· + 1) length, fun index item isItem => ?_⟩
      cases index with
      | zero =>
          cases isItem
          exact ⟨result, rfl, isResult⟩
      | succ index => exact isOther index item isItem

/-- `define` finds the fact with the key, or appends a new one. -/
theorem FactSet.define_cases {type : Pid} {bounded : type < Pid.limit} {clause : Clause} {id : Id}
    (defined : set.define type bounded clause = .ok (after, id))
    : (after = set ∧ ∃ fact ∈ set.facts, fact.type = type ∧ fact.key = clause.key
        ∧ id = if clause.value = fact.value then fact.id else Id.invalid)
      ∨ after.startingId = set.startingId ∧ id = set.firstFreeId
        ∧ after.facts = set.facts ++ [⟨set.firstFreeId, type, clause⟩] := by
  rw [FactSet.define] at defined
  split at defined
  next => cases defined
  next =>
    split at defined
    next =>
      cases defined
      exact .inr ⟨rfl, rfl, rfl⟩
    next fact found =>
      cases defined
      obtain ⟨member, isType⟩ := (set.keyed type fact).mp (List.mem_of_find?_eq_some found)
      exact .inl ⟨rfl, fact, member, isType, by simpa using List.find?_some found, rfl⟩

theorem FactSet.define_firstFreeId {type : Pid} {bounded : type < Pid.limit} {clause : Clause}
    (defined : set.define type bounded clause = .ok (after, set.firstFreeId))
    : after.startingId = set.startingId
      ∧ after.facts = set.facts ++ [⟨set.firstFreeId, type, clause⟩] := by
  rcases define_cases defined with ⟨_, fact, member, _, _, isId⟩ | ⟨isStart, _, isFacts⟩
  · -- an id that is in use is not the first free one
    exfalso
    have low := (set.mem_bounds member).2
    split at isId
    next => exact Nat.lt_irrefl _ (isId ▸ low)
    next =>
      have isFree : set.startingId ≤ set.firstFreeId := Nat.le_add_right _ _
      rw [isId] at isFree
      exact Nat.lt_irrefl _ (set.positive.trans_le isFree)
  · exact ⟨isStart, isFacts⟩

theorem FactSet.rebaseFact_eq_ok (rebased : rebaseFact varint u8 inventory rename set fact = .ok after)
    : ∃ clause, substituteFact varint u8 inventory rename fact = .ok clause
      ∧ after.startingId = set.startingId
      ∧ after.facts = set.facts ++ [⟨set.firstFreeId, fact.type, clause⟩] := by
  obtain ⟨clause, isClause, more⟩ := Outcome.bind_eq_ok.mp rebased
  split at more
  next =>
    split at more
    next next id defined =>
      split at more
      next isFree =>
        cases more
        subst isFree
        exact ⟨clause, isClause, FactSet.define_firstFreeId defined⟩
      next => cases more
    next => cases more
  next => cases more

/-- The facts that are left get the ids from the new start on. -/
theorem FactSet.foldlM_rebaseFact {facts : List Fact}
    (rebased : facts.foldlM (rebaseFact varint u8 inventory rename) set = .ok after)
    : ∃ clauses, facts.mapM (substituteFact varint u8 inventory rename) = .ok clauses
      ∧ after.startingId = set.startingId
      ∧ after.facts.map (fun fact => (fact.type, fact.clause))
        = set.facts.map (fun fact => (fact.type, fact.clause)) ++ (facts.map Fact.type).zip clauses := by
  induction facts generalizing set with
  | nil =>
      cases rebased
      exact ⟨[], rfl, rfl, by simp⟩
  | cons fact rest ih =>
      rw [List.foldlM_cons] at rebased
      obtain ⟨middle, isMiddle, isRest⟩ := Outcome.bind_eq_ok.mp rebased
      obtain ⟨clause, isClause, sameStart, isFacts⟩ := rebaseFact_eq_ok isMiddle
      obtain ⟨clauses, areClauses, restStart, restFacts⟩ := ih isRest
      refine ⟨clause :: clauses, ?_, restStart.trans sameStart, ?_⟩
      · rw [List.mapM_cons, isClause, Outcome.ok_bind, areClauses]
        rfl
      · rw [restFacts, isFacts]
        simp

/-- What is left after a part of the facts has been numbered. -/
theorem FactSet.rebase_eq_ok {subst : Substitution} {inserted : List Fact}
    (rebased : set.rebase varint u8 inventory subst = .ok (inserted, after))
    : after.startingId = subst.firstFreeId
      ∧ after.facts.length = set.facts.length - set.lowerBound subst.finish
      ∧ (∀ target ∈ inserted, ∃ fact ∈ set.facts.take (set.lowerBound subst.finish),
          target.id = subst.subst fact.id ∧ target.type = fact.type
          ∧ substituteFact varint u8 inventory
            (subst.substituter (subst.firstFreeId - subst.finish)) fact = .ok target.clause)
      ∧ ∀ index fact, set.facts[set.lowerBound subst.finish + index]? = some fact →
          ∃ target ∈ after.facts, target.id = subst.firstFreeId + index ∧ target.type = fact.type
            ∧ substituteFact varint u8 inventory
              (subst.substituter (subst.firstFreeId - subst.finish)) fact = .ok target.clause := by
  rw [rebase] at rebased
  split at rebased
  next positive =>
    obtain ⟨numbered, isNumbered, more⟩ := Outcome.bind_eq_ok.mp rebased
    obtain ⟨rest, isRest, same⟩ := Outcome.bind_eq_ok.mp more
    cases same
    obtain ⟨clauses, areClauses, isStart, isFacts⟩ := foldlM_rebaseFact isRest
    obtain ⟨clausesLength, isClauseOf⟩ := Outcome.getElem?_mapM areClauses
    have isStart : after.startingId = subst.firstFreeId := isStart
    have length : after.facts.length = set.facts.length - set.lowerBound subst.finish := by
      have lengths := congrArg List.length isFacts
      simpa [FactSet.new, clausesLength] using lengths
    refine ⟨isStart, length, fun target member => ?_, fun index fact isFact => ?_⟩
    · obtain ⟨index, inside, rfl⟩ := List.mem_iff_getElem.mp member
      obtain ⟨sameLength, isTargetOf⟩ := Outcome.getElem?_mapM isNumbered
      obtain ⟨target, isTarget, isDone⟩ := isTargetOf index _
        (List.getElem?_eq_getElem (sameLength ▸ inside))
      obtain ⟨clause, isClause, same⟩ := Outcome.bind_eq_ok.mp isDone
      cases same
      rw [List.getElem?_eq_getElem inside] at isTarget
      rw [Option.some.inj isTarget]
      exact ⟨_, List.getElem_mem _, rfl, rfl, isClause⟩
    · have isDropped : (set.facts.drop (set.lowerBound subst.finish))[index]? = some fact := by
        rw [List.getElem?_drop, isFact]
      obtain ⟨clause, isClause, substituted⟩ := isClauseOf index fact isDropped
      have inside : index < after.facts.length := by
        have small := (List.getElem?_eq_some_iff.mp isDropped).1
        rwa [List.length_drop, ← length] at small
      refine ⟨after.facts[index], List.getElem_mem inside, ?_, ?_⟩
      · rw [after.id_getElem, isStart]
      · have isPair : ((set.facts.drop (set.lowerBound subst.finish)).map Fact.type |>.zip clauses)[index]?
            = some (fact.type, clause) := by
          rw [List.getElem?_zip_eq_some, List.getElem?_map, isDropped]
          exact ⟨rfl, isClause⟩
        have isHere := congrArg (fun (pairs : List (Pid × Clause)) => pairs[index]?) isFacts
        simp only [FactSet.new, List.map_nil, List.nil_append, List.getElem?_map,
          List.getElem?_eq_getElem inside, Option.map_some, isPair, Option.some.injEq,
          Prod.mk.injEq] at isHere
        exact ⟨isHere.1, isHere.2 ▸ substituted⟩
  next => cases rebased

end Loops

-- Facts that the server has numbered

/-- The facts that a fact set may refer to: those of the server below its starting id, and its own. -/
def Known (server : Set Fact) (set : FactSet) : Set Fact :=
  {fact ∈ server | fact.id < set.startingId} ∪ set.members

/-- What is known of the facts of the server. -/
structure Store (varint : Varint) (u8 : U8Next) (inventory : Inventory) (server : Set Fact) : Prop where
  typed : WellTyped varint u8 inventory server
  unique : ∀ left ∈ server, ∀ right ∈ server, left.id = right.id → left = right
  valid : ∀ fact ∈ server, fact.id ≠ Id.invalid ∧ fact.type ≠ Pid.invalid
  small : ∀ fact ∈ server, fact.id + 1 < 2 ^ 64

/-- A substitution gives the first facts of a set the ids that they have on the server. -/
structure Replied (varint : Varint) (u8 : U8Next) (inventory : Inventory) (server : Set Fact)
    (set : FactSet) (subst : Substitution) : Prop where
  base : subst.base = set.startingId
  length : subst.items.length ≤ set.facts.length
  numbered
    : ∀ (index : Nat) fact id, set.facts[index]? = some fact → subst.items[index]? = some id →
        ∃ stored ∈ server, stored.id = id ∧ stored.type = fact.type
          ∧ substituteFact varint u8 inventory subst.subst fact = .ok stored.clause

section Numbered

variable {server larger : Set Fact} {set after : FactSet} {subst : Substitution} {fact : Fact}

theorem Known.mono (grows : server ⊆ larger) (set : FactSet) : Known server set ⊆ Known larger set := by
  rintro fact (⟨isStored, low⟩ | isOwn)
  · exact .inl ⟨grows isStored, low⟩
  · exact .inr isOwn

/-- More facts of the same set. -/
theorem Known.grow (startingId : after.startingId = set.startingId) (isPrefix : set.facts <+: after.facts)
    : Known server set ⊆ Known server after := by
  rintro fact (⟨isStored, low⟩ | isOwn)
  · exact .inl ⟨isStored, startingId.symm ▸ low⟩
  · exact .inr (isPrefix.subset isOwn)

theorem Replied.mono (replied : Replied varint u8 inventory server set subst) (grows : server ⊆ larger)
    : Replied varint u8 inventory larger set subst where
  base := replied.base
  length := replied.length
  numbered := by
    intro index fact id isFact isItem
    obtain ⟨stored, isStored, rest⟩ := replied.numbered index fact id isFact isItem
    exact ⟨stored, grows isStored, rest⟩

theorem Replied.grow (replied : Replied varint u8 inventory server set subst)
    (startingId : after.startingId = set.startingId) (isPrefix : set.facts <+: after.facts)
    : Replied varint u8 inventory server after subst where
  base := replied.base.trans startingId.symm
  length := replied.length.trans isPrefix.length_le
  numbered := by
    intro index fact id isFact isItem
    have inside := (List.getElem?_eq_some_iff.mp isItem).1.trans_le replied.length
    refine replied.numbered index fact id ?_ isItem
    obtain ⟨rest, isAfter⟩ := isPrefix
    rwa [← isAfter, List.getElem?_append_left inside] at isFact

/-- The new names of the ids of a fact set. -/
def Substitution.rebaser (subst : Substitution) : Id → Id :=
  subst.substituter (subst.firstFreeId - subst.finish)

namespace Replied

theorem finish (replied : Replied varint u8 inventory server set subst)
    (words : set.firstFreeId < 2 ^ 64)
    : subst.finish = set.startingId + subst.items.length := by
  have length := replied.length
  rw [FactSet.firstFreeId] at words
  rw [Substitution.finish, replied.base, Nat.mod_eq_of_lt (by lia)]

theorem lowerBound (replied : Replied varint u8 inventory server set subst)
    (words : set.firstFreeId < 2 ^ 64)
    : set.lowerBound subst.finish = subst.items.length := by
  have length := replied.length
  rw [replied.finish words, FactSet.lowerBound]
  split <;> lia

theorem subst_item (replied : Replied varint u8 inventory server set subst)
    (words : set.firstFreeId < 2 ^ 64) {index : Nat} {id : Id} (isItem : subst.items[index]? = some id)
    : subst.subst (set.startingId + index) = id := by
  have inside := (List.getElem?_eq_some_iff.mp isItem).1
  rw [Substitution.subst, replied.finish words, replied.base, if_pos ⟨Nat.le_add_right _ _, by lia⟩,
    Nat.add_sub_cancel_left, isItem]
  rfl

theorem subst_low (replied : Replied varint u8 inventory server set subst) {id : Id}
    (low : id < set.startingId)
    : subst.subst id = id := by
  refine if_neg (fun inside => ?_)
  rw [replied.base] at inside
  exact Nat.lt_irrefl _ (low.trans_le inside.1)

/-- The new ids lie above all that the server has given. -/
theorem finish_le (subst : Substitution) : subst.finish ≤ subst.firstFreeId := by
  rw [Substitution.firstFreeId]
  split
  next => exact Nat.le_max_right _ _
  next => exact le_rfl

theorem item_lt (replied : Replied varint u8 inventory server set subst)
    (store : Store varint u8 inventory server) {index : Nat} {id : Id}
    (isItem : subst.items[index]? = some id)
    : id < subst.firstFreeId := by
  have stored : ∀ item ∈ subst.items, item + 1 < 2 ^ 64 := by
    intro item member
    obtain ⟨position, inside, rfl⟩ := List.mem_iff_getElem.mp member
    have small : position < set.facts.length := inside.trans_le replied.length
    obtain ⟨fact, isStored, isId, _⟩ := replied.numbered position _ _
      (List.getElem?_eq_getElem small) (List.getElem?_eq_getElem inside)
    rw [← isId]
    exact store.small fact isStored
  have member := List.mem_of_getElem? isItem
  rw [Substitution.firstFreeId]
  split
  next last isLast =>
    obtain ⟨isMember, isMax⟩ := List.max?_eq_some_iff.mp isLast
    have isLarge : id ≤ last := isMax id member
    rw [Nat.mod_eq_of_lt (stored last isMember)]
    exact (Nat.lt_succ_of_le isLarge).trans_le (Nat.le_max_left _ _)
  next isNone =>
    rw [List.max?_eq_none_iff.mp isNone] at member
    cases member

theorem rebaser_below (subst : Substitution) {id : Id} (below : id < subst.finish)
    : subst.rebaser id = subst.subst id :=
  if_pos below

theorem rebaser_rest (replied : Replied varint u8 inventory server set subst)
    (words : set.firstFreeId < 2 ^ 64) {index : Nat}
    (room : subst.firstFreeId + index < 2 ^ 64)
    : subst.rebaser (set.startingId + subst.items.length + index) = subst.firstFreeId + index := by
  have isFinish := replied.finish words
  have larger := finish_le subst
  rw [Substitution.rebaser, Substitution.substituter, if_neg (by lia)]
  rw [Nat.mod_eq_of_lt (by lia)]
  lia

/-- A fact of the set is one that the server has numbered, or one that is left. -/
theorem position (subst : Substitution) (member : fact ∈ set.facts)
    : (∃ (index : Nat) (id : Id), set.facts[index]? = some fact ∧ subst.items[index]? = some id
        ∧ fact.id = set.startingId + index)
      ∨ ∃ index : Nat, set.facts[subst.items.length + index]? = some fact
        ∧ subst.items.length + index < set.facts.length
        ∧ fact.id = set.startingId + subst.items.length + index := by
  obtain ⟨index, inside, rfl⟩ := List.mem_iff_getElem.mp member
  have isFact := List.getElem?_eq_getElem inside
  by_cases isSent : index < subst.items.length
  · exact .inl ⟨index, _, isFact, List.getElem?_eq_getElem isSent, set.id_getElem index inside⟩
  · obtain ⟨offset, rfl⟩ := Nat.exists_eq_add_of_le (Nat.le_of_not_lt isSent)
    refine .inr ⟨offset, isFact, inside, ?_⟩
    rw [set.id_getElem, Nat.add_assoc]

/-- The facts that the server has numbered are those that it has. -/
theorem stored (replied : Replied varint u8 inventory server set subst)
    (words : set.firstFreeId < 2 ^ 64)
    (typed : ∀ fact ∈ set.facts, fact.WellTyped varint u8 inventory (Known server set))
    {index : Nat} {id : Id} (isFact : set.facts[index]? = some fact)
    (isItem : subst.items[index]? = some id)
    : ∃ stored ∈ server, stored.id = id ∧ stored.type = fact.type
      ∧ substituteFact varint u8 inventory subst.rebaser fact = .ok stored.clause := by
  obtain ⟨stored, isStored, isId, isType, isClause⟩ := replied.numbered index fact id isFact isItem
  refine ⟨stored, isStored, isId, isType, ?_⟩
  rw [← isClause]
  refine substituteFact_congr (typed fact (List.mem_of_getElem? isFact)) (fun pid ref earlier => ?_)
  refine rebaser_below subst ?_
  obtain ⟨inside, rfl⟩ := List.getElem?_eq_some_iff.mp isFact
  have isSent := (List.getElem?_eq_some_iff.mp isItem).1
  have smaller := earlier.1
  rw [set.id_getElem] at smaller
  rw [replied.finish words]
  lia

end Replied

/-- What a batch denotes has been stored, when all facts of a set have been numbered. -/
theorem Replied.denotes {change : Id → Id} {type : Pid} {clause : Clause} {id : Id}
    (replied : Replied varint u8 inventory larger set subst)
    (all : subst.items.length = set.facts.length) (words : set.firstFreeId < 2 ^ 64)
    (typed : WellTyped varint u8 inventory (Known server set))
    (store : Store varint u8 inventory larger) (grows : server ⊆ larger)
    (denotes : DenotesFact varint u8 inventory (Known server set) change type clause id)
    : DenotesFact varint u8 inventory larger (subst.subst ∘ change) type clause (subst.subst id) := by
  have renamed : ∀ fact ∈ Known server set, ∃ target ∈ larger, target.id = subst.subst fact.id
      ∧ target.type = fact.type
      ∧ substituteFact varint u8 inventory subst.subst fact = .ok target.clause := by
    rintro fact (⟨isStored, low⟩ | isOwn)
    · refine ⟨fact, grows isStored, (replied.subst_low low).symm, rfl, ?_⟩
      refine substituteFact_self (typed fact (.inl ⟨isStored, low⟩)) (fun _ _ earlier => ?_)
      exact replied.subst_low (earlier.1.trans low)
    · obtain ⟨index, inside, rfl⟩ := List.mem_iff_getElem.mp isOwn
      have isItem := List.getElem?_eq_getElem (all.symm ▸ inside)
      obtain ⟨stored, isStored, isId, rest⟩ := replied.numbered index _ _
        (List.getElem?_eq_getElem inside) isItem
      refine ⟨stored, isStored, ?_, rest⟩
      rw [set.id_getElem, replied.subst_item words isItem, isId]
  refine denotes.substitute (fun fact member isId => ?_) (fun pid ref earlier => ?_)
  · obtain ⟨target, isTarget, targetId, isType, isClause⟩ := renamed fact member
    exact ⟨target, isTarget, isId ▸ targetId, isType, isClause, store.typed target isTarget⟩
  · obtain ⟨_, fact, member, rfl, _⟩ := earlier
    obtain ⟨target, isTarget, targetId, _⟩ := renamed fact member
    rw [← targetId]
    exact (Nat.lt_succ_self _).trans (store.small target isTarget)

/-- What `rebase` makes of the facts that a set knows. -/
structure Rebased (varint : Varint) (u8 : U8Next) (inventory : Inventory) (server : Set Fact)
    (set : FactSet) (subst : Substitution) (inserted : List Fact) (after : FactSet) : Prop where
  startingId : after.startingId = subst.firstFreeId
  length : after.facts.length = set.facts.length - subst.items.length
  inserted : ∀ fact ∈ inserted, fact ∈ server
  typed : ∀ fact ∈ after.facts, fact.WellTyped varint u8 inventory (Known server after)
  renamed
    : ∀ fact ∈ Known server set, ∃ target ∈ Known server after, target.id = subst.rebaser fact.id
        ∧ target.type = fact.type
        ∧ substituteFact varint u8 inventory subst.rebaser fact = .ok target.clause

theorem rebase_rebased {inserted : List Fact} (store : Store varint u8 inventory server)
    (replied : Replied varint u8 inventory server set subst) (words : set.firstFreeId < 2 ^ 64)
    (room : subst.firstFreeId + set.facts.length < 2 ^ 64)
    (typed : ∀ fact ∈ set.facts, fact.WellTyped varint u8 inventory (Known server set))
    (rebased : set.rebase varint u8 inventory subst = .ok (inserted, after))
    : Rebased varint u8 inventory server set subst inserted after := by
  obtain ⟨isStart, length, isInserted, isLeft⟩ := FactSet.rebase_eq_ok rebased
  rw [replied.lowerBound words] at length isInserted isLeft
  have isFinish := replied.finish words
  have larger := Replied.finish_le subst
  have renamed : ∀ fact ∈ Known server set, ∃ target ∈ Known server after,
      target.id = subst.rebaser fact.id ∧ target.type = fact.type
      ∧ substituteFact varint u8 inventory subst.rebaser fact = .ok target.clause := by
    rintro fact (⟨isStored, low⟩ | isOwn)
    · have isSame : ∀ {id : Id}, id < set.startingId → subst.rebaser id = id := by
        intro id small
        rw [Replied.rebaser_below subst (by lia), replied.subst_low small]
      refine ⟨fact, .inl ⟨isStored, ?_⟩, (isSame low).symm, rfl, ?_⟩
      · rw [isStart]
        lia
      · refine substituteFact_self (store.typed fact isStored) (fun pid id earlier => ?_)
        exact isSame (earlier.1.trans low)
    · rcases Replied.position subst isOwn with ⟨index, id, isFact, isItem, isId⟩ | ⟨index, isFact, inside, isId⟩
      · obtain ⟨stored, isStored, storedId, isType, isClause⟩ :=
          replied.stored words typed isFact isItem
        have below : fact.id < subst.finish := by
          have isSent := (List.getElem?_eq_some_iff.mp isItem).1
          lia
        refine ⟨stored, .inl ⟨isStored, ?_⟩, ?_, isType, isClause⟩
        · rw [isStart, storedId]
          exact replied.item_lt store isItem
        · rw [Replied.rebaser_below subst below, isId, replied.subst_item words isItem, storedId]
      · obtain ⟨target, isTarget, targetId, isType, isClause⟩ := isLeft index fact isFact
        refine ⟨target, .inr isTarget, ?_, isType, isClause⟩
        rw [targetId, isId, replied.rebaser_rest words (by lia)]
  have order : ∀ {index : Nat} {ref : Id}, subst.items.length + index < set.facts.length →
      ref < set.startingId + subst.items.length + index → (∃ known ∈ Known server set, known.id = ref) →
      subst.rebaser ref < subst.firstFreeId + index := by
    rintro index ref inside small ⟨known, isStored | isOwn, rfl⟩
    · have low := isStored.2
      rw [Replied.rebaser_below subst (by lia), replied.subst_low low]
      lia
    · rcases Replied.position subst isOwn with ⟨other, id, isFact, isItem, isId⟩ | ⟨other, isFact, _, isId⟩
      · have isSent := (List.getElem?_eq_some_iff.mp isItem).1
        rw [Replied.rebaser_below subst (by lia), isId, replied.subst_item words isItem]
        exact (replied.item_lt store isItem).trans_le (Nat.le_add_right _ _)
      · rw [isId, replied.rebaser_rest words (by lia)]
        lia
  refine ⟨isStart, length, fun target member => ?_, fun target member => ?_, renamed⟩
  · obtain ⟨fact, isFact, targetId, isType, isClause⟩ := isInserted target member
    obtain ⟨index, inside, rfl⟩ := List.mem_iff_getElem.mp isFact
    rw [List.length_take] at inside
    have isSent : index < subst.items.length := by lia
    have isFact : set.facts[index]? = some (set.facts.take subst.items.length)[index] := by
      rw [List.getElem_take, List.getElem?_eq_getElem]
    have isItem := List.getElem?_eq_getElem isSent
    obtain ⟨stored, isStored, storedId, storedType, storedClause⟩ :=
      replied.stored words typed isFact isItem
    have same : target = stored := by
      obtain ⟨id, type, clause⟩ := target
      obtain ⟨otherId, otherType, otherClause⟩ := stored
      obtain rfl : clause = otherClause := Outcome.ok.inj (isClause.symm.trans storedClause)
      obtain rfl : type = otherType := isType.trans storedType.symm
      have isId : id = otherId := by
        change id = _ at targetId
        change otherId = _ at storedId
        rw [targetId, storedId, List.getElem_take, set.id_getElem, replied.subst_item words isItem]
      rw [isId]
    rw [same]
    exact isStored
  · obtain ⟨index, inside, rfl⟩ := List.mem_iff_getElem.mp member
    have isOld : subst.items.length + index < set.facts.length := by lia
    obtain ⟨target, isTarget, targetId, isType, isClause⟩ :=
      isLeft index _ (List.getElem?_eq_getElem isOld)
    have sameTarget : after.facts[index] = target := by
      obtain ⟨other, otherInside, rfl⟩ := List.mem_iff_getElem.mp isTarget
      rw [after.id_getElem, isStart] at targetId
      obtain rfl : other = index := by lia
      rfl
    rw [sameTarget]
    refine (typed _ (List.getElem_mem isOld)).substitute isType isClause (fun pid ref earlier => ?_)
    obtain ⟨small, known, isKnown, isRef, isPid⟩ := earlier
    rw [set.id_getElem, ← Nat.add_assoc] at small
    have less := order isOld small ⟨known, isKnown, isRef⟩
    obtain ⟨renamedFact, isRenamed, renamedId, renamedType, _⟩ := renamed known isKnown
    change subst.rebaser ref < _ ∧ Earlier _ _ _ (subst.rebaser ref)
    refine ⟨by lia, ?_, renamedFact, isRenamed, ?_, renamedType.trans isPid⟩
    · rw [targetId]
      exact less
    · rw [renamedId, isRef]

/-- Facts are renamed, and what a batch denotes is renamed with them. -/
theorem Rebased.denotes {inserted : List Fact} {change : Id → Id} {type : Pid} {clause : Clause} {id : Id}
    (rebased : Rebased varint u8 inventory server set subst inserted after)
    (store : Store varint u8 inventory server) (words : after.firstFreeId ≤ 2 ^ 64)
    (denotes : DenotesFact varint u8 inventory (Known server set) change type clause id)
    : DenotesFact varint u8 inventory (Known server after) (subst.rebaser ∘ change) type clause
        (subst.rebaser id) := by
  refine denotes.substitute (fun fact member isId => ?_) (fun pid ref earlier => ?_)
  · obtain ⟨target, isTarget, targetId, isType, isClause⟩ := rebased.renamed fact member
    refine ⟨target, isTarget, isId ▸ targetId, isType, isClause, ?_⟩
    rcases isTarget with isStored | isOwn
    · refine (store.typed target isStored.1).narrow (fun other isOther smaller => ?_)
      exact .inl ⟨isOther, smaller.trans isStored.2⟩
    · exact rebased.typed target isOwn
  · obtain ⟨_, fact, member, rfl, _⟩ := earlier
    obtain ⟨target, isTarget, targetId, _⟩ := rebased.renamed fact member
    rw [← targetId]
    rcases isTarget with isStored | isOwn
    · have small := store.small target isStored.1
      lia
    · exact (after.mem_bounds isOwn).2.trans_le words

end Numbered

-- Appending

section Append

variable {set other after : FactSet}

theorem FactSet.appendFact_eq_some {fact : Fact} (appended : set.appendFact fact = some after)
    : after.startingId = set.startingId
      ∧ after.facts = set.facts ++ [⟨set.firstFreeId, fact.type, fact.clause⟩] := by
  rw [appendFact] at appended
  split at appended
  next =>
    split at appended
    next =>
      cases appended
      exact ⟨rfl, rfl⟩
    next => cases appended
  next => cases appended

theorem FactSet.foldlM_appendFact {facts : List Fact}
    (areIds : facts.map Fact.id = List.range' set.firstFreeId facts.length)
    (appended : facts.foldlM FactSet.appendFact set = some after)
    : after.startingId = set.startingId ∧ after.facts = set.facts ++ facts := by
  induction facts generalizing set with
  | nil =>
      cases appended
      exact ⟨rfl, (List.append_nil _).symm⟩
  | cons fact rest ih =>
      rw [List.map_cons, List.length_cons, List.range'_succ] at areIds
      obtain ⟨isId, restIds⟩ := List.cons_eq_cons.mp areIds
      rw [List.foldlM_cons] at appended
      obtain ⟨middle, isMiddle, isRest⟩ := Option.bind_eq_some_iff.mp appended
      obtain ⟨sameStart, isFacts⟩ := appendFact_eq_some isMiddle
      have nextFree : middle.firstFreeId = set.firstFreeId + 1 := by
        rw [firstFreeId, firstFreeId, sameStart, isFacts, List.length_append]
        rfl
      obtain ⟨isStart, restFacts⟩ := ih (nextFree ▸ restIds) isRest
      refine ⟨isStart.trans sameStart, ?_⟩
      rw [restFacts, isFacts, ← isId, List.append_assoc]
      rfl

/-- The facts of another set follow with their ids. -/
theorem FactSet.append_eq_some (appended : set.append other = some after)
    (isNext : other.startingId = set.firstFreeId)
    : after.startingId = set.startingId ∧ after.facts = set.facts ++ other.facts := by
  refine foldlM_appendFact ?_ appended
  rw [← isNext, other.dense]

end Append

end Glean.RTS
