import Glean.RTS.Enumerate
import Glean.RTS.ValidateClauses

/-! Validating a database goes through its facts with a table of the types of those before. If all
strings that it comes to are read as they should be, it succeeds exactly on valid databases, and it
never leaves its table.
-/

namespace Glean.RTS.Validate

variable {varint : Varint} {u8 : U8Next} {inventory : Inventory} {lookup : Lookup}
  {before : List Fact} {fact : Fact} {table : Table}

/-- The variables of the loop when it has gone through some facts. -/
structure Filled (lookup : Lookup) (before : List Fact) (table : Table) : Prop where
  length : table.types.length = lookup.firstFreeId - lookup.startingId
  types
    : ∀ (index : Nat) pid, pid ≠ Pid.invalid →
        (table.types[index]? = some pid
          ↔ ∃ fact ∈ before, fact.id = lookup.startingId + index ∧ fact.type = pid)
  above : ∀ fact ∈ before, fact.id < table.allowedId
  allowed : lookup.startingId ≤ table.allowedId
  least : table.allowedId = lookup.startingId ∨ ∃ fact ∈ before, table.allowedId = fact.id + 1

theorem distance_of_le {low high : Id} (ordered : low ≤ high) (_isWord : high < 2 ^ 64)
    : distance low high = high - low := by
  rw [distance, show high + 2 ^ 64 - low = high - low + 2 ^ 64 by lia, Nat.add_mod_right]
  exact Nat.mod_eq_of_lt (by lia)

theorem distance_of_lt {low high : Id} (below : high < low) (_isWord : low < 2 ^ 64)
    : distance low high = high + 2 ^ 64 - low :=
  Nat.mod_eq_of_lt (by lia)

/-- At the start the table has no types. -/
theorem filled_start (ordered : lookup.startingId ≤ lookup.firstFreeId)
    (words : lookup.firstFreeId < 2 ^ 64)
    : Filled lookup [] ⟨lookup.startingId,
        List.replicate (distance lookup.startingId lookup.firstFreeId) Pid.invalid⟩ where
  length := by rw [List.length_replicate, distance_of_le ordered words]
  types := by
    intro index pid valid
    rw [List.getElem?_replicate]
    split
    next => simpa using fun same => valid same.symm
    next => simp
  above := by simp
  allowed := le_rfl
  least := .inl rfl

/-- The table knows the types of the facts before, and no others. -/
theorem Filled.checksRefs (filled : Filled lookup before table)
    (bounds : ∀ earlier ∈ before, lookup.startingId ≤ earlier.id)
    (below : ∀ earlier ∈ before, earlier.id < fact.id)
    (ordered : lookup.startingId ≤ lookup.firstFreeId) (words : lookup.firstFreeId < 2 ^ 64)
    : ChecksRefs (checker lookup.startingId table.types)
        (Earlier {other | other ∈ before} fact.id) := by
  intro id pid state valid isWord
  have isKnown : table.types[distance lookup.startingId id]? = some pid
      ↔ Earlier {other | other ∈ before} fact.id pid id := by
    rcases Nat.lt_or_ge id lookup.startingId with low | large
    · have outside : table.types[distance lookup.startingId id]? = none := by
        rw [List.getElem?_eq_none_iff, filled.length, distance_of_lt low (by lia)]
        lia
      rw [outside]
      refine iff_of_false (by rintro ⟨⟩) ?_
      rintro ⟨-, other, member, rfl, -⟩
      exact Nat.lt_irrefl _ (low.trans_le (bounds other member))
    · rw [distance_of_le large isWord, filled.types _ pid valid, Nat.add_sub_cancel' large]
      constructor
      · rintro ⟨other, member, rfl, isType⟩
        exact ⟨below other member, other, member, rfl, isType⟩
      · rintro ⟨-, other, member, isId, isType⟩
        exact ⟨other, member, isId, isType⟩
  rw [checker]
  cases found : table.types[distance lookup.startingId id]? with
  | none =>
      refine .inr ⟨⟨_, rfl⟩, fun earlier => ?_⟩
      have known := isKnown.mpr earlier
      rw [found] at known
      cases known
  | some realType =>
      dsimp only
      by_cases same : pid = realType
      · rw [if_neg (not_not.mpr same)]
        exact .inl ⟨rfl, isKnown.mp (same ▸ found)⟩
      · rw [if_pos same]
        refine .inr ⟨⟨_, rfl⟩, fun earlier => same ?_⟩
        have known := isKnown.mpr earlier
        rw [found] at known
        exact (Option.some.inj known).symm

/-- A fact may follow the facts before it in a valid database. -/
structure Follows (varint : Varint) (inventory : Inventory) (lookup : Lookup) (before : List Fact)
    (fact : Fact) : Prop where
  ascending : ∀ earlier ∈ before, earlier.id < fact.id
  large : lookup.startingId ≤ fact.id
  small : fact.id < lookup.firstFreeId
  clause : IsClause varint inventory (Earlier {other | other ∈ before} fact.id) fact
  key : lookup.idByKey fact.type fact.key = fact.id

section Mono

variable {ref other : Pid → Id → Prop}

mutual

theorem OfType.mono (weaker : ∀ pid id, ref pid id → other pid id)
    : (value : Value) → {rep : Rep} → OfType ref rep value → OfType other rep value
  | .byte _, _, .byte => .byte
  | .nat _, _, .nat small => .nat small
  | .string _, _, .string isText => .string isText
  | .array elements, _, .array small all => .array small (AllOfType.mono weaker elements all)
  | .tuple fields, _, .tuple all => .tuple (AllOfType.mono weaker fields all)
  | .alt _ value, _, .alt small isField inside =>
      .alt small isField (OfType.mono weaker value inside)
  | .ref _, _, .ref small isRef => .ref small (weaker _ _ isRef)

theorem AllOfType.mono (weaker : ∀ pid id, ref pid id → other pid id)
    : (values : List Value) → {reps : List Rep} → AllOfType ref reps values →
        AllOfType other reps values
  | [], _, .nil => .nil
  | value :: values, _, .cons first others =>
      .cons (OfType.mono weaker value first) (AllOfType.mono weaker values others)

end

theorem IsClause.mono (weaker : ∀ pid id, ref pid id → other pid id)
    (isClause : IsClause varint inventory ref fact)
    : IsClause varint inventory other fact := by
  obtain ⟨predicate, key, value, found, keyType, valueType, isClause⟩ := isClause
  exact ⟨predicate, key, value, found, OfType.mono weaker key keyType,
    OfType.mono weaker value valueType, isClause⟩

end Mono

/-- The typechecker accepts a fact exactly if its clause is canonical and refers to facts before. -/
theorem checkType_cases (utf8 : u8.ReadsUtf8) {ref : Pid → Id → Prop} {startingId : Id}
    {types : List Pid} (checks : ChecksRefs (checker startingId types) ref)
    (right : ∀ predicate, inventory.lookupPredicate fact.type = some predicate →
      ClauseReadsRight varint u8 ref predicate fact.clause)
    : (checkType varint u8 inventory startingId types fact = .ok ()
          ∧ IsClause varint inventory ref fact)
      ∨ (∃ message, checkType varint u8 inventory startingId types fact = .error message)
          ∧ ¬ IsClause varint inventory ref fact := by
  rw [checkType]
  cases found : inventory.lookupPredicate fact.type with
  | none =>
      refine .inr ⟨⟨_, rfl⟩, ?_⟩
      rintro ⟨predicate, key, value, isPredicate, -⟩
      rw [found] at isPredicate
      cases isPredicate
  | some predicate =>
      have refers := inventory.refers predicate (Inventory.mem_of_lookupPredicate found).1
      have rightClause := right predicate found
      have isClause (after : Id)
          : checkClause varint u8 (checker startingId types) predicate.keyTy predicate.valTy
                fact.clause Id.invalid = .ok ⟨fact.clause.bytes, fact.clause.key.length, after⟩
            ↔ after = Id.invalid ∧ IsClause varint inventory ref fact := by
        rw [checkClause_gives_back utf8 checks refers.1 refers.2 rightClause]
        refine and_congr_right (fun _ => ?_)
        constructor
        · rintro ⟨key, value, typed⟩
          exact ⟨predicate, key, value, found, typed⟩
        · rintro ⟨other, key, value, isPredicate, typed⟩
          obtain rfl := Option.some.inj (found.symm.trans isPredicate)
          exact ⟨key, value, typed⟩
      have defined := checkClause_ne_undefined utf8 checks refers.1 refers.2 rightClause Id.invalid
      have accepted := (isClause Id.invalid).mpr
      dsimp only
      rw [Predicate.typecheck]
      cases outcome : checkClause varint u8 (checker startingId types) predicate.keyTy
        predicate.valTy fact.clause Id.invalid with
      | ok out =>
          rw [outcome] at isClause accepted
          rw [Outcome.ok_bind]
          obtain ⟨output, keySize, renamer⟩ := out
          dsimp only
          by_cases sameBytes : fact.clause.bytes = output
          · rw [if_neg (not_not.mpr sameBytes)]
            by_cases sameSize : fact.clause.key.length = keySize
            · rw [if_neg (not_not.mpr sameSize)]
              refine .inl ⟨rfl, ((isClause renamer).mp ?_).2⟩
              rw [sameBytes, sameSize]
            · rw [if_pos sameSize]
              refine .inr ⟨⟨_, rfl⟩, fun isCanonical => sameSize ?_⟩
              have same := Outcome.ok.inj (accepted ⟨rfl, isCanonical⟩)
              exact (Bytecode.Result.mk.inj same).2.1.symm
          · rw [if_pos sameBytes]
            refine .inr ⟨⟨_, rfl⟩, fun isCanonical => sameBytes ?_⟩
            have same := Outcome.ok.inj (accepted ⟨rfl, isCanonical⟩)
            exact (Bytecode.Result.mk.inj same).1.symm
      | error message =>
          refine .inr ⟨⟨message, rfl⟩, fun isCanonical => ?_⟩
          rw [outcome] at accepted
          cases accepted ⟨rfl, isCanonical⟩
      | undefined => exact (defined outcome).elim

/-- An assignment to the table at the position of a new fact. -/
theorem Filled.push (filled : Filled lookup before table)
    (ascending : ∀ earlier ∈ before, earlier.id < fact.id) (large : lookup.startingId ≤ fact.id)
    (small : fact.id < lookup.firstFreeId) (words : lookup.firstFreeId < 2 ^ 64)
    : distance lookup.startingId fact.id < table.types.length
      ∧ Filled lookup (before ++ [fact]) ⟨(fact.id + 1) % 2 ^ 64,
          table.types.set (distance lookup.startingId fact.id) fact.type⟩ := by
  have isWord : fact.id + 1 < 2 ^ 64 := by lia
  have position : distance lookup.startingId fact.id = fact.id - lookup.startingId :=
    distance_of_le large (by lia)
  have inside : fact.id - lookup.startingId < table.types.length := by
    rw [filled.length]
    lia
  rw [position, Nat.mod_eq_of_lt isWord]
  refine ⟨inside, ?_, fun index pid valid => ?_, fun earlier member => ?_, ?_, ?_⟩
  · rw [List.length_set]
    exact filled.length
  · rw [List.getElem?_set]
    split
    next here =>
      have isId : fact.id = lookup.startingId + index := by lia
      rw [Option.some.injEq]
      constructor
      · intro isType
        exact ⟨fact, by simp, isId, isType⟩
      · rintro ⟨other, member, otherId, isType⟩
        rcases List.mem_append.mp member with isEarlier | isFact
        · have less := ascending other isEarlier
          rw [isId, otherId] at less
          exact (Nat.lt_irrefl _ less).elim
        · rw [← List.mem_singleton.mp isFact]
          exact isType
    next elsewhere =>
      rw [filled.types index pid valid]
      constructor
      · rintro ⟨other, member, isOther⟩
        exact ⟨other, List.mem_append_left _ member, isOther⟩
      · rintro ⟨other, member, otherId, isType⟩
        rcases List.mem_append.mp member with isEarlier | isFact
        · exact ⟨other, isEarlier, otherId, isType⟩
        · obtain rfl := List.mem_singleton.mp isFact
          exact (elsewhere (by lia)).elim
  · rcases List.mem_append.mp member with isEarlier | isFact
    · exact (ascending earlier isEarlier).trans (Nat.lt_succ_self _)
    · rw [List.mem_singleton.mp isFact]
      exact Nat.lt_succ_self _
  · exact large.trans (Nat.le_succ _)
  · exact .inr ⟨fact, by simp, rfl⟩

theorem Filled.next (filled : Filled lookup before table)
    (follows : Follows varint inventory lookup before fact) (words : lookup.firstFreeId < 2 ^ 64)
    : distance lookup.startingId fact.id < table.types.length
      ∧ Filled lookup (before ++ [fact]) ⟨(fact.id + 1) % 2 ^ 64,
          table.types.set (distance lookup.startingId fact.id) fact.type⟩ :=
  filled.push follows.ascending follows.large follows.small words

/-- The body of the loop goes on exactly if the fact may follow. -/
theorem checkFact_cases (utf8 : u8.ReadsUtf8) {val : Validate} (checksTypes : val.typecheck = true)
    (checksKeys : val.keys = true) (filled : Filled lookup before table)
    (bounds : ∀ earlier ∈ before, lookup.startingId ≤ earlier.id)
    (ordered : lookup.startingId ≤ lookup.firstFreeId) (words : lookup.firstFreeId < 2 ^ 64)
    (right : (∀ earlier ∈ before, earlier.id < fact.id) → lookup.startingId ≤ fact.id →
      fact.id < lookup.firstFreeId → ∀ predicate,
      inventory.lookupPredicate fact.type = some predicate →
      ClauseReadsRight varint u8 (Earlier {other | other ∈ before} fact.id) predicate fact.clause)
    : (∃ next, checkFact varint u8 inventory val lookup table fact = .ok next
          ∧ Filled lookup (before ++ [fact]) next ∧ Follows varint inventory lookup before fact)
      ∨ (∃ message, checkFact varint u8 inventory val lookup table fact = .error message)
          ∧ ¬ Follows varint inventory lookup before fact := by
  rw [checkFact]
  split
  next disordered =>
    refine .inr ⟨⟨_, rfl⟩, fun follows => ?_⟩
    rcases filled.least with isStart | ⟨earlier, member, isNext⟩
    · rw [isStart] at disordered
      exact Nat.lt_irrefl _ (disordered.trans_le follows.large)
    · rw [isNext] at disordered
      have less := follows.ascending earlier member
      lia
  next allowed =>
    split
    next outside =>
      refine .inr ⟨⟨_, rfl⟩, fun follows => ?_⟩
      exact Nat.lt_irrefl _ (follows.small.trans_le outside)
    next inside =>
      have isAllowed := Nat.le_of_not_lt allowed
      have small := Nat.lt_of_not_le inside
      have large := filled.allowed.trans isAllowed
      have ascending : ∀ earlier ∈ before, earlier.id < fact.id :=
        fun earlier member => (filled.above earlier member).trans_le isAllowed
      have checks := filled.checksRefs bounds ascending ordered words
      dsimp only
      rcases checkType_cases utf8 checks (right ascending large small) with
        ⟨isOk, isClause⟩ | ⟨⟨message, isError⟩, notClause⟩
      · rw [isOk, Outcome.ok_bind]
        by_cases sameKey : lookup.idByKey fact.type fact.key = fact.id
        · have follows : Follows varint inventory lookup before fact :=
            ⟨ascending, large, small, isClause, sameKey⟩
          obtain ⟨position, nextFilled⟩ := filled.next follows words
          rw [if_neg (fun differs => differs.2 sameKey), if_pos position]
          exact .inl ⟨_, rfl, nextFilled, follows⟩
        · rw [if_pos ⟨checksKeys, sameKey⟩]
          exact .inr ⟨⟨_, rfl⟩, fun follows => sameKey follows.key⟩
      · rw [isError]
        exact .inr ⟨⟨message, rfl⟩, fun follows => notClause follows.clause⟩

theorem valid_nil : Valid varint inventory lookup [] :=
  ⟨.nil, by simp, by simp, by simp⟩

/-- A database stays valid with a fact that may follow. -/
theorem Valid.append_one (valid : Valid varint inventory lookup before)
    (follows : Follows varint inventory lookup before fact)
    : Valid varint inventory lookup (before ++ [fact]) where
  ascending := by
    refine List.pairwise_append.mpr ⟨valid.ascending, List.pairwise_singleton _ _, ?_⟩
    intro earlier member later isFact
    rw [List.mem_singleton.mp isFact]
    exact follows.ascending earlier member
  bounds := by
    intro other member
    rcases List.mem_append.mp member with isEarlier | isFact
    · exact valid.bounds other isEarlier
    · rw [List.mem_singleton.mp isFact]
      exact ⟨follows.large, follows.small⟩
  clauses := by
    intro other member
    have grows : {other | other ∈ before} ⊆ {other | other ∈ before ++ [fact]} :=
      fun other isEarlier => List.mem_append_left _ isEarlier
    rcases List.mem_append.mp member with isEarlier | isFact
    · exact (valid.clauses other isEarlier).mono (fun _ _ => Earlier.mono grows)
    · rw [List.mem_singleton.mp isFact]
      exact follows.clause.mono (fun _ _ => Earlier.mono grows)
  keys := by
    intro other member
    rcases List.mem_append.mp member with isEarlier | isFact
    · exact valid.keys other isEarlier
    · rw [List.mem_singleton.mp isFact]
      exact follows.key

/-- In a valid database every fact may follow those before it. -/
theorem Valid.follows {after : List Fact}
    (valid : Valid varint inventory lookup (before ++ fact :: after))
    : Follows varint inventory lookup before fact := by
  have member : fact ∈ before ++ fact :: after := by simp
  obtain ⟨-, laterAscending, ascending⟩ := List.pairwise_append.mp valid.ascending
  refine ⟨fun earlier isEarlier => ascending earlier isEarlier fact List.mem_cons_self,
    (valid.bounds fact member).1, (valid.bounds fact member).2, ?_, valid.keys fact member⟩
  refine (valid.clauses fact member).mono (fun pid id earlier => ?_)
  obtain ⟨less, other, isOther, rfl, isType⟩ := earlier
  refine ⟨less, other, ?_, rfl, isType⟩
  rcases List.mem_append.mp isOther with isEarlier | isLater
  · exact isEarlier
  · rcases List.mem_cons.mp isLater with rfl | isAfter
    · exact (Nat.lt_irrefl _ less).elim
    · have greater := (List.pairwise_cons.mp laterAscending).1 other isAfter
      exact (Nat.lt_irrefl _ (less.trans greater)).elim

variable {iter : FactIterator}

/-- The loop succeeds exactly if the facts so far and those ahead are a valid database. -/
theorem checkFacts_cases (utf8 : u8.ReadsUtf8) {val : Validate} (checksTypes : val.typecheck = true)
    (checksKeys : val.keys = true) (ordered : lookup.startingId ≤ lookup.firstFreeId)
    (words : lookup.firstFreeId < 2 ^ 64) {R : iter.State → List Fact → Prop}
    (simulates : Cursor.Simulates Fact.ShownAs .getFirst iter R) {rest : List Fact}
    {state : iter.State} {rounds count : Nat} (ahead : R state rest) (enough : rest.length < rounds)
    (limit : count + rest.length ≤ val.limit) (filled : Filled lookup before table)
    (valid : Valid varint inventory lookup before)
    (right : FactsReadRight varint u8 inventory lookup (before ++ rest))
    : (checkFacts varint u8 inventory val lookup iter rounds state count table = .ok ()
          ∧ Valid varint inventory lookup (before ++ rest))
      ∨ (∃ message,
          checkFacts varint u8 inventory val lookup iter rounds state count table = .error message)
          ∧ ¬ Valid varint inventory lookup (before ++ rest) := by
  induction rest generalizing before table state rounds count with
  | nil =>
      obtain ⟨rounds, rfl⟩ := Nat.exists_eq_succ_of_ne_zero (Nat.pos_iff_ne_zero.mp enough)
      obtain ⟨after, gets, -⟩ := simulates.done ahead .keyValue
      rw [checkFacts, gets, List.append_nil]
      exact .inl ⟨rfl, valid⟩
  | cons fact rest ih =>
      obtain ⟨rounds, rfl⟩ :=
        Nat.exists_eq_succ_of_ne_zero (Nat.pos_iff_ne_zero.mp (Nat.zero_lt_of_lt enough))
      obtain ⟨shown, after, moved, gets, rfl, -, moves, next⟩ := simulates.shows ahead .keyValue
      rw [List.length_cons] at enough limit
      have outcome := checkFact_cases utf8 checksTypes checksKeys filled
        (fun earlier member => (valid.bounds earlier member).1) ordered words
        (fun ascending large small predicate found =>
          right before shown rest predicate rfl valid ascending large small found)
      rw [checkFacts, gets]
      dsimp only
      rw [if_neg (by lia)]
      rcases outcome with ⟨nextTable, isNext, nextFilled, follows⟩ | ⟨⟨message, isError⟩, notFollows⟩
      · rw [isNext, Outcome.ok_bind, moves]
        rw [List.append_cons] at right ⊢
        exact ih next (Nat.lt_of_succ_lt_succ enough) (by lia) nextFilled
          (valid.append_one follows) right
      · rw [isError]
        exact .inr ⟨⟨message, rfl⟩, fun whole => notFollows whole.follows⟩

/-- With all checks and without a limit, validation succeeds on valid databases and raises an error
on all others, when the strings that it comes to are read as they should be.
-/
theorem validate_sound_complete (utf8 : u8.ReadsUtf8) {val : Validate}
    (checksTypes : val.typecheck = true) (checksKeys : val.keys = true) {facts : List Fact}
    (yields : (lookup.enumerate Id.invalid Id.invalid).Yields .getFirst facts)
    (unlimited : facts.length ≤ val.limit) (ordered : lookup.startingId ≤ lookup.firstFreeId)
    (words : lookup.firstFreeId < 2 ^ 64)
    (right : FactsReadRight varint u8 inventory lookup facts)
    : (validate varint u8 inventory val lookup = .ok () ↔ Valid varint inventory lookup facts)
      ∧ (¬ Valid varint inventory lookup facts →
          ∃ message, validate varint u8 inventory val lookup = .error message) := by
  obtain ⟨R, simulates, start⟩ := yields
  have bounded := simulates.bounded start
  have outcome := checkFacts_cases utf8 checksTypes checksKeys ordered words simulates start
    (Nat.lt_succ_of_le bounded) (by lia : 0 + facts.length ≤ val.limit) (filled_start ordered words)
    valid_nil right
  rw [List.nil_append] at outcome
  rcases outcome with ⟨isOk, valid⟩ | ⟨⟨message, isError⟩, notValid⟩
  · exact ⟨iff_of_true isOk valid, fun notValid => (notValid valid).elim⟩
  · refine ⟨iff_of_false (fun isOk => ?_) notValid, fun _ => ⟨message, isError⟩⟩
    cases isError.symm.trans isOk

/-- A predicate of strings. -/
def stringInventory : Inventory where
  firstId := 1024
  preds := [some ⟨"example.String", 1, .string, .record []⟩]
  bounded := by decide
  valid := by
    intro index _ _ isInvalid
    exact absurd (Nat.eq_zero_of_add_eq_zero_right isInvalid) (by decide)
  refers := by
    intro predicate member
    obtain rfl := Option.some.inj (List.mem_singleton.mp member)
    exact ⟨trivial, trivial⟩

/-- A database with one string. -/
def stringSet (key : Bytes) : FactSet :=
  (FactSet.new 1024 Id.invalid_lt_1024).push 1024 ⟨key, []⟩ Pid.firstFree_lt_limit
    (by simp [FactSet.new, FactSet.bucket])

theorem stringSet_yields (key : Bytes)
    : ((stringSet key).lookup.enumerate Id.invalid Id.invalid).Yields .getFirst
        [⟨1024, 1024, ⟨key, []⟩⟩] := by
  have yields := @FactSet.enumerate_yields (stringSet key) Id.invalid Id.invalid (.inl rfl) .getFirst
  rwa [factsInRange_unbounded] at yields

theorem lookupPredicate_string
    : stringInventory.lookupPredicate 1024
      = some ⟨"example.String", 1, .string, .record []⟩ :=
  rfl

/-- The letter `a` is a valid string. -/
theorem validate_sound_complete_letter
    : validate .folly .icu stringInventory .default (stringSet [97, 0, 0]).lookup = .ok () := by
  have isUtf8 : UntrustedString.IsUtf8 [97] := ⟨[97], by simp [Utf8.Scalar], rfl⟩
  refine (validate_sound_complete U8Next.icu_readsUtf8 rfl rfl (stringSet_yields [97, 0, 0])
    (by decide) (by decide) (by decide) ?_).1.mpr ?_
  · intro before fact after predicate split _ _ _ _ found
    obtain ⟨rfl, rfl⟩ : before = [] ∧ fact = ⟨1024, 1024, ⟨[97, 0, 0], []⟩⟩ := by
      cases before with
      | nil => exact ⟨rfl, (List.cons.inj split).1.symm⟩
      | cons first rest =>
          have nothing := (List.cons.inj split).2
          cases rest <;> cases nothing
    obtain rfl := Option.some.inj (lookupPredicate_string.symm.trans found)
    constructor
    · rintro range ⟨⟩
      exact .inl ⟨[97], ⟨[97], by simp [Utf8.Scalar, Truncated], rfl⟩, List.prefix_refl _, by decide⟩
    · rintro key - - range inside
      cases inside with
      | tuple inField => cases inField
  · refine ⟨List.pairwise_singleton _ _, ?_, ?_, ?_⟩
    · intro fact member
      rw [List.mem_singleton.mp member]
      decide
    · intro fact member
      rw [List.mem_singleton.mp member]
      exact ⟨_, .string (mangleString [97]), .tuple [], lookupPredicate_string, .string isUtf8,
        .tuple .nil, rfl⟩
    · intro fact member
      rw [List.mem_singleton.mp member]
      rfl

/-- A byte that is not UTF-8 is no text. -/
theorem not_isUtf8_continuation : ¬ UntrustedString.IsUtf8 [0x80] := by
  rintro ⟨codes, scalars, isText⟩
  cases codes with
  | nil => cases isText
  | cons code rest =>
      have next := U8Next.icu_readsUtf8.encoded (scalars code List.mem_cons_self)
        (Utf8.encodeAll rest)
      rw [← Utf8.encodeAll_cons, ← isText] at next
      have isNone : (U8Next.icu.next [0x80]).1 = none := by decide
      rw [next] at isNone
      cases isNone

/-- A database with a string that is not UTF-8 is not valid, and validation succeeds. -/
theorem validate_not_sound
    : ¬ ∀ (varint : Varint) (u8 : U8Next) (inventory : Inventory) (lookup : Lookup)
          (facts : List Fact), u8.ReadsUtf8 →
          (lookup.enumerate Id.invalid Id.invalid).Yields .getFirst facts →
          lookup.startingId ≤ lookup.firstFreeId → lookup.firstFreeId < 2 ^ 64 →
          (validate varint u8 inventory .default lookup = .ok ()
            ↔ Valid varint inventory lookup facts) := by
  intro claim
  have accepted : validate .folly .icu stringInventory .default (stringSet [0x80, 0, 0]).lookup
      = .ok () := rfl
  have valid := (claim .folly .icu stringInventory (stringSet [0x80, 0, 0]).lookup _
    U8Next.icu_readsUtf8 (stringSet_yields [0x80, 0, 0]) (by decide) (by decide)).mp accepted
  obtain ⟨predicate, key, value, found, keyType, -, isClause⟩ :=
    valid.clauses _ List.mem_cons_self
  obtain rfl := Option.some.inj (lookupPredicate_string.symm.trans found)
  cases keyType with
  | string isText =>
      rename_i text
      have isMangled : mangleString [0x80] ++ [] = mangleString text ++ [] := by
        rw [List.append_nil, List.append_nil]
        exact congrArg Clause.key isClause
      rw [← (mangleString_injective isMangled).1] at isText
      exact not_isUtf8_continuation isText

end Glean.RTS.Validate
