import Glean.RTS.Rebase
import Glean.RTS.ValidateFacts

/-! Validation accepts whatever the typechecker has given out, with all of its strings: the facts of
a lookup that are well typed and are found by their keys.
-/

namespace Glean.RTS.Validate

variable {varint : Varint} {u8 : U8Next} {inventory : Inventory} {lookup : Lookup}
  {before : List Fact} {fact : Fact} {table : Table}

/-- A clause of values that have the types of its predicate is given back. -/
theorem checkType_typed {ref : Pid → Id → Prop} {startingId : Id} {types : List Pid}
    (checks : ChecksRefs (checker startingId types) ref) {predicate : Predicate} {key value : Value}
    (isPredicate : inventory.lookupPredicate fact.type = some predicate)
    (keyType : HasType u8 ref predicate.keyTy.repType key)
    (valueType : HasType u8 ref predicate.valTy.repType value)
    (isClause : fact.clause = ⟨encodeValue varint key, encodeValue varint value⟩)
    : checkType varint u8 inventory startingId types fact = .ok () := by
  have refers := inventory.refers predicate (Inventory.mem_of_lookupPredicate isPredicate).1
  have readsKey : Reads varint u8 predicate.keyTy.repType (encodeValue varint key ++ []) key [] :=
    reads_encodeValue key keyType
  have readsValue
      : Reads varint u8 predicate.valTy.repType (encodeValue varint value ++ []) value [] :=
    reads_encodeValue value valueType
  rw [List.append_nil] at readsKey readsValue
  have accepted : predicate.typecheck varint u8 (checker startingId types) fact.clause
      = .ok ⟨fact.clause.bytes, fact.clause.key.length, Id.invalid⟩ := by
    rw [Predicate.typecheck, isClause, checkClause_eq_ok]
    exact ⟨key, value, key, value, Id.invalid, readsKey, readsValue,
      checks.renames key Id.invalid refers.1 keyType,
      checks.renames value Id.invalid refers.2 valueType, rfl, rfl⟩
  rw [checkType, isPredicate]
  dsimp only
  rw [accepted, Outcome.ok_bind, if_neg (not_not.mpr rfl), if_neg (not_not.mpr rfl)]
  rfl

/-- The loop goes on behind a well-typed fact. -/
theorem checkFact_typed (val : Validate) (filled : Filled lookup before table)
    (bounds : ∀ earlier ∈ before, lookup.startingId ≤ earlier.id)
    (ascending : ∀ earlier ∈ before, earlier.id < fact.id) (large : lookup.startingId ≤ fact.id)
    (small : fact.id < lookup.firstFreeId) (words : lookup.firstFreeId < 2 ^ 64)
    (typed : fact.WellTyped varint u8 inventory {other | other ∈ before})
    (isKey : lookup.idByKey fact.type fact.key = fact.id)
    : ∃ next, checkFact varint u8 inventory val lookup table fact = .ok next
        ∧ Filled lookup (before ++ [fact]) next := by
  have ordered : lookup.startingId ≤ lookup.firstFreeId := large.trans small.le
  have allowed : ¬ fact.id < table.allowedId := by
    rcases filled.least with isStart | ⟨earlier, member, isNext⟩
    · rw [isStart]
      exact Nat.not_lt.mpr large
    · have less := ascending earlier member
      lia
  obtain ⟨predicate, key, value, isPredicate, keyType, valueType, isClause⟩ := typed
  have isTyped := checkType_typed (filled.checksRefs bounds ascending ordered words) isPredicate
    keyType valueType isClause
  obtain ⟨position, nextFilled⟩ := filled.push ascending large small words
  refine ⟨_, ?_, nextFilled⟩
  rw [checkFact, if_neg allowed, if_neg (Nat.not_le.mpr small), isTyped]
  have sameKey : ¬ (val.keys = true ∧ lookup.idByKey fact.type fact.key ≠ fact.id) :=
    fun differs => differs.2 isKey
  cases val.typecheck <;> simp only [if_neg sameKey, if_pos position] <;> rfl

/-- The facts before a fact are those with smaller ids. -/
theorem mem_before {after : List Fact}
    (ascending : (before ++ fact :: after).Pairwise (fun left right => left.id < right.id))
    {other : Fact} (member : other ∈ before ++ fact :: after) (less : other.id < fact.id)
    : other ∈ before := by
  rcases List.mem_append.mp member with isEarlier | isLater
  · exact isEarlier
  · rcases List.mem_cons.mp isLater with rfl | isAfter
    · exact (Nat.lt_irrefl _ less).elim
    · have sorted := (List.pairwise_append.mp ascending).2.1
      have greater := (List.pairwise_cons.mp sorted).1 other isAfter
      exact (Nat.lt_irrefl _ (less.trans greater)).elim

theorem wellTyped_before {after : List Fact}
    (ascending : (before ++ fact :: after).Pairwise (fun left right => left.id < right.id))
    (typed : fact.WellTyped varint u8 inventory {other | other ∈ before ++ fact :: after})
    : fact.WellTyped varint u8 inventory {other | other ∈ before} := by
  have earlier (pid id) (isEarlier : Earlier {other | other ∈ before ++ fact :: after} fact.id pid id)
      : Earlier {other | other ∈ before} fact.id pid id := by
    obtain ⟨less, other, member, rfl, isType⟩ := isEarlier
    exact ⟨less, other, mem_before ascending member less, rfl, isType⟩
  obtain ⟨predicate, key, value, isPredicate, keyType, valueType, isClause⟩ := typed
  exact ⟨predicate, key, value, isPredicate, keyType.mono earlier, valueType.mono earlier, isClause⟩

/-- Facts that a lookup has under their ids and keys, and that are well typed. -/
structure Typed (varint : Varint) (u8 : U8Next) (inventory : Inventory) (lookup : Lookup)
    (facts : List Fact) : Prop where
  ascending : facts.Pairwise (fun fact later => fact.id < later.id)
  inside : ∀ fact ∈ facts, lookup.startingId ≤ fact.id ∧ fact.id < lookup.firstFreeId
  typed : WellTyped varint u8 inventory {fact | fact ∈ facts}
  keys : ∀ fact ∈ facts, lookup.idByKey fact.type fact.key = fact.id

/-- The loop succeeds, by induction on the facts ahead. -/
theorem checkFacts_typed (val : Validate) {iter : FactIterator} {R : iter.State → List Fact → Prop}
    (simulates : Cursor.Simulates Fact.ShownAs .getFirst iter R) {rest : List Fact}
    {state : iter.State} {rounds count : Nat} (ahead : R state rest) (enough : rest.length < rounds)
    (words : lookup.firstFreeId < 2 ^ 64) (filled : Filled lookup before table)
    (typed : Typed varint u8 inventory lookup (before ++ rest))
    : checkFacts varint u8 inventory val lookup iter rounds state count table = .ok () := by
  induction rest generalizing before table state rounds count with
  | nil =>
      obtain ⟨rounds, rfl⟩ := Nat.exists_eq_succ_of_ne_zero (Nat.pos_iff_ne_zero.mp enough)
      obtain ⟨after, gets, -⟩ := simulates.done ahead .keyValue
      rw [checkFacts, gets]
  | cons fact rest ih =>
      obtain ⟨rounds, rfl⟩ :=
        Nat.exists_eq_succ_of_ne_zero (Nat.pos_iff_ne_zero.mp (Nat.zero_lt_of_lt enough))
      obtain ⟨shown, after, moved, gets, rfl, -, moves, next⟩ := simulates.shows ahead .keyValue
      have member : shown ∈ before ++ shown :: rest := by simp
      obtain ⟨large, small⟩ := typed.inside shown member
      obtain ⟨nextTable, isNext, nextFilled⟩ := checkFact_typed val filled
        (fun earlier isEarlier => (typed.inside earlier (List.mem_append_left _ isEarlier)).1)
        (fun earlier isEarlier =>
          (List.pairwise_append.mp typed.ascending).2.2 earlier isEarlier shown List.mem_cons_self)
        large small words (wellTyped_before typed.ascending (typed.typed shown member))
        (typed.keys shown member)
      rw [List.length_cons] at enough
      rw [List.append_cons] at typed
      rw [checkFacts, gets]
      dsimp only
      split
      next => rfl
      next =>
        rw [isNext, Outcome.ok_bind, moves]
        exact ih next (Nat.lt_of_succ_lt_succ enough) nextFilled typed

/-- Validation succeeds with any checks and limit. -/
theorem validate_typed (val : Validate) {facts : List Fact}
    (yields : (lookup.enumerate Id.invalid Id.invalid).Yields .getFirst facts)
    (ordered : lookup.startingId ≤ lookup.firstFreeId) (words : lookup.firstFreeId < 2 ^ 64)
    (typed : Typed varint u8 inventory lookup facts)
    : validate varint u8 inventory val lookup = .ok () := by
  obtain ⟨R, simulates, start⟩ := yields
  exact checkFacts_typed val simulates start (Nat.lt_succ_of_le (simulates.bounded start)) words
    (filled_start ordered words) typed

end Glean.RTS.Validate
