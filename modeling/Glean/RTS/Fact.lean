import Mathlib.Data.Fin.Basic
import Mathlib.Data.List.Lex
import Mathlib.Order.Fin.Basic
import Glean.Library.Byte

/-! Identifiers, byte strings and facts of the runtime (`id.h`, `fact.h`). -/

namespace Glean.RTS

abbrev Byte := Fin 256

/-- Byte strings, ordered lexicographically as `folly::ByteRange` and rocksdb keys are. -/
abbrev Bytes := List Byte

/-- Fact ids. `0` is not the id of a fact. -/
abbrev Id := Nat

/-- Predicate ids. `0` is not the id of a predicate. -/
abbrev Pid := Nat

def Id.invalid : Id := 0

theorem Id.invalid_lt_1024 : Id.invalid < 1024 := by decide

theorem Id.invalid_lt_1025 : Id.invalid < 1025 := by decide

/-- `FIRST_FREE_ID`, the lowest id a fact may have. -/
def Id.lowest : Id := 1024

def Pid.invalid : Pid := 0

/-- Predicate ids lie below this. The largest word is not usable: `DenseMap` asserts that the
successor of a key exists.
-/
def Pid.limit : Pid := 2 ^ 64 - 1

theorem Pid.one_lt_limit : 1 < Pid.limit := by decide

theorem Pid.firstFree_lt_limit : 1024 < Pid.limit := by decide

/-- The key and value bytes of a fact, which the source stores back to back. -/
structure Clause where
  key : Bytes
  value : Bytes
  deriving DecidableEq

/-- `Fact::Clause::from`: the first `keySize` bytes are the key. -/
def Clause.from (bytes : Bytes) (keySize : Nat) : Clause :=
  ⟨bytes.take keySize, bytes.drop keySize⟩

/-- `Fact::Clause::fromKey`: a clause whose value is left out. -/
def Clause.fromKey (bytes : Bytes) : Clause :=
  ⟨bytes, []⟩

def Clause.bytes (clause : Clause) : Bytes :=
  clause.key ++ clause.value

@[simp]
theorem Clause.from_bytes (clause : Clause)
    : Clause.from clause.bytes clause.key.length = clause := by
  simp [Clause.from, Clause.bytes]

/-- A fact, and also a valid `Fact::Ref`; the invalid reference is an absent fact. -/
structure Fact where
  id : Id
  type : Pid
  clause : Clause
  deriving DecidableEq

namespace Fact

def key (fact : Fact) : Bytes := fact.clause.key

def value (fact : Fact) : Bytes := fact.clause.value

end Fact

end Glean.RTS
