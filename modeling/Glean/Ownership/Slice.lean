import Glean.Ownership.Computed
import Glean.RTS.FactSet

/-! Slices of a database (`slice.h`): lookups restricted to the facts whose owner is visible. -/

namespace Glean.RTS

/-- A bitmap over the ownership sets from `first` on. -/
structure Slice where
  first : UsetId
  set : List Bool

/-- `Slice::visible`. The source asserts that a valid owner lies in the bitmap. -/
def Slice.visible (slice : Slice) (uset : UsetId) : Bool :=
  if uset = invalidUset then false else slice.set.getD (uset - slice.first) false

/-- `Sliced`: the fields of the lookup, with owners that satisfy the assertion of `visible`. -/
structure Sliced where
  base : Lookup
  slice : Slice
  ownership : Ownership
  covered
    : ∀ id, ownership.getOwner id ≠ invalidUset →
        slice.first ≤ ownership.getOwner id
          ∧ ownership.getOwner id - slice.first < slice.set.length

namespace Sliced

/-- Whether the owner of a fact is visible in the slice. -/
def visible (sliced : Sliced) (id : Id) : Bool :=
  sliced.slice.visible (sliced.ownership.getOwner id)

/-- The lookup a slice implements. `factById` and the direction of `enumerateBack` are as the
source has them.
-/
def lookup (sliced : Sliced) : Lookup where
  idByKey type key :=
    let id := sliced.base.idByKey type key
    if id ≠ Id.invalid ∧ sliced.visible id then id else Id.invalid
  typeById id := if sliced.visible id then sliced.base.typeById id else Pid.invalid
  factById := sliced.base.factById
  startingId := sliced.base.startingId
  firstFreeId := sliced.base.firstFreeId
  count := sliced.base.count
  enumerate first upto := FactIterator.filter (sliced.base.enumerate first upto) sliced.visible
  enumerateBack first downto :=
    FactIterator.filter (sliced.base.enumerate first downto) sliced.visible
  seek type start prefixSize :=
    FactIterator.filter (sliced.base.seek type start prefixSize) sliced.visible

end Sliced

/-- A call of one of the operations that deliver facts. -/
inductive LookupCall where
  | idByKey (type : Pid) (key : Bytes)
  | typeById (id : Id)
  | factById (id : Id)
  | enumerate (first upto : Id)
  | enumerateBack (first downto : Id)
  | seek (type : Pid) (start : Bytes) (prefixSize : Nat)

/-- One iterator yields the visible part of what another yields. Clients look at every fact
before they move on, as all callers of filtered iterators do.
-/
def FactIterator.Restricts (visible : Id → Bool) (base iter : FactIterator) : Prop :=
  ∀ facts, base.Yields .getFirst facts →
    iter.Yields .getFirst (facts.filter (fun fact => visible fact.id))

/-- The call of `lookup` answers as the same call of `base` does, restricted to visible
facts.
-/
def Lookup.RestrictedAt (visible : Id → Bool) (base lookup : Lookup) : LookupCall → Prop
  | .idByKey type key =>
      lookup.idByKey type key
        = if visible (base.idByKey type key) then base.idByKey type key else Id.invalid
  | .typeById id => lookup.typeById id = if visible id then base.typeById id else Pid.invalid
  | .factById id => lookup.factById id = if visible id then base.factById id else none
  | .enumerate first upto =>
      (base.enumerate first upto).Restricts visible (lookup.enumerate first upto)
  | .enumerateBack first downto =>
      (base.enumerateBack first downto).Restricts visible (lookup.enumerateBack first downto)
  | .seek type start prefixSize =>
      (base.seek type start prefixSize).Restricts visible (lookup.seek type start prefixSize)

namespace Sliced

/-- The condition on a call under which its answer is restricted to visible facts. -/
def Unaffected (sliced : Sliced) : LookupCall → Prop
  | .factById id => sliced.base.factById id = none ∨ sliced.visible id = true
  | .enumerateBack first downto =>
      ∀ forwards backwards,
        (sliced.base.enumerate first downto).Yields .getFirst forwards →
          (sliced.base.enumerateBack first downto).Yields .getFirst backwards →
            forwards.filter (fun fact => sliced.visible fact.id)
              = backwards.filter (fun fact => sliced.visible fact.id)
  | _ => True

/-- The base answers the enumeration that the call makes. -/
def Usable (sliced : Sliced) : LookupCall → Prop
  | .enumerateBack first downto =>
      ∃ facts, (sliced.base.enumerate first downto).Yields .getFirst facts
  | _ => True

/-- Filtering an iterator restricts it. -/
theorem filter_restricts (visible : Id → Bool) (base : FactIterator)
    : base.Restricts visible (FactIterator.filter base visible) :=
  fun _ yields => FilterIterator.yields visible yields

/-- The lookup by key is right for every key, found or not. -/
theorem idByKey_restricted (sliced : Sliced) (type : Pid) (key : Bytes)
    : sliced.base.RestrictedAt sliced.visible sliced.lookup (.idByKey type key) := by
  unfold Lookup.RestrictedAt
  dsimp only [lookup]
  by_cases found : sliced.base.idByKey type key = Id.invalid
  · simp [found]
  · simp [found]

/-- Unfiltered, `factById` is right for the facts that are visible or absent. -/
theorem factById_restricted_iff (sliced : Sliced) (id : Id)
    : sliced.base.RestrictedAt sliced.visible sliced.lookup (.factById id)
      ↔ sliced.Unaffected (.factById id) := by
  unfold Lookup.RestrictedAt Unaffected
  dsimp only [lookup]
  by_cases shown : sliced.visible id = true
  · simp [shown]
  · simp [shown]

/-- Enumerating the base forwards is right when the visible facts come out the same. -/
theorem enumerateBack_restricted_iff (sliced : Sliced) (first downto : Id)
    (usable : sliced.Usable (.enumerateBack first downto))
    : sliced.base.RestrictedAt sliced.visible sliced.lookup (.enumerateBack first downto)
      ↔ sliced.Unaffected (.enumerateBack first downto) := by
  constructor
  · intro restricted forwards backwards forwardYields backwardYields
    have actual := filter_restricts sliced.visible _ forwards forwardYields
    exact actual.unique (restricted backwards backwardYields)
  · intro alike backwards backwardYields
    obtain ⟨forwards, forwardYields⟩ := usable
    rw [← alike forwards backwards forwardYields backwardYields]
    exact filter_restricts sliced.visible _ forwards forwardYields

/-- The slice of a fact set in which no fact has an owner. -/
def hidden (set : FactSet) : Sliced where
  base := set.lookup
  slice := ⟨0, []⟩
  ownership := .unitsOnly 0
  covered := fun _ owned => (owned rfl).elim

/-- A fact set with the one fact 1024. -/
def oneFact : FactSet :=
  (FactSet.new 1024 Id.invalid_lt_1024).push 1 ⟨[], []⟩ Pid.one_lt_limit (by decide)

end Sliced

end Glean.RTS
