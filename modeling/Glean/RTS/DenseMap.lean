import Mathlib.Data.List.Basic
import Mathlib.Logic.Function.Basic
import Glean.Library.Byte
import Glean.Library.Machine

/-! Maps from words to values that are stored as a vector of optional values (`densemap.h`), and
the finite maps that they stand for.
-/

namespace Glean.RTS

/-- Keys and sizes are 64-bit words, whose arithmetic wraps around. -/
def DenseMap.limit : Nat := 2 ^ 64

structure DenseMap (V : Type) where
  start : Nat
  data : List (Option V)
  count : Nat

namespace DenseMap

variable {V : Type}

/-- The sum of two words. -/
def add (left right : Nat) : Nat := (left + right) % limit

/-- The difference of two words. -/
def sub (left right : Nat) : Nat := (left + (limit - right)) % limit

/-- `swap`: what the two maps are afterwards. -/
def swap (one other : DenseMap V) : DenseMap V × DenseMap V :=
  ({ one with start := other.start, data := other.data },
    { other with start := one.start, data := one.data })

/-- What is left of a map whose contents were moved. -/
def movedFrom (other : DenseMap V) : DenseMap V := { other with data := [] }

def size (map : DenseMap V) : Nat := map.count

/-- `std::vector::resize` -/
def resize (data : List (Option V)) (size : Nat) : List (Option V) :=
  data.take size ++ List.replicate (size - data.length) none

/-- `reserve`: cover the keys from `lower` up to but not including `upto`. Where `upto` wraps
around an assertion on the difference of the two fails; here the difference wraps around, too.
-/
def reserve (map : DenseMap V) (lower upto : Nat) : DenseMap V :=
  if map.data = [] then
    { map with start := lower, data := resize [] (sub upto lower) }
  else if lower < map.start then
    let size := sub (max upto (add map.start map.data.length)) lower
    let front := List.replicate (sub map.start lower) none
    { map with start := lower, data := resize (front ++ map.data) size }
  else if map.data.length < sub upto map.start then
    { map with data := resize map.data (sub upto map.start) }
  else
    map

/-- `operator[]`, whose result is changed by `change`. A slot outside of the vector is undefined.
-/
def subscript [Inhabited V] (map : DenseMap V) (key : Nat) (change : V → V)
    : Option (DenseMap V) := do
  let map := map.reserve key (add key 1)
  let index := sub key map.start
  match ← map.data[index]? with
  | none => return { map with data := map.data.set index (some (change default)),
                              count := add map.count 1 }
  | some value => return { map with data := map.data.set index (some (change value)) }

/-- `get`, and what the result of `lookup` points to. -/
def get (map : DenseMap V) (key : Nat) : Option V :=
  if map.start ≤ key then
    let index := sub key map.start
    if index < map.data.length then map.data[index]?.join else none
  else
    none

/-- The value at a key is changed through the pointer that `lookup` returns. -/
def lookup (map : DenseMap V) (key : Nat) (change : V → V) : DenseMap V :=
  if map.start ≤ key then
    { map with data := map.data.modify (sub key map.start) (Option.map change) }
  else
    map

/-- The loop of `merge`: the slots after it, and how many values were added. -/
def mergeSlots (f : V → V → V)
    : List (Option V) → List (Option V) → Option (List (Option V) × Nat)
  | mine, [] => some (mine, 0)
  | [], _ :: _ => none
  | slot :: mine, x :: theirs => do
      let (rest, added) ← mergeSlots f mine theirs
      match slot, x with
      | slot, none => return (slot :: rest, added)
      | some value, some other => return (some (f value other) :: rest, added)
      | none, some other => return (some other :: rest, added + 1)

/-- `merge` -/
def merge (map other : DenseMap V) (f : V → V → V) : Option (DenseMap V) :=
  if other.data = [] then
    some map
  else if map.data = [] then
    some other
  else do
    let map := map.reserve (min map.start other.start)
      (max (add map.start map.data.length) (add other.start other.data.length))
    let offset := sub other.start map.start
    let (slots, added) ← mergeSlots f (map.data.drop offset) other.data
    return { map with data := map.data.take offset ++ slots, count := add map.count added }

/-- The present values from a key on, as the iterator finds them. -/
def present : Nat → List (Option V) → List (Nat × V)
  | _, [] => []
  | key, none :: slots => present (key + 1) slots
  | key, some value :: slots => (key, value) :: present (key + 1) slots

/-- All pairs that an iteration yields. It starts with the first slot without a look at it, and an
empty one throws.
-/
def iterate (map : DenseMap V) : Option (List (Nat × V)) :=
  match map.data with
  | [] => some []
  | none :: _ => none
  | some value :: slots => some ((map.start, value) :: present (map.start + 1) slots)

/-- The value at a key. -/
def denote (map : DenseMap V) (key : Nat) : Option V :=
  if map.start ≤ key then map.data[key - map.start]?.join else none

/-- The number of values in the slots. -/
def occupied (data : List (Option V)) : Nat := data.countP Option.isSome

/-- Keys behind the last slot. -/
def stop (map : DenseMap V) : Nat := map.start + map.data.length

/-- The greatest word is no key, and the first and the last slot have values. -/
structure Shaped (map : DenseMap V) : Prop where
  bounded : map.stop < limit
  first : map.data ≠ [] → (map.denote map.start).isSome
  last : map.data ≠ [] → (map.denote (map.stop - 1)).isSome

def Counted (map : DenseMap V) : Prop := map.count = occupied map.data

theorem occupied_append (left right : List (Option V))
    : occupied (left ++ right) = occupied left + occupied right :=
  List.countP_append

theorem occupied_replicate (times : Nat)
    : occupied (List.replicate times (none : Option V)) = 0 := by
  simp [occupied]

theorem occupied_le (data : List (Option V)) : occupied data ≤ data.length :=
  List.countP_le_length

theorem add_eq {left right : Nat} (small : left + right < limit)
    : add left right = left + right :=
  Nat.mod_eq_of_lt small

theorem sub_eq {left right : Nat} (below : right ≤ left) (small : left < limit)
    : sub left right = left - right := by
  have split : left + (limit - right) = left - right + limit := by omega
  rw [sub, split, Nat.add_mod_right]
  exact Nat.mod_eq_of_lt (by omega)

theorem resize_eq {data : List (Option V)} {size : Nat} (fits : data.length ≤ size)
    : resize data size = data ++ List.replicate (size - data.length) none := by
  rw [resize, List.take_of_length_le fits]

/-- Empty slots in front of the map and behind it do not matter. -/
theorem denote_pad (start before after : Nat) (data : List (Option V)) {count : Nat}
    (fits : before ≤ start)
    : denote ⟨start - before, List.replicate before none ++ (data ++ List.replicate after none),
        count⟩ = denote ⟨start, data, count⟩ := by
  funext key
  rw [denote, denote]
  simp only
  by_cases low : start - before ≤ key
  · rw [if_pos low]
    by_cases inside : start ≤ key
    · have index : key - (start - before) - before = key - start := by omega
      rw [if_pos inside, List.getElem?_append_right (by rw [List.length_replicate]; omega),
        List.length_replicate, index, List.getElem?_append]
      split
      · rfl
      · next behind =>
          rw [List.getElem?_eq_none (Nat.le_of_not_lt behind), List.getElem?_replicate]
          split <;> rfl
    · rw [if_neg inside, List.getElem?_append_left (by rw [List.length_replicate]; omega),
        List.getElem?_replicate_of_lt (by omega)]
      rfl
  · rw [if_neg low, if_neg (by omega)]

/-- What `reserve` leaves behind. -/
structure Reserved (map : DenseMap V) (lower upto : Nat) (after : DenseMap V) : Prop where
  denotes : after.denote = map.denote
  count : after.count = map.count
  occupied : occupied after.data = occupied map.data
  starts : after.start = if map.data = [] then lower else min map.start lower
  stops : after.stop = if map.data = [] then upto else max map.stop upto

theorem denote_nil {start count : Nat}
    : denote (⟨start, [], count⟩ : DenseMap V) = fun _ => none := by
  funext key
  rw [denote]
  split <;> rfl

theorem Reserved.pad {map : DenseMap V} {lower upto : Nat} (before after : Nat)
    (fits : before ≤ map.start)
    (starts : map.start - before = if map.data = [] then lower else min map.start lower)
    (stops : map.stop + after = if map.data = [] then upto else max map.stop upto)
    : Reserved map lower upto
        ⟨map.start - before,
          List.replicate before none ++ (map.data ++ List.replicate after none), map.count⟩ where
  denotes := denote_pad map.start before after map.data fits
  count := rfl
  occupied := by
    rw [occupied_append, occupied_append, occupied_replicate, occupied_replicate, Nat.zero_add,
      Nat.add_zero]
  starts := starts
  stops := by
    rw [← stops, stop, stop]
    simp only [List.length_append, List.length_replicate]
    omega

theorem reserve_reserved {map : DenseMap V} {lower upto : Nat} (bounded : map.stop < limit)
    (ordered : lower < upto) (small : upto < limit)
    : Reserved map lower upto (map.reserve lower upto) := by
  have stops : map.stop = map.start + map.data.length := rfl
  rw [reserve, add_eq bounded, ← stops]
  split
  · next empty =>
      rw [sub_eq (Nat.le_of_lt ordered) small, resize_eq (Nat.zero_le _), List.nil_append]
      refine ⟨?_, rfl, ?_, ?_, ?_⟩
      · obtain ⟨start, data, count⟩ := map
        obtain rfl : data = [] := empty
        rw [denote_nil]
        exact (denote_pad lower 0 (upto - lower) [] (Nat.zero_le _)).trans denote_nil
      · rw [empty]
        exact occupied_replicate _
      · rw [if_pos empty]
      · rw [if_pos empty, stop]
        simp only [List.length_nil, List.length_replicate]
        omega
  · next notEmpty =>
      split
      · next before =>
          have ends : sub (max upto map.stop) lower = max upto map.stop - lower :=
            sub_eq (by omega) (by omega)
          have front : sub map.start lower = map.start - lower :=
            sub_eq (Nat.le_of_lt before) (by omega)
          have length : (List.replicate (map.start - lower) none ++ map.data).length
              = map.stop - lower := by
            rw [List.length_append, List.length_replicate]
            omega
          have starts : map.start - (map.start - lower) = lower := by omega
          have pad : Reserved map lower upto _ := Reserved.pad (map.start - lower)
            (max upto map.stop - map.stop) (Nat.sub_le _ _) (by rw [if_neg notEmpty]; omega)
            (by rw [if_neg notEmpty]; omega)
          have grown : max upto map.stop - lower - (map.stop - lower)
              = max upto map.stop - map.stop := by omega
          simp only [ends, front]
          rw [resize_eq (by rw [length]; omega), length, List.append_assoc, grown]
          rwa [starts] at pad
      · next notBefore =>
          have length : sub upto map.start = upto - map.start := sub_eq (by omega) small
          rw [length]
          split
          · next grows =>
              rw [resize_eq (Nat.le_of_lt grows)]
              exact Reserved.pad 0 _ (Nat.zero_le _) (by rw [if_neg notEmpty]; omega)
                (by rw [if_neg notEmpty]; omega)
          · next fits =>
              refine ⟨rfl, rfl, rfl, ?_, ?_⟩
              · rw [if_neg notEmpty]
                omega
              · rw [if_neg notEmpty]
                omega

theorem get_eq_denote {map : DenseMap V} {key : Nat} (small : key < limit)
    : map.get key = map.denote key := by
  rw [get, denote]
  split
  · next atLeast =>
      simp only [sub_eq atLeast small]
      split
      · rfl
      · next behind =>
          rw [List.getElem?_eq_none (Nat.le_of_not_lt behind)]
          rfl
  · rfl

/-- The slots have a value at the first and the last key if both denote one. -/
theorem Shaped.of_isSome {map : DenseMap V} (bounded : map.stop < limit)
    (first : (map.denote map.start).isSome) (last : (map.denote (map.stop - 1)).isSome)
    : Shaped map :=
  ⟨bounded, fun _ => first, fun _ => last⟩

theorem denote_set {start count index : Nat} {data : List (Option V)} {slot : Option V}
    (inside : index < data.length) {other : Nat}
    : denote ⟨start, data.set index slot, count⟩
      = Function.update (denote ⟨start, data, other⟩) (start + index) slot := by
  funext key
  rw [Function.update_apply, denote, denote]
  simp only
  by_cases atLeast : start ≤ key
  · rw [if_pos atLeast, if_pos atLeast, List.getElem?_set]
    by_cases here : index = key - start
    · rw [if_pos here, if_pos inside, if_pos (by omega)]
      rfl
    · rw [if_neg here, if_neg (by omega)]
  · rw [if_neg atLeast, if_neg atLeast, if_neg (by omega)]

theorem occupied_set {index : Nat} {data : List (Option V)} {slot : Option V} {value : V}
    (isSlot : data[index]? = some slot)
    : occupied (data.set index (some value)) + (if slot.isSome then 1 else 0)
      = occupied data + 1 := by
  obtain ⟨inside, rfl⟩ := List.getElem?_eq_some_iff.mp isSlot
  rw [occupied, List.countP_set inside, occupied, Option.isSome_some, if_pos rfl]
  split
  · next isSome =>
      have positive := List.countP_pos_iff.mpr ⟨_, List.getElem_mem inside, isSome⟩
      omega
  · omega

/-- The reserved keys have slots. -/
theorem Reserved.covers {map after : DenseMap V} {key : Nat}
    (isReserved : Reserved map key (key + 1) after)
    : after.start ≤ key ∧ key < after.stop := by
  rw [isReserved.starts, isReserved.stops]
  split <;> omega

/-- A map whose first and last key are the reserved ones or those of a map with the same values
elsewhere is shaped if it has values at the reserved ones.
-/
theorem Reserved.shaped {map reserved after : DenseMap V} {lower upto : Nat}
    (isReserved : Reserved map lower upto reserved) (shaped : Shaped map) (small : upto < limit)
    (starts : after.start = reserved.start) (length : after.data.length = reserved.data.length)
    (keeps : ∀ key, (map.denote key).isSome → (after.denote key).isSome)
    (first : (map.data = [] ∨ lower ≤ map.start) → (after.denote lower).isSome)
    (last : (map.data = [] ∨ map.stop ≤ upto) → (after.denote (upto - 1)).isSome)
    : Shaped after := by
  have stops : after.stop = reserved.stop := by rw [stop, stop, starts, length]
  have bounded := shaped.bounded
  refine .of_isSome ?_ ?_ ?_
  · rw [stops, isReserved.stops]
    split <;> omega
  · rw [starts, isReserved.starts]
    split
    · next empty => exact first (.inl empty)
    · next notEmpty =>
        rcases Nat.le_total lower map.start with before | behind
        · rw [Nat.min_eq_right before]
          exact first (.inr before)
        · rw [Nat.min_eq_left behind]
          exact keeps _ (shaped.first notEmpty)
  · rw [stops, isReserved.stops]
    split
    · next empty => exact last (.inl empty)
    · next notEmpty =>
        rcases Nat.le_total map.stop upto with before | behind
        · rw [Nat.max_eq_right before]
          exact last (.inr before)
        · rw [Nat.max_eq_left behind]
          exact keeps _ (shaped.last notEmpty)

/-- What an operation does to a map, as its values tell. -/
structure Becomes (map after : DenseMap V) (values : Nat → Option V) : Prop where
  shaped : Shaped after
  denotes : after.denote = values
  counted : Counted map → Counted after

theorem subscript_becomes [Inhabited V] {map : DenseMap V} (shaped : Shaped map) {key : Nat}
    (small : key + 1 < limit) (change : V → V)
    : ∃ after, map.subscript key change = some after
      ∧ Becomes map after
          (Function.update map.denote key (some (change ((map.denote key).getD default)))) := by
  have isReserved := reserve_reserved shaped.bounded (Nat.lt_succ_self key) small
  obtain ⟨atLeast, inside⟩ := isReserved.covers
  have index : sub key (map.reserve key (key + 1)).start
      = key - (map.reserve key (key + 1)).start :=
    sub_eq atLeast (by omega)
  rw [subscript, add_eq small]
  simp only [index]
  generalize map.reserve key (key + 1) = reserved at *
  have inData : key - reserved.start < reserved.data.length := by
    rw [stop] at inside
    omega
  obtain ⟨slot, isSlot⟩ : ∃ slot, reserved.data[key - reserved.start]? = some slot :=
    ⟨_, List.getElem?_eq_getElem inData⟩
  have isValue : slot = map.denote key := by
    rw [← isReserved.denotes, denote, if_pos atLeast, isSlot]
    rfl
  have at_ : reserved.start + (key - reserved.start) = key := by omega
  -- the slot gets a value, whatever the counter says
  have becomes (value : V) (count : Nat)
      (counted : Counted map →
        count = occupied (reserved.data.set (key - reserved.start) (some value)))
      : Becomes map ⟨reserved.start, reserved.data.set (key - reserved.start) (some value), count⟩
          (Function.update map.denote key (some value)) := by
    have denotes : denote ⟨reserved.start,
          reserved.data.set (key - reserved.start) (some value), count⟩
        = Function.update map.denote key (some value) := by
      rw [denote_set inData, at_, ← isReserved.denotes]
    have present : (Function.update map.denote key (some value) key).isSome := by
      rw [Function.update_self]
      rfl
    refine ⟨isReserved.shaped shaped small rfl (List.length_set ..) ?_ ?_ ?_, denotes, counted⟩
    · intro other isSome
      rw [denotes, Function.update_apply]
      split
      · rfl
      · exact isSome
    · rw [denotes]
      exact fun _ => present
    · rw [denotes]
      exact fun _ => present
  have sizes (value : V) := @occupied_set V _ _ _ value isSlot
  rw [← isValue, isSlot]
  cases slot with
  | none =>
      refine ⟨_, rfl, becomes _ _ fun counted => ?_⟩
      have size := sizes (change default)
      have most := occupied_le (reserved.data.set (key - reserved.start) (some (change default)))
      have bounded : reserved.stop < limit := by
        have before := shaped.bounded
        rw [isReserved.stops]
        split <;> omega
      rw [Option.isSome_none, if_neg Bool.false_ne_true, isReserved.occupied, ← counted] at size
      rw [List.length_set] at most
      rw [stop] at bounded
      rw [isReserved.count, add_eq (by omega)]
      exact size.symm
  | some value =>
      refine ⟨_, rfl, becomes _ _ fun counted => ?_⟩
      have size := sizes (change value)
      rw [Option.isSome_some, if_pos rfl, isReserved.occupied, ← counted] at size
      rw [isReserved.count]
      exact (Nat.succ.inj size).symm

theorem occupied_modify (data : List (Option V)) (index : Nat) (change : V → V)
    : occupied (data.modify index (Option.map change)) = occupied data := by
  induction data generalizing index with
  | nil => cases index <;> rfl
  | cons slot data ih =>
      cases index with
      | zero => cases slot <;> simp [occupied]
      | succ index =>
          rw [List.modify_succ_cons, occupied, List.countP_cons, ← occupied, ih, occupied,
            occupied, List.countP_cons]

theorem denote_modify {start count index : Nat} {data : List (Option V)} (change : V → V)
    : denote ⟨start, data.modify index (Option.map change), count⟩
      = Function.update (denote ⟨start, data, count⟩) (start + index)
          ((denote ⟨start, data, count⟩ (start + index)).map change) := by
  funext key
  rw [Function.update_apply]
  by_cases here : key = start + index
  · rw [if_pos here, here]
    simp only [denote, Nat.le_add_right, if_true, Nat.add_sub_cancel_left, List.getElem?_modify]
    cases data[index]? <;> rfl
  · rw [if_neg here]
    simp only [denote, List.getElem?_modify]
    by_cases atLeast : start ≤ key
    · have other : index ≠ key - start := by omega
      simp [atLeast, other]
    · rw [if_neg atLeast, if_neg atLeast]

theorem lookup_becomes {map : DenseMap V} (shaped : Shaped map) {key : Nat} (small : key < limit)
    (change : V → V)
    : Becomes map (map.lookup key change)
        (Function.update map.denote key ((map.denote key).map change)) := by
  rw [lookup]
  split
  · next atLeast =>
      rw [sub_eq atLeast small]
      have denotes : denote ⟨map.start,
            map.data.modify (key - map.start) (Option.map change), map.count⟩
          = Function.update map.denote key ((map.denote key).map change) := by
        rw [denote_modify, Nat.add_sub_cancel' atLeast]
      have present (other : Nat)
          : (Function.update map.denote key ((map.denote key).map change) other).isSome
            = (map.denote other).isSome := by
        rw [Function.update_apply]
        split
        · next same => rw [same, Option.isSome_map]
        · rfl
      have stops : stop ⟨map.start, map.data.modify (key - map.start) (Option.map change),
          map.count⟩ = map.stop := by rw [stop, stop, List.length_modify]
      have notEmpty (some : map.data.modify (key - map.start) (Option.map change) ≠ [])
          : map.data ≠ [] := by
        intro empty
        rw [empty, List.modify_nil] at some
        exact some rfl
      refine ⟨⟨?_, fun some => ?_, fun some => ?_⟩, denotes, fun counted => ?_⟩
      · rw [stops]
        exact shaped.bounded
      · rw [denotes, present]
        exact shaped.first (notEmpty some)
      · rw [denotes, present, stops]
        exact shaped.last (notEmpty some)
      · rw [Counted, occupied_modify]
        exact counted
  · next below =>
      have isNone : map.denote key = none := if_neg below
      rw [isNone, Option.map_none, ← isNone, Function.update_eq_self]
      exact ⟨shaped, rfl, id⟩

/-- What `merge` makes of two slots. -/
def combine (f : V → V → V) : Option V → Option V → Option V
  | some value, some other => some (f value other)
  | none, other => other
  | slot, none => slot

theorem mergeSlots_spec (f : V → V → V) {mine theirs : List (Option V)}
    (fits : theirs.length ≤ mine.length)
    : ∃ slots added, mergeSlots f mine theirs = some (slots, added)
      ∧ slots.length = mine.length
      ∧ occupied slots = occupied mine + added
      ∧ ∀ index : Nat, slots[index]?.join = combine f mine[index]?.join theirs[index]?.join := by
  induction mine generalizing theirs with
  | nil =>
      cases theirs with
      | nil => exact ⟨[], 0, rfl, rfl, rfl, fun _ => rfl⟩
      | cons _ _ => cases fits
  | cons slot mine ih =>
      cases theirs with
      | nil =>
          refine ⟨slot :: mine, 0, rfl, rfl, rfl, fun index => ?_⟩
          rw [List.getElem?_nil]
          cases (slot :: mine)[index]?.join <;> rfl
      | cons x theirs =>
          obtain ⟨slots, added, merged, length, size, values⟩ := ih (Nat.le_of_succ_le_succ fits)
          have step (result : Option V) (more : Nat) (isResult : result = combine f slot x)
              (counts : (if result.isSome then 1 else 0) = (if slot.isSome then 1 else 0) + more)
              : (result :: slots).length = (slot :: mine).length
                ∧ occupied (result :: slots) = occupied (slot :: mine) + (added + more)
                ∧ ∀ index : Nat, (result :: slots)[index]?.join
                  = combine f (slot :: mine)[index]?.join (x :: theirs)[index]?.join := by
            refine ⟨congrArg (· + 1) length, ?_, fun index => ?_⟩
            · rw [occupied, List.countP_cons, ← occupied, size, counts, occupied, occupied,
                List.countP_cons]
              omega
            · cases index with
              | zero => exact isResult
              | succ index => exact values index
          rw [mergeSlots, merged]
          cases x with
          | none => exact ⟨_, _, rfl, step slot 0 (by cases slot <;> rfl) rfl⟩
          | some other =>
              cases slot with
              | none => exact ⟨_, _, rfl, step (some other) 1 rfl rfl⟩
              | some value => exact ⟨_, _, rfl, step (some (f value other)) 0 rfl rfl⟩

theorem combine_none (f : V → V → V) (slot : Option V) : combine f slot none = slot := by
  cases slot <;> rfl

theorem none_combine (f : V → V → V) (slot : Option V) : combine f none slot = slot := by
  cases slot <;> rfl

theorem isSome_combine (f : V → V → V) (one other : Option V)
    : (combine f one other).isSome = (one.isSome || other.isSome) := by
  cases one <;> cases other <;> rfl

theorem denote_of_nil {map : DenseMap V} (empty : map.data = []) (key : Nat)
    : map.denote key = none := by
  rw [denote, empty]
  split <;> rfl

/-- The values after a merge from an offset on. -/
theorem denote_merged {start count offset : Nat} {mine slots theirs : List (Option V)}
    {f : V → V → V} (inside : offset ≤ mine.length)
    (merged : ∀ index : Nat,
      slots[index]?.join = combine f (mine.drop offset)[index]?.join theirs[index]?.join)
    (key : Nat)
    : denote ⟨start, mine.take offset ++ slots, count⟩ key
      = combine f (denote ⟨start, mine, count⟩ key)
          (denote ⟨start + offset, theirs, count⟩ key) := by
  simp only [denote]
  have length : (mine.take offset).length = offset := by
    rw [List.length_take]
    omega
  by_cases atLeast : start ≤ key
  · rw [if_pos atLeast, if_pos atLeast, List.getElem?_append, length]
    by_cases before : key - start < offset
    · rw [if_pos before, if_neg (by omega), combine_none, List.getElem?_take, if_pos before]
    · have index : key - start - offset = key - (start + offset) := by omega
      have whole : offset + (key - (start + offset)) = key - start := by omega
      rw [if_neg before, if_pos (by omega), index, merged, List.getElem?_drop, whole]
  · rw [if_neg atLeast, if_neg atLeast, if_neg (by omega)]
    rfl

/-- The slots that the loop of `merge` leaves behind a reserved front. -/
theorem reserved_merges {map other reserved : DenseMap V} {f : V → V → V}
    (isReserved
      : Reserved map (min map.start other.start) (max map.stop other.stop) reserved)
    (mapSome : map.data ≠ [])
    : ∃ slots added,
        mergeSlots f (reserved.data.drop (other.start - reserved.start)) other.data
          = some (slots, added)
        ∧ (reserved.data.take (other.start - reserved.start) ++ slots).length
          = reserved.data.length
        ∧ occupied (reserved.data.take (other.start - reserved.start) ++ slots)
          = occupied map.data + added
        ∧ ∀ count, denote ⟨reserved.start,
            reserved.data.take (other.start - reserved.start) ++ slots, count⟩
          = fun key => combine f (map.denote key) (other.denote key) := by
  have starts := isReserved.starts
  have ends := isReserved.stops
  rw [if_neg mapSome] at starts ends
  have reservedStops : reserved.start + reserved.data.length = reserved.stop := rfl
  have otherStops : other.start + other.data.length = other.stop := rfl
  have fits : other.data.length
      ≤ (reserved.data.drop (other.start - reserved.start)).length := by
    rw [List.length_drop]
    omega
  obtain ⟨slots, added, merged, slotsLength, size, values⟩ := mergeSlots_spec f fits
  refine ⟨slots, added, merged, ?_, ?_, fun count => funext fun key => ?_⟩
  · rw [List.length_append, slotsLength, List.length_take, List.length_drop]
    omega
  · rw [occupied_append, size, ← Nat.add_assoc, ← occupied_append, List.take_append_drop,
      isReserved.occupied]
  · have whole : reserved.start + (other.start - reserved.start) = other.start := by omega
    rw [denote_merged (by omega) values, whole, ← isReserved.denotes]
    rfl

theorem merge_becomes {map other : DenseMap V} (shaped : Shaped map) (otherShaped : Shaped other)
    (f : V → V → V)
    : ∃ after, map.merge other f = some after
      ∧ Shaped after
      ∧ (after.denote = fun key => combine f (map.denote key) (other.denote key))
      ∧ (Counted map → Counted other → Counted after) := by
  rw [merge]
  split
  · next empty =>
      refine ⟨map, rfl, shaped, ?_, fun counted _ => counted⟩
      funext key
      rw [denote_of_nil empty, combine_none]
  · next otherSome =>
      split
      · next empty =>
          refine ⟨other, rfl, otherShaped, ?_, fun _ counted => counted⟩
          funext key
          rw [denote_of_nil empty, none_combine]
      · next mapSome =>
          have bounded := shaped.bounded
          have otherBounded := otherShaped.bounded
          have length := List.length_pos_iff.mpr otherSome
          have stops : map.start + map.data.length = map.stop := rfl
          have otherStops : other.start + other.data.length = other.stop := rfl
          rw [add_eq bounded, add_eq otherBounded, stops, otherStops]
          have small : max map.stop other.stop < limit := Nat.max_lt.mpr ⟨bounded, otherBounded⟩
          have ordered : min map.start other.start < max map.stop other.stop := by omega
          have isReserved := reserve_reserved bounded ordered small
          simp only
          generalize map.reserve (min map.start other.start) (max map.stop other.stop) = reserved
            at isReserved ⊢
          have starts := isReserved.starts
          rw [if_neg mapSome] at starts
          have offset : sub other.start reserved.start = other.start - reserved.start :=
            sub_eq (by omega) (by omega)
          obtain ⟨slots, added, isMerged, total, size, denotes⟩ :=
            reserved_merges (f := f) isReserved mapSome
          rw [offset, isMerged]
          refine ⟨_, rfl, ?_, denotes _, fun counted _ => ?_⟩
          · -- a key is present if it is in one of the maps
            refine isReserved.shaped shaped small rfl total ?_ ?_ ?_
            · intro key isSome
              rw [denotes, isSome_combine, isSome, Bool.true_or]
            · intro _
              rw [denotes, isSome_combine, Bool.or_eq_true]
              rcases Nat.le_total map.start other.start with before | behind
              · rw [Nat.min_eq_left before]
                exact .inl (shaped.first mapSome)
              · rw [Nat.min_eq_right behind]
                exact .inr (otherShaped.first otherSome)
            · intro _
              rw [denotes, isSome_combine, Bool.or_eq_true]
              rcases Nat.le_total map.stop other.stop with before | behind
              · rw [Nat.max_eq_right before]
                exact .inr (otherShaped.last otherSome)
              · rw [Nat.max_eq_left behind]
                exact .inl (shaped.last mapSome)
          · have most := occupied_le (reserved.data.take (other.start - reserved.start) ++ slots)
            have ends := isReserved.stops
            have reservedStops : reserved.start + reserved.data.length = reserved.stop := rfl
            rw [if_neg mapSome] at ends
            rw [total, size, ← counted] at most
            rw [Counted, isReserved.count, add_eq (by omega), size, ← counted]

theorem length_present (key : Nat) (slots : List (Option V))
    : (present key slots).length = occupied slots := by
  induction slots generalizing key with
  | nil => rfl
  | cons slot slots ih =>
      cases slot with
      | none => rw [present, ih, occupied, occupied, List.countP_cons_of_neg (by simp)]
      | some value =>
          rw [present, List.length_cons, ih, occupied, occupied, List.countP_cons_of_pos rfl]

theorem mem_present_iff {start key : Nat} {value : V} {slots : List (Option V)}
    : (key, value) ∈ present start slots
      ↔ start ≤ key ∧ slots[key - start]? = some (some value) := by
  induction slots generalizing start with
  | nil => simp [present]
  | cons slot slots ih =>
      have later (above : start + 1 ≤ key)
          : (slot :: slots)[key - start]? = slots[key - (start + 1)]? := by
        have index : key - start = key - (start + 1) + 1 := by omega
        rw [index, List.getElem?_cons_succ]
      have rest : (key, value) ∈ present (start + 1) slots
          ↔ start + 1 ≤ key ∧ (slot :: slots)[key - start]? = some (some value) := by
        rw [ih]
        exact and_congr_right fun above => by rw [later above]
      by_cases here : key = start
      · subst here
        cases slot with
        | none => rw [present, rest]; simp
        | some first =>
            rw [present, List.mem_cons, rest]
            simp [eq_comm]
      · have split : start ≤ key ↔ start + 1 ≤ key := by omega
        cases slot with
        | none => rw [present, rest, split]
        | some first =>
            rw [present, List.mem_cons, rest, split]
            simp [here]

theorem present_ascending (key : Nat) (slots : List (Option V))
    : (present key slots).Pairwise fun left right => left.1 < right.1 := by
  induction slots generalizing key with
  | nil => exact .nil
  | cons slot slots ih =>
      cases slot with
      | none => exact ih (key + 1)
      | some value =>
          refine List.pairwise_cons.mpr ⟨fun later isLater => ?_, ih (key + 1)⟩
          exact (mem_present_iff.mp isLater).1

theorem denote_eq_some_iff {map : DenseMap V} {key : Nat} {value : V}
    : map.denote key = some value
      ↔ map.start ≤ key ∧ map.data[key - map.start]? = some (some value) := by
  rw [denote]
  split
  · next atLeast => rw [Option.join_eq_some_iff, and_iff_right atLeast]
  · next below => simp [below]

theorem iterate_eq {map : DenseMap V} (shaped : Shaped map)
    : map.iterate = some (present map.start map.data) := by
  obtain ⟨start, data, count⟩ := map
  cases data with
  | nil => rfl
  | cons slot slots =>
      have first := shaped.first (List.cons_ne_nil _ _)
      cases slot with
      | none => simp [denote] at first
      | some value => rfl

/-- A map is the finite map that its operations describe, its size is the number of keys, its
first and last slot are occupied, and an iteration yields each key once, in ascending order.
-/
structure Refines (map : DenseMap V) (values : Nat → Option V) : Prop where
  get : ∀ key < limit, map.get key = values key
  ends : map.data ≠ [] → (map.data.head?.join).isSome ∧ (map.data.getLast?.join).isSome
  iterates : ∃ pairs, map.iterate = some pairs
    ∧ map.size = pairs.length
    ∧ (pairs.Pairwise fun left right => left.1 < right.1)
    ∧ ∀ key value, (key, value) ∈ pairs ↔ values key = some value

theorem refines {map : DenseMap V} (shaped : Shaped map) (counted : Counted map)
    : Refines map map.denote where
  get key small := get_eq_denote small
  ends notEmpty := by
    have first := shaped.first notEmpty
    have last := shaped.last notEmpty
    have positive := List.length_pos_iff.mpr notEmpty
    have index : map.stop - 1 - map.start = map.data.length - 1 := by
      rw [stop]
      omega
    rw [denote, if_pos (Nat.le_refl _), Nat.sub_self] at first
    rw [denote, if_pos (by rw [stop]; omega), index] at last
    rw [List.head?_eq_getElem?, List.getLast?_eq_getElem?]
    exact ⟨first, last⟩
  iterates :=
    ⟨_, iterate_eq shaped, by rw [size, length_present, counted], present_ascending _ _,
      fun key value => by rw [mem_present_iff, denote_eq_some_iff]⟩

/-- The maps of a program by their names, and what each one stands for: nothing is said about one
whose contents were moved.
-/
structure Maps (V : Type) where
  maps : Nat → DenseMap V
  stands : Nat → Option (Nat → Option V)

inductive Event (V : Type) where
  | subscript (name key : Nat) (change : V → V)
  | lookup (name key : Nat) (change : V → V)
  | merge (name other : Nat) (f : V → V → V)
  | mergeMoved (name other : Nat) (f : V → V → V)
  | swap (one other : Nat)
  | copy (name other : Nat)
  | move (name other : Nat)

def Maps.set (state : Maps V) (name : Nat) (map : DenseMap V) (values : Option (Nat → Option V))
    : Maps V :=
  ⟨Function.update state.maps name map, Function.update state.stands name values⟩

theorem Maps.maps_set (state : Maps V) (name : Nat) (map : DenseMap V)
    (values : Option (Nat → Option V)) (other : Nat)
    : (state.set name map values).maps other = if other = name then map else state.maps other :=
  Function.update_apply ..

theorem Maps.stands_set (state : Maps V) (name : Nat) (map : DenseMap V)
    (values : Option (Nat → Option V)) (other : Nat)
    : (state.set name map values).stands other
      = if other = name then values else state.stands other :=
  Function.update_apply ..

/-- What a merge of two maps stands for. -/
def merged (f : V → V → V) (one other : Option (Nat → Option V)) : Option (Nat → Option V) := do
  let values ← one
  let others ← other
  return fun key => combine f (values key) (others key)

def step [Inhabited V] (state : Maps V) : Event V → Option (Maps V)
  | .subscript name key change => do
      let map ← (state.maps name).subscript key change
      return state.set name map ((state.stands name).map fun values =>
        Function.update values key (some (change ((values key).getD default))))
  | .lookup name key change =>
      some (state.set name ((state.maps name).lookup key change)
        ((state.stands name).map fun values =>
          Function.update values key ((values key).map change)))
  | .merge name other f => do
      let map ← (state.maps name).merge (state.maps other) f
      return state.set name map (merged f (state.stands name) (state.stands other))
  | .mergeMoved name other f => do
      let left := state.set other (state.maps other).movedFrom none
      let map ← (left.maps name).merge (state.maps other) f
      return left.set name map (merged f (left.stands name) (state.stands other))
  | .swap one other =>
      let swapped := (state.maps one).swap (state.maps other)
      some ((state.set one swapped.1 (state.stands other)).set other swapped.2 (state.stands one))
  | .copy name other => some (state.set name (state.maps other) (state.stands other))
  | .move name other =>
      some ((state.set name (state.maps other) (state.stands other)).set other
        (state.maps other).movedFrom none)

/-- Keys are words other than the greatest one, and only maps of one size are swapped. -/
def Sound (state : Maps V) : Event V → Prop
  | .subscript _ key _ => key + 1 < limit
  | .lookup _ key _ => key < limit
  | .swap one other => (state.maps one).size = (state.maps other).size
  | _ => True

/-- All maps are empty, wherever they start. -/
def Starts (state : Maps V) : Prop :=
  ∀ name, (state.maps name).data = [] ∧ (state.maps name).count = 0
    ∧ (state.maps name).start < limit ∧ state.stands name = some fun _ => none

/-- All maps are shaped, and those that stand for something have its values and their number. -/
structure Inv (state : Maps V) : Prop where
  shaped : ∀ name, Shaped (state.maps name)
  stands : ∀ name values, state.stands name = some values →
    (state.maps name).denote = values ∧ Counted (state.maps name)

theorem Inv.starts {state : Maps V} (starts : Starts state) : Inv state where
  shaped name := by
    obtain ⟨empty, _, small, _⟩ := starts name
    refine ⟨?_, fun some => absurd empty some, fun some => absurd empty some⟩
    rw [stop, empty, List.length_nil, Nat.add_zero]
    exact small
  stands name values isValues := by
    obtain ⟨empty, none, _, nothing⟩ := starts name
    rw [nothing] at isValues
    obtain rfl := Option.some.inj isValues
    refine ⟨funext (denote_of_nil empty), ?_⟩
    rw [Counted, none, empty]
    rfl

theorem Inv.set {state : Maps V} (inv : Inv state) (name : Nat) {map : DenseMap V}
    {values : Option (Nat → Option V)} (shaped : Shaped map)
    (stands : ∀ isValues, values = some isValues → map.denote = isValues ∧ Counted map)
    : Inv (state.set name map values) where
  shaped other := by
    rw [Maps.maps_set]
    split
    · exact shaped
    · exact inv.shaped other
  stands other isValues := by
    rw [Maps.maps_set, Maps.stands_set]
    split
    · exact stands isValues
    · exact inv.stands other isValues

theorem shaped_movedFrom {map : DenseMap V} (shaped : Shaped map) : Shaped map.movedFrom where
  bounded := by
    have bounded := shaped.bounded
    rw [stop] at bounded ⊢
    exact Nat.lt_of_le_of_lt (Nat.le_add_right _ _) bounded
  first some := absurd rfl some
  last some := absurd rfl some

theorem Inv.moved {state : Maps V} (inv : Inv state) (name : Nat) {map : DenseMap V}
    (shaped : Shaped map)
    : Inv (state.set name map.movedFrom none) :=
  inv.set name (shaped_movedFrom shaped) fun _ isNone => by cases isNone

/-- An operation on one map changes what it stands for by its values alone. -/
theorem Inv.becomes {state : Maps V} (inv : Inv state) {name : Nat} {map : DenseMap V}
    {change : (Nat → Option V) → Nat → Option V}
    (becomes : Becomes (state.maps name) map (change (state.maps name).denote))
    : Inv (state.set name map ((state.stands name).map change)) := by
  refine inv.set name becomes.shaped fun isValues isMapped => ?_
  obtain ⟨values, isStood, rfl⟩ := Option.map_eq_some_iff.mp isMapped
  obtain ⟨denotes, counted⟩ := inv.stands name values isStood
  rw [denotes] at becomes
  exact ⟨becomes.denotes, becomes.counted counted⟩

theorem Inv.merge {state : Maps V} (inv : Inv state) (name : Nat) {other : DenseMap V}
    {stood : Option (Nat → Option V)} (shaped : Shaped other)
    (stands : ∀ values, stood = some values → other.denote = values ∧ Counted other)
    (f : V → V → V)
    : ∃ map, (state.maps name).merge other f = some map
      ∧ Inv (state.set name map (merged f (state.stands name) stood)) := by
  obtain ⟨after, isMerged, afterShaped, denotes, counted⟩ :=
    merge_becomes (inv.shaped name) shaped f
  refine ⟨after, isMerged, inv.set name afterShaped fun isValues isMerged => ?_⟩
  obtain ⟨values, isStood, rest⟩ := Option.bind_eq_some_iff.mp isMerged
  obtain ⟨others, isOther, isResult⟩ := Option.bind_eq_some_iff.mp rest
  obtain rfl := Option.some.inj isResult
  obtain ⟨mine, mineCounted⟩ := inv.stands name values isStood
  obtain ⟨theirs, theirsCounted⟩ := stands others isOther
  rw [mine, theirs] at denotes
  exact ⟨denotes, counted mineCounted theirsCounted⟩

/-- Maps of one size are swapped with what they stand for. -/
theorem Inv.swap {state : Maps V} (inv : Inv state) {one other : Nat}
    (same : (state.maps one).size = (state.maps other).size)
    : Inv ((state.set one ((state.maps one).swap (state.maps other)).1 (state.stands other)).set
        other ((state.maps one).swap (state.maps other)).2 (state.stands one)) := by
  have first : Inv (state.set one ((state.maps one).swap (state.maps other)).1
      (state.stands other)) := by
    have shaped := inv.shaped other
    refine inv.set one ⟨shaped.bounded, shaped.first, shaped.last⟩ fun values isStood => ?_
    obtain ⟨denotes, counted⟩ := inv.stands other values isStood
    exact ⟨denotes, same.trans counted⟩
  refine first.set other ?_ fun values isStood => ?_
  · have shaped := inv.shaped one
    exact ⟨shaped.bounded, shaped.first, shaped.last⟩
  · obtain ⟨denotes, counted⟩ := inv.stands one values isStood
    exact ⟨denotes, same.symm.trans counted⟩

/-- Every operation is defined and keeps the maps what they stand for. -/
theorem Inv.step [Inhabited V] {state : Maps V} (inv : Inv state) {event : Event V}
    (sound : Sound state event)
    : ∃ after, step state event = some after ∧ Inv after := by
  cases event with
  | subscript name key change =>
      obtain ⟨map, isMap, becomes⟩ := subscript_becomes (inv.shaped name) sound change
      rw [DenseMap.step, isMap]
      let changed (values : Nat → Option V) :=
        Function.update values key (some (change ((values key).getD default)))
      have next : Inv (state.set name map ((state.stands name).map changed)) :=
        inv.becomes becomes
      exact ⟨_, rfl, next⟩
  | lookup name key change =>
      let changed (values : Nat → Option V) :=
        Function.update values key ((values key).map change)
      have next : Inv (state.set name ((state.maps name).lookup key change)
          ((state.stands name).map changed)) :=
        inv.becomes (lookup_becomes (inv.shaped name) sound change)
      exact ⟨_, rfl, next⟩
  | merge name other f =>
      obtain ⟨map, isMap, next⟩ := inv.merge name (inv.shaped other) (inv.stands other) f
      rw [DenseMap.step, isMap]
      exact ⟨_, rfl, next⟩
  | mergeMoved name other f =>
      have left := inv.moved other (inv.shaped other)
      obtain ⟨map, isMap, next⟩ := left.merge name (inv.shaped other) (inv.stands other) f
      rw [DenseMap.step]
      simp only [isMap]
      exact ⟨_, rfl, next⟩
  | swap one other => exact ⟨_, rfl, inv.swap sound⟩
  | copy name other =>
      exact ⟨_, rfl, inv.set name (inv.shaped other) (inv.stands other)⟩
  | move name other =>
      exact ⟨_, rfl, (inv.set name (inv.shaped other) (inv.stands other)).moved other
        (inv.shaped other)⟩

/-- In every run that swaps only maps of one size, and does not use the greatest word as a key,
each operation is defined and each map refines the finite map that the operations describe.
-/
theorem denseMap_refines [Inhabited V] {state : Maps V}
    (run : Machine.Run step Sound Starts state)
    : (∀ name values, state.stands name = some values → Refines (state.maps name) values)
      ∧ ∀ event, Sound state event → (step state event).isSome := by
  have inv : Inv state := by
    refine run.invariant (fun _ starts => .starts starts) ?_
    intro before event after inv sound next
    obtain ⟨_, isNext, inv⟩ := inv.step sound
    exact Option.some.inj (next.symm.trans isNext) ▸ inv
  constructor
  · intro name values isStood
    obtain ⟨denotes, counted⟩ := inv.stands name values isStood
    exact denotes ▸ refines (inv.shaped name) counted
  · intro event sound
    obtain ⟨_, isNext, _⟩ := inv.step sound
    rw [isNext]
    rfl

def noMaps : Maps Nat := ⟨fun _ => ⟨0, [], 0⟩, fun _ => some fun _ => none⟩

theorem starts_noMaps : Starts noMaps := fun _ => ⟨rfl, rfl, Nat.two_pow_pos 64, rfl⟩

/-- Two maps get a key each and are swapped. -/
def swapOfOneSize : List (Event Nat) :=
  [.subscript 0 7 fun _ => 70, .subscript 1 5 fun _ => 50, .swap 0 1]

theorem denseMap_refines_swapOfOneSize
    : ∃ state values, Machine.runEvents step noMaps swapOfOneSize = some state
      ∧ state.stands 0 = some values
      ∧ values 5 = some 50
      ∧ Refines (state.maps 0) values := by
  have sound : Machine.SoundEvents step Sound noMaps swapOfOneSize :=
    ⟨(by decide : 7 + 1 < limit), (by decide : 5 + 1 < limit), rfl, trivial⟩
  refine ⟨_, _, rfl, rfl, rfl, ?_⟩
  have run := (Machine.Run.start starts_noMaps).of_runEvents sound rfl
  exact (denseMap_refines run).1 0 _ rfl

/-- The size of a map stays behind when it is swapped with an empty one. -/
theorem swap_loses_size
    : ∃ state values,
        Machine.runEvents step noMaps [.subscript 0 7 fun _ => 70, .swap 0 1] = some state
        ∧ state.stands 1 = some values
        ∧ ¬ Refines (state.maps 1) values := by
  refine ⟨_, _, rfl, rfl, fun refines => ?_⟩
  obtain ⟨pairs, iterated, size, _⟩ := refines.iterates
  cases iterated
  cases size

end DenseMap

end Glean.RTS
