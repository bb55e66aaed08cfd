import Mathlib.Order.Basic
import Mathlib.Data.List.Basic
import Mathlib.Tactic.Common
import Mathlib.Order.Lattice

/-! Finite maps kept as key-sorted entry lists, with point lookup, ordered iteration and
the predecessor search of an ordered key-value store.
-/

/-- Lists in strictly ascending order of a key are equal once they have the same members. -/
theorem eq_of_ascending {Item K : Type} [LinearOrder K] {key : Item → K} {left right : List Item}
    (leftAscending : left.Pairwise (fun item other => key item < key other))
    (rightAscending : right.Pairwise (fun item other => key item < key other))
    (members : ∀ item, item ∈ left ↔ item ∈ right)
    : left = right := by
  have nodup {items : List Item}
      (ascending : items.Pairwise (fun item other => key item < key other)) : items.Nodup :=
    ascending.imp (fun less eq => absurd (congrArg key eq) (ne_of_lt less))
  have perm :=
    (List.perm_ext_iff_of_nodup (nodup leftAscending) (nodup rightAscending)).mpr members
  exact perm.eq_of_pairwise (fun _ _ _ _ less greater => absurd (less.trans greater) (lt_irrefl _))
    leftAscending rightAscending

/-- A relation that holds along an ascending list holds of any two members in key order. -/
theorem rel_of_ascending {Item K : Type} [LinearOrder K] {key : Item → K}
    {rel : Item → Item → Prop} {items : List Item}
    (ascending : items.Pairwise (fun item other => key item < key other))
    (related : items.Pairwise rel) {early late : Item} (earlyMember : early ∈ items)
    (lateMember : late ∈ items) (less : key early < key late)
    : rel early late := by
  induction items with
  | nil => simp at earlyMember
  | cons item rest ih =>
      obtain ⟨above, restAscending⟩ := List.pairwise_cons.mp ascending
      obtain ⟨head, restRelated⟩ := List.pairwise_cons.mp related
      rcases List.mem_cons.mp earlyMember with rfl | earlyRest
      · rcases List.mem_cons.mp lateMember with rfl | lateRest
        · exact (lt_irrefl _ less).elim
        · exact head late lateRest
      · rcases List.mem_cons.mp lateMember with rfl | lateRest
        · exact (lt_irrefl _ (less.trans (above early earlyRest))).elim
        · exact ih restAscending restRelated earlyRest lateRest

/-- A search finds the only item that passes the test. -/
theorem find?_eq_some_of_unique {Item : Type} {test : Item → Bool} {items : List Item}
    {item : Item} (member : item ∈ items) (passes : test item = true)
    (unique : ∀ other ∈ items, test other = true → other = item)
    : items.find? test = some item := by
  cases found : items.find? test with
  | none => exact (List.find?_eq_none.mp found item member passes).elim
  | some other =>
      rw [unique other (List.mem_of_find?_eq_some found) (List.find?_some found)]

/-- Stopping at the first failing item and skipping all failing items agree exactly when no
passing item follows a failing one.
-/
theorem takeWhile_eq_filter_iff {Item : Type} {test : Item → Bool} {items : List Item}
    : items.takeWhile test = items.filter test
      ↔ items.Pairwise (fun item later => test later = true → test item = true) := by
  induction items with
  | nil => simp
  | cons item rest ih =>
      rw [List.pairwise_cons]
      by_cases passes : test item = true
      · simp [passes, ih]
      · simp only [List.takeWhile_cons_of_neg passes, List.filter_cons_of_neg passes]
        constructor
        · intro nothing
          have fails := List.filter_eq_nil_iff.mp nothing.symm
          refine ⟨fun later member ok => (fails later member ok).elim, ?_⟩
          exact List.Pairwise.imp_of_mem (fun _ member _ ok => (fails _ member ok).elim)
            (List.pairwise_of_forall (R := fun _ _ => True) (fun _ _ => trivial))
        · intro ordered
          refine (List.filter_eq_nil_iff.mpr ?_).symm
          exact fun later member ok => passes (ordered.1 later member ok)

theorem takeWhile_sublist_filter {Item : Type} (test : Item → Bool) (items : List Item)
    : (items.takeWhile test).Sublist (items.filter test) := by
  induction items with
  | nil => exact .slnil
  | cons item rest ih =>
      by_cases passes : test item = true
      · simpa [passes] using ih
      · simp [passes]

/-- Dropping the leading items that pass a test drops all of them, when no passing item
follows a failing one.
-/
theorem dropWhile_eq_filter_not {Item : Type} {test : Item → Bool} {items : List Item}
    (ordered : items.Pairwise (fun item later => test later = true → test item = true))
    : items.dropWhile test = items.filter (fun item => !test item) := by
  induction items with
  | nil => rfl
  | cons item rest ih =>
      obtain ⟨head, tail⟩ := List.pairwise_cons.mp ordered
      by_cases passes : test item = true
      · simp [passes, ih tail]
      · have fails : ∀ later ∈ rest, (!test later) = true := by
          intro later member
          simpa using fun ok => passes (head later member ok)
        rw [List.dropWhile_cons_of_neg passes, List.filter_cons_of_pos (by simpa using passes),
          List.filter_eq_self.mpr fails]

/-- The items between two positions, given by tests that no later item passes after an
earlier one has failed.
-/
theorem takeWhile_dropWhile_eq_filter {Item : Type} {skip keep : Item → Bool} {items : List Item}
    (skipOrdered : items.Pairwise (fun item later => skip later = true → skip item = true))
    (keepOrdered : items.Pairwise (fun item later => keep later = true → keep item = true))
    : (items.dropWhile skip).takeWhile keep
      = items.filter (fun item => !skip item && keep item) := by
  rw [dropWhile_eq_filter_not skipOrdered, takeWhile_eq_filter_iff.mpr (keepOrdered.filter _),
    List.filter_filter]
  exact List.filter_congr (fun item _ => Bool.and_comm _ _)

/-- A finite map whose entries are stored in strictly ascending key order. -/
structure SortedMap (K V : Type) [LinearOrder K] where
  entries : List (K × V)
  sorted : entries.Pairwise (fun left right => left.1 < right.1)

namespace SortedMap

variable {K V : Type} [LinearOrder K]

/-- Insert or overwrite one key in an ascending entry list. -/
def insertEntries (key : K) (value : V) : List (K × V) → List (K × V)
  | [] => [(key, value)]
  | (k, v) :: rest =>
      if key < k then
        (key, value) :: (k, v) :: rest
      else if key = k then
        (key, value) :: rest
      else
        (k, v) :: insertEntries key value rest

/-- Membership after an insertion: the new entry, or an old one under another key. -/
theorem mem_insertEntries {key : K} {value : V} {entries : List (K × V)}
    (sorted : entries.Pairwise (fun left right => left.1 < right.1)) {entry : K × V}
    : entry ∈ insertEntries key value entries
      ↔ entry = (key, value) ∨ (entry.1 ≠ key ∧ entry ∈ entries) := by
  induction entries with
  | nil => simp [insertEntries]
  | cons head rest ih =>
      obtain ⟨k, v⟩ := head
      obtain ⟨below, restSorted⟩ := List.pairwise_cons.mp sorted
      have later {other : K × V} (member : other ∈ rest) : k < other.1 := below other member
      unfold insertEntries
      split_ifs with less same
      · simp only [List.mem_cons]
        constructor
        · rintro (rfl | rfl | member)
          · exact Or.inl rfl
          · exact Or.inr ⟨(ne_of_gt less), Or.inl rfl⟩
          · exact Or.inr ⟨ne_of_gt (less.trans (later member)), Or.inr member⟩
        · rintro (rfl | ⟨-, old⟩)
          · exact Or.inl rfl
          · exact Or.inr old
      · subst same
        simp only [List.mem_cons]
        constructor
        · rintro (rfl | member)
          · exact Or.inl rfl
          · exact Or.inr ⟨ne_of_gt (later member), Or.inr member⟩
        · rintro (rfl | ⟨other, rfl | member⟩)
          · exact Or.inl rfl
          · exact (other rfl).elim
          · exact Or.inr member
      · simp only [List.mem_cons, ih restSorted]
        constructor
        · rintro (rfl | rfl | ⟨other, member⟩)
          · exact Or.inr ⟨fun eq => same eq.symm, Or.inl rfl⟩
          · exact Or.inl rfl
          · exact Or.inr ⟨other, Or.inr member⟩
        · rintro (rfl | ⟨other, rfl | member⟩)
          · exact Or.inr (Or.inl rfl)
          · exact Or.inl rfl
          · exact Or.inr (Or.inr ⟨other, member⟩)

/-- Insertion keeps the entry list ascending, by induction along the search path. -/
theorem insertEntries_sorted {key : K} {value : V} {entries : List (K × V)}
    (sorted : entries.Pairwise (fun left right => left.1 < right.1))
    : (insertEntries key value entries).Pairwise (fun left right => left.1 < right.1) := by
  induction entries with
  | nil => simp [insertEntries]
  | cons head rest ih =>
      obtain ⟨k, v⟩ := head
      obtain ⟨below, restSorted⟩ := List.pairwise_cons.mp sorted
      unfold insertEntries
      split_ifs with less same
      · refine List.pairwise_cons.mpr ⟨?_, sorted⟩
        intro other member
        rcases List.mem_cons.mp member with rfl | member
        · exact less
        · exact less.trans (below other member)
      · subst same
        exact List.pairwise_cons.mpr ⟨below, restSorted⟩
      · refine List.pairwise_cons.mpr ⟨?_, ih restSorted⟩
        intro other member
        rcases (mem_insertEntries restSorted).mp member with rfl | ⟨-, member⟩
        · exact lt_of_le_of_ne (not_lt.mp less) (fun eq => same eq.symm)
        · exact below other member

/-- Inserting a new key adds one entry. -/
theorem insertEntries_perm {key : K} {entries : List (K × V)} (value : V)
    (fresh : ∀ entry ∈ entries, entry.1 ≠ key)
    : (insertEntries key value entries).Perm ((key, value) :: entries) := by
  induction entries with
  | nil => exact .refl _
  | cons head rest ih =>
      obtain ⟨k, v⟩ := head
      unfold insertEntries
      split_ifs with less same
      · exact .refl _
      · exact absurd same.symm (fresh (k, v) List.mem_cons_self)
      · have restFresh := fun entry member => fresh entry (List.mem_cons_of_mem _ member)
        exact ((ih restFresh).cons _).trans (.swap _ _ _)

/-- The map without entries. -/
def empty : SortedMap K V := ⟨[], List.Pairwise.nil⟩

/-- Store a value under a key, replacing the value stored before. -/
def put (map : SortedMap K V) (key : K) (value : V) : SortedMap K V :=
  ⟨insertEntries key value map.entries, insertEntries_sorted map.sorted⟩

/-- Store a batch of entries, later ones replacing earlier ones. -/
def putAll (map : SortedMap K V) (batch : List (K × V)) : SortedMap K V :=
  batch.foldl (fun current entry => current.put entry.1 entry.2) map

/-- Point lookup. -/
def get? (map : SortedMap K V) (key : K) : Option V :=
  (map.entries.find? (fun entry => entry.1 = key)).map Prod.snd

/-- The entry with the greatest key not above `key`, the position a backward seek finds. -/
def floor? (map : SortedMap K V) (key : K) : Option (K × V) :=
  (map.entries.filter (fun entry => entry.1 ≤ key)).getLast?

/-- Two entries of one map under the same key are the same entry. -/
theorem entry_unique (map : SortedMap K V) {key : K} {left right : V}
    (leftMember : (key, left) ∈ map.entries) (rightMember : (key, right) ∈ map.entries)
    : left = right := by
  obtain ⟨entries, sorted⟩ := map
  dsimp only at leftMember rightMember
  induction entries with
  | nil => simp at leftMember
  | cons head rest ih =>
      obtain ⟨below, restSorted⟩ := List.pairwise_cons.mp sorted
      rcases List.mem_cons.mp leftMember with leftHead | leftRest
      · subst leftHead
        rcases List.mem_cons.mp rightMember with eq | rightRest
        · exact (Prod.mk.inj eq).2.symm
        · exact absurd (below _ rightRest) (lt_irrefl _)
      · rcases List.mem_cons.mp rightMember with rightHead | rightRest
        · subst rightHead
          exact absurd (below _ leftRest) (lt_irrefl _)
        · exact ih restSorted leftRest rightRest

/-- Lookup finds exactly the stored entries. -/
theorem get?_eq_some_iff {map : SortedMap K V} {key : K} {value : V}
    : map.get? key = some value ↔ (key, value) ∈ map.entries := by
  constructor
  · intro found
    obtain ⟨⟨k, v⟩, located, rfl⟩ := Option.map_eq_some_iff.mp found
    have same : k = key := by simpa using List.find?_some located
    subst same
    exact List.mem_of_find?_eq_some located
  · intro member
    cases located : map.entries.find? (fun entry => entry.1 = key) with
    | none =>
        have absent := List.find?_eq_none.mp located _ member
        simp at absent
    | some entry =>
        obtain ⟨k, v⟩ := entry
        have same : k = key := by simpa using List.find?_some located
        subst same
        have equal := map.entry_unique (List.mem_of_find?_eq_some located) member
        simp [get?, located, equal]

/-- Lookup fails exactly when no entry has the key. -/
theorem get?_eq_none_iff {map : SortedMap K V} {key : K}
    : map.get? key = none ↔ ∀ value, (key, value) ∉ map.entries := by
  constructor
  · intro missing value member
    rw [get?_eq_some_iff.mpr member] at missing
    cases missing
  · intro absent
    cases found : map.get? key with
    | none => rfl
    | some value => exact (absent value (get?_eq_some_iff.mp found)).elim

/-- Lookup in the empty map fails. -/
@[simp]
theorem get?_empty (key : K) : (empty : SortedMap K V).get? key = none := rfl

/-- The empty map has no entries. -/
@[simp]
theorem entries_empty : (empty : SortedMap K V).entries = [] := rfl

/-- Entries after a put: the new one and the old ones under other keys. -/
theorem mem_put {map : SortedMap K V} {key : K} {value : V} {entry : K × V}
    : entry ∈ (map.put key value).entries
      ↔ entry = (key, value) ∨ (entry.1 ≠ key ∧ entry ∈ map.entries) :=
  mem_insertEntries map.sorted

/-- A put changes the lookup of its own key only. -/
theorem get?_put (map : SortedMap K V) (key : K) (value : V) (other : K)
    : (map.put key value).get? other = if other = key then some value else map.get? other := by
  split_ifs with same
  · subst same
    exact get?_eq_some_iff.mpr (mem_put.mpr (Or.inl rfl))
  · cases found : map.get? other with
    | none =>
        refine get?_eq_none_iff.mpr (fun v member => ?_)
        rcases mem_put.mp member with eq | ⟨-, old⟩
        · exact same (Prod.mk.inj eq).1
        · exact get?_eq_none_iff.mp found v old
    | some v =>
        exact get?_eq_some_iff.mpr (mem_put.mpr (Or.inr ⟨same, get?_eq_some_iff.mp found⟩))

/-- The lookup of the key just put. -/
@[simp]
theorem get?_put_self (map : SortedMap K V) (key : K) (value : V)
    : (map.put key value).get? key = some value := by
  simp [get?_put]

/-- The lookup of another key is unchanged by a put. -/
theorem get?_put_of_ne (map : SortedMap K V) {key other : K} (value : V) (ne : other ≠ key)
    : (map.put key value).get? other = map.get? other := by
  simp [get?_put, ne]

/-- Maps with the same lookups are equal, since sorted duplicate-free lists with the same
members are equal.
-/
theorem ext_get? {left right : SortedMap K V} (same : ∀ key, left.get? key = right.get? key)
    : left = right := by
  obtain ⟨leftEntries, leftSorted⟩ := left
  obtain ⟨rightEntries, rightSorted⟩ := right
  have members : ∀ entry, entry ∈ leftEntries ↔ entry ∈ rightEntries := by
    rintro ⟨key, value⟩
    have equal := same key
    constructor
    · intro member
      have found : get? ⟨leftEntries, leftSorted⟩ key = some value :=
        get?_eq_some_iff.mpr member
      rw [equal] at found
      exact get?_eq_some_iff.mp found
    · intro member
      have found : get? ⟨rightEntries, rightSorted⟩ key = some value :=
        get?_eq_some_iff.mpr member
      rw [← equal] at found
      exact get?_eq_some_iff.mp found
  have equal := eq_of_ascending leftSorted rightSorted members
  subst equal
  rfl

/-- A batch of one entry is a put after the rest of the batch. -/
theorem putAll_concat (map : SortedMap K V) (batch : List (K × V)) (key : K) (value : V)
    : map.putAll (batch ++ [(key, value)]) = (map.putAll batch).put key value := by
  simp [putAll, List.foldl_append]

/-- Keys outside a batch keep their values. -/
theorem get?_putAll_of_not_mem (map : SortedMap K V) (batch : List (K × V)) {key : K}
    (absent : ∀ value, (key, value) ∉ batch)
    : (map.putAll batch).get? key = map.get? key := by
  induction batch generalizing map with
  | nil => rfl
  | cons head rest ih =>
      obtain ⟨k, v⟩ := head
      have different : key ≠ k := fun eq => absent v (by simp [eq])
      change ((map.put k v).putAll rest).get? key = map.get? key
      rw [ih (map.put k v) (fun value member => absent value (by simp [member]))]
      exact get?_put_of_ne map v different

/-- A batch with pairwise different keys stores each of its entries. -/
theorem get?_putAll_of_mem (map : SortedMap K V) (batch : List (K × V)) {key : K} {value : V}
    (distinct : (batch.map Prod.fst).Nodup) (member : (key, value) ∈ batch)
    : (map.putAll batch).get? key = some value := by
  induction batch generalizing map with
  | nil => simp at member
  | cons head rest ih =>
      obtain ⟨k, v⟩ := head
      simp only [List.map_cons, List.nodup_cons] at distinct
      change ((map.put k v).putAll rest).get? key = some value
      rcases List.mem_cons.mp member with eq | member
      · obtain ⟨rfl, rfl⟩ := Prod.mk.inj eq
        rw [get?_putAll_of_not_mem]
        · exact get?_put_self map key value
        · intro other found
          exact distinct.1 (List.mem_map.mpr ⟨_, found, rfl⟩)
      · exact ih (map.put k v) distinct.2 member

/-- A batch of new and pairwise different keys adds its entries. -/
theorem get?_putAll_iff (map : SortedMap K V) {batch : List (K × V)}
    (distinct : (batch.map Prod.fst).Nodup)
    (fresh : ∀ entry ∈ batch, map.get? entry.1 = none) (key : K) (value : V)
    : (map.putAll batch).get? key = some value
      ↔ map.get? key = some value ∨ (key, value) ∈ batch := by
  by_cases inBatch : ∃ other, (key, other) ∈ batch
  · obtain ⟨other, member⟩ := inBatch
    have missing : map.get? key = none := fresh _ member
    rw [get?_putAll_of_mem map batch distinct member, missing]
    constructor
    · intro same
      exact Or.inr (Option.some.inj same ▸ member)
    · intro stored
      rcases stored with old | new
      · cases old
      · rw [← get?_putAll_of_mem map batch distinct member,
          get?_putAll_of_mem map batch distinct new]
  · have absent : ∀ other, (key, other) ∉ batch := fun other member => inBatch ⟨other, member⟩
    rw [get?_putAll_of_not_mem map batch absent]
    exact (or_iff_left (absent value)).symm

/-- The last entry passing a downward-closed test is the one with the greatest key. -/
private theorem getLast?_filter_eq_some_iff {entries : List (K × V)}
    (sorted : entries.Pairwise (fun left right => left.1 < right.1)) {bound : K}
    {entry : K × V}
    : (entries.filter (fun item => item.1 ≤ bound)).getLast? = some entry
      ↔ entry ∈ entries ∧ entry.1 ≤ bound
        ∧ ∀ other ∈ entries, other.1 ≤ bound → other.1 ≤ entry.1 := by
  induction entries generalizing entry with
  | nil => simp
  | cons head rest ih =>
      obtain ⟨below, restSorted⟩ := List.pairwise_cons.mp sorted
      by_cases inside : head.1 ≤ bound
      · rw [List.filter_cons_of_pos (by simpa using inside), List.getLast?_cons]
        cases tail : (rest.filter (fun item => item.1 ≤ bound)).getLast? with
        | none =>
            have noneInside : ∀ other ∈ rest, ¬ other.1 ≤ bound := by
              simpa using tail
            simp only [Option.getD_none, Option.some.injEq]
            constructor
            · rintro rfl
              refine ⟨by simp, inside, ?_⟩
              intro other member low
              rcases List.mem_cons.mp member with rfl | member
              · exact le_refl _
              · exact (noneInside other member low).elim
            · rintro ⟨member, low, -⟩
              rcases List.mem_cons.mp member with rfl | member
              · rfl
              · exact (noneInside entry member low).elim
        | some found =>
            obtain ⟨foundMember, foundLow, foundMax⟩ := (ih restSorted).mp tail
            simp only [Option.getD_some, Option.some.injEq]
            constructor
            · rintro rfl
              refine ⟨by simp [foundMember], foundLow, ?_⟩
              intro other member low
              rcases List.mem_cons.mp member with rfl | member
              · exact le_of_lt (below _ foundMember)
              · exact foundMax other member low
            · rintro ⟨member, low, largest⟩
              have bounded := largest found (by simp [foundMember]) foundLow
              rcases List.mem_cons.mp member with rfl | member
              · exact absurd (below found foundMember) (not_lt.mpr bounded)
              · have same : found.1 = entry.1 := le_antisymm bounded (foundMax entry member low)
                have alike : (found.1, entry.2) ∈ rest := same ▸ member
                exact Prod.ext same
                  ((⟨rest, restSorted⟩ : SortedMap K V).entry_unique foundMember alike)
      · rw [List.filter_cons_of_neg (by simpa using inside), ih restSorted]
        constructor
        · rintro ⟨member, low, largest⟩
          refine ⟨by simp [member], low, ?_⟩
          intro other otherMember otherLow
          rcases List.mem_cons.mp otherMember with rfl | otherMember
          · exact (inside otherLow).elim
          · exact largest other otherMember otherLow
        · rintro ⟨member, low, largest⟩
          rcases List.mem_cons.mp member with rfl | member
          · exact (inside low).elim
          · exact ⟨member, low, fun other otherMember =>
              largest other (by simp [otherMember])⟩

/-- The predecessor search returns the stored entry with the greatest key not above the
bound.
-/
theorem floor?_eq_some_iff {map : SortedMap K V} {bound : K} {entry : K × V}
    : map.floor? bound = some entry
      ↔ map.get? entry.1 = some entry.2 ∧ entry.1 ≤ bound
        ∧ ∀ key value, map.get? key = some value → key ≤ bound → key ≤ entry.1 := by
  rw [floor?, getLast?_filter_eq_some_iff map.sorted, get?_eq_some_iff]
  refine and_congr Iff.rfl (and_congr Iff.rfl ?_)
  constructor
  · intro largest key value found low
    exact largest (key, value) (get?_eq_some_iff.mp found) low
  · rintro largest ⟨key, value⟩ member low
    exact largest key value (get?_eq_some_iff.mpr member) low

/-- The predecessor search fails exactly when every stored key is above the bound. -/
theorem floor?_eq_none_iff {map : SortedMap K V} {bound : K}
    : map.floor? bound = none ↔ ∀ key value, map.get? key = some value → bound < key := by
  simp only [floor?, List.getLast?_eq_none_iff, List.filter_eq_nil_iff, decide_eq_true_eq,
    not_le]
  constructor
  · intro above key value found
    exact above (key, value) (get?_eq_some_iff.mp found)
  · rintro above ⟨key, value⟩ member
    exact above key value (get?_eq_some_iff.mpr member)

/-- The predecessor of a bound is also that of every smaller bound it does not exceed. -/
theorem floor?_of_le {map : SortedMap K V} {low high : K} {entry : K × V}
    (found : map.floor? high = some entry) (above : entry.1 ≤ low) (below : low ≤ high)
    : map.floor? low = some entry := by
  obtain ⟨stored, -, largest⟩ := floor?_eq_some_iff.mp found
  exact floor?_eq_some_iff.mpr ⟨stored, above, fun key value isStored le =>
    largest key value isStored (le.trans below)⟩

/-- Writing the entries of another map. -/
theorem get?_putAll_entries (map batch : SortedMap K V) (key : K)
    : (map.putAll batch.entries).get? key = (batch.get? key).or (map.get? key) := by
  cases found : batch.get? key with
  | none =>
      rw [get?_putAll_of_not_mem _ _ (get?_eq_none_iff.mp found), Option.none_or]
  | some value =>
      have distinct : (batch.entries.map Prod.fst).Nodup := by
        rw [List.nodup_iff_pairwise_ne, List.pairwise_map]
        exact batch.sorted.imp ne_of_lt
      rw [get?_putAll_of_mem _ _ distinct (get?_eq_some_iff.mp found), Option.some_or]

/-- The predecessor search after writing the entries of another map: the later one of the two
predecessors, and the one just written if they have the same key.
-/
theorem floor?_putAll_entries (map batch : SortedMap K V) (bound : K)
    : (map.putAll batch.entries).floor? bound
      = match batch.floor? bound, map.floor? bound with
        | some new, some old => if new.1 < old.1 then some old else some new
        | new, old => new.or old := by
  have stored {key : K} {value : V}
      : (map.putAll batch.entries).get? key = some value
        ↔ batch.get? key = some value ∨ batch.get? key = none ∧ map.get? key = some value := by
    rw [get?_putAll_entries]
    cases batch.get? key <;> simp
  cases newFound : batch.floor? bound with
  | none =>
      have above := floor?_eq_none_iff.mp newFound
      cases oldFound : map.floor? bound with
      | none =>
          refine floor?_eq_none_iff.mpr (fun key value found => ?_)
          rcases stored.mp found with new | ⟨-, old⟩
          · exact above key value new
          · exact floor?_eq_none_iff.mp oldFound key value old
      | some old =>
          obtain ⟨oldStored, oldLow, oldMax⟩ := floor?_eq_some_iff.mp oldFound
          refine floor?_eq_some_iff.mpr ⟨stored.mpr (Or.inr ⟨?_, oldStored⟩), oldLow, ?_⟩
          · cases taken : batch.get? old.1 with
            | none => rfl
            | some value => exact absurd oldLow (not_le.mpr (above _ _ taken))
          · intro key value found low
            rcases stored.mp found with new | ⟨-, isOld⟩
            · exact absurd low (not_le.mpr (above _ _ new))
            · exact oldMax key value isOld low
  | some new =>
      obtain ⟨newStored, newLow, newMax⟩ := floor?_eq_some_iff.mp newFound
      cases oldFound : map.floor? bound with
      | none =>
          refine floor?_eq_some_iff.mpr ⟨stored.mpr (Or.inl newStored), newLow, ?_⟩
          intro key value found low
          rcases stored.mp found with isNew | ⟨-, isOld⟩
          · exact newMax key value isNew low
          · exact absurd low (not_le.mpr (floor?_eq_none_iff.mp oldFound _ _ isOld))
      | some old =>
          obtain ⟨oldStored, oldLow, oldMax⟩ := floor?_eq_some_iff.mp oldFound
          dsimp only
          split_ifs with later
          · refine floor?_eq_some_iff.mpr ⟨stored.mpr (Or.inr ⟨?_, oldStored⟩), oldLow, ?_⟩
            · cases taken : batch.get? old.1 with
              | none => rfl
              | some value => exact absurd later (not_lt.mpr (newMax _ _ taken oldLow))
            · intro key value found low
              rcases stored.mp found with isNew | ⟨-, isOld⟩
              · exact (newMax key value isNew low).trans (le_of_lt later)
              · exact oldMax key value isOld low
          · refine floor?_eq_some_iff.mpr ⟨stored.mpr (Or.inl newStored), newLow, ?_⟩
            intro key value found low
            rcases stored.mp found with isNew | ⟨-, isOld⟩
            · exact newMax key value isNew low
            · exact (oldMax key value isOld low).trans (not_lt.mp later)

end SortedMap
