import Mathlib.Data.List.Nodup
import Mathlib.Tactic.Common

/-! Finite maps as lists of entries with different keys. The order of the entries is not
specified; nothing is said about it.
-/

structure AssocMap (K V : Type) where
  entries : List (K × V)
  nodup : (entries.map Prod.fst).Nodup

namespace AssocMap

variable {K V : Type} [DecidableEq K]

def empty : AssocMap K V := ⟨[], List.nodup_nil⟩

def keys (map : AssocMap K V) : List K := map.entries.map Prod.fst

def lookup (map : AssocMap K V) (key : K) : Option V :=
  (map.entries.find? (fun entry => entry.1 = key)).map Prod.snd

/-- Insert an entry, in the place of one with the same key. -/
def insert (map : AssocMap K V) (key : K) (value : V) : AssocMap K V where
  entries := (key, value) :: map.entries.filter (fun entry => entry.1 ≠ key)
  nodup := by
    refine List.nodup_cons.mpr ⟨?_, map.nodup.sublist (List.filter_sublist.map _)⟩
    intro member
    obtain ⟨entry, inEntries, isKey⟩ := List.mem_map.mp member
    simp only [List.mem_filter, decide_eq_true_eq] at inEntries
    exact inEntries.2 isKey

def values (map : AssocMap K V) : List V := map.entries.map Prod.snd

/-- Insert an entry unless there is one with the same key. -/
def insertNew (map : AssocMap K V) (key : K) (value : V) : AssocMap K V :=
  if (map.lookup key).isSome then map else map.insert key value

/-- The map of a list in which later entries replace earlier ones. -/
def fromList (entries : List (K × V)) : AssocMap K V :=
  entries.foldl (fun map entry => map.insert entry.1 entry.2) empty

variable {map : AssocMap K V} {key other : K} {value : V}

@[simp]
theorem lookup_empty (key : K) : (empty : AssocMap K V).lookup key = none := rfl

theorem mem_of_lookup (found : map.lookup key = some value) : (key, value) ∈ map.entries := by
  obtain ⟨entry, isFound, rfl⟩ := Option.map_eq_some_iff.mp found
  have isKey : entry.1 = key := by simpa using List.find?_some isFound
  exact isKey ▸ List.mem_of_find?_eq_some isFound

theorem lookup_of_mem (member : (key, value) ∈ map.entries) : map.lookup key = some value := by
  obtain ⟨entries, nodup⟩ := map
  unfold lookup
  induction entries with
  | nil => cases member
  | cons entry entries ih =>
      obtain ⟨fresh, nodup⟩ := List.nodup_cons.mp nodup
      rcases List.mem_cons.mp member with rfl | later
      · simp
      · have different : entry.1 ≠ key := by
          rintro rfl
          exact fresh (List.mem_map.mpr ⟨_, later, rfl⟩)
        rw [List.find?_cons_of_neg (by simpa using different)]
        exact ih nodup later

theorem mem_keys_iff : key ∈ map.keys ↔ ∃ value, map.lookup key = some value := by
  constructor
  · intro member
    obtain ⟨entry, inEntries, rfl⟩ := List.mem_map.mp member
    exact ⟨entry.2, lookup_of_mem inEntries⟩
  · rintro ⟨value, found⟩
    exact List.mem_map.mpr ⟨_, mem_of_lookup found, rfl⟩

theorem mem_values_iff {value : V} : value ∈ map.values ↔ ∃ key, map.lookup key = some value := by
  constructor
  · intro member
    obtain ⟨entry, inEntries, rfl⟩ := List.mem_map.mp member
    exact ⟨entry.1, lookup_of_mem inEntries⟩
  · intro ⟨key, found⟩
    exact List.mem_map.mpr ⟨_, mem_of_lookup found, rfl⟩

/-- A key that is not found is not in the way. -/
theorem filter_of_lookup_none (absent : map.lookup key = none)
    : map.entries.filter (fun entry => entry.1 ≠ key) = map.entries := by
  refine List.filter_eq_self.mpr (fun entry member => ?_)
  have different : entry.1 ≠ key := by
    rintro rfl
    rw [lookup_of_mem member] at absent
    cases absent
  simpa using different

/-- The entry of a key that is found, and the entries of other keys. -/
theorem entries_perm (found : map.lookup key = some value)
    : map.entries.Perm ((key, value) :: map.entries.filter (fun entry => entry.1 ≠ key)) := by
  obtain ⟨before, after, split⟩ := List.append_of_mem (mem_of_lookup found)
  have nodup := map.nodup
  rw [split, List.map_append, List.map_cons, List.nodup_middle, List.nodup_cons,
    List.mem_append, not_or] at nodup
  have kept {entries : List (K × V)} (fresh : key ∉ entries.map Prod.fst)
      : entries.filter (fun entry => entry.1 ≠ key) = entries := by
    refine List.filter_eq_self.mpr (fun entry member => ?_)
    have different : entry.1 ≠ key := by
      rintro rfl
      exact fresh (List.mem_map_of_mem member)
    simpa using different
  rw [split, List.filter_append, List.filter_cons_of_neg (by simp), kept nodup.1.1,
    kept nodup.1.2]
  exact List.perm_middle

@[simp]
theorem lookup_insert_self : (map.insert key value).lookup key = some value := by
  simp [lookup, insert]

theorem lookup_insert_of_ne (different : other ≠ key)
    : (map.insert key value).lookup other = map.lookup other := by
  unfold lookup insert
  rw [List.find?_cons_of_neg (by simpa using different.symm), List.find?_filter]
  congr 2
  funext entry
  by_cases isOther : entry.1 = other
  · simp [isOther, different]
  · simp [isOther]

theorem lookup_insert
    : (map.insert key value).lookup other = if other = key then some value else map.lookup other := by
  split
  next same =>
    subst same
    exact lookup_insert_self
  next different => exact lookup_insert_of_ne different

theorem lookup_insertNew
    : (map.insertNew key value).lookup other
      = if other = key then some ((map.lookup key).getD value) else map.lookup other := by
  unfold insertNew
  split
  next present =>
    obtain ⟨old, isOld⟩ := Option.isSome_iff_exists.mp present
    split
    next same => rw [same, isOld, Option.getD_some]
    next => rfl
  next absent =>
    rw [Option.not_isSome_iff_eq_none] at absent
    rw [lookup_insert, absent, Option.getD_none]

variable {entries : List (K × V)}

private theorem mem_of_lookup_foldl
    (found
      : (entries.foldl (fun map entry => map.insert entry.1 entry.2) map).lookup key = some value)
    : map.lookup key = some value ∨ (key, value) ∈ entries := by
  induction entries generalizing map with
  | nil => exact .inl found
  | cons entry entries ih =>
      rcases ih found with inserted | later
      · rw [lookup_insert] at inserted
        split at inserted
        next same =>
          cases inserted
          exact .inr (same ▸ List.mem_cons_self)
        next => exact .inl inserted
      · exact .inr (List.mem_cons_of_mem _ later)

private theorem lookup_foldl_of_notMem (absent : key ∉ entries.map Prod.fst)
    : (entries.foldl (fun map entry => map.insert entry.1 entry.2) map).lookup key
      = map.lookup key := by
  induction entries generalizing map with
  | nil => rfl
  | cons entry entries ih =>
      rw [List.map_cons, List.mem_cons, not_or] at absent
      rw [List.foldl_cons, ih absent.2, lookup_insert_of_ne absent.1]

theorem mem_of_lookup_fromList (found : (fromList entries).lookup key = some value)
    : (key, value) ∈ entries :=
  (mem_of_lookup_foldl found).resolve_left nofun

theorem lookup_fromList_of_notMem (absent : key ∉ entries.map Prod.fst)
    : (fromList entries).lookup key = none :=
  lookup_foldl_of_notMem absent

/-- Every key of the list has an entry. -/
theorem lookup_fromList_of_mem (member : key ∈ entries.map Prod.fst)
    : ∃ value, (fromList entries).lookup key = some value := by
  unfold fromList
  generalize (empty : AssocMap K V) = map
  induction entries generalizing map with
  | nil => cases member
  | cons entry entries ih =>
      by_cases later : key ∈ entries.map Prod.fst
      · exact ih later _
      · have isKey : key = entry.1 := (List.mem_cons.mp member).resolve_right later
        refine ⟨entry.2, ?_⟩
        rw [List.foldl_cons, lookup_foldl_of_notMem later, isKey, lookup_insert_self]

/-- Where the keys are different every entry of the list is found. -/
theorem lookup_fromList (different : (entries.map Prod.fst).Nodup)
    (member : (key, value) ∈ entries)
    : (fromList entries).lookup key = some value := by
  obtain ⟨found, isFound⟩ := lookup_fromList_of_mem (List.mem_map_of_mem member : key ∈ _)
  have isEntry := mem_of_lookup_fromList isFound
  rw [isFound, List.inj_on_of_nodup_map different isEntry member rfl |> Prod.mk.inj |>.2]

end AssocMap
