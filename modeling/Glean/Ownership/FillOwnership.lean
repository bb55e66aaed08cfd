import Glean.Ownership.Compute
import Glean.Ownership.TrieLinking

/-! Filling the trie from the records of units. After each record, every key holds the units
of all records so far that list it.
-/

namespace Glean.RTS

/-- The leaves after all trees with a pointer got another one. -/
def redirect (old new : TreePtr) (leaves : Multiset (Leaf TreePtr)) : Multiset (Leaf TreePtr) :=
  leaves.map (fun leaf => leaf.put (if leaf.value = old then new else leaf.value))

theorem pointers_redirect {old new : TreePtr} (different : old ≠ new)
    (leaves : Multiset (Leaf TreePtr)) (tree : TreePtr)
    : pointers (redirect old new leaves) tree
      = if tree = old then 0
        else if tree = new then pointers leaves tree + pointers leaves old
        else pointers leaves tree := by
  induction leaves using Multiset.induction with
  | empty => simp [redirect, pointers]
  | cons leaf rest ih =>
      have step : redirect old new (leaf ::ₘ rest)
          = leaf.put (if leaf.value = old then new else leaf.value) ::ₘ redirect old new rest :=
        Multiset.map_cons _ _ _
      rw [step]
      simp only [pointers_cons, ih, Leaf.put]
      by_cases isOld : leaf.value = old
      · rw [isOld]
        by_cases atOld : tree = old
        · simp [atOld, different]
        · by_cases atNew : tree = new
          · simp [atNew, different.symm]
            omega
          · simp [atOld, atNew]
      · rw [if_neg isOld, if_neg (Ne.symm isOld)]
        by_cases atOld : tree = old
        · simp [atOld, Ne.symm isOld]
        · by_cases atNew : tree = new
          · simp [atNew, different.symm]
            omega
          · simp [atOld, atNew]

theorem pointers_unlink (owner : Option Addr) (upd : Addr) (leaves : Multiset (Leaf TreePtr))
    (tree : TreePtr)
    : pointers (redirect (.link owner) (.value upd) leaves) tree
      = if tree = .link owner then 0
        else if tree = .value upd then pointers leaves tree + pointers leaves (.link owner)
        else pointers leaves tree :=
  pointers_redirect (by simp) leaves tree

namespace Counts

variable {heap : Heap} {leaves : Multiset (Leaf TreePtr)} {todo : List Addr} {addr : Addr}
  {uset : Uset} {keys : List Nat} {exp : SetExpr}

/-- The list of a set goes back to the set, which nothing else refers to. -/
theorem unlinkInPlace (counts : Counts heap leaves (addr :: todo))
    (stored : heap.objects addr = some uset) (listing : Listing leaves addr uset keys)
    (sole : uset.refs = 1)
    : Counts ⟨Function.update heap.objects addr
          (some { uset with exp := exp, link := .null, refs := keys.length }), heap.fresh⟩
        (redirect (.link (some addr)) (.value addr) leaves) todo := by
  obtain ⟨unlisted, distinct⟩ := List.nodup_cons.mp counts.distinct
  refine counts.step (fun other => other = addr) (Nat.le_refl _) distinct ?_ ?_
  · intro other different
    simp [pointers_unlink, different]
  · rintro _ rfl
    refine ⟨_, Function.update_self .., counts.below _ _ stored, fun _ => ?_,
      fun member => (unlisted member).elim⟩
    have refs := listing.refs
    refine ⟨rfl, ?_, by simp [pointers_unlink]⟩
    simp only [pointers_unlink, reduceCtorEq, if_false, if_true, listing.linked]
    push_cast
    omega

/-- The list of a set goes to a copy of it. -/
theorem unlinkCopy (counts : Counts heap leaves (addr :: todo))
    (stored : heap.objects addr = some uset) (listing : Listing leaves addr uset keys)
    : Counts ⟨Function.update
          (Function.update heap.objects addr
            (some { uset with link := .null, refs := uset.refs - 1 }))
          heap.fresh (some { exp := exp, refs := keys.length }), heap.fresh + 1⟩
        (redirect (.link (some addr)) (.value heap.fresh) leaves) todo := by
  obtain ⟨unlisted, distinct⟩ := List.nodup_cons.mp counts.distinct
  have isOld : addr ≠ heap.fresh := Nat.ne_of_lt (counts.below _ _ stored)
  have isFree : heap.objects heap.fresh = none := by
    cases found : heap.objects heap.fresh with
    | none => rfl
    | some other => exact (Nat.lt_irrefl _ (counts.below _ _ found)).elim
  obtain ⟨notTodo, noValue, noLink⟩ := counts.free _ isFree
  refine counts.step (fun other => other = addr ∨ other = heap.fresh) (Nat.le_succ _) distinct
    ?_ ?_
  · intro other untouched
    obtain ⟨different, notFresh⟩ := not_or.mp untouched
    simp [pointers_unlink, different, notFresh]
  · rintro _ (rfl | rfl)
    · refine ⟨{ uset with link := .null, refs := uset.refs - 1 }, by simp [isOld],
        Nat.lt_succ_of_lt (counts.below _ _ stored), fun _ => ⟨rfl, ?_, ?_⟩,
        fun member => (unlisted member).elim⟩
      · have refs := listing.refs
        simp only [pointers_unlink, reduceCtorEq, if_false, TreePtr.value.injEq, isOld]
        omega
      · simp [pointers_unlink]
    · refine ⟨{ exp := exp, refs := keys.length }, by simp, Nat.lt_succ_self _,
        fun _ => ⟨rfl, ?_, ?_⟩, fun member => ?_⟩
      · simp [pointers_unlink, noValue, listing.linked]
      · simp [pointers_unlink, noLink, isOld.symm]
      · exact (notTodo (List.mem_cons_of_mem _ member)).elim

/-- The list of trees without a value goes to a new set. -/
theorem unlinkNull (counts : Counts heap leaves todo)
    (nulls : pointers leaves (.link none) = keys.length)
    : Counts ⟨Function.update heap.objects heap.fresh
          (some { exp := exp, refs := keys.length }), heap.fresh + 1⟩
        (redirect (.link none) (.value heap.fresh) leaves) todo := by
  have isFree : heap.objects heap.fresh = none := by
    cases found : heap.objects heap.fresh with
    | none => rfl
    | some other => exact (Nat.lt_irrefl _ (counts.below _ _ found)).elim
  obtain ⟨notTodo, noValue, noLink⟩ := counts.free _ isFree
  refine counts.step (fun other => other = heap.fresh) (Nat.le_succ _) counts.distinct ?_ ?_
  · intro other different
    simp [pointers_unlink, different]
  · rintro _ rfl
    refine ⟨{ exp := exp, refs := keys.length }, by simp, Nat.lt_succ_self _,
      fun _ => ⟨rfl, ?_, ?_⟩, fun member => (notTodo member).elim⟩
    · simp [pointers_unlink, noValue, nulls]
    · simp [pointers_unlink, noLink]

end Counts

/-- The set of units at an address, empty without one. -/
def Heap.setOf (heap : Heap) (owner : Option Addr) : Finset UnitId :=
  ((owner.bind heap.objects).map (fun uset => uset.exp.set)).getD ∅

theorem Heap.setOf_some {heap : Heap} {addr : Addr} {uset : Uset}
    (stored : heap.objects addr = some uset)
    : heap.setOf (some addr) = uset.exp.set := by
  simp [setOf, stored]

theorem Heap.setOf_congr {heap next : Heap} {owner : Option Addr}
    (same : ∀ addr, owner = some addr → next.content addr = heap.content addr)
    : next.setOf owner = heap.setOf owner := by
  cases owner with
  | none => rfl
  | some addr =>
      have sets := congrArg (Option.map (fun content => content.1.set)) (same addr rfl)
      simp only [Heap.content, Option.map_map] at sets
      exact congrArg (Option.getD · ∅) sets

/-- A set of units that has no id yet. -/
structure Uset.Plain (uset : Uset) : Prop where
  op : uset.exp.op = .or
  nonempty : uset.exp.set.Nonempty
  number : uset.id = invalidUset

theorem Uset.Plain.congr {before after : Uset} (plain : before.Plain)
    (same : before.content = after.content)
    : after.Plain := by
  obtain ⟨exps, numbers⟩ := Prod.mk.inj same
  exact ⟨exps ▸ plain.op, exps ▸ plain.nonempty, numbers ▸ plain.number⟩

/-- The state while the lists of the sets left to do are unlinked, towards the units that each
key is to hold.
-/
structure Unlinking (unit : UnitId) (units : Nat → Finset UnitId) (heap : Heap)
    (leaves : Multiset (Leaf TreePtr)) (todo : List Addr)
    : Prop where
  counts : Counts heap leaves todo
  plain : ∀ addr uset, heap.objects addr = some uset → uset.Plain
  linked
    : ∀ leaf ∈ leaves, ∀ key, leaf.Contains key → ∀ owner, leaf.value = .link owner →
        insert unit (heap.setOf owner) = units key
  stored
    : ∀ leaf ∈ leaves, ∀ key, leaf.Contains key → ¬ leaf.value.IsLink →
        heap.setOf leaf.value.owner = units key

namespace Unlinking

variable {unit : UnitId} {units : Nat → Finset UnitId} {heap : Heap}
  {leaves : Multiset (Leaf TreePtr)} {todo : List Addr} {addr : Addr}

/-- The sets after a list got a new value. The other sets that leaves point to stay. -/
theorem sets_redirect {next : Heap} {owner : Option Addr} {upd : Addr}
    (unlinking : Unlinking unit units heap leaves todo)
    (new : next.setOf (some upd) = insert unit (heap.setOf owner))
    (same : ∀ leaf ∈ leaves, leaf.value ≠ .link owner →
      next.setOf leaf.value.owner = heap.setOf leaf.value.owner)
    : (∀ leaf ∈ redirect (.link owner) (.value upd) leaves, ∀ key, leaf.Contains key →
        ∀ owner, leaf.value = .link owner → insert unit (next.setOf owner) = units key)
      ∧ ∀ leaf ∈ redirect (.link owner) (.value upd) leaves, ∀ key, leaf.Contains key →
        ¬ leaf.value.IsLink → next.setOf leaf.value.owner = units key := by
  refine ⟨?_, ?_⟩
  · intro leaf member key inside other isOther
    obtain ⟨before, isLeaf, rfl⟩ := Multiset.mem_map.mp member
    by_cases isLink : before.value = .link owner
    · simp [Leaf.put, isLink] at isOther
    · simp only [Leaf.put, if_neg isLink] at isOther
      have kept := same before isLeaf isLink
      rw [isOther, TreePtr.owner] at kept
      rw [kept]
      exact unlinking.linked before isLeaf key inside other isOther
  · intro leaf member key inside notLink
    obtain ⟨before, isLeaf, rfl⟩ := Multiset.mem_map.mp member
    by_cases isLink : before.value = .link owner
    · simp only [Leaf.put, if_pos isLink, TreePtr.owner]
      rw [new]
      exact unlinking.linked before isLeaf key inside owner isLink
    · simp only [Leaf.put, if_neg isLink] at notLink ⊢
      rw [same before isLeaf isLink]
      exact unlinking.stored before isLeaf key inside notLink

/-- The unit is appended in place. -/
theorem inPlace {next : Heap} {uset : Uset} {keys : List Nat}
    (unlinking : Unlinking unit units heap leaves (addr :: todo))
    (stored : heap.objects addr = some uset) (listing : Listing leaves addr uset keys)
    (sole : uset.refs = 1)
    (isNext : next = ⟨Function.update heap.objects addr (some { uset with
      exp := ⟨uset.exp.op, insert unit uset.exp.set⟩, link := .null, refs := keys.length }),
      heap.fresh⟩)
    : Unlinking unit units next (redirect (.link (some addr)) (.value addr) leaves) todo := by
  have counts : Counts next (redirect (.link (some addr)) (.value addr) leaves) todo :=
    isNext ▸ unlinking.counts.unlinkInPlace stored listing sole
  have objects (other : Addr) (different : other ≠ addr)
      : next.objects other = heap.objects other := by
    rw [isNext]
    exact Function.update_of_ne different _ _
  have atAddr : next.objects addr = some { uset with
      exp := ⟨uset.exp.op, insert unit uset.exp.set⟩, link := .null, refs := keys.length } := by
    rw [isNext]
    exact Function.update_self ..
  have new : next.setOf (some addr) = insert unit (heap.setOf (some addr)) := by
    rw [Heap.setOf_some stored, Heap.setOf_some atAddr]
  -- no other leaf points to the set
  have same (leaf : Leaf TreePtr) (member : leaf ∈ leaves)
      (notLink : leaf.value ≠ .link (some addr))
      : next.setOf leaf.value.owner = heap.setOf leaf.value.owner := by
    refine Heap.setOf_congr (fun other isOwner => ?_)
    have different : other ≠ addr := by
      rintro rfl
      have refs := listing.refs
      have positive := pointers_pos member
      cases value : leaf.value with
      | null => simp [value, TreePtr.owner] at isOwner
      | value owner =>
          simp only [value, TreePtr.owner, Option.some.injEq] at isOwner
          rw [value, isOwner] at positive
          omega
      | link owner =>
          simp only [value, TreePtr.owner] at isOwner
          rw [value, isOwner] at notLink
          exact notLink rfl
    rw [Heap.content, Heap.content, objects other different]
  obtain ⟨linked, stores⟩ := unlinking.sets_redirect new same
  refine ⟨counts, ?_, linked, stores⟩
  intro other found isFound
  by_cases isAddr : other = addr
  · rw [isAddr, atAddr] at isFound
    cases isFound
    have plain := unlinking.plain addr uset stored
    exact ⟨plain.op, Finset.insert_nonempty _ _, plain.number⟩
  · rw [objects other isAddr] at isFound
    exact unlinking.plain other found isFound

/-- A list goes to a set at a fresh address, where no leaf points to yet. -/
theorem intoFresh {next : Heap} {owner : Option Addr} {listed : List Addr} (refs : Int)
    (unlinking : Unlinking unit units heap leaves listed)
    (counts : Counts next (redirect (.link owner) (.value heap.fresh) leaves) todo)
    (atFresh : next.objects heap.fresh
      = some { exp := ⟨.or, insert unit (heap.setOf owner)⟩, refs := refs })
    (others : ∀ other, other ≠ heap.fresh → next.content other = heap.content other)
    : Unlinking unit units next (redirect (.link owner) (.value heap.fresh) leaves) todo := by
  have new : next.setOf (some heap.fresh) = insert unit (heap.setOf owner) :=
    Heap.setOf_some atFresh
  have same (leaf : Leaf TreePtr) (member : leaf ∈ leaves) (_ : leaf.value ≠ .link owner)
      : next.setOf leaf.value.owner = heap.setOf leaf.value.owner := by
    refine Heap.setOf_congr (fun other isOwner => others other ?_)
    obtain ⟨uset, stored⟩ := unlinking.counts.allocated member isOwner
    exact Nat.ne_of_lt (unlinking.counts.below _ _ stored)
  obtain ⟨linked, stores⟩ := unlinking.sets_redirect new same
  refine ⟨counts, ?_, linked, stores⟩
  intro other found isFound
  by_cases isFresh : other = heap.fresh
  · rw [isFresh, atFresh] at isFound
    cases isFound
    exact ⟨rfl, Finset.insert_nonempty _ _, rfl⟩
  · have kept := others other isFresh
    rw [Heap.content, isFound] at kept
    obtain ⟨before, isBefore, content⟩ := Option.map_eq_some_iff.mp kept.symm
    exact (unlinking.plain other before isBefore).congr content

open TrieArray in
/-- One round of the loop over the values seen. -/
theorem unlinkValue {trees treesNext : Trees} {next : Heap}
    (unlinking : Unlinking unit units heap trees.leaves (addr :: todo))
    (done : unlinkValue (appendUnit unit) (heap, trees) addr = (next, treesNext))
    : Unlinking unit units next treesNext.leaves todo
      ∧ pointers treesNext.leaves (.link none) = pointers trees.leaves (.link none) := by
  have counts := unlinking.counts
  obtain ⟨uset, stored⟩ : ∃ uset, heap.objects addr = some uset := by
    cases found : heap.objects addr with
    | some uset => exact ⟨uset, rfl⟩
    | none => exact ((counts.free addr found).1 List.mem_cons_self).elim
  obtain ⟨keys, listing⟩ := counts.listing addr uset stored List.mem_cons_self
  have isOld : addr ≠ heap.fresh := Nat.ne_of_lt (counts.below _ _ stored)
  simp only [TrieArray.unlinkValue, stored, Option.map_some, listing.link, unlink, appendUnit,
    Heap.setLink, Heap.modify, Function.update_self] at done
  by_cases sole : uset.refs = 1
  · -- nothing else refers to the set: the unit is appended in place
    have total : uset.refs + (keys.length - 1) = keys.length := by omega
    rw [if_pos sole] at done
    simp only [Heap.use, Heap.modify, Function.update_self, Option.map_some,
      Function.update_idem, Prod.mk.injEq, total] at done
    obtain ⟨isNext, rfl⟩ := done
    rw [Trees.leaves_map]
    refine ⟨unlinking.inPlace stored listing sole isNext.symm, ?_⟩
    exact (pointers_unlink _ _ trees.leaves _).trans (by simp)
  · -- the unit is appended to a copy
    have total : 1 + ((keys.length : Int) - 1) = keys.length := by omega
    rw [if_neg sole] at done
    simp only [Heap.use, Heap.modify, Heap.alloc, Function.update_self, Option.map_some,
      Function.update_idem, Prod.mk.injEq, total] at done
    obtain ⟨rfl, rfl⟩ := done
    rw [Trees.leaves_map]
    refine ⟨intoFresh keys.length unlinking (counts.unlinkCopy stored listing) ?_ ?_, ?_⟩
    · rw [Heap.setOf_some stored]
      exact Function.update_self ..
    · intro other notFresh
      rw [Heap.content, Heap.content]
      dsimp only
      rw [Function.update_of_ne notFresh, Function.update_apply]
      split_ifs with isAddr
      · rw [isAddr, stored]
        rfl
      · rfl
    · exact (pointers_unlink _ _ trees.leaves _).trans (by simp)

/-- Storing a new set in the trees that had none. -/
theorem unlinkNull {trees treesNext : Trees} {next : Heap} {keys : List Nat}
    (unlinking : Unlinking unit units heap trees.leaves todo)
    (nulls : pointers trees.leaves (.link none) = keys.length)
    (done : TrieArray.unlink (appendUnit unit) (heap, trees) none keys = (next, treesNext))
    : Unlinking unit units next treesNext.leaves todo
      ∧ pointers treesNext.leaves (.link none) = 0 := by
  have total : 1 + ((keys.length : Int) - 1) = keys.length := by omega
  simp only [TrieArray.unlink, appendUnit, Heap.use, Heap.modify, Heap.alloc,
    Function.update_self, Option.map_some, Function.update_idem, Prod.mk.injEq, total] at done
  obtain ⟨rfl, rfl⟩ := done
  rw [Trees.leaves_map]
  refine ⟨intoFresh keys.length unlinking (unlinking.counts.unlinkNull nulls) ?_ ?_, ?_⟩
  · exact Function.update_self ..
  · intro other notFresh
    rw [Heap.content, Heap.content]
    dsimp only
    rw [Function.update_of_ne notFresh]
  · exact (pointers_unlink _ _ trees.leaves _).trans (by simp)

/-- The whole loop, by induction on the values left. -/
theorem unlinkValues {trees treesNext : Trees} {next : Heap}
    (unlinking : Unlinking unit units heap trees.leaves todo)
    (done : todo.foldl (TrieArray.unlinkValue (appendUnit unit)) (heap, trees)
      = (next, treesNext))
    : Unlinking unit units next treesNext.leaves []
      ∧ pointers treesNext.leaves (.link none) = pointers trees.leaves (.link none) := by
  induction todo generalizing heap trees with
  | nil =>
      obtain ⟨rfl, rfl⟩ := Prod.mk.inj done
      exact ⟨unlinking, rfl⟩
  | cons addr todo ih =>
      rw [List.foldl_cons] at done
      rcases once : TrieArray.unlinkValue (appendUnit unit) (heap, trees) addr
        with ⟨middle, treesMiddle⟩
      rw [once] at done
      obtain ⟨after, sameNulls⟩ := unlinking.unlinkValue once
      obtain ⟨finished, nulls⟩ := ih after done
      exact ⟨finished, nulls.trans sameNulls⟩

end Unlinking

instance (ids : List (Id × Id)) (key : Nat) : Decidable (TrieArray.Listed ids key) :=
  inferInstanceAs (Decidable (∃ range ∈ ids, range.1 ≤ key ∧ key ≤ range.2))

/-- The units of the keys after a record. -/
def appendListed (unit : UnitId) (ids : List (Id × Id)) (units : Nat → Finset UnitId) (key : Nat)
    : Finset UnitId :=
  if TrieArray.Listed ids key then insert unit (units key) else units key

namespace TrieArray

/-- Between insertions no tree is on a list, and every key holds its units. -/
structure Filled (units : Nat → Finset UnitId) (heap : Heap) (leaves : Multiset (Leaf TreePtr))
    : Prop where
  counts : Counts heap leaves []
  plain : ∀ addr uset, heap.objects addr = some uset → uset.Plain
  unmarked : ∀ leaf ∈ leaves, ¬ leaf.value.IsLink
  sets
    : ∀ leaf ∈ leaves, ∀ key, leaf.Contains key → heap.setOf leaf.value.owner = units key

variable {units : Nat → Finset UnitId} {heap : Heap} {leaves : Multiset (Leaf TreePtr)}
  {unit : UnitId} {ids : List (Id × Id)}

/-- Nothing is stored at first. -/
theorem Filled.empty (nulls : ∀ leaf ∈ leaves, leaf.value = .null)
    : Filled (fun _ => ∅) Heap.empty leaves := by
  have absent (tree : TreePtr) (notNull : tree ≠ .null) : pointers leaves tree = 0 := by
    refine Multiset.count_eq_zero.mpr (fun member => ?_)
    obtain ⟨leaf, isLeaf, isTree⟩ := Multiset.mem_map.mp member
    exact notNull (isTree.symm.trans (nulls leaf isLeaf))
  refine ⟨⟨nofun, ?_, List.nodup_nil, nofun, nofun⟩, nofun, ?_, ?_⟩
  · intro addr _
    exact ⟨List.not_mem_nil, absent _ (by simp), absent _ (by simp)⟩
  · rintro leaf member ⟨owner, isLink⟩
    rw [nulls leaf member] at isLink
    cases isLink
  · intro leaf member key _
    rw [nulls leaf member]
    rfl

theorem Filled.linking (filled : Filled units heap leaves)
    : Linking (fun owner key => heap.setOf owner = units key) heap (fun _ => False)
        ⟨heap, [], []⟩ leaves := by
  refine ⟨filled.counts, ?_, rfl, rfl, ?_⟩
  · refine Multiset.count_eq_zero.mpr (fun member => ?_)
    obtain ⟨leaf, isLeaf, isLink⟩ := Multiset.mem_map.mp member
    exact filled.unmarked leaf isLeaf ⟨none, isLink⟩
  · intro leaf member key inside
    exact ⟨filled.sets leaf member key inside, iff_false_intro (filled.unmarked leaf member)⟩

/-- When the trees of all ranges are on lists, unlinking can start. -/
theorem Linking.unlinking {state : Inserting} (filled : Filled units heap leaves)
    {leavesNext : Multiset (Leaf TreePtr)}
    (linking : Linking (fun owner key => heap.setOf owner = units key) heap
      (fun key => False ∨ Listed ids key) state leavesNext)
    : Unlinking unit (appendListed unit ids units) state.heap leavesNext state.values := by
  have same (owner : Option Addr) : state.heap.setOf owner = heap.setOf owner :=
    Heap.setOf_congr (fun addr _ => congrFun linking.content addr)
  refine ⟨linking.counts, ?_, ?_, ?_⟩
  · intro addr uset stored
    have kept := congrFun linking.content addr
    rw [Heap.content, stored] at kept
    obtain ⟨before, isBefore, content⟩ := Option.map_eq_some_iff.mp kept.symm
    exact (filled.plain addr before isBefore).congr content
  · intro leaf member key inside owner isLink
    obtain ⟨holds, marked⟩ := linking.marks leaf member key inside
    have isListed : Listed ids key := (marked.mp ⟨owner, isLink⟩).resolve_left id
    rw [isLink, TreePtr.owner] at holds
    rw [same, holds, appendListed, if_pos isListed]
  · intro leaf member key inside notLink
    obtain ⟨holds, marked⟩ := linking.marks leaf member key inside
    have unlisted : ¬ Listed ids key := fun isListed => notLink (marked.mpr (Or.inr isListed))
    rw [same, holds, appendListed, if_neg unlisted]

/-- When no list is left, the record has been inserted. -/
theorem Filled.ofUnlinking (unlinking : Unlinking unit units heap leaves [])
    (nulls : pointers leaves (.link none) = 0)
    : Filled units heap leaves := by
  have unmarked (leaf : Leaf TreePtr) (member : leaf ∈ leaves) : ¬ leaf.value.IsLink := by
    rintro ⟨owner, isLink⟩
    have positive := pointers_pos member
    rw [isLink] at positive
    cases owner with
    | none => omega
    | some addr =>
        obtain ⟨uset, stored⟩ := unlinking.counts.allocated member (by rw [isLink]; rfl)
        have settled := unlinking.counts.settled addr uset stored List.not_mem_nil
        have unlinked := settled.unlinked
        omega
  refine ⟨unlinking.counts, unlinking.plain, unmarked, ?_⟩
  intro leaf member key inside
  exact unlinking.stored leaf member key inside (unmarked leaf member)

/-- `insert` appends the unit to the sets of the keys in its ranges. -/
theorem insert_filled {trie : TrieArray} (filled : Filled units heap trie.trees.leaves)
    (sorted : SortedRanges ids) (small : trie.maxkey < 2 ^ 32)
    (fits : ∀ range ∈ ids, range.2 < 2 ^ 32) {first last : Id × Id}
    (isFirst : ids.head? = some first) (isLast : ids.getLast? = some last)
    : ∃ next trieNext, trie.insert heap ids (appendUnit unit) = some (next, trieNext)
        ∧ trieNext.minkey = min trie.minkey first.1 ∧ trieNext.maxkey = max trie.maxkey last.2
        ∧ Filled (appendListed unit ids units) next trieNext.trees.leaves := by
  have lastFits := fits last (List.mem_of_getLast? isLast)
  have room : ¬ 2 ^ 32 ≤ max trie.maxkey last.2 := by lia
  rcases collected : ids.foldl insertRange (⟨heap, [], []⟩, trie.trees) with ⟨state, trees⟩
  have linking := insertRanges_linking sorted fits filled.linking (fun _ _ => id) collected
  have unlinking : Unlinking unit _ state.heap trees.leaves state.values :=
    linking.unlinking filled
  -- the trees without a value come first
  obtain ⟨middle, treesMiddle, isMiddle, after, nulls⟩ : ∃ middle treesMiddle,
      (if state.nullLink = [] then (state.heap, trees)
        else unlink (appendUnit unit) (state.heap, trees) none state.nullLink)
        = (middle, treesMiddle)
      ∧ Unlinking unit _ middle treesMiddle.leaves state.values
      ∧ pointers treesMiddle.leaves (.link none) = 0 := by
    split_ifs with empty
    · refine ⟨state.heap, trees, rfl, unlinking, ?_⟩
      rw [linking.nulls, empty, List.length_nil]
    · rcases done : unlink (appendUnit unit) (state.heap, trees) none state.nullLink
        with ⟨middle, treesMiddle⟩
      exact ⟨middle, treesMiddle, rfl, unlinking.unlinkNull linking.nulls done⟩
  rcases done : state.values.foldl (unlinkValue (appendUnit unit)) (middle, treesMiddle)
    with ⟨next, treesNext⟩
  obtain ⟨finished, sameNulls⟩ := after.unlinkValues done
  refine ⟨next, ⟨treesNext, min trie.minkey first.1, max trie.maxkey last.2⟩, ?_, rfl, rfl,
    Filled.ofUnlinking finished (sameNulls.trans nulls)⟩
  simp only [TrieArray.insert, isFirst, isLast, if_neg room, collected, isMiddle, done]

end TrieArray

/-- The units that list a key. -/
def listedUnits (records : List OwnershipUnit) (key : Nat) : Finset UnitId :=
  ((records.filter (fun data => TrieArray.Listed data.ids key)).map OwnershipUnit.unit).toFinset

theorem mem_listedUnits {records : List OwnershipUnit} {key : Nat} {unit : UnitId}
    : unit ∈ listedUnits records key
      ↔ ∃ data ∈ records, data.unit = unit ∧ TrieArray.Listed data.ids key := by
  simp only [listedUnits, List.mem_toFinset, List.mem_map, List.mem_filter, decide_eq_true_eq,
    and_assoc]
  exact exists_congr (fun data => and_congr_right (fun _ => and_comm))

theorem listedUnits_append (records : List OwnershipUnit) (data : OwnershipUnit)
    : listedUnits (records ++ [data])
      = appendListed data.unit data.ids (listedUnits records) := by
  funext key
  ext unit
  rw [appendListed]
  split_ifs with isListed
  · simp [mem_listedUnits, isListed, or_and_right, exists_or, or_comm, eq_comm]
  · simp [mem_listedUnits, isListed, or_and_right, exists_or]

/-- The state of `fillOwnership` after some records. -/
structure Filling.Of (records : List OwnershipUnit) (state : Filling) : Prop where
  filled : TrieArray.Filled (listedUnits records) state.heap state.trie.trees.leaves
  covers
    : ∀ data ∈ records, ∀ range ∈ data.ids,
        state.trie.minkey ≤ range.1 ∧ range.2 ≤ state.trie.maxkey
  reached : ∀ limit, 0 < limit →
    (∀ data ∈ records, ∀ range ∈ data.ids, range.2 < limit) → state.trie.maxkey < limit
  lastUnit : ∀ unit, (∀ data ∈ records, data.unit ≤ unit) → state.lastUnit ≤ unit
  maxUnit : ∀ unit, (∀ data ∈ records, data.unit ≤ unit) → state.maxUnit ≤ unit

theorem Filling.start_of : Filling.start.Of [] where
  filled := TrieArray.Filled.empty TrieArray.leaves_new
  covers := by simp
  reached := fun limit positive _ => positive
  lastUnit := fun unit _ => Nat.zero_le unit
  maxUnit := fun unit _ => Nat.zero_le unit

/-- The first and last ranges bound all of them. -/
theorem TrieArray.SortedRanges.bounds {ids : List (Id × Id)} (sorted : SortedRanges ids)
    {first last : Id × Id} (isFirst : ids.head? = some first) (isLast : ids.getLast? = some last)
    : ∀ range ∈ ids, first.1 ≤ range.1 ∧ range.2 ≤ last.2 := by
  intro range member
  refine ⟨?_, ?_⟩
  · obtain ⟨rest, rfl⟩ := List.head?_eq_some_iff.mp isFirst
    rcases List.mem_cons.mp member with rfl | later
    · exact Nat.le_refl _
    · have start := sorted.ordered first List.mem_cons_self
      have above := (List.pairwise_cons.mp sorted.ascending).1 range later
      lia
  · obtain ⟨rest, rfl⟩ := List.getLast?_eq_some_iff.mp isLast
    rcases List.mem_append.mp member with earlier | isEnd
    · have finish := sorted.ordered last (by simp)
      have below := (List.pairwise_append.mp sorted.ascending).2.2 range earlier last (by simp)
      lia
    · rw [List.mem_singleton.mp isEnd]

/-- What `computeOwnership` expects of its records: units in order, and sorted ranges. -/
structure OrderedRecords (records : List OwnershipUnit) : Prop where
  units : records.Pairwise (fun left right => left.unit ≤ right.unit)
  sorted : ∀ data ∈ records, TrieArray.SortedRanges data.ids

namespace Filling

variable {records : List OwnershipUnit} {data : OwnershipUnit} {state : Filling}

/-- One round of the loop. -/
theorem Of.add (filling : state.Of records) (ordered : ∀ earlier ∈ records, earlier.unit ≤ data.unit)
    (sorted : TrieArray.SortedRanges data.ids)
    (fits : ∀ each ∈ records ++ [data], ∀ range ∈ each.ids, range.2 < 2 ^ 32)
    : ∃ next, state.add data = some next ∧ next.Of (records ++ [data]) := by
  have inOrder : ¬ data.unit < state.lastUnit := Nat.not_lt.mpr (filling.lastUnit _ ordered)
  have earlier {P : OwnershipUnit → Prop} (all : ∀ each ∈ records ++ [data], P each)
      : ∀ each ∈ records, P each :=
    fun each member => all each (List.mem_append_left _ member)
  have latest {P : OwnershipUnit → Prop} (all : ∀ each ∈ records ++ [data], P each) : P data :=
    all data (List.mem_append_right _ (List.mem_singleton_self _))
  have lastUnit (unit : UnitId) (all : ∀ each ∈ records ++ [data], each.unit ≤ unit)
      : data.unit ≤ unit := latest all
  have maxUnit (unit : UnitId) (all : ∀ each ∈ records ++ [data], each.unit ≤ unit)
      : max data.unit state.maxUnit ≤ unit :=
    max_le (latest all) (filling.maxUnit unit (earlier all))
  rw [Filling.add, if_neg inOrder]
  cases isFirst : data.ids.head? with
  | none =>
      have empty : data.ids = [] := List.head?_eq_none_iff.mp isFirst
      have same : listedUnits (records ++ [data]) = listedUnits records := by
        rw [listedUnits_append]
        funext key
        exact if_neg (by simp [empty, TrieArray.Listed])
      refine ⟨⟨state.heap, state.trie, data.unit, max data.unit state.maxUnit⟩, ?_,
        same ▸ filling.filled, ?_, ?_, lastUnit, maxUnit⟩
      · simp [TrieArray.insert, empty]
      · intro each member
        rcases List.mem_append.mp member with old | new
        · exact filling.covers each old
        · simp [List.mem_singleton.mp new, empty]
      · exact fun limit positive below => filling.reached limit positive (earlier below)
  | some first =>
      obtain ⟨last, isLast⟩ : ∃ last, data.ids.getLast? = some last := by
        obtain ⟨rest, isCons⟩ := List.head?_eq_some_iff.mp isFirst
        rw [isCons]
        exact ⟨_, List.getLast?_cons⟩
      have isMember := List.mem_of_getLast? isLast
      have small := filling.reached (2 ^ 32) (Nat.two_pow_pos 32) (earlier fits)
      obtain ⟨heap, trie, inserted, minkey, maxkey, filled⟩ :=
        TrieArray.insert_filled filling.filled sorted small (latest fits) isFirst isLast
      refine ⟨⟨heap, trie, data.unit, max data.unit state.maxUnit⟩, ?_,
        (listedUnits_append records data) ▸ filled, ?_, ?_, lastUnit, maxUnit⟩
      · rw [inserted]
        rfl
      · intro each member range isRange
        dsimp only
        rw [minkey, maxkey]
        rcases List.mem_append.mp member with old | new
        · have bounds := filling.covers each old range isRange
          lia
        · obtain rfl := List.mem_singleton.mp new
          have bounds := sorted.bounds isFirst isLast range isRange
          lia
      · intro limit positive below
        dsimp only
        rw [maxkey]
        exact max_lt (filling.reached limit positive (earlier below))
          (latest below last isMember)

/-- All rounds, by induction on the records left. -/
theorem Of.fill {rest : List OwnershipUnit} (filling : state.Of records)
    (ordered : OrderedRecords (records ++ rest))
    (fits : ∀ each ∈ records ++ rest, ∀ range ∈ each.ids, range.2 < 2 ^ 32)
    : ∃ final, rest.foldlM Filling.add state = some final ∧ final.Of (records ++ rest) := by
  induction rest generalizing records state with
  | nil => exact ⟨state, rfl, by simpa using filling⟩
  | cons data rest ih =>
      have shift : records ++ data :: rest = (records ++ [data]) ++ rest := by simp
      obtain ⟨next, added, after⟩ := filling.add
        (fun earlier member =>
          (List.pairwise_append.mp ordered.units).2.2 earlier member data List.mem_cons_self)
        (ordered.sorted data (by simp))
        (fun each member => fits each (by rw [shift]; exact List.mem_append_left _ member))
      rw [shift] at ordered fits ⊢
      obtain ⟨final, filled, finished⟩ := ih after ordered fits
      refine ⟨final, ?_, finished⟩
      rw [List.foldlM_cons, added]
      exact filled

end Filling

/-- `fillOwnership` records the units of every key. -/
theorem fillOwnership_of {records : List OwnershipUnit} (ordered : OrderedRecords records)
    (fits : ∀ data ∈ records, ∀ range ∈ data.ids, range.2 < 2 ^ 32)
    : ∃ filled, fillOwnership records = some filled ∧ filled.Of records :=
  Filling.start_of.fill ordered fits

end Glean.RTS
