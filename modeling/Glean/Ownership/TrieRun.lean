import Glean.Ownership.Flatten
import Glean.Ownership.TrieUnlinking

/-! Any sequence of insertions into the trie, against the table that has the value of each key. -/

namespace Glean.RTS

namespace TrieArray

-- The calls of an insertion

/-- A call of the function that combines values: the previous value, and what was returned. -/
abbrev Call := Option Addr × Addr

variable (get : Heap → Option Addr → Int → Heap × Addr)

/-- `unlink`, with the calls made so far. -/
def unlinkLogged (state : (Heap × Trees) × List Call) (owner : Option Addr) (keys : List Nat)
    : (Heap × Trees) × List Call :=
  let (heap, upd) := get state.1.1 owner 1
  ((heap.use upd (keys.length - 1),
      state.1.2.map (fun tree => if tree = .link owner then .value upd else tree)),
    state.2 ++ [(owner, upd)])

def unlinkValueLogged (state : (Heap × Trees) × List Call) (addr : Addr)
    : (Heap × Trees) × List Call :=
  match (state.1.1.objects addr).map Uset.link with
  | some (.trees keys) =>
      unlinkLogged get ((state.1.1.setLink addr .null, state.1.2), state.2) (some addr) keys
  | _ => state

/-- `insert`, with the calls it makes. -/
def insertLogged (trie : TrieArray) (heap : Heap) (ids : List (Id × Id))
    : Option ((Heap × TrieArray) × List Call) :=
  match ids.head?, ids.getLast? with
  | some first, some last =>
      let minkey := min trie.minkey first.1
      let maxkey := max trie.maxkey last.2
      if 2 ^ 32 ≤ maxkey then
        none
      else
        let (state, trees) := ids.foldl insertRange (⟨heap, [], []⟩, trie.trees)
        let unlinked :=
          if state.nullLink = [] then
            ((state.heap, trees), [])
          else
            unlinkLogged get ((state.heap, trees), []) none state.nullLink
        let ((heap, trees), calls) := state.values.foldl (unlinkValueLogged get) unlinked
        some ((heap, ⟨trees, minkey, maxkey⟩), calls)
  | _, _ => some ((heap, trie), [])

theorem unlinkValueLogged_fst (state : (Heap × Trees) × List Call) (addr : Addr)
    : (unlinkValueLogged get state addr).1 = unlinkValue get state.1 addr := by
  cases found : (state.1.1.objects addr).map Uset.link with
  | none => simp only [unlinkValueLogged, unlinkValue, found]
  | some link =>
      cases link with
      | null => simp only [unlinkValueLogged, unlinkValue, found]
      | uset other => simp only [unlinkValueLogged, unlinkValue, found]
      | trees keys =>
          simp only [unlinkValueLogged, unlinkValue, found]
          rfl

theorem foldl_unlinkValueLogged_fst (values : List Addr) (state : (Heap × Trees) × List Call)
    : (values.foldl (unlinkValueLogged get) state).1
      = values.foldl (unlinkValue get) state.1 := by
  induction values generalizing state with
  | nil => rfl
  | cons addr values ih =>
      rw [List.foldl_cons, List.foldl_cons, ih, unlinkValueLogged_fst]

/-- Keeping the calls changes nothing else. -/
theorem insertLogged_insert (trie : TrieArray) (heap : Heap) (ids : List (Id × Id))
    : (insertLogged get trie heap ids).map Prod.fst = trie.insert heap ids get := by
  cases isFirst : ids.head? with
  | none => simp only [insertLogged, insert, isFirst, Option.map_some]
  | some first =>
      cases isLast : ids.getLast? with
      | none => simp only [insertLogged, insert, isFirst, isLast, Option.map_some]
      | some last =>
          simp only [insertLogged, insert, isFirst, isLast]
          split_ifs with tooLarge empty
          · rfl
          · simp only [Option.map_some, foldl_unlinkValueLogged_fst]
          · simp only [Option.map_some, foldl_unlinkValueLogged_fst]
            rfl

variable {get}

-- The values of the keys

/-- A table with one value for each key after an insertion, given the calls that were made for the
previous values.
-/
def naive (table : Nat → Option Addr) (ids : List (Id × Id)) (calls : List Call) (key : Nat)
    : Option Addr :=
  if Listed ids key then calls.lookup (table key) else table key

/-- The keys of the ranges whose previous value has been combined have its new value, and trees on
lists are those of the other keys of the ranges.
-/
structure Naming (table : Nat → Option Addr) (ids : List (Id × Id)) (calls : List Call)
    (leaves : Multiset (Leaf TreePtr))
    : Prop where
  linked : ∀ leaf ∈ leaves, ∀ key, leaf.Contains key → ∀ owner, leaf.value = .link owner →
    Listed ids key ∧ table key = owner ∧ calls.lookup owner = none
  combined : ∀ leaf ∈ leaves, ∀ key, leaf.Contains key → ¬ leaf.value.IsLink → Listed ids key →
    ∃ upd, leaf.value = .value upd ∧ calls.lookup (table key) = some upd
  others : ∀ leaf ∈ leaves, ∀ key, leaf.Contains key → ¬ leaf.value.IsLink → ¬ Listed ids key →
    leaf.value.owner = table key

variable {table : Nat → Option Addr} {ids : List (Id × Id)} {calls : List Call}
  {leaves : Multiset (Leaf TreePtr)} {heap next : Heap} {trees treesNext : Trees}
  {callsNext : List Call} {todo : List Addr} {addr : Addr}

/-- The trees of a list get the new value. -/
theorem Naming.redirect (naming : Naming table ids calls leaves) (owner : Option Addr)
    (upd : Addr)
    : Naming table ids (calls ++ [(owner, upd)])
        (redirect (.link owner) (.value upd) leaves) := by
  have earlier {other : Option Addr} {found : Addr} (isFound : calls.lookup other = some found)
      : (calls ++ [(owner, upd)]).lookup other = some found := by
    rw [List.lookup_append, isFound]
    rfl
  refine ⟨fun leaf member key inside other isOther => ?_,
    fun leaf member key inside notLink isListed => ?_,
    fun leaf member key inside notLink unlisted => ?_⟩
  · obtain ⟨before, isLeaf, rfl⟩ := Multiset.mem_map.mp member
    by_cases isLink : before.value = .link owner
    · simp [Leaf.put, isLink] at isOther
    · simp only [Leaf.put, if_neg isLink] at isOther
      obtain ⟨isListed, isTable, fresh⟩ := naming.linked before isLeaf key inside other isOther
      have different : other ≠ owner := fun same => isLink (same ▸ isOther)
      have notSame : (other == owner) = false := beq_eq_false_iff_ne.mpr different
      refine ⟨isListed, isTable, ?_⟩
      rw [List.lookup_append, fresh, List.lookup_cons, notSame]
      rfl
  · obtain ⟨before, isLeaf, rfl⟩ := Multiset.mem_map.mp member
    by_cases isLink : before.value = .link owner
    · obtain ⟨-, isTable, fresh⟩ := naming.linked before isLeaf key inside owner isLink
      refine ⟨upd, by simp [Leaf.put, isLink], ?_⟩
      rw [isTable, List.lookup_append, fresh]
      simp
    · simp only [Leaf.put, if_neg isLink] at notLink ⊢
      obtain ⟨found, isValue, isFound⟩ :=
        naming.combined before isLeaf key inside notLink isListed
      exact ⟨found, isValue, earlier isFound⟩
  · obtain ⟨before, isLeaf, rfl⟩ := Multiset.mem_map.mp member
    by_cases isLink : before.value = .link owner
    · exact absurd (naming.linked before isLeaf key inside owner isLink).1 unlisted
    · simp only [Leaf.put, if_neg isLink] at notLink ⊢
      exact naming.others before isLeaf key inside notLink unlisted

/-- When no tree is on a list, the keys have the values of the table. -/
theorem Naming.owner (naming : Naming table ids calls leaves)
    (unmarked : ∀ leaf ∈ leaves, ¬ leaf.value.IsLink) {leaf : Leaf TreePtr}
    (member : leaf ∈ leaves) {key : Nat} (inside : leaf.Contains key)
    : leaf.value.owner = naive table ids calls key := by
  rw [naive]
  split_ifs with isListed
  · obtain ⟨upd, isValue, isFound⟩ :=
      naming.combined leaf member key inside (unmarked leaf member) isListed
    rw [isValue, isFound]
    rfl
  · exact naming.others leaf member key inside (unmarked leaf member) isListed

-- Unlinking

/-- A list of trees without a value. -/
theorem unlink_null {keys : List Nat} (combines : Combines get)
    (balanced : Balanced heap trees.leaves todo) (naming : Naming table ids calls trees.leaves)
    (nulls : pointers trees.leaves (.link none) = keys.length)
    (done : unlinkLogged get ((heap, trees), calls) none keys = ((next, treesNext), callsNext))
    : Balanced next treesNext.leaves todo ∧ Naming table ids callsNext treesNext.leaves
      ∧ pointers treesNext.leaves (.link none) = 0
      ∧ callsNext.map Prod.fst = calls.map Prod.fst ++ [none] := by
  have taken := balanced.takeNull nulls
  have transfers := combines heap none taken.below (fun addr isOwner => by cases isOwner)
  simp only [unlinkLogged, Prod.mk.injEq] at done
  obtain ⟨⟨rfl, rfl⟩, rfl⟩ := done
  rw [Trees.leaves_map]
  refine ⟨taken.give transfers, naming.redirect none _, ?_, by simp⟩
  exact (pointers_unlink _ _ trees.leaves _).trans (by simp)

/-- One round of the loop over the values seen. -/
theorem unlinkValue_round (combines : Combines get)
    (balanced : Balanced heap trees.leaves (addr :: todo))
    (naming : Naming table ids calls trees.leaves)
    (done : unlinkValueLogged get ((heap, trees), calls) addr = ((next, treesNext), callsNext))
    : Balanced next treesNext.leaves todo ∧ Naming table ids callsNext treesNext.leaves
      ∧ pointers treesNext.leaves (.link none) = pointers trees.leaves (.link none)
      ∧ callsNext.map Prod.fst = calls.map Prod.fst ++ [some addr] := by
  obtain ⟨keys, link, -⟩ := balanced.listing addr List.mem_cons_self
  have taken := balanced.take link
  have transfers := combines (heap.setLink addr .null) (some addr) taken.below
    (fun other isOwner => ⟨(taken.ready other isOwner).1, (taken.ready other isOwner).2.1⟩)
  obtain ⟨uset, stored⟩ := balanced.allocated List.mem_cons_self
  have isLink : (heap.objects addr).map Uset.link = some (.trees keys) := by
    rw [Heap.linkOf, stored, Option.map_some, Option.getD_some] at link
    rw [stored, Option.map_some, link]
  rw [unlinkValueLogged] at done
  dsimp only at done
  rw [isLink] at done
  simp only [unlinkLogged, Prod.mk.injEq] at done
  obtain ⟨⟨rfl, rfl⟩, rfl⟩ := done
  rw [Trees.leaves_map]
  refine ⟨taken.give transfers, naming.redirect (some addr) _, ?_, by simp⟩
  exact (pointers_unlink _ _ trees.leaves _).trans (by simp)

/-- The whole loop, by induction on the values left. -/
theorem unlinkValues_round (combines : Combines get)
    (balanced : Balanced heap trees.leaves todo) (naming : Naming table ids calls trees.leaves)
    (done : todo.foldl (unlinkValueLogged get) ((heap, trees), calls)
      = ((next, treesNext), callsNext))
    : Balanced next treesNext.leaves [] ∧ Naming table ids callsNext treesNext.leaves
      ∧ pointers treesNext.leaves (.link none) = pointers trees.leaves (.link none)
      ∧ callsNext.map Prod.fst = calls.map Prod.fst ++ todo.map some := by
  induction todo generalizing heap trees calls with
  | nil =>
      simp only [List.foldl_nil, Prod.mk.injEq] at done
      obtain ⟨⟨rfl, rfl⟩, rfl⟩ := done
      exact ⟨balanced, naming, rfl, by simp⟩
  | cons addr todo ih =>
      rw [List.foldl_cons] at done
      rcases once : unlinkValueLogged get ((heap, trees), calls) addr
        with ⟨⟨middle, treesMiddle⟩, callsMiddle⟩
      rw [once] at done
      obtain ⟨after, named, nulls, called⟩ := unlinkValue_round combines balanced naming once
      obtain ⟨finished, allNamed, allNulls, allCalled⟩ := ih after named done
      refine ⟨finished, allNamed, allNulls.trans nulls, ?_⟩
      rw [allCalled, called, List.append_assoc]
      rfl

-- The lists of an insertion

/-- No list is empty. -/
def NoEmptyLists (heap : Heap) : Prop :=
  ∀ addr, heap.linkOf addr ≠ .trees []

theorem noEmptyLists_setLink {keys : List Nat} (notNil : keys ≠ [])
    (noEmpty : NoEmptyLists heap)
    : NoEmptyLists (heap.setLink addr (.trees keys)) := by
  intro other
  rw [Heap.linkOf, Heap.setLink, Heap.objects_modify]
  split_ifs with same
  · cases heap.objects addr with
    | none => simp
    | some uset => simpa using notNil
  · exact noEmpty other

theorem noEmptyLists_use {refs : Int} (noEmpty : NoEmptyLists heap)
    : NoEmptyLists (heap.use addr refs) := by
  intro other
  rw [Heap.linkOf_use]
  exact noEmpty other

theorem insertVisit_noEmptyLists {state next : Inserting} {tree : TreePtr} {key size block : Nat}
    {result : Option TreePtr} (noEmpty : NoEmptyLists state.heap)
    (visited : insertVisit state tree key size block = (next, result))
    : NoEmptyLists next.heap := by
  unfold insertVisit at visited
  split_ifs at visited with whole
  · cases tree with
    | null => exact (Prod.mk.inj visited).1 ▸ noEmpty
    | link owner => exact (Prod.mk.inj visited).1 ▸ noEmpty
    | value addr =>
        dsimp only at visited
        split at visited
        · rw [← (Prod.mk.inj visited).1]
          exact noEmptyLists_use (noEmptyLists_setLink (List.cons_ne_nil _ _) noEmpty)
        · rw [← (Prod.mk.inj visited).1]
          exact noEmptyLists_setLink (List.cons_ne_nil _ _) noEmpty
  · cases tree with
    | null => exact (Prod.mk.inj visited).1 ▸ noEmpty
    | link owner => exact (Prod.mk.inj visited).1 ▸ noEmpty
    | value addr =>
        rw [← (Prod.mk.inj visited).1]
        exact noEmptyLists_use noEmpty

/-- Only a part of a leaf splits it. -/
theorem insertVisit_none {state next : Inserting} {tree : TreePtr} {key size block : Nat}
    (visited : insertVisit state tree key size block = (next, none))
    : size ≠ block := by
  intro whole
  unfold insertVisit at visited
  rw [if_pos whole] at visited
  cases tree with
  | null => cases (Prod.mk.inj visited).2
  | link owner => cases (Prod.mk.inj visited).2
  | value addr =>
      dsimp only at visited
      split at visited
      · cases (Prod.mk.inj visited).2
      · cases (Prod.mk.inj visited).2

theorem insertRange_noEmptyLists {state next : Inserting} {range : Id × Id}
    (fits : range.2 < 2 ^ 32) (noEmpty : NoEmptyLists state.heap)
    (inserted : insertRange (state, trees) range = (next, treesNext))
    : NoEmptyLists next.heap := by
  rw [insertRange] at inserted
  split_ifs at inserted with ordered
  · have keeps : BlockTree.Keeps 16 insertVisit range.1 (range.1 + (range.2 - range.1 + 1))
        (fun state _ _ => NoEmptyLists state.heap) := by
      refine ⟨fun _ _ _ _ noEmpty visited => insertVisit_noEmptyLists noEmpty visited,
        fun positive atKey stop _ noEmpty visited =>
          ⟨fun one => insertVisit_none visited (by omega), ?_⟩⟩
      exact insertVisit_noEmptyLists noEmpty visited
    exact Trees.traverse_keeps keeps (by lia) noEmpty inserted
  · exact (Prod.mk.inj inserted).1 ▸ noEmpty

/-- All ranges, by induction on the ranges left. -/
theorem insertRanges_noEmptyLists {state next : Inserting}
    (fits : ∀ range ∈ ids, range.2 < 2 ^ 32) (noEmpty : NoEmptyLists state.heap)
    (inserted : ids.foldl insertRange (state, trees) = (next, treesNext))
    : NoEmptyLists next.heap := by
  induction ids generalizing state trees with
  | nil => exact (Prod.mk.inj inserted).1 ▸ noEmpty
  | cons range ids ih =>
      rw [List.forall_mem_cons] at fits
      rw [List.foldl_cons] at inserted
      rcases once : insertRange (state, trees) range with ⟨middle, treesMiddle⟩
      rw [once] at inserted
      exact ih fits.2 (insertRange_noEmptyLists fits.1 noEmpty once) inserted

-- One insertion

/-- Between insertions each object counts the trees that point to it, no tree or object is linked,
and the trees have the values of the table.
-/
structure Exact (table : Nat → Option Addr) (heap : Heap) (trie : TrieArray) : Prop where
  balanced : Balanced heap trie.trees.leaves []
  unmarked : ∀ leaf ∈ trie.trees.leaves, ¬ leaf.value.IsLink
  owners : ∀ leaf ∈ trie.trees.leaves, ∀ key, leaf.Contains key → leaf.value.owner = table key
  bounds : ∀ key addr, table key = some addr → trie.minkey ≤ key ∧ key ≤ trie.maxkey
  top : (trie.maxkey < trie.minkey ∧ trie.maxkey = 0) ∨ ∃ addr, table trie.maxkey = some addr
  small : trie.maxkey < 2 ^ 32

theorem Exact.new {heap : Heap} (below : heap.Below)
    (unused : ∀ addr, heap.refsOf addr = 0 ∧ heap.linkOf addr = .null)
    : Exact (fun _ => none) heap TrieArray.new := by
  have absent (tree : TreePtr) (notNull : tree ≠ .null)
      : pointers TrieArray.new.trees.leaves tree = 0 := by
    refine Multiset.count_eq_zero.mpr (fun member => ?_)
    obtain ⟨leaf, isLeaf, isTree⟩ := Multiset.mem_map.mp member
    exact notNull (isTree.symm.trans (leaves_new leaf isLeaf))
  refine ⟨⟨below, List.nodup_nil, fun addr => ?_, fun addr _ => ⟨(unused addr).2, ?_⟩,
    fun addr member => (List.not_mem_nil member).elim⟩, fun leaf member => ?_,
    fun leaf member key _ => ?_, fun key addr isSome => (by cases isSome),
    .inl (by decide), by decide⟩
  · rw [(unused addr).1, absent _ (by simp)]
    simp
  · exact absent _ (by simp)
  · rintro ⟨owner, isLink⟩
    rw [leaves_new leaf member] at isLink
    cases isLink
  · rw [leaves_new leaf member]
    rfl

/-- A pointer that is counted is in a leaf, which has some key. -/
theorem exists_leaf_of_pointers {trees : Trees} {tree : TreePtr}
    (positive : 0 < pointers trees.leaves tree)
    : ∃ leaf ∈ trees.leaves, leaf.value = tree ∧ leaf.Contains leaf.start := by
  obtain ⟨leaf, member, isTree⟩ := Multiset.mem_map.mp (Multiset.count_pos.mp positive)
  refine ⟨leaf, member, isTree, Nat.le_refl _, ?_⟩
  unfold Trees.leaves at member
  have size := BlockTree.rowLeaf_size_pos member
  omega

theorem exists_leaf_of_key (trees : Trees) {key : Nat} (fits : key < 2 ^ 32)
    : ∃ leaf ∈ trees.leaves, leaf.Contains key ∧ leaf.value = BlockTree.rowGet trees key := by
  unfold Trees.leaves
  exact BlockTree.exists_rowLeaf trees fits

theorem SortedRanges.listed_bounds {key : Nat} {first last : Id × Id} (sorted : SortedRanges ids)
    (isFirst : ids.head? = some first) (isLast : ids.getLast? = some last)
    (isListed : Listed ids key)
    : first.1 ≤ key ∧ key ≤ last.2 := by
  obtain ⟨range, member, low, high⟩ := isListed
  have bounds := sorted.bounds isFirst isLast range member
  lia

theorem exists_lookup {owner : Option Addr} (isCalled : owner ∈ calls.map Prod.fst)
    : ∃ upd, calls.lookup owner = some upd := by
  cases found : calls.lookup owner with
  | some upd => exact ⟨upd, rfl⟩
  | none =>
      obtain ⟨call, member, isOwner⟩ := List.mem_map.mp isCalled
      have different := List.lookup_eq_none_iff.mp found call member
      simp [isOwner] at different

/-- What is on lists when the ranges have been visited: the previous values of their keys. -/
theorem linked_iff {state : Inserting} {heap : Heap} {treesNext : Trees}
    (fits : ∀ range ∈ ids, range.2 < 2 ^ 32)
    (linking : Linking (fun owner key => owner = table key) heap
      (fun key => False ∨ Listed ids key) state treesNext.leaves)
    (noEmpty : NoEmptyLists state.heap) (owner : Option Addr)
    : owner ∈ (if state.nullLink = [] then [] else [none]) ++ state.values.map some
      ↔ ∃ key, Listed ids key ∧ table key = owner := by
  have balanced := counts_iff_balanced.mp linking.counts
  have pointed : owner ∈ (if state.nullLink = [] then [] else [none]) ++ state.values.map some
      ↔ 0 < pointers treesNext.leaves (.link owner) := by
    cases owner with
    | none =>
        have nulls := linking.nulls
        rw [nulls, List.length_pos_iff]
        by_cases empty : state.nullLink = []
        · simp [empty]
        · simp [empty]
    | some addr =>
        have isMember : some addr ∈ (if state.nullLink = [] then [] else [none])
            ++ state.values.map some ↔ addr ∈ state.values := by
          by_cases empty : state.nullLink = []
          · simp [empty]
          · simp [empty]
        rw [isMember]
        by_cases member : addr ∈ state.values
        · obtain ⟨keys, link, linked⟩ := balanced.listing addr member
          have notNil : keys ≠ [] := fun isNil => noEmpty addr (isNil ▸ link)
          rw [linked, List.length_pos_iff]
          exact iff_of_true member notNil
        · rw [(balanced.settled addr member).2]
          exact iff_of_false member (Nat.lt_irrefl 0)
  rw [pointed]
  constructor
  · intro positive
    obtain ⟨leaf, member, isLink, inside⟩ := exists_leaf_of_pointers positive
    obtain ⟨holds, marked⟩ := linking.marks leaf member leaf.start inside
    rw [isLink, TreePtr.owner] at holds
    exact ⟨leaf.start, (marked.mp ⟨owner, isLink⟩).resolve_left id, holds.symm⟩
  · intro held
    obtain ⟨key, isListed, isOwner⟩ := held
    have inRange := isListed
    obtain ⟨range, inRanges, -, high⟩ := inRange
    obtain ⟨leaf, member, inside, -⟩ :=
      exists_leaf_of_key treesNext (Nat.lt_of_le_of_lt high (fits range inRanges))
    obtain ⟨holds, marked⟩ := linking.marks leaf member key inside
    obtain ⟨other, isLink⟩ := marked.mpr (.inr isListed)
    rw [isLink, TreePtr.owner] at holds
    rw [← isOwner, ← holds, ← isLink]
    exact pointers_pos member

/-- An insertion calls the function once for each previous value of its keys, and stores what it
returned for their previous values.
-/
theorem Exact.insert {heap : Heap} {trie : TrieArray} (exact : Exact table heap trie)
    (combines : Combines get) (sorted : SortedRanges ids)
    (fits : ∀ range ∈ ids, range.2 < 2 ^ 32)
    : ∃ next trieNext calls,
        insertLogged get trie heap ids = some ((next, trieNext), calls)
        ∧ Exact (naive table ids calls) next trieNext ∧ (calls.map Prod.fst).Nodup
        ∧ ∀ owner, owner ∈ calls.map Prod.fst ↔ ∃ key, Listed ids key ∧ table key = owner := by
  cases isFirst : ids.head? with
  | none =>
      have empty : ids = [] := List.head?_eq_none_iff.mp isFirst
      have same : naive table ids [] = table := by
        funext key
        exact if_neg (by simp [empty, Listed])
      refine ⟨heap, trie, [], by simp [insertLogged, empty], ?_, List.nodup_nil, ?_⟩
      · rw [same]
        exact exact
      · simp [empty, Listed]
  | some first =>
      obtain ⟨last, isLast⟩ : ∃ last, ids.getLast? = some last := by
        obtain ⟨rest, isCons⟩ := List.head?_eq_some_iff.mp isFirst
        rw [isCons]
        exact ⟨_, List.getLast?_cons⟩
      have isLastMember := List.mem_of_getLast? isLast
      have lastFits := fits last isLastMember
      have small := exact.small
      have room : ¬ 2 ^ 32 ≤ max trie.maxkey last.2 := by lia
      rcases collected : ids.foldl insertRange (⟨heap, [], []⟩, trie.trees) with ⟨state, trees⟩
      have start : Linking (fun owner key => owner = table key) heap (fun _ => False)
          ⟨heap, [], []⟩ trie.trees.leaves := by
        refine ⟨counts_iff_balanced.mpr exact.balanced, ?_, rfl, rfl,
          fun leaf member key inside => ⟨exact.owners leaf member key inside,
            iff_false_intro (exact.unmarked leaf member)⟩⟩
        refine Multiset.count_eq_zero.mpr (fun member => ?_)
        obtain ⟨leaf, isLeaf, isLink⟩ := Multiset.mem_map.mp member
        exact exact.unmarked leaf isLeaf ⟨none, isLink⟩
      have linking := insertRanges_linking sorted fits start (fun _ _ => id) collected
      have noEmpty : NoEmptyLists state.heap := by
        refine insertRanges_noEmptyLists fits (fun addr isEmpty => ?_) collected
        rw [(exact.balanced.settled addr List.not_mem_nil).1] at isEmpty
        cases isEmpty
      have owners := linked_iff fits linking noEmpty
      have balanced := counts_iff_balanced.mp linking.counts
      have naming : Naming table ids [] trees.leaves := by
        refine ⟨fun leaf member key inside owner isLink => ?_,
          fun leaf member key inside notLink isListed => ?_,
          fun leaf member key inside _ _ => (linking.marks leaf member key inside).1⟩
        · obtain ⟨holds, marked⟩ := linking.marks leaf member key inside
          rw [isLink, TreePtr.owner] at holds
          exact ⟨(marked.mp ⟨owner, isLink⟩).resolve_left id, holds.symm, rfl⟩
        · exact absurd ((linking.marks leaf member key inside).2.mpr (.inr isListed)) notLink
      -- the trees without a value come first
      obtain ⟨middle, treesMiddle, callsMiddle, isMiddle, after, named, nulls, called⟩ :
          ∃ middle treesMiddle callsMiddle,
            (if state.nullLink = [] then ((state.heap, trees), [])
              else unlinkLogged get ((state.heap, trees), []) none state.nullLink)
              = ((middle, treesMiddle), callsMiddle)
            ∧ Balanced middle treesMiddle.leaves state.values
            ∧ Naming table ids callsMiddle treesMiddle.leaves
            ∧ pointers treesMiddle.leaves (.link none) = 0
            ∧ callsMiddle.map Prod.fst = if state.nullLink = [] then [] else [none] := by
        split_ifs with empty
        · refine ⟨state.heap, trees, [], rfl, balanced, naming, ?_, rfl⟩
          rw [linking.nulls, empty, List.length_nil]
        · rcases done : unlinkLogged get ((state.heap, trees), []) none state.nullLink
            with ⟨⟨middle, treesMiddle⟩, callsMiddle⟩
          exact ⟨middle, treesMiddle, callsMiddle, rfl,
            unlink_null combines balanced naming linking.nulls done⟩
      rcases done : state.values.foldl (unlinkValueLogged get)
        ((middle, treesMiddle), callsMiddle) with ⟨⟨next, treesNext⟩, calls⟩
      obtain ⟨finished, allNamed, sameNulls, allCalled⟩ :=
        unlinkValues_round combines after named done
      have unmarked (leaf : Leaf TreePtr) (member : leaf ∈ treesNext.leaves)
          : ¬ leaf.value.IsLink := by
        rintro ⟨owner, isLink⟩
        have positive := pointers_pos member
        rw [isLink] at positive
        cases owner with
        | none => omega
        | some addr =>
            have unlinked := (finished.settled addr List.not_mem_nil).2
            omega
      rw [called] at allCalled
      refine ⟨next, ⟨treesNext, min trie.minkey first.1, max trie.maxkey last.2⟩, calls, ?_,
        ⟨finished, unmarked, fun leaf member key inside => allNamed.owner unmarked member inside,
          fun key addr isValue => ?_, .inr ?_, by dsimp only; lia⟩, ?_, fun owner => ?_⟩
      · simp only [insertLogged, isFirst, isLast, if_neg room, collected, isMiddle, done]
      · dsimp only
        rw [naive] at isValue
        split_ifs at isValue with isListed
        · have bounds := sorted.listed_bounds isFirst isLast isListed
          lia
        · have bounds := exact.bounds key addr isValue
          lia
      · dsimp only
        by_cases isListed : Listed ids (max trie.maxkey last.2)
        · have isCalled := (owners (table (max trie.maxkey last.2))).mpr ⟨_, isListed, rfl⟩
          rw [← allCalled] at isCalled
          rw [naive, if_pos isListed]
          exact exists_lookup isCalled
        · have lastListed : Listed ids last.2 :=
            ⟨last, isLastMember, sorted.ordered last isLastMember, Nat.le_refl _⟩
          have isOld : max trie.maxkey last.2 = trie.maxkey := by
            rcases Nat.le_total trie.maxkey last.2 with lower | higher
            · rw [Nat.max_eq_right lower] at isListed
              exact absurd lastListed isListed
            · exact Nat.max_eq_left higher
          rw [naive, if_neg isListed, isOld]
          rcases exact.top with empty | held
          · have same : last.2 = max trie.maxkey last.2 := by lia
            exact absurd (same ▸ lastListed) isListed
          · exact held
      · rw [allCalled]
        have distinct : (state.values.map some).Nodup :=
          balanced.distinct.map (fun _ _ same => Option.some_inj.mp same)
        split_ifs with empty
        · exact distinct
        · exact List.nodup_cons.mpr ⟨by simp, distinct⟩
      · rw [allCalled]
        exact owners owner

end TrieArray

-- Flattening

/-- The objects of the container. -/
def Usets.memory (usets : Usets) : Heap := ⟨usets.heap, usets.fresh⟩

/-- The number of trees with a value that have not been visited yet. -/
def unvisited (leaves : Multiset (Leaf TreePtr)) (next : Nat) (addr : Addr) : Nat :=
  leaves.countP (fun leaf => leaf.value = .value addr ∧ next ≤ leaf.start)

theorem unvisited_cons (leaf : Leaf TreePtr) (rest : Multiset (Leaf TreePtr)) (next : Nat)
    (addr : Addr)
    : unvisited (leaf ::ₘ rest) next addr
      = unvisited rest next addr
        + if leaf.value = .value addr ∧ next ≤ leaf.start then 1 else 0 := by
  rw [unvisited, Multiset.countP_cons, unvisited]

/-- The state of `flatten` when the trees up to a key have been visited: the vector has the values
of the keys so far, and each value counts them and the trees not visited.
-/
structure FlattenedTo (table : Nat → Option Addr) (first last : Nat)
    (state : Usets × (Id → Option Addr)) (leaves : Multiset (Leaf TreePtr)) (next : Nat)
    : Prop where
  unmarked : ∀ leaf ∈ leaves, ¬ leaf.value.IsLink
  owners : ∀ leaf ∈ leaves, ∀ key, leaf.Contains key → leaf.value.owner = table key
  positive : ∀ leaf ∈ leaves, 0 < leaf.size
  within : ∀ leaf ∈ leaves, ∀ addr, leaf.value = .value addr →
    first ≤ leaf.start ∧ leaf.start + leaf.size ≤ last
  refs : ∀ addr,
    state.1.memory.refsOf addr = holders state.2 last addr + unvisited leaves next addr
  links : ∀ addr, state.1.memory.linkOf addr = .null
  sets : ∀ id, state.2 id = if first ≤ id ∧ id < next then table id else none

namespace FlattenedTo

variable {table : Nat → Option Addr} {first last : Nat} {state : Usets × (Id → Option Addr)}
  {leaf : Leaf TreePtr} {rest leaves : Multiset (Leaf TreePtr)} {key size : Nat}

/-- The trees after a leaf are not visited with it. -/
theorem unvisited_rest (flattened : FlattenedTo table first last state (leaf ::ₘ rest) key)
    (atKey : key = max first leaf.start) (stop : key + size = min last (leaf.start + leaf.size))
    (apart : ∀ other ∈ rest, leaf.Apart other) (addr : Addr)
    : unvisited rest (key + size) addr = unvisited rest key addr := by
  refine Multiset.countP_congr rfl (fun other member => ?_)
  have positive := flattened.positive other (Multiset.mem_cons_of_mem member)
  refine propext (and_congr_right (fun isValue => ?_))
  have within := flattened.within other (Multiset.mem_cons_of_mem member) addr isValue
  rcases apart other member with after | before
  · omega
  · omega

/-- The keys of a leaf get its value. -/
theorem sets_fill (flattened : FlattenedTo table first last state (leaf ::ₘ rest) key)
    (atKey : key = max first leaf.start) (stop : key + size = min last (leaf.start + leaf.size))
    (id : Id)
    : (if key ≤ id ∧ id < key + size then leaf.value.owner else state.2 id)
      = if first ≤ id ∧ id < key + size then table id else none := by
  by_cases inside : key ≤ id ∧ id < key + size
  · have isFirst : first ≤ id ∧ id < key + size := ⟨by lia, inside.2⟩
    rw [if_pos inside, if_pos isFirst]
    exact flattened.owners leaf (Multiset.mem_cons_self _ _) id ⟨by lia, by lia⟩
  · rw [if_neg inside, flattened.sets]
    by_cases earlier : first ≤ id ∧ id < key
    · rw [if_pos earlier, if_pos ⟨earlier.1, by lia⟩]
    · rw [if_neg earlier, if_neg (by lia)]

/-- Every call of the function that `flatten` gives to `traverse` keeps the invariant. -/
theorem visit_keeps
    : BlockTree.Keeps 16 flattenVisit first last (FlattenedTo table first last) where
  put := by
    intro state next leaf rest key size value positive atKey stop apart flattened visited
    have isLeaf : leaf ∈ leaf ::ₘ rest := Multiset.mem_cons_self _ _
    have unvisited_rest := flattened.unvisited_rest atKey stop apart
    have sets := flattened.sets_fill atKey stop
    have empty (id : Id) (low : key ≤ id) : state.2 id = none := by
      rw [flattened.sets, if_neg (by lia)]
    cases tree : leaf.value with
    | link owner => exact (flattened.unmarked leaf isLeaf ⟨owner, tree⟩).elim
    | null =>
        have same : leaf.put .null = leaf := by
          rw [← tree]
          rfl
        rw [tree] at visited sets
        simp only [flattenVisit, Prod.mk.injEq, Option.some.injEq] at visited
        obtain ⟨rfl, rfl⟩ := visited
        rw [same]
        refine ⟨flattened.unmarked, flattened.owners, flattened.positive, flattened.within,
          fun addr => ?_, flattened.links, sets⟩
        have filled := holders_fill (fun id low _ => empty id low)
          (show key + size ≤ last by omega) none addr
        have refs := flattened.refs addr
        rw [unvisited_cons, tree, if_neg (by simp)] at refs ⊢
        rw [if_neg (by simp)] at filled
        rw [unvisited_rest, filled]
        exact refs
    | value addr =>
        have same : leaf.put (.value addr) = leaf := by
          rw [← tree]
          rfl
        obtain ⟨low, high⟩ := flattened.within leaf isLeaf addr tree
        rw [tree] at visited sets
        simp only [flattenVisit, Prod.mk.injEq, Option.some.injEq] at visited
        obtain ⟨rfl, rfl⟩ := visited
        rw [same]
        have counted := flattened.refs addr
        rw [unvisited_cons, if_pos ⟨tree, by omega⟩] at counted
        obtain ⟨uset, stored⟩ : ∃ uset, state.1.memory.objects addr = some uset := by
          cases found : state.1.memory.objects addr with
          | some uset => exact ⟨uset, rfl⟩
          | none =>
              rw [Heap.refsOf, found] at counted
              simp only [Option.map_none, Option.getD_none] at counted
              omega
        refine ⟨flattened.unmarked, flattened.owners, flattened.positive, flattened.within,
          fun other => ?_, fun other => ?_, sets⟩
        · have filled := holders_fill (fun id low _ => empty id low)
            (show key + size ≤ last by omega) (some addr) other
          have refs := flattened.refs other
          have used : (state.1.use addr (size - 1)).memory
              = state.1.memory.use addr (size - 1) := rfl
          dsimp only
          rw [used, Heap.refsOf_use _ _ _ stored, filled]
          rw [unvisited_cons, tree] at refs ⊢
          rw [unvisited_rest]
          by_cases isOther : addr = other
          · subst isOther
            simp only [true_and, if_true] at refs ⊢
            rw [if_pos (by omega)] at refs
            rw [if_neg (by omega)]
            push_cast at refs ⊢
            omega
          · simp only [TreePtr.value.injEq, Option.some.injEq, isOther, false_and, if_false]
              at refs ⊢
            push_cast at refs ⊢
            omega
        · exact (Heap.linkOf_use state.1.memory addr other _).trans (flattened.links other)
  split := by
    intro state next leaf rest key size _ _ _ _ _ visited
    cases tree : leaf.value with
    | null => simp [flattenVisit, tree] at visited
    | link owner => simp [flattenVisit, tree] at visited
    | value addr => simp [flattenVisit, tree] at visited

end FlattenedTo

/-- The vector is the table, up to its largest key, and each value counts its keys. -/
structure IsTable (table : Nat → Option Addr) (usets : Usets) (facts : UsetVector) : Prop where
  sets : facts.sets = table
  inside : ∀ key addr, table key = some addr → key < facts.size
  largest : 0 < facts.size → ∃ addr, table (facts.size - 1) = some addr
  refs : ∀ addr, usets.memory.refsOf addr = holders table facts.size addr
  links : ∀ addr, usets.memory.linkOf addr = .null

theorem flatten_isTable {table : Nat → Option Addr} {heap : Heap} {trie : TrieArray}
    {usets next : Usets} {facts : UsetVector} (exact : TrieArray.Exact table heap trie)
    (isHeap : usets.heap = heap.objects) (flattened : flatten usets trie = (next, facts))
    : IsTable table next facts := by
  have refs (addr : Addr) : usets.memory.refsOf addr = heap.refsOf addr := by
    rw [Heap.refsOf, Heap.refsOf, Usets.memory, isHeap]
  have links (addr : Addr) : usets.memory.linkOf addr = .null := by
    rw [Heap.linkOf, Usets.memory, isHeap]
    exact (exact.balanced.settled addr List.not_mem_nil).1
  have counted (addr : Addr)
      : usets.memory.refsOf addr = pointers trie.trees.leaves (.value addr) := by
    rw [refs, exact.balanced.refs]
    simp
  unfold flatten TrieArray.traverse at flattened
  by_cases empty : trie.maxkey < trie.minkey
  · have noValue (key : Nat) : table key = none := by
      cases isValue : table key with
      | none => rfl
      | some addr =>
          have bounds := exact.bounds key addr isValue
          lia
    simp only [if_pos empty, Prod.mk.injEq] at flattened
    obtain ⟨rfl, rfl⟩ := flattened
    refine ⟨(funext noValue).symm, fun key addr isValue => ?_, fun positive => ?_, fun addr => ?_,
      links⟩
    · rw [noValue] at isValue
      cases isValue
    · cases positive
    · have none : pointers trie.trees.leaves (.value addr) = 0 := by
        by_contra some
        obtain ⟨leaf, member, isValue, inside⟩ :=
          TrieArray.exists_leaf_of_pointers (Nat.pos_of_ne_zero some)
        have isOwner := exact.owners leaf member leaf.start inside
        rw [isValue, noValue] at isOwner
        cases isOwner
      rw [counted, none]
      simp [holders]
  · have order : trie.minkey ≤ trie.maxkey := Nat.not_lt.mp empty
    have stop : trie.minkey + (trie.maxkey - trie.minkey + 1) = trie.maxkey + 1 := by omega
    have within (leaf : Leaf TreePtr) (member : leaf ∈ trie.trees.leaves) (addr : Addr)
        (isValue : leaf.value = .value addr)
        : 0 < leaf.size ∧ trie.minkey ≤ leaf.start
          ∧ leaf.start + leaf.size ≤ trie.minkey + (trie.maxkey - trie.minkey + 1) := by
      have positive : 0 < leaf.size := by
        unfold Trees.leaves at member
        exact BlockTree.rowLeaf_size_pos member
      have held (key : Nat) (inside : leaf.Contains key) : table key = some addr := by
        rw [← exact.owners leaf member key inside, isValue]
        rfl
      have lowest := exact.bounds _ addr (held leaf.start ⟨Nat.le_refl _, by omega⟩)
      have highest := exact.bounds _ addr
        (held (leaf.start + leaf.size - 1) ⟨by omega, by omega⟩)
      omega
    have start : FlattenedTo table trie.minkey
        (trie.minkey + (trie.maxkey - trie.minkey + 1)) (usets, fun _ => none) trie.trees.leaves
        trie.minkey := by
      refine ⟨exact.unmarked, exact.owners, fun leaf member => ?_,
        fun leaf member addr isValue => (within leaf member addr isValue).2,
        fun addr => ?_, links, fun id => ?_⟩
      · unfold Trees.leaves at member
        exact BlockTree.rowLeaf_size_pos member
      · have all : unvisited trie.trees.leaves trie.minkey addr
            = pointers trie.trees.leaves (.value addr) := by
          rw [pointers, Multiset.count_map, unvisited, Multiset.countP_eq_card_filter]
          refine congrArg Multiset.card (Multiset.filter_congr (fun leaf member => ?_))
          constructor
          · exact fun waits => waits.1.symm
          · exact fun isValue => ⟨isValue.symm, (within leaf member addr isValue.symm).2.1⟩
        rw [counted, holders_none, all]
        simp
      · rw [if_neg (by lia)]
    rcases visited : Trees.traverse flattenVisit (usets, fun _ => none) trie.trees trie.minkey
      (trie.maxkey - trie.minkey + 1) with ⟨⟨after, sets⟩, trees⟩
    simp only [if_neg empty, if_pos order, visited, Prod.mk.injEq] at flattened
    obtain ⟨rfl, rfl⟩ := flattened
    have kept := Trees.traverse_keeps FlattenedTo.visit_keeps
      (by have small := exact.small; omega) start visited
    rw [stop] at kept
    have isTable : sets = table := by
      funext id
      refine (kept.sets id).trans ?_
      split_ifs with inside
      · rfl
      · cases isValue : table id with
        | none => rfl
        | some addr =>
            have bounds := exact.bounds id addr isValue
            lia
    refine ⟨isTable, fun key addr isValue => ?_, fun _ => ?_, fun addr => ?_, kept.links⟩
    · exact Nat.lt_succ_of_le (exact.bounds key addr isValue).2
    · exact exact.top.resolve_left (fun isEmpty => empty isEmpty.1)
    · have refs := kept.refs addr
      have none : unvisited trees.leaves (trie.maxkey + 1) addr = 0 := by
        refine Multiset.countP_eq_zero.mpr (fun leaf member waits => ?_)
        have inside := kept.within leaf member addr waits.1
        have positive := kept.positive leaf member
        have after := waits.2
        omega
      rw [none, isTable] at refs
      simpa using refs

-- Any sequence of insertions

namespace TrieArray

structure Insertion where
  ids : List (Id × Id)
  get : Heap → Option Addr → Int → Heap × Addr

/-- Sorted ranges of 32-bit ids, and a function that combines values. -/
structure Insertion.Allowed (insertion : Insertion) : Prop where
  sorted : SortedRanges insertion.ids
  fits : ∀ range ∈ insertion.ids, range.2 < 2 ^ 32
  combines : Combines insertion.get

/-- The trie, next to a table with a value for each key. -/
structure Running where
  heap : Heap
  trie : TrieArray
  table : Nat → Option Addr

def Running.insert (state : Running) (insertion : Insertion) : Option Running :=
  (insertLogged insertion.get state.trie state.heap insertion.ids).map
    fun ((heap, trie), calls) => ⟨heap, trie, naive state.table insertion.ids calls⟩

def Running.Exact (state : Running) : Prop :=
  TrieArray.Exact state.table state.heap state.trie

theorem Running.Exact.insert {state : Running} {insertion : Insertion} (exact : state.Exact)
    (allowed : insertion.Allowed)
    : ∃ next, state.insert insertion = some next ∧ next.Exact := by
  obtain ⟨heap, trie, calls, inserted, isExact, -⟩ :=
    TrieArray.Exact.insert exact allowed.combines allowed.sorted allowed.fits
  refine ⟨⟨heap, trie, naive state.table insertion.ids calls⟩, ?_, isExact⟩
  rw [Running.insert, inserted]
  rfl

/-- All insertions, by induction on those left. -/
theorem Running.Exact.run {state : Running} {insertions : List Insertion} (exact : state.Exact)
    (allowed : ∀ insertion ∈ insertions, insertion.Allowed)
    : ∃ final, insertions.foldlM Running.insert state = some final ∧ final.Exact := by
  induction insertions generalizing state with
  | nil => exact ⟨state, rfl, exact⟩
  | cons insertion insertions ih =>
      rw [List.forall_mem_cons] at allowed
      obtain ⟨next, inserted, isExact⟩ := exact.insert allowed.1
      obtain ⟨final, ran, isFinal⟩ := ih isExact allowed.2
      refine ⟨final, ?_, isFinal⟩
      rw [List.foldlM_cons, inserted]
      exact ran

end TrieArray

end Glean.RTS
