import Glean.Ownership.TrieArray
import Mathlib.Tactic.Ring

/-! Reference counts of the trie. Every set counts the trees that point to it, and while an
insertion collects the trees of its ranges on lists, a set counts the list it owns once.
-/

namespace Glean.RTS

/-- The set that a tree stands for: its value, or the value it had before it went on a list. -/
def TreePtr.owner : TreePtr → Option Addr
  | .null => none
  | .value addr => some addr
  | .link owner => owner

def TreePtr.IsLink (tree : TreePtr) : Prop :=
  ∃ owner, tree = .link owner

/-- The number of leaves with a pointer. -/
def pointers (leaves : Multiset (Leaf TreePtr)) (tree : TreePtr) : Nat :=
  (leaves.map Leaf.value).count tree

@[simp]
theorem pointers_cons (leaf : Leaf TreePtr) (rest : Multiset (Leaf TreePtr)) (tree : TreePtr)
    : pointers (leaf ::ₘ rest) tree = pointers rest tree + if tree = leaf.value then 1 else 0 := by
  rw [pointers, Multiset.map_cons, Multiset.count_cons, pointers]

@[simp]
theorem pointers_split (leaf : Leaf TreePtr) (rest : Multiset (Leaf TreePtr)) (tree : TreePtr)
    : pointers (leaf.split 16 + rest) tree
      = pointers rest tree + if tree = leaf.value then 16 else 0 := by
  rw [pointers, Multiset.map_add, Leaf.map_value_split, Multiset.count_add,
    Multiset.count_replicate, pointers, Nat.add_comm]
  simp only [eq_comm]

theorem pointers_pos {leaves : Multiset (Leaf TreePtr)} {leaf : Leaf TreePtr}
    (member : leaf ∈ leaves)
    : 0 < pointers leaves leaf.value :=
  Multiset.count_pos.mpr (Multiset.mem_map_of_mem _ member)

theorem Heap.objects_modify (heap : Heap) (addr : Addr) (f : Uset → Uset) (other : Addr)
    : (heap.modify addr f).objects other
      = if other = addr then (heap.objects addr).map f else heap.objects other := by
  simp only [Heap.modify, Function.update_apply]

/-- What an object says, without the bookkeeping of the trie. -/
def Uset.content (uset : Uset) : SetExpr × UsetId :=
  (uset.exp, uset.id)

def Heap.content (heap : Heap) (addr : Addr) : Option (SetExpr × UsetId) :=
  (heap.objects addr).map Uset.content

theorem Heap.content_modify (heap : Heap) (addr : Addr) {f : Uset → Uset}
    (keeps : ∀ uset, (f uset).content = uset.content)
    : (heap.modify addr f).content = heap.content := by
  funext other
  rw [content, objects_modify]
  split_ifs with same
  · subst same
    cases stored : heap.objects other <;> simp [content, stored, keeps]
  · rfl

/-- A set that is on no list: it counts the trees with its value. -/
structure Settled (leaves : Multiset (Leaf TreePtr)) (addr : Addr) (uset : Uset) : Prop where
  link : uset.link = .null
  refs : uset.refs = pointers leaves (.value addr)
  unlinked : pointers leaves (.link (some addr)) = 0

/-- A set that owns a list of trees, and counts one more than the trees with its value. -/
structure Listing (leaves : Multiset (Leaf TreePtr)) (addr : Addr) (uset : Uset)
    (keys : List Nat)
    : Prop where
  link : uset.link = .trees keys
  refs : uset.refs = pointers leaves (.value addr) + 1
  linked : pointers leaves (.link (some addr)) = keys.length

/-- Every set counts the leaves that point to it; the listed ones own lists. -/
structure Counts (heap : Heap) (leaves : Multiset (Leaf TreePtr)) (listed : List Addr)
    : Prop where
  below : ∀ addr uset, heap.objects addr = some uset → addr < heap.fresh
  free
    : ∀ addr, heap.objects addr = none →
        addr ∉ listed ∧ pointers leaves (.value addr) = 0 ∧ pointers leaves (.link (some addr)) = 0
  distinct : listed.Nodup
  settled
    : ∀ addr uset, heap.objects addr = some uset → addr ∉ listed → Settled leaves addr uset
  listing
    : ∀ addr uset, heap.objects addr = some uset → addr ∈ listed →
        ∃ keys, Listing leaves addr uset keys

namespace Counts

variable {heap next : Heap} {leaves leavesNext rest : Multiset (Leaf TreePtr)}
  {listed listedNext : List Addr} {leaf : Leaf TreePtr} {addr : Addr} {uset : Uset}

/-- Trees point to allocated sets. -/
theorem allocated (counts : Counts heap leaves listed) (member : leaf ∈ leaves)
    (isOwner : leaf.value.owner = some addr)
    : ∃ uset, heap.objects addr = some uset := by
  cases stored : heap.objects addr with
  | some uset => exact ⟨uset, rfl⟩
  | none =>
      obtain ⟨-, values, links⟩ := counts.free addr stored
      have positive := pointers_pos member
      cases value : leaf.value with
      | null => simp [TreePtr.owner, value] at isOwner
      | value other =>
          simp only [TreePtr.owner, value, Option.some.injEq] at isOwner
          rw [value, isOwner] at positive
          omega
      | link owner =>
          simp only [TreePtr.owner, value] at isOwner
          rw [value, isOwner] at positive
          omega

/-- What has to be shown for a step that changes the sets at some addresses and the trees that
point to them.
-/
theorem step (counts : Counts heap leaves listed) (touched : Addr → Prop)
    (fresh : heap.fresh ≤ next.fresh) (distinct : listedNext.Nodup)
    (same : ∀ addr, ¬ touched addr → next.objects addr = heap.objects addr
      ∧ pointers leavesNext (.value addr) = pointers leaves (.value addr)
      ∧ pointers leavesNext (.link (some addr)) = pointers leaves (.link (some addr))
      ∧ (addr ∈ listedNext ↔ addr ∈ listed))
    (new : ∀ addr, touched addr → ∃ uset, next.objects addr = some uset ∧ addr < next.fresh
      ∧ (addr ∉ listedNext → Settled leavesNext addr uset)
      ∧ (addr ∈ listedNext → ∃ keys, Listing leavesNext addr uset keys))
    : Counts next leavesNext listedNext where
  distinct := distinct
  below := by
    intro addr uset stored
    by_cases isTouched : touched addr
    · obtain ⟨_, -, below, -⟩ := new addr isTouched
      exact below
    · rw [(same addr isTouched).1] at stored
      exact Nat.lt_of_lt_of_le (counts.below addr uset stored) fresh
  free := by
    intro addr stored
    by_cases isTouched : touched addr
    · obtain ⟨_, isStored, -⟩ := new addr isTouched
      rw [stored] at isStored
      cases isStored
    · obtain ⟨objects, values, links, isListed⟩ := same addr isTouched
      rw [values, links, isListed]
      exact counts.free addr (objects.symm.trans stored)
  settled := by
    intro addr uset stored unlisted
    by_cases isTouched : touched addr
    · obtain ⟨_, isStored, -, settled, -⟩ := new addr isTouched
      cases isStored.symm.trans stored
      exact settled unlisted
    · obtain ⟨objects, values, links, isListed⟩ := same addr isTouched
      have before := counts.settled addr uset (objects.symm.trans stored)
        (fun member => unlisted (isListed.mpr member))
      exact ⟨before.link, values ▸ before.refs, links ▸ before.unlinked⟩
  listing := by
    intro addr uset stored member
    by_cases isTouched : touched addr
    · obtain ⟨_, isStored, -, -, listing⟩ := new addr isTouched
      cases isStored.symm.trans stored
      exact listing member
    · obtain ⟨objects, values, links, isListed⟩ := same addr isTouched
      obtain ⟨keys, before⟩ := counts.listing addr uset (objects.symm.trans stored)
        (isListed.mp member)
      exact ⟨keys, before.link, values ▸ before.refs, links ▸ before.linked⟩

/-- A tree is the first on the list of its value. -/
theorem linkFirst (counts : Counts heap (leaf ::ₘ rest) listed)
    (isValue : leaf.value = .value addr) (stored : heap.objects addr = some uset)
    (unlisted : addr ∉ listed) (key : Nat)
    : Counts (heap.setLink addr (.trees [key])) (leaf.put (.link (some addr)) ::ₘ rest)
        (listed ++ [addr]) := by
  have before := counts.settled addr uset stored unlisted
  have refs := before.refs
  have unlinked := before.unlinked
  simp only [pointers_cons, isValue, if_pos, reduceCtorEq, if_false] at refs unlinked
  refine counts.step (fun other => other = addr) (Nat.le_refl _) ?_ ?_ ?_
  · exact List.Nodup.append counts.distinct (List.nodup_singleton _) (by simpa using unlisted)
  · intro other different
    simp [Heap.setLink, Heap.objects_modify, Leaf.put, isValue, different]
  · rintro _ rfl
    refine ⟨{ uset with link := .trees [key] }, ?_, counts.below _ _ stored, ?_, ?_⟩
    · simp [Heap.setLink, Heap.objects_modify, stored]
    · simp
    · intro _
      refine ⟨[key], rfl, ?_, ?_⟩
      · simpa [Leaf.put] using refs
      · simpa [Leaf.put] using unlinked

/-- A tree is put on the list of its value. -/
theorem linkAgain (counts : Counts heap (leaf ::ₘ rest) listed)
    (isValue : leaf.value = .value addr) (stored : heap.objects addr = some uset)
    {keys : List Nat} (isLinked : uset.link = .trees keys) (member : addr ∈ listed) (key : Nat)
    : Counts ((heap.setLink addr (.trees (key :: keys))).use addr (-1))
        (leaf.put (.link (some addr)) ::ₘ rest) listed := by
  obtain ⟨known, before⟩ := counts.listing addr uset stored member
  obtain rfl : known = keys := by
    have same := before.link.symm.trans isLinked
    simpa using same
  have refs := before.refs
  have linked := before.linked
  simp only [pointers_cons, isValue, if_pos, reduceCtorEq, if_false] at refs linked
  refine counts.step (fun other => other = addr) (Nat.le_refl _) counts.distinct ?_ ?_
  · intro other different
    simp [Heap.setLink, Heap.use, Heap.objects_modify, Leaf.put, isValue, different]
  · rintro _ rfl
    refine ⟨{ uset with link := .trees (key :: known), refs := uset.refs + -1 }, ?_,
      counts.below _ _ stored, fun unlisted => (unlisted member).elim, fun _ => ?_⟩
    · simp [Heap.setLink, Heap.use, Heap.objects_modify, stored]
    · refine ⟨key :: known, rfl, ?_, ?_⟩
      · simp only [pointers_cons, Leaf.put, reduceCtorEq, if_false]
        push_cast at refs ⊢
        omega
      · simp only [pointers_cons, Leaf.put, if_true, List.length_cons]
        omega

/-- A tree without a value may change in any way that does not concern values. -/
theorem linkNull (counts : Counts heap (leaf ::ₘ rest) listed) (isNull : leaf.value = .null)
    : Counts heap (leaf.put (.link none) ::ₘ rest) listed := by
  refine counts.step (fun _ => False) (Nat.le_refl _) counts.distinct ?_ (fun _ => False.elim)
  intro other _
  simp [Leaf.put, isNull]

/-- A split makes sixteen trees of one. -/
theorem splitValue (counts : Counts heap (leaf ::ₘ rest) listed)
    (isValue : leaf.value = .value addr) (stored : heap.objects addr = some uset)
    : Counts (heap.use addr 15) (leaf.split 16 + rest) listed := by
  refine counts.step (fun other => other = addr) (Nat.le_refl _) counts.distinct ?_ ?_
  · intro other different
    simp [Heap.use, Heap.objects_modify, isValue, different]
  · rintro _ rfl
    refine ⟨{ uset with refs := uset.refs + 15 }, ?_, counts.below _ _ stored, ?_, ?_⟩
    · simp [Heap.use, Heap.objects_modify, stored]
    · intro unlisted
      have before := counts.settled _ uset stored unlisted
      have refs := before.refs
      have unlinked := before.unlinked
      simp only [pointers_cons, isValue, if_true, reduceCtorEq, if_false] at refs unlinked
      refine ⟨before.link, ?_, ?_⟩
      · simp only [pointers_split, isValue, if_true]
        push_cast at refs ⊢
        omega
      · simpa [isValue] using unlinked
    · intro member
      obtain ⟨keys, before⟩ := counts.listing _ uset stored member
      have refs := before.refs
      have linked := before.linked
      simp only [pointers_cons, isValue, if_true, reduceCtorEq, if_false] at refs linked
      refine ⟨keys, before.link, ?_, ?_⟩
      · simp only [pointers_split, isValue, if_true]
        push_cast at refs ⊢
        omega
      · simpa [isValue] using linked

theorem splitNull (counts : Counts heap (leaf ::ₘ rest) listed) (isNull : leaf.value = .null)
    : Counts heap (leaf.split 16 + rest) listed := by
  refine counts.step (fun _ => False) (Nat.le_refl _) counts.distinct ?_ (fun _ => False.elim)
  intro other _
  simp [isNull]

end Counts

namespace TrieArray

variable {Holds : Option Addr → Nat → Prop} {start : Heap} {covered before : Nat → Prop}
  {first last : Nat} {state : Inserting} {leaves : Multiset (Leaf TreePtr)}

/-- The trees of the keys covered so far are on lists. Each key still shows the value it had
before, and no set has changed but for counts and links.
-/
structure Linking (Holds : Option Addr → Nat → Prop) (start : Heap) (covered : Nat → Prop)
    (state : Inserting) (leaves : Multiset (Leaf TreePtr))
    : Prop where
  counts : Counts state.heap leaves state.values
  nulls : pointers leaves (.link none) = state.nullLink.length
  content : state.heap.content = start.content
  fresh : state.heap.fresh = start.fresh
  marks
    : ∀ leaf ∈ leaves, ∀ key, leaf.Contains key →
        Holds leaf.value.owner key ∧ (leaf.value.IsLink ↔ covered key)

/-- The keys covered when a range has been visited up to a key. -/
def CoveredUpTo (before : Nat → Prop) (first next : Nat) (key : Nat) : Prop :=
  before key ∨ first ≤ key ∧ key < next

theorem Linking.congr (linking : Linking Holds start before state leaves)
    (same : ∀ key, before key ↔ covered key)
    : Linking Holds start covered state leaves :=
  (funext fun key => propext (same key)) ▸ linking

/-- A leaf that a visit reaches is on no list yet. -/
theorem Linking.unmarked {leaf : Leaf TreePtr} {rest : Multiset (Leaf TreePtr)} {key : Nat}
    (linking : Linking Holds start (CoveredUpTo before first key) state (leaf ::ₘ rest))
    (inside : leaf.Contains key) (new : ¬ before key)
    : leaf.value = .null ∨ ∃ addr, leaf.value = .value addr := by
  have marks := (linking.marks leaf (Multiset.mem_cons_self _ _) key inside).2
  cases value : leaf.value with
  | null => exact Or.inl rfl
  | value addr => exact Or.inr ⟨addr, rfl⟩
  | link owner =>
      rw [value] at marks
      rcases marks.mp ⟨owner, rfl⟩ with old | ⟨-, later⟩
      · exact (new old).elim
      · exact (Nat.lt_irrefl _ later).elim

/-- Putting a whole leaf on a list covers its keys. -/
theorem marks_put {leaf : Leaf TreePtr} {rest : Multiset (Leaf TreePtr)}
    (apart : ∀ other ∈ rest, leaf.Apart other) (from_first : first ≤ leaf.start)
    (marks : ∀ member ∈ leaf ::ₘ rest, ∀ key, member.Contains key →
      Holds member.value.owner key
        ∧ (member.value.IsLink ↔ CoveredUpTo before first leaf.start key))
    : ∀ member ∈ leaf.put (.link leaf.value.owner) ::ₘ rest, ∀ key, member.Contains key →
        Holds member.value.owner key
          ∧ (member.value.IsLink ↔ CoveredUpTo before first (leaf.start + leaf.size) key) := by
  intro member isMember key inside
  rcases Multiset.mem_cons.mp isMember with rfl | isRest
  · have holds := (marks leaf (Multiset.mem_cons_self _ _) key inside).1
    refine ⟨holds, fun _ => Or.inr ⟨?_, inside.2⟩, fun _ => ⟨_, rfl⟩⟩
    exact Nat.le_trans from_first inside.1
  · obtain ⟨holds, isLink⟩ := marks member (Multiset.mem_cons_of_mem isRest) key inside
    refine ⟨holds, isLink.trans ?_⟩
    have outside : key < leaf.start ∨ leaf.start + leaf.size ≤ key := by
      rcases apart member isRest with after | before
      · exact Or.inr (Nat.le_trans after inside.1)
      · exact Or.inl (Nat.lt_of_lt_of_le inside.2 before)
    unfold CoveredUpTo
    refine or_congr_right (and_congr_right (fun _ => ?_))
    omega

theorem marks_split {leaf : Leaf TreePtr} {rest : Multiset (Leaf TreePtr)}
    (marks : ∀ member ∈ leaf ::ₘ rest, ∀ key, member.Contains key →
      Holds member.value.owner key ∧ (member.value.IsLink ↔ covered key))
    : ∀ member ∈ leaf.split 16 + rest, ∀ key, member.Contains key →
        Holds member.value.owner key ∧ (member.value.IsLink ↔ covered key) := by
  intro member isMember key inside
  rcases Multiset.mem_add.mp isMember with isPart | isRest
  · obtain ⟨sameValue, within⟩ := Leaf.mem_split isPart
    rw [sameValue]
    exact marks leaf (Multiset.mem_cons_self _ _) key (within key inside)
  · exact marks member (Multiset.mem_cons_of_mem isRest) key inside

/-- Every call of the function that `insert` gives to `traverse` keeps the invariant. -/
theorem insertVisit_keeps (new : ∀ key, first ≤ key → key < last → ¬ before key)
    : BlockTree.Keeps 16 insertVisit first last
        (fun state leaves next => Linking Holds start (CoveredUpTo before first next) state leaves)
    where
  put := by
    intro state next leaf rest key size value positive atKey stop apart linking visited
    have inside : leaf.Contains key := ⟨by omega, by omega⟩
    have unmarked := linking.unmarked inside (new key (by omega) (by omega))
    by_cases whole : size = leaf.size
    · obtain rfl : key = leaf.start := by omega
      have marks := marks_put apart (by omega) linking.marks
      rw [← whole] at marks
      rcases unmarked with isNull | ⟨addr, isValue⟩
      · rw [isNull] at visited
        simp only [insertVisit, if_pos whole, Prod.mk.injEq, Option.some.injEq] at visited
        obtain ⟨rfl, rfl⟩ := visited
        refine ⟨linking.counts.linkNull isNull, ?_, linking.content, linking.fresh, ?_⟩
        · have nulls := linking.nulls
          simpa [isNull, Leaf.put] using nulls
        · simpa [isNull, TreePtr.owner] using marks
      · obtain ⟨uset, stored⟩ := linking.counts.allocated (Multiset.mem_cons_self leaf rest)
          (by rw [isValue]; rfl)
        have nulls := linking.nulls
        rw [isValue, TreePtr.owner] at marks
        by_cases member : addr ∈ state.values
        · obtain ⟨keys, listing⟩ := linking.counts.listing addr uset stored member
          rw [isValue] at visited
          simp only [insertVisit, if_pos whole, stored, Option.map_some, listing.link,
            Prod.mk.injEq, Option.some.injEq] at visited
          obtain ⟨rfl, rfl⟩ := visited
          refine ⟨linking.counts.linkAgain isValue stored listing.link member _, ?_, ?_,
            linking.fresh, marks⟩
          · simpa [isValue, Leaf.put] using nulls
          · dsimp only
            rw [Heap.use, Heap.setLink, Heap.content_modify, Heap.content_modify, linking.content]
            · exact fun _ => rfl
            · exact fun _ => rfl
        · have settled := linking.counts.settled addr uset stored member
          rw [isValue] at visited
          simp only [insertVisit, if_pos whole, stored, Option.map_some, settled.link,
            Prod.mk.injEq, Option.some.injEq] at visited
          obtain ⟨rfl, rfl⟩ := visited
          refine ⟨linking.counts.linkFirst isValue stored member _, ?_, ?_, linking.fresh, marks⟩
          · simpa [isValue, Leaf.put] using nulls
          · dsimp only
            rw [Heap.setLink, Heap.content_modify, linking.content]
            exact fun _ => rfl
    · rcases unmarked with isNull | ⟨addr, isValue⟩
      · simp [insertVisit, whole, isNull] at visited
      · simp [insertVisit, whole, isValue] at visited
  split := by
    intro state next leaf rest key size positive atKey stop apart linking visited
    have inside : leaf.Contains key := ⟨by omega, by omega⟩
    have unmarked := linking.unmarked inside (new key (by omega) (by omega))
    have part : size ≠ leaf.size := by
      intro whole
      rcases unmarked with isNull | ⟨addr, isValue⟩
      · simp [insertVisit, whole, isNull] at visited
      · rw [isValue] at visited
        simp only [insertVisit, if_pos whole] at visited
        split at visited <;> simp at visited
    have marks := marks_split linking.marks
    have nulls := linking.nulls
    refine ⟨by omega, ?_⟩
    rcases unmarked with isNull | ⟨addr, isValue⟩
    · obtain rfl : state = next := by simpa [insertVisit, part, isNull] using visited
      refine ⟨linking.counts.splitNull isNull, ?_, linking.content, linking.fresh, marks⟩
      simpa [isNull] using nulls
    · obtain ⟨uset, stored⟩ := linking.counts.allocated (Multiset.mem_cons_self leaf rest)
        (by rw [isValue]; rfl)
      obtain rfl : { state with heap := state.heap.use addr 15 } = next := by
        simpa [insertVisit, part, isValue] using visited
      refine ⟨linking.counts.splitValue isValue stored, ?_, ?_, linking.fresh, marks⟩
      · simpa [isValue] using nulls
      · dsimp only
        rw [Heap.use, Heap.content_modify, linking.content]
        exact fun _ => rfl

/-- The keys of a list of ranges. -/
def Listed (ids : List (Id × Id)) (key : Nat) : Prop :=
  ∃ range ∈ ids, range.1 ≤ key ∧ key ≤ range.2

/-- Ranges in ascending order that do not overlap. -/
structure SortedRanges (ids : List (Id × Id)) : Prop where
  ordered : ∀ range ∈ ids, range.1 ≤ range.2
  ascending : ids.Pairwise (fun left right => left.2 < right.1)

theorem insertRange_linking {next : Inserting} {trees treesNext : Trees} {range : Id × Id}
    (linking : Linking Holds start before state trees.leaves)
    (ordered : range.1 ≤ range.2) (fits : range.2 < 2 ^ 32)
    (new : ∀ key, range.1 ≤ key → key ≤ range.2 → ¬ before key)
    (inserted : insertRange (state, trees) range = (next, treesNext))
    : Linking Holds start (fun key => before key ∨ range.1 ≤ key ∧ key ≤ range.2) next
        treesNext.leaves := by
  have atStart : Linking Holds start (CoveredUpTo before range.1 range.1) state
      trees.leaves := by
    refine linking.congr (fun key => ⟨Or.inl, ?_⟩)
    rintro (old | ⟨low, high⟩)
    · exact old
    · exact (Nat.not_lt.mpr low high).elim
  have stop : range.1 + (range.2 - range.1 + 1) = range.2 + 1 := by lia
  rw [insertRange, if_pos ordered] at inserted
  have visited := Trees.traverse_keeps
    (insertVisit_keeps (fun key low high => new key low (by lia)))
    (by lia) atStart inserted
  refine visited.congr (fun key => or_congr_right (and_congr_right (fun _ => ?_)))
  lia

/-- All ranges of a record, by induction on the ranges left. -/
theorem insertRanges_linking {ids : List (Id × Id)} (sorted : SortedRanges ids)
    (fits : ∀ range ∈ ids, range.2 < 2 ^ 32) {next : Inserting} {trees treesNext : Trees}
    (linking : Linking Holds start before state trees.leaves)
    (new : ∀ key, Listed ids key → ¬ before key)
    (inserted : ids.foldl insertRange (state, trees) = (next, treesNext))
    : Linking Holds start (fun key => before key ∨ Listed ids key) next treesNext.leaves := by
  induction ids generalizing before state trees with
  | nil =>
      obtain ⟨rfl, rfl⟩ := Prod.mk.inj inserted
      exact linking.congr (by simp [Listed])
  | cons range ids ih =>
      obtain ⟨ordered, ascending⟩ := sorted
      obtain ⟨beforeRest, ascendingRest⟩ := List.pairwise_cons.mp ascending
      rw [List.foldl_cons] at inserted
      rcases once : insertRange (state, trees) range with ⟨middle, treesMiddle⟩
      rw [once] at inserted
      have here := insertRange_linking linking (ordered range List.mem_cons_self)
        (fits range List.mem_cons_self)
        (fun key low high => new key ⟨range, List.mem_cons_self, low, high⟩) once
      have sortedRest : SortedRanges ids :=
        ⟨fun other member => ordered other (List.mem_cons_of_mem _ member), ascendingRest⟩
      have there := ih sortedRest
        (fun other member => fits other (List.mem_cons_of_mem _ member)) here ?_ inserted
      · refine there.congr (fun key => ?_)
        simp only [Listed, List.mem_cons, exists_eq_or_imp, or_assoc]
      · rintro key ⟨other, member, low, high⟩ (old | ⟨-, inRange⟩)
        · exact new key ⟨other, List.mem_cons_of_mem _ member, low, high⟩ old
        · have later := beforeRest other member
          lia

end TrieArray

end Glean.RTS
