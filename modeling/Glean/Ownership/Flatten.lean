import Glean.Ownership.CollectUsets

/-! The vector of the sets of all facts. Flattening counts each set once for each fact that has
it, in place of once for each tree.
-/

namespace Glean.RTS

/-- The number of facts with a set. -/
def holders (sets : Id → Option Addr) (size : Nat) (addr : Addr) : Nat :=
  ((Finset.range size).filter (fun id => sets id = some addr)).card

@[simp]
theorem holders_none (size : Nat) (addr : Addr) : holders (fun _ => none) size addr = 0 := by
  simp [holders]

/-- Filling a part of the vector that was empty. -/
theorem holders_fill {sets : Id → Option Addr} {key count size : Nat}
    (empty : ∀ id, key ≤ id → id < key + count → sets id = none) (fits : key + count ≤ size)
    (owner : Option Addr) (addr : Addr)
    : holders (fun id => if key ≤ id ∧ id < key + count then owner else sets id) size addr
      = holders sets size addr + if owner = some addr then count else 0 := by
  unfold holders
  by_cases isAddr : owner = some addr
  · have parts : (Finset.range size).filter
          (fun id => (if key ≤ id ∧ id < key + count then owner else sets id) = some addr)
        = (Finset.range size).filter (fun id => sets id = some addr)
          ∪ Finset.Ico key (key + count) := by
      ext id
      simp only [Finset.mem_filter, Finset.mem_range, Finset.mem_union, Finset.mem_Ico]
      by_cases inside : key ≤ id ∧ id < key + count
      · have bound : id < size := by lia
        simp [inside, isAddr, bound]
      · simp [inside]
    have apart : Disjoint ((Finset.range size).filter (fun id => sets id = some addr))
        (Finset.Ico key (key + count)) := by
      refine Finset.disjoint_left.mpr (fun id isHolder inside => ?_)
      obtain ⟨low, high⟩ := Finset.mem_Ico.mp inside
      have held := (Finset.mem_filter.mp isHolder).2
      rw [empty id low high] at held
      cases held
    rw [parts, Finset.card_union_of_disjoint apart, Nat.card_Ico, if_pos isAddr,
      Nat.add_sub_cancel_left]
  · rw [if_neg isAddr, Nat.add_zero]
    refine congrArg Finset.card (Finset.filter_congr (fun id _ => ?_))
    by_cases inside : key ≤ id ∧ id < key + count
    · simp [inside, isAddr, empty id inside.1 inside.2]
    · simp [inside]

/-- The number of trees with a value that are still to be visited. -/
def waiting (leaves : Multiset (Leaf TreePtr)) (next last : Nat) (addr : Addr) : Nat :=
  leaves.countP (fun leaf =>
    leaf.value = .value addr ∧ next < min last (leaf.start + leaf.size))

theorem waiting_le_pointers (leaves : Multiset (Leaf TreePtr)) (next last : Nat) (addr : Addr)
    : waiting leaves next last addr ≤ pointers leaves (.value addr) := by
  rw [pointers, Multiset.count_map, waiting, Multiset.countP_eq_card_filter]
  exact Multiset.card_le_card
    (Multiset.monotone_filter_right _ (fun leaf isWaiting => isWaiting.1.symm))

theorem waiting_cons (leaf : Leaf TreePtr) (rest : Multiset (Leaf TreePtr)) (next last : Nat)
    (addr : Addr)
    : waiting (leaf ::ₘ rest) next last addr
      = waiting rest next last addr
        + if leaf.value = .value addr ∧ next < min last (leaf.start + leaf.size) then 1 else 0 := by
  rw [waiting, Multiset.countP_cons, waiting]

theorem waiting_mono (leaves : Multiset (Leaf TreePtr)) {next later last : Nat}
    (order : next ≤ later) (addr : Addr)
    : waiting leaves later last addr ≤ waiting leaves next last addr := by
  rw [waiting, waiting, Multiset.countP_eq_card_filter, Multiset.countP_eq_card_filter]
  exact Multiset.card_le_card (Multiset.monotone_filter_right _
    (fun leaf isWaiting => ⟨isWaiting.1, Nat.lt_of_le_of_lt order isWaiting.2⟩))

theorem Unnumbered.use {numUnits : Nat} {usets : Usets} (unnumbered : Unnumbered numUnits usets)
    (addr : Addr) (refs : Int)
    : Unnumbered numUnits (usets.use addr refs) := by
  refine ⟨unnumbered.canonical.use addr refs, ?_, unnumbered.numbers⟩
  intro other found member isFound
  rw [Usets.use, Usets.heap_modify] at isFound
  split_ifs at isFound with same
  · obtain ⟨old, isOld, rfl⟩ := Option.map_eq_some_iff.mp isFound
    obtain ⟨plain, unlinked⟩ := unnumbered.plain addr old (same ▸ member) isOld
    exact ⟨plain.congr rfl, unlinked⟩
  · exact unnumbered.plain other found member isFound

/-- The state of `flatten` when the trees up to a key have been visited. -/
structure Flattening (units : Nat → Finset UnitId) (numUnits first last : Nat)
    (state : Usets × (Id → Option Addr)) (leaves : Multiset (Leaf TreePtr)) (next : Nat)
    : Prop where
  unnumbered : Unnumbered numUnits state.1
  unmarked : ∀ leaf ∈ leaves, ¬ leaf.value.IsLink
  members
    : ∀ leaf ∈ leaves, ∀ addr, leaf.value = .value addr → ∀ key, leaf.Contains key →
        first ≤ key → key < last → addr ∈ state.1.members
  sets
    : ∀ leaf ∈ leaves, ∀ key, leaf.Contains key → state.1.unitsOf leaf.value.owner = units key
  refs
    : ∀ addr uset, addr ∈ state.1.members → state.1.heap addr = some uset →
        holders state.2 last addr + waiting leaves next last addr ≤ uset.refs
  owners
    : ∀ id, first ≤ id → id < next → state.1.unitsOf (state.2 id) = units id
        ∧ ∀ addr, state.2 id = some addr → addr ∈ state.1.members
  outside : ∀ id, id < first ∨ next ≤ id → state.2 id = none

namespace Flattening

variable {units : Nat → Finset UnitId} {numUnits first last : Nat}
  {state : Usets × (Id → Option Addr)} {leaf : Leaf TreePtr}
  {rest leaves : Multiset (Leaf TreePtr)} {key size : Nat}

/-- The keys of a leaf get its value, and the count of one tree becomes a count of the keys. -/
theorem fill {usets : Usets} (flattening : Flattening units numUnits first last state (leaf ::ₘ rest) key)
    (positive : 0 < size) (atKey : key = max first leaf.start)
    (stop : key + size = min last (leaf.start + leaf.size))
    (unnumbered : Unnumbered numUnits usets)
    (members : usets.members = state.1.members)
    (exps : ∀ addr, usets.exp? addr = state.1.exp? addr)
    (refs : ∀ addr uset, usets.heap addr = some uset →
      ∃ before, state.1.heap addr = some before
        ∧ uset.refs = before.refs + if leaf.value = .value addr then (size : Int) - 1 else 0)
    : Flattening units numUnits first last
        (usets, fun id => if key ≤ id ∧ id < key + size then leaf.value.owner else state.2 id)
        (leaf ::ₘ rest) (key + size) := by
  have isLeaf : leaf ∈ leaf ::ₘ rest := Multiset.mem_cons_self _ _
  have unitsOf (owner : Option Addr) : usets.unitsOf owner = state.1.unitsOf owner :=
    Usets.unitsOf_congr (fun addr _ => exps addr)
  have value_of {addr : Addr} (isOwner : leaf.value.owner = some addr)
      : leaf.value = .value addr := by
    cases value : leaf.value with
    | null => simp [value, TreePtr.owner] at isOwner
    | value other => simpa [value, TreePtr.owner] using isOwner
    | link owner => exact (flattening.unmarked leaf isLeaf ⟨owner, value⟩).elim
  refine ⟨unnumbered, flattening.unmarked, ?_, ?_, ?_, ?_, ?_⟩
  · dsimp only
    rw [members]
    exact flattening.members
  · intro other member key inside
    rw [unitsOf]
    exact flattening.sets other member key inside
  · intro addr uset member stored
    dsimp only at member stored ⊢
    rw [members] at member
    obtain ⟨before, wasStored, isRefs⟩ := refs addr uset stored
    have bound := flattening.refs addr before member wasStored
    have fewer : waiting rest (key + size) last addr ≤ waiting rest key last addr :=
      waiting_mono rest (Nat.le_add_right key size) addr
    have filled := holders_fill (fun id low _ => flattening.outside id (Or.inr low))
      (show key + size ≤ last by omega) leaf.value.owner addr
    have isWaiting : key < min last (leaf.start + leaf.size) := by omega
    have isDone : ¬ key + size < min last (leaf.start + leaf.size) := by omega
    rw [waiting_cons] at bound ⊢
    rw [filled, isRefs]
    by_cases isAddr : leaf.value = .value addr
    · have isOwner : leaf.value.owner = some addr := by
        rw [isAddr]
        rfl
      rw [if_pos ⟨isAddr, isWaiting⟩] at bound
      rw [if_pos isOwner, if_neg (fun both => isDone both.2), if_pos isAddr]
      push_cast at bound ⊢
      omega
    · have notOwner : leaf.value.owner ≠ some addr := fun isOwner => isAddr (value_of isOwner)
      rw [if_neg (fun both => isAddr both.1)] at bound
      rw [if_neg notOwner, if_neg (fun both => isAddr both.1), if_neg isAddr]
      push_cast at bound ⊢
      omega
  · intro id low high
    dsimp only
    by_cases inside : key ≤ id ∧ id < key + size
    · rw [if_pos inside, unitsOf, members]
      have contained : leaf.Contains id := ⟨by lia, by lia⟩
      refine ⟨flattening.sets leaf isLeaf id contained, fun addr isOwner => ?_⟩
      exact flattening.members leaf isLeaf addr (value_of isOwner) id contained low (by lia)
    · rw [if_neg inside, unitsOf, members]
      exact flattening.owners id low (by lia)
  · intro id isOutside
    dsimp only
    rw [if_neg (by lia)]
    exact flattening.outside id (by lia)

/-- Every call of the function that `flatten` gives to `traverse` keeps the invariant. -/
theorem visit_keeps
    : BlockTree.Keeps 16 flattenVisit first last (Flattening units numUnits first last) where
  put := by
    intro state next leaf rest key size value positive atKey stop _ flattening visited
    have isLeaf : leaf ∈ leaf ::ₘ rest := Multiset.mem_cons_self _ _
    cases tree : leaf.value with
    | null =>
        have kept := flattening.fill positive atKey stop flattening.unnumbered rfl (fun _ => rfl)
          (fun addr uset stored => ⟨uset, stored, by simp [tree]⟩)
        have same : leaf.put .null = leaf := by
          rw [← tree]
          rfl
        rw [tree] at visited kept
        simp only [flattenVisit, Prod.mk.injEq, Option.some.injEq] at visited
        obtain ⟨rfl, rfl⟩ := visited
        rw [same]
        exact kept
    | link owner => exact (flattening.unmarked leaf isLeaf ⟨owner, tree⟩).elim
    | value addr =>
        have kept := flattening.fill positive atKey stop
          (flattening.unnumbered.use addr (size - 1)) rfl
          (Usets.exp?_modify state.1 addr (fun _ => rfl)) ?_
        · have same : leaf.put (.value addr) = leaf := by
            rw [← tree]
            rfl
          rw [tree] at visited kept
          simp only [flattenVisit, Prod.mk.injEq, Option.some.injEq] at visited
          obtain ⟨rfl, rfl⟩ := visited
          rw [same]
          exact kept
        · intro other uset stored
          rw [Usets.use, Usets.heap_modify] at stored
          split_ifs at stored with isAddr
          · obtain ⟨before, wasStored, rfl⟩ := Option.map_eq_some_iff.mp stored
            exact ⟨before, isAddr ▸ wasStored, by simp [tree, isAddr]⟩
          · exact ⟨uset, stored, by simp [tree, Ne.symm isAddr]⟩
  split := by
    intro state next leaf rest key size _ _ _ _ flattening visited
    cases tree : leaf.value with
    | null => simp [flattenVisit, tree] at visited
    | link owner => simp [flattenVisit, tree] at visited
    | value addr => simp [flattenVisit, tree] at visited

end Flattening

/-- The vector that completion starts from. -/
structure Flat (units : Nat → Finset UnitId) (numUnits : Nat) (usets : Usets)
    (facts : UsetVector)
    : Prop where
  unnumbered : Unnumbered numUnits usets
  owners : ∀ id, usets.unitsOf (facts.sets id) = units id
  members
    : ∀ id addr, facts.sets id = some addr → addr ∈ usets.members ∧ id < facts.size
  refs
    : ∀ addr uset, addr ∈ usets.members → usets.heap addr = some uset →
        holders facts.sets facts.size addr ≤ uset.refs

/-- `flatten` gives every fact its units. -/
theorem flatten_flat {units : Nat → Finset UnitId} {numUnits : Nat} {usets next : Usets}
    {trie : TrieArray} {facts : UsetVector}
    (collected : Collected units numUnits trie.minkey trie.maxkey usets trie.trees.leaves)
    (bounds : ∀ id, (units id).Nonempty → trie.minkey ≤ id ∧ id ≤ trie.maxkey)
    (fits : trie.maxkey < 2 ^ 32) (flattened : flatten usets trie = (next, facts))
    : Flat units numUnits next facts
      ∧ facts.size = if trie.maxkey < trie.minkey then 0 else trie.maxkey + 1 := by
  have outside (id : Id) (isOutside : ¬ (trie.minkey ≤ id ∧ id ≤ trie.maxkey)) : units id = ∅ :=
    Finset.not_nonempty_iff_eq_empty.mp (fun isOwned => isOutside (bounds id isOwned))
  unfold flatten TrieArray.traverse at flattened
  by_cases empty : trie.maxkey < trie.minkey
  · simp only [if_pos empty, Prod.mk.injEq] at flattened
    obtain ⟨rfl, rfl⟩ := flattened
    refine ⟨⟨collected.unnumbered, ?_, nofun, ?_⟩, (if_pos empty).symm⟩
    · intro id
      rw [outside id (by lia)]
      rfl
    · intro addr uset member stored
      have counted := collected.refs addr uset member stored
      rw [holders_none]
      omega
  · have order : trie.minkey ≤ trie.maxkey := Nat.not_lt.mp empty
    have start : Flattening units numUnits trie.minkey
        (trie.minkey + (trie.maxkey - trie.minkey + 1)) (usets, fun _ => none) trie.trees.leaves
        trie.minkey := by
      refine ⟨collected.unnumbered, collected.unmarked, ?_, collected.sets, ?_, ?_,
        fun _ _ => rfl⟩
      · intro leaf isLeaf addr isValue key inside low high
        exact collected.members leaf isLeaf addr isValue key inside low (by omega)
      · intro addr uset member stored
        have counted := collected.refs addr uset member stored
        have fewer := waiting_le_pointers trie.trees.leaves trie.minkey
          (trie.minkey + (trie.maxkey - trie.minkey + 1)) addr
        rw [holders_none]
        omega
      · intro id low high
        exact (Nat.not_lt.mpr low high).elim
    rcases visited : Trees.traverse flattenVisit (usets, fun _ => none) trie.trees trie.minkey
      (trie.maxkey - trie.minkey + 1) with ⟨⟨after, sets⟩, trees⟩
    simp only [if_neg empty, if_pos order, visited, Prod.mk.injEq] at flattened
    obtain ⟨rfl, rfl⟩ := flattened
    have kept := Trees.traverse_keeps Flattening.visit_keeps (by omega) start visited
    have stop : trie.minkey + (trie.maxkey - trie.minkey + 1) = trie.maxkey + 1 := by omega
    rw [stop] at kept
    refine ⟨⟨kept.unnumbered, ?_, ?_, ?_⟩, (if_neg empty).symm⟩
    · intro id
      by_cases inside : trie.minkey ≤ id ∧ id ≤ trie.maxkey
      · exact (kept.owners id inside.1 (Nat.lt_succ_of_le inside.2)).1
      · have isNone : sets id = none := kept.outside id (by lia)
        dsimp only
        rw [isNone, outside id inside]
        rfl
    · intro id addr isOwner
      by_cases inside : trie.minkey ≤ id ∧ id ≤ trie.maxkey
      · have high : id < trie.maxkey + 1 := Nat.lt_succ_of_le inside.2
        exact ⟨(kept.owners id inside.1 high).2 addr isOwner, high⟩
      · have isNone : sets id = none := kept.outside id (by lia)
        cases isNone.symm.trans isOwner
    · intro addr uset member stored
      have counted := kept.refs addr uset member stored
      dsimp only at counted ⊢
      omega

end Glean.RTS
