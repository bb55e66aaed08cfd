import Mathlib.Algebra.BigOperators.Fin
import Mathlib.Algebra.Order.BigOperators.Group.Finset
import Mathlib.Data.Multiset.AddSub

/-! Trees over a space of consecutive keys. A leaf stands for all the keys of an aligned block;
a forest divides its block evenly among its trees. Ranges of keys are visited leaf by leaf, and
a visit may split the leaf it is called on.
-/

/-- A tree over `fanout ^ height` keys. -/
inductive BlockTree (fanout : Nat) (V : Type) : Nat → Type where
  | leaf {height : Nat} (value : V) : BlockTree fanout V height
  | forest {height : Nat} (trees : Fin fanout → BlockTree fanout V height)
      : BlockTree fanout V (height + 1)

/-- A leaf with its block of keys. -/
structure Leaf (V : Type) where
  start : Nat
  size : Nat
  value : V

namespace Leaf

variable {V : Type}

def Contains (leaf : Leaf V) (key : Nat) : Prop :=
  leaf.start ≤ key ∧ key < leaf.start + leaf.size

def Apart (left right : Leaf V) : Prop :=
  left.start + left.size ≤ right.start ∨ right.start + right.size ≤ left.start

def put (leaf : Leaf V) (value : V) : Leaf V :=
  { leaf with value := value }

/-- The leaves that a split puts in the place of a leaf. -/
def split (leaf : Leaf V) (fanout : Nat) : Multiset (Leaf V) :=
  ∑ index : Fin fanout,
    {⟨leaf.start + index * (leaf.size / fanout), leaf.size / fanout, leaf.value⟩}

theorem mem_split {leaf part : Leaf V} {fanout : Nat} (member : part ∈ leaf.split fanout)
    : part.value = leaf.value ∧ ∀ key, part.Contains key → leaf.Contains key := by
  obtain ⟨index, -, isPart⟩ := Multiset.mem_sum.mp member
  obtain rfl := Multiset.mem_singleton.mp isPart
  refine ⟨rfl, fun key inside => ?_⟩
  have position : (index + 1) * (leaf.size / fanout) ≤ fanout * (leaf.size / fanout) :=
    Nat.mul_le_mul_right _ index.isLt
  have whole := Nat.mul_div_le leaf.size fanout
  rw [Nat.add_one_mul] at position
  obtain ⟨low, high⟩ := inside
  dsimp only at low high
  exact ⟨by omega, by omega⟩

theorem map_value_split (leaf : Leaf V) (fanout : Nat)
    : (leaf.split fanout).map Leaf.value = Multiset.replicate fanout leaf.value := by
  rw [split, ← Multiset.coe_mapAddMonoidHom, map_sum]
  simp [Multiset.nsmul_singleton]

end Leaf

namespace BlockTree

variable {fanout : Nat} {V State : Type}

/-- What is called on each leaf of a range, with the first key and the number of keys of the
range in the leaf, and the size of its block. No new value means that the leaf is split.
-/
abbrev Visit (V State : Type) := State → V → Nat → Nat → Nat → State × Option V

/-- The loop over the trees of a forest: `size` keys from offset `offset` of tree `index` on. -/
def visitTrees [NeZero fanout] {T : Type} (visit : State → T → Nat → Nat → Nat → State × T)
    (block : Nat)
    : Nat → State → (Fin fanout → T) → Nat → Nat → Nat → Nat → State × (Fin fanout → T)
  | 0, state, trees, _, _, _, _ => (state, trees)
  | rounds + 1, state, trees, key, index, offset, size =>
      if size = 0 then
        (state, trees)
      else
        let count := min size (block - offset)
        let slot := Fin.ofNat fanout index
        let (state, tree) := visit state (trees slot) key offset count
        visitTrees visit block rounds state (Function.update trees slot tree)
          (key + count) (index + 1) 0 (size - count)

/-- Visit `size` keys from offset `start` of a tree on; `key` is the first of them. A leaf that
is split is entered.
-/
def traverse [NeZero fanout] (visit : Visit V State)
    : (height : Nat) → State → BlockTree fanout V height → Nat → Nat → Nat
        → State × BlockTree fanout V height
  | 0, state, leaf value, key, _, size =>
      let (state, result) := visit state value key size 1
      (state, leaf (result.getD value))
  | height + 1, state, tree, key, start, size =>
      let (state, tree) : State × BlockTree fanout V (height + 1) :=
        match tree with
        | leaf value =>
            let (state, result) := visit state value key size (fanout ^ (height + 1))
            match result with
            | some value => (state, leaf value)
            | none => (state, forest (fun _ => leaf value))
        | forest trees => (state, forest trees)
      match tree with
      | leaf value => (state, leaf value)
      | forest trees =>
          let block := fanout ^ height
          let (state, trees) :=
            visitTrees (traverse visit height) block fanout state trees key
              (start / block) (start % block) size
          (state, forest trees)

/-- The leaves of a tree whose block starts at a key. -/
def leaves : {height : Nat} → BlockTree fanout V height → Nat → Multiset (Leaf V)
  | height, leaf value, base => {⟨base, fanout ^ height, value⟩}
  | height + 1, forest trees, base =>
      ∑ index : Fin fanout, (trees index).leaves (base + index * fanout ^ height)

def map (f : V → V) : {height : Nat} → BlockTree fanout V height → BlockTree fanout V height
  | _, leaf value => leaf (f value)
  | _, forest trees => forest (fun index => (trees index).map f)

theorem leaves_map (f : V → V) {height : Nat} (tree : BlockTree fanout V height) (base : Nat)
    : (tree.map f).leaves base
      = (tree.leaves base).map (fun leaf => leaf.put (f leaf.value)) := by
  induction tree generalizing base with
  | leaf value => simp [map, leaves, Leaf.put]
  | forest trees ih =>
      simp only [map, leaves, ih]
      rw [← Multiset.coe_mapAddMonoidHom, map_sum]

/-- The leaves of a tree lie in its block. -/
theorem leaves_within {height : Nat} (tree : BlockTree fanout V height) (base : Nat)
    : ∀ leaf ∈ tree.leaves base,
        base ≤ leaf.start ∧ leaf.start + leaf.size ≤ base + fanout ^ height := by
  induction tree generalizing base with
  | leaf value => simp [leaves]
  | @forest height trees ih =>
      intro leaf member
      obtain ⟨index, -, inTree⟩ := Multiset.mem_sum.mp member
      have bounds := ih index _ leaf inTree
      have block : (index + 1) * fanout ^ height ≤ fanout * fanout ^ height :=
        Nat.mul_le_mul_right _ index.isLt
      rw [Nat.add_one_mul] at block
      rw [Nat.pow_succ, Nat.mul_comm _ fanout]
      omega

/-- Visit `size` keys from `start` on of a row of trees whose blocks follow each other. -/
def traverseRow [NeZero fanout] {width height : Nat} [NeZero width] (visit : Visit V State)
    (state : State) (trees : Fin width → BlockTree fanout V height) (start size : Nat)
    : State × (Fin width → BlockTree fanout V height) :=
  visitTrees (traverse visit height) (fanout ^ height) width state trees start
    (start / fanout ^ height) (start % fanout ^ height) size

@[irreducible]
def rowLeaves {width height : Nat} (trees : Fin width → BlockTree fanout V height)
    : Multiset (Leaf V) :=
  ∑ index : Fin width, (trees index).leaves (0 + index * fanout ^ height)

theorem rowLeaves_map {width height : Nat} (f : V → V)
    (trees : Fin width → BlockTree fanout V height)
    : rowLeaves (fun index => (trees index).map f)
      = (rowLeaves trees).map (fun leaf => leaf.put (f leaf.value)) := by
  simp only [rowLeaves, leaves_map]
  rw [← Multiset.coe_mapAddMonoidHom, map_sum]

/-- The leaves of a row in which every tree is the same leaf. -/
theorem mem_rowLeaves_const {width height : Nat} {value : V} {member : Leaf V}
    {trees : Fin width → BlockTree fanout V height} (same : ∀ index, trees index = leaf value)
    (isMember : member ∈ rowLeaves trees)
    : member.value = value := by
  rw [rowLeaves] at isMember
  obtain ⟨index, -, inTree⟩ := Multiset.mem_sum.mp isMember
  rw [same] at inTree
  rw [Multiset.mem_singleton.mp inTree]

/-- The value of the leaf that has a key, which is an offset into the block of the tree. -/
def get [NeZero fanout] : {height : Nat} → BlockTree fanout V height → Nat → V
  | _, leaf value, _ => value
  | height + 1, forest trees, key =>
      (trees (Fin.ofNat fanout (key / fanout ^ height))).get (key % fanout ^ height)

def rowGet [NeZero fanout] {width height : Nat} [NeZero width]
    (trees : Fin width → BlockTree fanout V height) (key : Nat)
    : V :=
  (trees (Fin.ofNat width (key / fanout ^ height))).get (key % fanout ^ height)

/-- The leaf of a key of blocks that follow each other is that of its block. -/
theorem exists_leaf_of_blocks [NeZero fanout] {width height : Nat} [NeZero width]
    {trees : Fin width → BlockTree fanout V height}
    (found : ∀ index base key, key < fanout ^ height → ∃ leaf ∈ (trees index).leaves base,
      leaf.Contains (base + key) ∧ leaf.value = (trees index).get key)
    (base : Nat) {key : Nat} (inside : key < width * fanout ^ height)
    : ∃ leaf ∈ ∑ index : Fin width, (trees index).leaves (base + index * fanout ^ height),
        leaf.Contains (base + key) ∧ leaf.value = rowGet trees key := by
  have positive : 0 < fanout ^ height := Nat.pow_pos (Nat.pos_of_neZero fanout)
  have isIndex : key / fanout ^ height < width := (Nat.div_lt_iff_lt_mul positive).mpr inside
  have cast : ((Fin.ofNat width (key / fanout ^ height) : Fin width) : Nat)
      = key / fanout ^ height := Nat.mod_eq_of_lt isIndex
  have whole := Nat.div_add_mod' key (fanout ^ height)
  obtain ⟨leaf, member, contains, value⟩ :=
    found (Fin.ofNat width (key / fanout ^ height))
      (base + key / fanout ^ height * fanout ^ height) (key % fanout ^ height)
      (Nat.mod_lt _ positive)
  rw [Nat.add_assoc, whole] at contains
  refine ⟨leaf, Multiset.mem_sum.mpr
    ⟨Fin.ofNat width (key / fanout ^ height), Finset.mem_univ _, ?_⟩, contains, value⟩
  rw [cast]
  exact member

/-- Every key of a tree is in a leaf that has its value, by induction on the tree. -/
theorem exists_leaf [NeZero fanout] {height : Nat} (tree : BlockTree fanout V height)
    (base key : Nat) (inside : key < fanout ^ height)
    : ∃ leaf ∈ tree.leaves base, leaf.Contains (base + key) ∧ leaf.value = tree.get key := by
  induction tree generalizing base key with
  | leaf value =>
      exact ⟨_, Multiset.mem_singleton_self _, ⟨Nat.le_add_right _ _, by dsimp only; omega⟩, rfl⟩
  | forest trees ih =>
      rw [Nat.pow_succ, Nat.mul_comm] at inside
      exact exists_leaf_of_blocks ih base inside

theorem exists_rowLeaf [NeZero fanout] {width height : Nat} [NeZero width]
    (trees : Fin width → BlockTree fanout V height) {key : Nat}
    (inside : key < width * fanout ^ height)
    : ∃ leaf ∈ rowLeaves trees, leaf.Contains key ∧ leaf.value = rowGet trees key := by
  have found := exists_leaf_of_blocks (fun index => (trees index).exists_leaf) 0 inside
  rw [Nat.zero_add] at found
  rw [rowLeaves]
  exact found

/-- No leaf is empty. -/
theorem size_pos [NeZero fanout] {height : Nat} (tree : BlockTree fanout V height) (base : Nat)
    : ∀ leaf ∈ tree.leaves base, 0 < leaf.size := by
  induction tree generalizing base with
  | leaf value =>
      intro leaf member
      rw [Multiset.mem_singleton.mp member]
      exact Nat.pow_pos (Nat.pos_of_neZero fanout)
  | forest trees ih =>
      intro leaf member
      obtain ⟨index, -, inTree⟩ := Multiset.mem_sum.mp member
      exact ih index _ leaf inTree

theorem rowLeaf_size_pos [NeZero fanout] {width height : Nat}
    {trees : Fin width → BlockTree fanout V height} {leaf : Leaf V}
    (member : leaf ∈ rowLeaves trees)
    : 0 < leaf.size := by
  rw [rowLeaves] at member
  obtain ⟨index, -, inTree⟩ := Multiset.mem_sum.mp member
  exact (trees index).size_pos _ leaf inTree

/-- An invariant of visiting the keys from `first` up to `last`. It speaks about all leaves and
the next key to visit, and holds again after each call.
-/
structure Keeps (fanout : Nat) (visit : Visit V State) (first last : Nat)
    (Inv : State → Multiset (Leaf V) → Nat → Prop)
    : Prop where
  put
    : ∀ {state next : State} {leaf : Leaf V} {rest : Multiset (Leaf V)} {key size : Nat}
        {value : V},
        0 < size → key = max first leaf.start → key + size = min last (leaf.start + leaf.size) →
        (∀ other ∈ rest, leaf.Apart other) → Inv state (leaf ::ₘ rest) key →
        visit state leaf.value key size leaf.size = (next, some value) →
        Inv next (leaf.put value ::ₘ rest) (key + size)
  split
    : ∀ {state next : State} {leaf : Leaf V} {rest : Multiset (Leaf V)} {key size : Nat},
        0 < size → key = max first leaf.start → key + size = min last (leaf.start + leaf.size) →
        (∀ other ∈ rest, leaf.Apart other) → Inv state (leaf ::ₘ rest) key →
        visit state leaf.value key size leaf.size = (next, none) →
        leaf.size ≠ 1 ∧ Inv next (leaf.split fanout + rest) key

variable {first last : Nat} {Inv : State → Multiset (Leaf V) → Nat → Prop}

/-- A visit of the part of a range that lies in one block keeps the invariant, whatever the
leaves outside of the block are.
-/
def KeepsIn {T : Type} (leavesAt : T → Nat → Multiset (Leaf V)) (block first last : Nat)
    (Inv : State → Multiset (Leaf V) → Nat → Prop)
    (visit : State → T → Nat → Nat → Nat → State × T)
    : Prop :=
  ∀ {state : State} {tree : T} {base key start size : Nat} {rest : Multiset (Leaf V)},
    0 < size → key = base + start → key = max first base →
    key + size = min last (base + block) →
    (∀ leaf ∈ rest, leaf.start + leaf.size ≤ base ∨ base + block ≤ leaf.start) →
    Inv state (leavesAt tree base + rest) key →
    Inv (visit state tree key start size).1
      (leavesAt (visit state tree key start size).2 base + rest) (key + size)

/-- The loop over the trees of a forest, by induction on its rounds. -/
theorem visitTrees_keeps [NeZero fanout] {T : Type} {leavesAt : T → Nat → Multiset (Leaf V)}
    {block : Nat} {visit : State → T → Nat → Nat → Nat → State × T}
    (within : ∀ tree base, ∀ leaf ∈ leavesAt tree base,
      base ≤ leaf.start ∧ leaf.start + leaf.size ≤ base + block)
    (keeps : KeepsIn leavesAt block first last Inv visit)
    {base : Nat} {rest : Multiset (Leaf V)}
    (apart : ∀ leaf ∈ rest,
      leaf.start + leaf.size ≤ base ∨ base + fanout * block ≤ leaf.start)
    {rounds : Nat} {state : State} {trees : Fin fanout → T} {key index offset size : Nat}
    (enough : fanout ≤ rounds + index)
    (position : size = 0 ∨ offset < block ∧ key = base + index * block + offset
      ∧ key = max first (base + index * block)
      ∧ key + size = min last (base + fanout * block))
    (holds : Inv state (∑ i : Fin fanout, leavesAt (trees i) (base + i * block) + rest) key)
    : let after := visitTrees visit block rounds state trees key index offset size
      Inv after.1 (∑ i : Fin fanout, leavesAt (after.2 i) (base + i * block) + rest)
        (key + size) := by
  induction rounds generalizing state trees key index offset size with
  | zero =>
      have done : size = 0 := by
        rcases position with done | ⟨inside, atKey, -, stop⟩
        · exact done
        · have beyond : fanout * block ≤ index * block := Nat.mul_le_mul_right _ (by omega)
          omega
      subst done
      exact holds
  | succ rounds ih =>
      unfold visitTrees
      by_cases done : size = 0
      · subst done
        rw [if_pos rfl]
        exact holds
      · obtain ⟨inside, atKey, fromFirst, stop⟩ := position.resolve_left done
        rw [if_neg done]
        have isIndex : index < fanout := by
          by_contra beyond
          have far : fanout * block ≤ index * block := Nat.mul_le_mul_right _ (by omega)
          omega
        have next : (index + 1) * block ≤ fanout * block := Nat.mul_le_mul_right _ isIndex
        rw [Nat.add_one_mul] at next
        have cast : ((Fin.ofNat fanout index : Fin fanout) : Nat) = index :=
          Nat.mod_eq_of_lt isIndex
        generalize Fin.ofNat fanout index = slot at cast
        generalize countEq : min size (block - offset) = count
        have reaches : key + count = min last (base + index * block + block) := by omega
        -- the other trees of the forest are outside of the block of this one
        have others (tree : T)
            : ∑ i : Fin fanout,
                leavesAt (Function.update trees slot tree i) (base + i * block) + rest
              = leavesAt tree (base + index * block)
                + (∑ i ∈ Finset.univ.erase slot, leavesAt (trees i) (base + i * block) + rest) := by
          rw [← Finset.add_sum_erase _ _ (Finset.mem_univ slot), Function.update_self, cast,
            add_assoc]
          congr 2
          refine Finset.sum_congr rfl (fun i member => ?_)
          rw [Function.update_of_ne (Finset.ne_of_mem_erase member)]
        have outside : ∀ leaf ∈ ∑ i ∈ Finset.univ.erase slot,
              leavesAt (trees i) (base + i * block) + rest,
            leaf.start + leaf.size ≤ base + index * block
              ∨ base + index * block + block ≤ leaf.start := by
          intro leaf member
          rcases Multiset.mem_add.mp member with inForest | inRest
          · obtain ⟨i, isOther, inTree⟩ := Multiset.mem_sum.mp inForest
            have bounds := within _ _ leaf inTree
            have different : (i : Nat) ≠ index := by
              intro same
              exact Finset.ne_of_mem_erase isOther (Fin.ext (same.trans cast.symm))
            rcases Nat.lt_or_gt_of_ne different with before | after
            · have block : (i + 1) * block ≤ index * block := Nat.mul_le_mul_right _ before
              rw [Nat.add_one_mul] at block
              omega
            · have block : (index + 1) * block ≤ i * block := Nat.mul_le_mul_right _ after
              rw [Nat.add_one_mul] at block
              omega
          · have bounds := apart leaf inRest
            omega
        have start := others (trees slot)
        rw [Function.update_eq_self] at start
        rw [start] at holds
        have after := keeps (by omega) atKey fromFirst reaches outside holds
        rw [← others] at after
        have total : key + size = key + count + (size - count) := by omega
        rw [total]
        refine ih (by omega) ?_ after
        rw [Nat.add_one_mul]
        omega

/-- The leaves outside of a block are apart from the leaf that fills it. -/
theorem leaves_apart {height base : Nat} {value : V} {rest : Multiset (Leaf V)}
    (apart : ∀ leaf ∈ rest,
      leaf.start + leaf.size ≤ base ∨ base + fanout ^ height ≤ leaf.start)
    : ∀ other ∈ rest, Leaf.Apart ⟨base, fanout ^ height, value⟩ other :=
  fun other member => (apart other member).symm

/-- Splitting a leaf gives the leaves of a forest of copies. -/
theorem leaves_split [NeZero fanout] {height base : Nat} {value : V}
    : Leaf.split ⟨base, fanout ^ (height + 1), value⟩ fanout
      = (forest (fun _ => leaf value) : BlockTree fanout V (height + 1)).leaves base := by
  have block : fanout ^ (height + 1) / fanout = fanout ^ height := by
    rw [Nat.pow_succ, Nat.mul_div_cancel _ (Nat.pos_of_neZero fanout)]
  simp only [Leaf.split, leaves, block]

/-- Visiting a range in a tree keeps every invariant of its calls, by induction on the height. -/
theorem traverse_keeps [NeZero fanout] {visit : Visit V State}
    (keeps : Keeps fanout visit first last Inv) (height : Nat)
    : KeepsIn (@leaves fanout V height) (fanout ^ height) first last Inv
        (traverse visit height) := by
  induction height with
  | zero =>
      intro state tree base key start size rest positive atKey fromFirst stop apart holds
      cases tree with
      | leaf value =>
          rw [leaves, Multiset.singleton_add] at holds
          rw [traverse]
          rcases visited : visit state value key size 1 with ⟨next, result⟩
          cases result with
          | some new =>
              have kept := keeps.put positive fromFirst stop (leaves_apart apart) holds visited
              simpa [leaves, Leaf.put] using kept
          | none =>
              have kept := keeps.split positive fromFirst stop (leaves_apart apart) holds visited
              exact (kept.1 rfl).elim
  | succ height ih =>
      intro state tree base key start size rest positive atKey fromFirst stop apart holds
      have width : fanout ^ (height + 1) = fanout * fanout ^ height := by
        rw [Nat.pow_succ, Nat.mul_comm]
      -- the loop over the trees of a forest, which a split leaf becomes
      have loop {state : State} {trees : Fin fanout → BlockTree fanout V height}
          (holds : Inv state ((forest trees).leaves base + rest) key)
          : let after := visitTrees (traverse visit height) (fanout ^ height) fanout state trees
              key (start / fanout ^ height) (start % fanout ^ height) size
            Inv after.1 ((forest after.2).leaves base + rest) (key + size) := by
        have block : 0 < fanout ^ height := Nat.pow_pos (Nat.pos_of_neZero fanout)
        have offset := Nat.mod_lt start block
        have position := Nat.div_add_mod' start (fanout ^ height)
        rw [width] at stop apart
        generalize start / fanout ^ height = index at position
        generalize start % fanout ^ height = inside at position offset
        refine visitTrees_keeps (fun tree => tree.leaves_within) ih apart
          (Nat.le_add_right _ _) (Or.inr ⟨offset, ?_, ?_, stop⟩) holds
        · omega
        · omega
      cases tree with
      | leaf value =>
          have start := holds
          rw [leaves, Multiset.singleton_add] at start
          rw [traverse]
          rcases visited : visit state value key size (fanout ^ (height + 1)) with ⟨next, result⟩
          cases result with
          | some new =>
              have kept := keeps.put positive fromFirst stop (leaves_apart apart) start visited
              simpa [leaves, Leaf.put, visited] using kept
          | none =>
              have kept := keeps.split positive fromFirst stop (leaves_apart apart) start visited
              rw [leaves_split] at kept
              simpa [visited] using loop kept.2
      | forest trees =>
          rw [traverse]
          exact loop holds

/-- Visiting a range of a row of trees keeps every invariant of its calls. -/
theorem traverseRow_keeps [NeZero fanout] {width height : Nat} [NeZero width]
    {visit : Visit V State} {start size : Nat}
    (keeps : Keeps fanout visit start (start + size) Inv)
    (fits : start + size ≤ width * fanout ^ height) {state next : State}
    {trees treesNext : Fin width → BlockTree fanout V height}
    (holds : Inv state (rowLeaves trees) start)
    (visited : traverseRow visit state trees start size = (next, treesNext))
    : Inv next (rowLeaves treesNext) (start + size) := by
  have block : 0 < fanout ^ height := Nat.pow_pos (Nat.pos_of_neZero fanout)
  have position : start % fanout ^ height < fanout ^ height
      ∧ start = 0 + start / fanout ^ height * fanout ^ height + start % fanout ^ height
      ∧ start = max start (0 + start / fanout ^ height * fanout ^ height)
      ∧ start + size = min (start + size) (0 + width * fanout ^ height) := by
    have inBlock := Nat.mod_lt start block
    have decomposed := Nat.div_add_mod' start (fanout ^ height)
    generalize start / fanout ^ height = index at decomposed ⊢
    generalize start % fanout ^ height = offset at inBlock decomposed ⊢
    omega
  have atStart : Inv state
      (∑ index : Fin width, (trees index).leaves (0 + index * fanout ^ height) + 0) start := by
    rw [rowLeaves] at holds
    rw [add_zero]
    exact holds
  have kept := visitTrees_keeps (fun tree => tree.leaves_within) (traverse_keeps keeps height)
    (fun leaf (member : leaf ∈ (0 : Multiset (Leaf V))) => (Multiset.notMem_zero leaf member).elim)
    (Nat.le_add_right width (start / fanout ^ height)) (Or.inr position) atStart
  rw [traverseRow] at visited
  rw [visited] at kept
  simp only [add_zero] at kept
  rw [rowLeaves]
  exact kept

end BlockTree
