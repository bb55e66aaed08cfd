import Glean.Ownership.FillOwnership

/-! Insertion into the trie with any function that combines values. The function is given the
reference that a list has to a value and returns a reference to the new value, for the list.
-/

namespace Glean.RTS

namespace Heap

/-- Zero without an object. -/
def refsOf (heap : Heap) (addr : Addr) : Int :=
  ((heap.objects addr).map Uset.refs).getD 0

def linkOf (heap : Heap) (addr : Addr) : Link :=
  ((heap.objects addr).map Uset.link).getD .null

/-- Addresses that were not allocated have no objects. -/
def Below (heap : Heap) : Prop :=
  ∀ addr uset, heap.objects addr = some uset → addr < heap.fresh

variable (heap : Heap) (addr other : Addr)

theorem refsOf_use {uset : Uset} (stored : heap.objects addr = some uset) (refs : Int)
    : (heap.use addr refs).refsOf other
      = heap.refsOf other + if addr = other then refs else 0 := by
  rw [refsOf, refsOf, use, objects_modify]
  by_cases same : addr = other
  · subst same
    simp [stored]
  · simp [same, Ne.symm same]

@[simp]
theorem linkOf_use (refs : Int) : (heap.use addr refs).linkOf other = heap.linkOf other := by
  rw [linkOf, linkOf, use, objects_modify]
  split_ifs with same
  · rw [same, Option.map_map]
    rfl
  · rfl

@[simp]
theorem refsOf_setLink (link : Link)
    : (heap.setLink addr link).refsOf other = heap.refsOf other := by
  rw [refsOf, refsOf, setLink, objects_modify]
  split_ifs with same
  · rw [same, Option.map_map]
    rfl
  · rfl

theorem linkOf_setLink_null
    : (heap.setLink addr .null).linkOf other
      = if other = addr then .null else heap.linkOf other := by
  rw [linkOf, linkOf, setLink, objects_modify]
  split_ifs with same
  · cases stored : heap.objects addr <;> rfl
  · rfl

theorem below_modify {f : Uset → Uset} (below : heap.Below) : (heap.modify addr f).Below := by
  intro other uset stored
  rw [objects_modify] at stored
  split_ifs at stored with same
  · obtain ⟨before, isBefore, -⟩ := Option.map_eq_some_iff.mp stored
    exact below other before (same ▸ isBefore)
  · exact below other uset stored

end Heap

/-- The reference to the previous value is given up, and one to the new value is made. Objects
without references may come and go.
-/
structure Transfers (heap next : Heap) (owner : Option Addr) (upd : Addr) : Prop where
  refs : ∀ addr, next.refsOf addr
    = heap.refsOf addr - (if owner = some addr then 1 else 0) + if upd = addr then 1 else 0
  links : ∀ addr, next.linkOf addr = heap.linkOf addr
  allocated : ∃ uset, next.objects upd = some uset
  below : next.Below

/-- What `insert` relies on when it calls a function for a value, or for no value. -/
def Combines (get : Heap → Option Addr → Int → Heap × Addr) : Prop :=
  ∀ heap owner, heap.Below →
    (∀ addr, owner = some addr → (∃ uset, heap.objects addr = some uset)
      ∧ heap.linkOf addr = .null) →
    Transfers heap (get heap owner 1).1 owner (get heap owner 1).2

theorem Heap.Below.isFree {heap : Heap} (below : heap.Below)
    : heap.objects heap.fresh = none := by
  cases found : heap.objects heap.fresh with
  | none => rfl
  | some uset => exact (Nat.lt_irrefl _ (below _ _ found)).elim

/-- A new object is referred to as often as it says. -/
theorem Heap.Below.alloc {heap : Heap} (below : heap.Below) (uset : Uset)
    (link : uset.link = .null)
    : (∀ addr, (heap.alloc uset).1.refsOf addr
          = heap.refsOf addr + if heap.fresh = addr then uset.refs else 0)
      ∧ (∀ addr, (heap.alloc uset).1.linkOf addr = heap.linkOf addr)
      ∧ (heap.alloc uset).1.objects heap.fresh = some uset ∧ (heap.alloc uset).1.Below := by
  refine ⟨fun addr => ?_, fun addr => ?_, Function.update_self .., fun addr other stored => ?_⟩
  · rw [Heap.refsOf, Heap.refsOf, Heap.alloc]
    by_cases same : heap.fresh = addr
    · subst same
      simp [below.isFree]
    · simp [same, Function.update_of_ne (Ne.symm same)]
  · rw [Heap.linkOf, Heap.linkOf, Heap.alloc]
    by_cases same : heap.fresh = addr
    · subst same
      simp [below.isFree, link]
    · simp [Function.update_of_ne (Ne.symm same)]
  · rw [Heap.alloc] at stored ⊢
    dsimp only at stored ⊢
    rw [Function.update_apply] at stored
    split_ifs at stored with same
    · rw [same]
      exact Nat.lt_succ_self _
    · exact Nat.lt_succ_of_lt (below addr other stored)

/-- The function of `fillOwnership` appends in place if the list has the only reference. -/
theorem appendUnit_combines (unit : UnitId) : Combines (appendUnit unit) := by
  intro heap owner below ready
  cases owner with
  | none =>
      obtain ⟨refs, links, stored, isBelow⟩ :=
        below.alloc { exp := ⟨.or, {unit}⟩, refs := 1 } rfl
      refine ⟨fun addr => ?_, links, ⟨_, stored⟩, isBelow⟩
      change _ = heap.refsOf addr - 0 + if heap.fresh = addr then 1 else 0
      rw [sub_zero]
      exact refs addr
  | some addr =>
      obtain ⟨⟨uset, stored⟩, -⟩ := ready addr rfl
      rw [appendUnit, stored]
      dsimp only
      split_ifs with sole
      · refine ⟨fun other => ?_, fun other => ?_,
          ⟨{ uset with exp := ⟨uset.exp.op, insert unit uset.exp.set⟩ }, ?_⟩,
          heap.below_modify addr below⟩
        · rw [Heap.refsOf, Heap.refsOf, Heap.objects_modify]
          by_cases same : addr = other
          · subst same
            simp [stored]
          · simp [same, Ne.symm same]
        · rw [Heap.linkOf, Heap.linkOf, Heap.objects_modify]
          split_ifs with same
          · rw [same, stored]
            rfl
          · rfl
        · rw [Heap.objects_modify, if_pos rfl, stored]
          rfl
      · have usedBelow : (heap.use addr (-1)).Below := heap.below_modify addr below
        obtain ⟨refs, links, isStored, isBelow⟩ :=
          usedBelow.alloc { exp := ⟨.or, insert unit uset.exp.set⟩, refs := 1 } rfl
        refine ⟨fun other => ?_, fun other => ?_, ⟨_, isStored⟩, isBelow⟩
        · change _ = _ + if (heap.use addr (-1)).fresh = other then 1 else 0
          rw [refs, Heap.refsOf_use heap addr other stored]
          refine congrArg₂ (· + ·) ?_ rfl
          by_cases isOld : addr = other
          · simp [isOld, sub_eq_add_neg]
          · simp [isOld]
        · rw [links, Heap.linkOf_use]

/-- Each object counts the trees that point to it, and one more while it owns a list; the lists
that are owned are those of the trees.
-/
structure Balanced (heap : Heap) (leaves : Multiset (Leaf TreePtr)) (listed : List Addr)
    : Prop where
  below : heap.Below
  distinct : listed.Nodup
  refs : ∀ addr, heap.refsOf addr
    = pointers leaves (.value addr) + if addr ∈ listed then 1 else 0
  settled : ∀ addr, addr ∉ listed →
    heap.linkOf addr = .null ∧ pointers leaves (.link (some addr)) = 0
  listing : ∀ addr ∈ listed, ∃ keys,
    heap.linkOf addr = .trees keys ∧ pointers leaves (.link (some addr)) = keys.length

theorem Balanced.allocated {heap : Heap} {leaves : Multiset (Leaf TreePtr)} {listed : List Addr}
    {addr : Addr} (balanced : Balanced heap leaves listed) (member : addr ∈ listed)
    : ∃ uset, heap.objects addr = some uset := by
  have refs := balanced.refs addr
  rw [if_pos member] at refs
  cases stored : heap.objects addr with
  | some uset => exact ⟨uset, rfl⟩
  | none =>
      rw [Heap.refsOf, stored] at refs
      simp only [Option.map_none, Option.getD_none] at refs
      omega

/-- The counts of the trie, as they are kept while the trees of ranges go on lists. -/
theorem counts_iff_balanced {heap : Heap} {leaves : Multiset (Leaf TreePtr)} {listed : List Addr}
    : Counts heap leaves listed ↔ Balanced heap leaves listed := by
  constructor
  · intro counts
    refine ⟨counts.below, counts.distinct, fun addr => ?_, fun addr unlisted => ?_,
      fun addr member => ?_⟩
    · cases stored : heap.objects addr with
      | none =>
          obtain ⟨unlisted, values, -⟩ := counts.free addr stored
          simp [Heap.refsOf, stored, values, unlisted]
      | some uset =>
          by_cases member : addr ∈ listed
          · obtain ⟨keys, listing⟩ := counts.listing addr uset stored member
            simp [Heap.refsOf, stored, member, listing.refs]
          · simp [Heap.refsOf, stored, member, (counts.settled addr uset stored member).refs]
    · cases stored : heap.objects addr with
      | none => simp [Heap.linkOf, stored, (counts.free addr stored).2.2]
      | some uset =>
          have settled := counts.settled addr uset stored unlisted
          simp [Heap.linkOf, stored, settled.link, settled.unlinked]
    · cases stored : heap.objects addr with
      | none => exact absurd member (counts.free addr stored).1
      | some uset =>
          obtain ⟨keys, listing⟩ := counts.listing addr uset stored member
          exact ⟨keys, by simp [Heap.linkOf, stored, listing.link], listing.linked⟩
  · intro balanced
    refine ⟨balanced.below, fun addr stored => ?_, balanced.distinct,
      fun addr uset stored unlisted => ?_, fun addr uset stored member => ?_⟩
    · have unlisted : addr ∉ listed := by
        intro member
        obtain ⟨uset, isStored⟩ := balanced.allocated member
        cases stored.symm.trans isStored
      have refs := balanced.refs addr
      rw [if_neg unlisted, Heap.refsOf, stored] at refs
      simp only [Option.map_none, Option.getD_none] at refs
      exact ⟨unlisted, by omega, (balanced.settled addr unlisted).2⟩
    · have refs := balanced.refs addr
      obtain ⟨link, unlinked⟩ := balanced.settled addr unlisted
      simp only [Heap.refsOf, Heap.linkOf, stored, Option.map_some, Option.getD_some, unlisted,
        if_false] at refs link
      exact ⟨link, by omega, unlinked⟩
    · have refs := balanced.refs addr
      obtain ⟨keys, link, linked⟩ := balanced.listing addr member
      simp only [Heap.refsOf, Heap.linkOf, stored, Option.map_some, Option.getD_some, member,
        if_true] at refs link
      exact ⟨keys, link, by omega, linked⟩

/-- The list of an owner has been taken from it, so that the reference of the list is to be given
up; the links of the trees of the list are still there.
-/
structure Taken (heap : Heap) (leaves : Multiset (Leaf TreePtr)) (todo : List Addr)
    (owner : Option Addr) (count : Nat)
    : Prop where
  below : heap.Below
  distinct : todo.Nodup
  ready : ∀ addr, owner = some addr →
    (∃ uset, heap.objects addr = some uset) ∧ heap.linkOf addr = .null ∧ addr ∉ todo
  refs : ∀ addr, heap.refsOf addr = pointers leaves (.value addr)
    + (if addr ∈ todo then 1 else 0) + if owner = some addr then 1 else 0
  linked : pointers leaves (.link owner) = count
  settled : ∀ addr, addr ∉ todo →
    heap.linkOf addr = .null ∧ (owner ≠ some addr → pointers leaves (.link (some addr)) = 0)
  listing : ∀ addr ∈ todo, ∃ keys,
    heap.linkOf addr = .trees keys ∧ pointers leaves (.link (some addr)) = keys.length

variable {heap next : Heap} {leaves : Multiset (Leaf TreePtr)} {todo : List Addr} {addr : Addr}
  {owner : Option Addr} {upd : Addr} {count : Nat}

theorem Balanced.takeNull (balanced : Balanced heap leaves todo)
    (nulls : pointers leaves (.link none) = count)
    : Taken heap leaves todo none count where
  below := balanced.below
  distinct := balanced.distinct
  ready := fun addr isOwner => by cases isOwner
  refs := fun addr => by simp [balanced.refs]
  linked := nulls
  settled := fun addr unlisted =>
    ⟨(balanced.settled addr unlisted).1, fun _ => (balanced.settled addr unlisted).2⟩
  listing := balanced.listing

theorem Balanced.take {keys : List Nat} (balanced : Balanced heap leaves (addr :: todo))
    (link : heap.linkOf addr = .trees keys)
    : Taken (heap.setLink addr .null) leaves todo (some addr) keys.length := by
  obtain ⟨unlisted, distinct⟩ := List.nodup_cons.mp balanced.distinct
  obtain ⟨known, isLink, linked⟩ := balanced.listing addr List.mem_cons_self
  obtain rfl : known = keys := by
    have same := isLink.symm.trans link
    simpa using same
  obtain ⟨uset, stored⟩ := balanced.allocated List.mem_cons_self
  refine ⟨heap.below_modify addr balanced.below, distinct, ?_, fun other => ?_, linked,
    fun other notTodo => ?_, fun other member => ?_⟩
  · rintro _ ⟨⟩
    refine ⟨⟨{ uset with link := .null }, ?_⟩, ?_, unlisted⟩
    · rw [Heap.setLink, Heap.objects_modify, if_pos rfl, stored]
      rfl
    · rw [Heap.linkOf_setLink_null, if_pos rfl]
  · have refs := balanced.refs other
    rw [Heap.refsOf_setLink, refs]
    by_cases same : addr = other
    · subst same
      simp [unlisted]
    · simp [same, Ne.symm same]
  · rw [Heap.linkOf_setLink_null]
    by_cases same : other = addr
    · simp [same]
    · have settled := balanced.settled other (by simp [same, notTodo])
      rw [if_neg same]
      exact ⟨settled.1, fun _ => settled.2⟩
  · have different : other ≠ addr := fun same => unlisted (same ▸ member)
    rw [Heap.linkOf_setLink_null, if_neg different]
    exact balanced.listing other (List.mem_cons_of_mem _ member)

/-- The trees of the list point to the new value, which counts them all. -/
theorem Taken.give (taken : Taken heap leaves todo owner count)
    (transfers : Transfers heap next owner upd)
    : Balanced (next.use upd (count - 1)) (redirect (.link owner) (.value upd) leaves) todo := by
  obtain ⟨uset, stored⟩ := transfers.allocated
  refine ⟨next.below_modify upd transfers.below, taken.distinct, fun addr => ?_,
    fun addr notTodo => ?_, fun addr member => ?_⟩
  · rw [Heap.refsOf_use next upd addr stored, transfers.refs, taken.refs, pointers_unlink]
    by_cases isUpd : upd = addr
    · have linked := taken.linked
      simp only [isUpd, reduceCtorEq, if_false, if_true, linked]
      push_cast
      omega
    · have different : TreePtr.value addr ≠ .value upd := by simp [Ne.symm isUpd]
      simp only [isUpd, reduceCtorEq, if_false, different]
      omega
  · obtain ⟨link, unlinked⟩ := taken.settled addr notTodo
    rw [Heap.linkOf_use, transfers.links, pointers_unlink]
    refine ⟨link, ?_⟩
    by_cases isOwner : owner = some addr
    · simp [isOwner]
    · have different : TreePtr.link (some addr) ≠ .link owner := by
        simpa using Ne.symm isOwner
      rw [if_neg different, if_neg (by simp)]
      exact unlinked isOwner
  · obtain ⟨keys, link, linked⟩ := taken.listing addr member
    have different : TreePtr.link (some addr) ≠ .link owner := by
      intro same
      have isOwner : owner = some addr := by simpa using same.symm
      exact (taken.ready addr isOwner).2.2 member
    rw [Heap.linkOf_use, transfers.links, pointers_unlink, if_neg different, if_neg (by simp)]
    exact ⟨keys, link, linked⟩

end Glean.RTS
