import Glean.Ownership.Flatten

/-! The container while ownership is completed. References to its members are held by the facts
of the vector, by numbered sets, and by the loop that is running; a member is freed only when
none is left.
-/

namespace Glean.RTS

/-- Giving one fact another set. -/
theorem holders_update {sets : Id → Option Addr} {size : Nat} {id : Id} (inside : id < size)
    (new : Option Addr) (addr : Addr)
    : holders (Function.update sets id new) size addr + (if sets id = some addr then 1 else 0)
      = holders sets size addr + if new = some addr then 1 else 0 := by
  have one (sets : Id → Option Addr)
      : holders sets size addr
        = (((Finset.range size).erase id).filter (fun other => sets other = some addr)).card
          + if sets id = some addr then 1 else 0 := by
    have split : Finset.range size = insert id ((Finset.range size).erase id) :=
      (Finset.insert_erase (Finset.mem_range.mpr inside)).symm
    rw [holders]
    conv_lhs => rw [split, Finset.filter_insert]
    split_ifs
    · rw [Finset.card_insert_of_notMem (by simp)]
    · rfl
  have others : ((Finset.range size).erase id).filter
        (fun other => Function.update sets id new other = some addr)
      = ((Finset.range size).erase id).filter (fun other => sets other = some addr) := by
    refine Finset.filter_congr (fun other member => ?_)
    rw [Function.update_of_ne (Finset.ne_of_mem_erase member)]
  rw [one (Function.update sets id new), one sets, others, Function.update_self]
  omega

namespace Usets

/-- A member with its expression and id. -/
def Entry (usets : Usets) (addr : Addr) (exp : SetExpr) (id : UsetId) : Prop :=
  addr ∈ usets.members ∧ ∃ uset, usets.heap addr = some uset ∧ uset.exp = exp ∧ uset.id = id

end Usets

/-- The sets that have been promoted have consecutive ids. -/
structure Numbered (usets : Usets) (named : Finset (Finset UnitId)) : Prop where
  next : usets.nextId = usets.firstId + usets.promoted
  room : usets.nextId ≤ invalidUset
  count : usets.promoted = named.card
  mem_named
    : ∀ set, set ∈ named ↔ ∃ addr exp id, usets.Entry addr exp id ∧ id ≠ invalidUset
        ∧ exp.set = set
  range
    : ∀ addr exp id, usets.Entry addr exp id → id ≠ invalidUset →
        usets.firstId ≤ id ∧ id < usets.nextId
  distinct
    : ∀ left right leftExp rightExp id, usets.Entry left leftExp id →
        usets.Entry right rightExp id → id ≠ invalidUset → left = right
  onto : ∀ index, index < usets.promoted → ∃ addr exp, usets.Entry addr exp (usets.firstId + index)

/-- Numbering depends on the numbered sets only. -/
theorem Numbered.congr {usets next : Usets} {named : Finset (Finset UnitId)}
    (numbered : Numbered usets named)
    (numbers : next.firstId = usets.firstId ∧ next.nextId = usets.nextId
      ∧ next.promoted = usets.promoted)
    (same : ∀ addr exp id, id ≠ invalidUset → (next.Entry addr exp id ↔ usets.Entry addr exp id))
    : Numbered next named := by
  obtain ⟨firstId, nextId, promoted⟩ := numbers
  refine ⟨?_, ?_, ?_, ?_, ?_, ?_, ?_⟩
  · rw [firstId, nextId, promoted]
    exact numbered.next
  · rw [nextId]
    exact numbered.room
  · rw [promoted]
    exact numbered.count
  · intro set
    rw [numbered.mem_named]
    refine exists_congr fun addr => exists_congr fun exp => exists_congr fun id => ?_
    refine ⟨?_, ?_⟩
    · rintro ⟨entry, valid, isSet⟩
      exact ⟨(same addr exp id valid).mpr entry, valid, isSet⟩
    · rintro ⟨entry, valid, isSet⟩
      exact ⟨(same addr exp id valid).mp entry, valid, isSet⟩
  · intro addr exp id entry valid
    rw [firstId, nextId]
    exact numbered.range addr exp id ((same addr exp id valid).mp entry) valid
  · intro left right leftExp rightExp id leftEntry rightEntry valid
    exact numbered.distinct left right leftExp rightExp id
      ((same left leftExp id valid).mp leftEntry) ((same right rightExp id valid).mp rightEntry)
      valid
  · intro index below
    rw [promoted] at below
    obtain ⟨addr, exp, entry⟩ := numbered.onto index below
    have valid : usets.firstId + index ≠ invalidUset := by
      have next := numbered.next
      have room := numbered.room
      lia
    rw [firstId]
    exact ⟨addr, exp, (same addr exp _ valid).mpr entry⟩

/-- Each member counts the facts that have it, one reference if it is numbered, and the extra
references that the running loop holds.
-/
structure Owned (size : Nat) (named : Finset (Finset UnitId)) (usets : Usets)
    (sets : Id → Option Addr) (extra : Multiset Addr)
    : Prop where
  canonical : usets.Canonical
  numbered : Numbered usets named
  plain
    : ∀ addr uset, addr ∈ usets.members → usets.heap addr = some uset →
        uset.exp.op = .or ∧ uset.exp.set.Nonempty
  members : ∀ id addr, sets id = some addr → addr ∈ usets.members ∧ id < size
  held : ∀ addr ∈ extra, addr ∈ usets.members
  refs
    : ∀ addr uset, addr ∈ usets.members → usets.heap addr = some uset →
        holders sets size addr + extra.count addr + (if uset.id = invalidUset then 0 else 1)
          ≤ uset.refs

/-- The container after an operation that returns a reference to a member with an expression.
The member may be new.
-/
structure Grants (usets next : Usets) (p : Addr) (exp : SetExpr) : Prop where
  canonical : next.Canonical
  numbers
    : next.firstId = usets.firstId ∧ next.nextId = usets.nextId ∧ next.promoted = usets.promoted
  members : ∀ addr, addr ∈ next.members ↔ addr ∈ usets.members ∨ addr = p
  others : ∀ addr, addr ≠ p → next.heap addr = usets.heap addr
  known
    : p ∈ usets.members → ∃ uset, usets.heap p = some uset ∧ uset.exp = exp
        ∧ next.heap p = some { uset with refs := uset.refs + 1 }
  new : p ∉ usets.members → next.heap p = some { exp := exp, refs := 1 }

namespace Grants

variable {usets next : Usets} {p : Addr} {exp : SetExpr}

/-- The expression of the member. -/
theorem exp_eq (grants : Grants usets next p exp) : next.exp? p = some exp := by
  by_cases member : p ∈ usets.members
  · obtain ⟨uset, -, rfl, stored⟩ := grants.known member
    rw [Usets.exp?, stored, Option.map_some]
  · rw [Usets.exp?, grants.new member, Option.map_some]

/-- Members keep their expressions. -/
theorem exps (grants : Grants usets next p exp) {addr : Addr} (member : addr ∈ usets.members)
    : next.exp? addr = usets.exp? addr := by
  by_cases isP : addr = p
  · obtain ⟨uset, stored, isExp, storedNext⟩ := grants.known (isP ▸ member)
    rw [isP, Usets.exp?, Usets.exp?, stored, storedNext, Option.map_some, Option.map_some]
  · rw [Usets.exp?, grants.others addr isP, Usets.exp?]

end Grants

/-- `use` returns a reference to a member. -/
theorem Usets.Canonical.use_grants {usets : Usets} (canonical : usets.Canonical) {p : Addr}
    {exp : SetExpr} (member : p ∈ usets.members) (stored : usets.exp? p = some exp)
    : Grants usets (usets.use p 1) p exp := by
  refine ⟨canonical.use p 1, ⟨rfl, rfl, rfl⟩, ?_, ?_, ?_, fun absent => (absent member).elim⟩
  · intro addr
    refine ⟨Or.inl, ?_⟩
    rintro (old | isP)
    · exact old
    · exact isP ▸ member
  · intro addr isOther
    rw [Usets.use, Usets.heap_modify, if_neg isOther]
  · intro _
    obtain ⟨uset, isStored, isExp⟩ := Option.map_eq_some_iff.mp stored
    exact ⟨uset, isStored, isExp, by rw [Usets.use, Usets.heap_modify, if_pos rfl, isStored]; rfl⟩

/-- `add` returns a reference to the member with an expression. -/
theorem Usets.Canonical.add_grants {usets next : Usets} (canonical : usets.Canonical) {p : Addr}
    {exp : SetExpr} (added : usets.add exp 1 = (next, p))
    : Grants usets next p exp := by
  cases found : usets.lookup exp with
  | some addr =>
      obtain ⟨member, stored⟩ := Usets.lookup_some found
      rw [Usets.add_of_found 1 found] at added
      obtain ⟨rfl, rfl⟩ := Prod.mk.inj added
      exact canonical.use_grants member stored
  | none =>
      rw [Usets.add_of_missing 1 found] at added
      obtain ⟨rfl, rfl⟩ := Prod.mk.inj added
      have isNew : usets.fresh ∉ usets.members := by
        intro member
        obtain ⟨uset, stored⟩ := canonical.allocated _ member
        exact Nat.lt_irrefl _ (canonical.below _ uset stored)
      refine ⟨canonical.insertNew found, ⟨rfl, rfl, rfl⟩, ?_, ?_, fun member => (isNew member).elim,
        fun _ => Function.update_self ..⟩
      · intro addr
        simp [Usets.insertNew]
      · intro addr isOther
        exact Function.update_of_ne isOther _ _

/-- `merge` returns a reference to the union of two members. -/
theorem Usets.Canonical.merge_grants {usets next : Usets} (canonical : usets.Canonical)
    {left right p : Addr} {leftSet rightSet : Finset UsetId}
    (leftMember : left ∈ usets.members) (rightMember : right ∈ usets.members)
    (leftExp : usets.exp? left = some ⟨.or, leftSet⟩)
    (rightExp : usets.exp? right = some ⟨.or, rightSet⟩)
    (merged : usets.merge left right = (next, p))
    : Grants usets next p ⟨.or, leftSet ∪ rightSet⟩ := by
  obtain ⟨leftUset, leftStored, isLeft⟩ := Option.map_eq_some_iff.mp leftExp
  obtain ⟨rightUset, rightStored, isRight⟩ := Option.map_eq_some_iff.mp rightExp
  simp only [Usets.merge, leftStored, rightStored, isLeft, isRight] at merged
  split_ifs at merged with includes included
  · obtain ⟨rfl, rfl⟩ := Prod.mk.inj merged
    rw [Finset.union_eq_left.mpr includes]
    exact canonical.use_grants leftMember leftExp
  · obtain ⟨rfl, rfl⟩ := Prod.mk.inj merged
    rw [Finset.union_eq_right.mpr included]
    exact canonical.use_grants rightMember rightExp
  · exact canonical.add_grants merged

namespace Owned

variable {size : Nat} {named : Finset (Finset UnitId)} {usets next : Usets}
  {sets : Id → Option Addr} {extra left : Multiset Addr} {addr p : Addr} {id : Id}

theorem holders_eq_zero (owned : Owned size named usets sets extra)
    (notMember : addr ∉ usets.members)
    : holders sets size addr = 0 := by
  refine Finset.card_eq_zero.mpr (Finset.filter_eq_empty_iff.mpr (fun id _ isHeld => ?_))
  exact notMember (owned.members id addr isHeld).1

theorem holders_pos (owned : Owned size named usets sets extra) (isHeld : sets id = some addr)
    : 0 < holders sets size addr := by
  have inside := (owned.members id addr isHeld).2
  exact Finset.card_pos.mpr ⟨id, Finset.mem_filter.mpr ⟨Finset.mem_range.mpr inside, isHeld⟩⟩

/-- A reference that is returned is an extra one at first. -/
theorem grant {exp : SetExpr} (owned : Owned size named usets sets extra)
    (grants : Grants usets next p exp) (isOr : exp.op = .or) (nonempty : exp.set.Nonempty)
    : Owned size named next sets (p ::ₘ extra) := by
  have more {addr : Addr} (member : addr ∈ usets.members) : addr ∈ next.members :=
    (grants.members addr).mpr (Or.inl member)
  -- a member is an old one with the same content, or new without an id
  have before {addr : Addr} {uset : Uset} (member : addr ∈ next.members)
      (stored : next.heap addr = some uset)
      : (∃ old, addr ∈ usets.members ∧ usets.heap addr = some old ∧ uset.exp = old.exp
          ∧ uset.id = old.id ∧ uset.refs = old.refs + if addr = p then 1 else 0)
        ∨ addr = p ∧ p ∉ usets.members ∧ uset = { exp := exp, refs := 1 } := by
    by_cases isP : addr = p
    · by_cases known : p ∈ usets.members
      · obtain ⟨old, isOld, -, storedNext⟩ := grants.known known
        rw [isP, storedNext] at stored
        cases stored
        exact Or.inl ⟨old, isP ▸ known, isP ▸ isOld, rfl, rfl, by rw [if_pos isP]⟩
      · rw [isP, grants.new known] at stored
        cases stored
        exact Or.inr ⟨isP, known, rfl⟩
    · rw [grants.others addr isP] at stored
      refine Or.inl ⟨uset, ?_, stored, rfl, rfl, by rw [if_neg isP, add_zero]⟩
      exact ((grants.members addr).mp member).resolve_right isP
  refine ⟨grants.canonical, owned.numbered.congr grants.numbers ?_, ?_, ?_, ?_, ?_⟩
  · intro addr other id valid
    refine ⟨?_, ?_⟩
    · rintro ⟨member, uset, stored, rfl, rfl⟩
      rcases before member stored with ⟨old, isMember, isOld, exps, ids, -⟩ | ⟨-, -, rfl⟩
      · exact ⟨isMember, old, isOld, exps.symm, ids.symm⟩
      · exact (valid rfl).elim
    · rintro ⟨member, old, isOld, rfl, rfl⟩
      refine ⟨more member, ?_⟩
      by_cases isP : addr = p
      · obtain ⟨found, isFound, -, storedNext⟩ := grants.known (isP ▸ member)
        rw [isP, isFound] at isOld
        cases isOld
        exact ⟨{ old with refs := old.refs + 1 }, isP ▸ storedNext, rfl, rfl⟩
      · exact ⟨old, (grants.others addr isP).trans isOld, rfl, rfl⟩
  · intro addr uset member stored
    rcases before member stored with ⟨old, isMember, isOld, exps, -⟩ | ⟨-, -, rfl⟩
    · rw [exps]
      exact owned.plain addr old isMember isOld
    · exact ⟨isOr, nonempty⟩
  · intro id addr isHeld
    obtain ⟨member, inside⟩ := owned.members id addr isHeld
    exact ⟨more member, inside⟩
  · intro addr isExtra
    rcases Multiset.mem_cons.mp isExtra with rfl | old
    · exact (grants.members _).mpr (Or.inr rfl)
    · exact more (owned.held addr old)
  · intro addr uset member stored
    rcases before member stored with ⟨old, isMember, isOld, -, ids, refs⟩ | ⟨rfl, absent, rfl⟩
    · have counted := owned.refs addr old isMember isOld
      rw [Multiset.count_cons, refs, ids]
      push_cast
      split_ifs at counted ⊢ <;> omega
    · have free : extra.count addr = 0 :=
        Multiset.count_eq_zero.mpr (fun isExtra => absent (owned.held addr isExtra))
      rw [Multiset.count_cons_self, owned.holders_eq_zero absent, free]
      simp

/-- The extra reference goes to a fact, and the one that the fact had becomes an extra one. -/
theorem store (owned : Owned size named usets sets (p ::ₘ extra)) (inside : id < size)
    (released : ∀ addr, left.count addr
      = extra.count addr + if sets id = some addr then 1 else 0)
    : Owned size named usets (Function.update sets id (some p)) left := by
  have isMember : p ∈ usets.members := owned.held p (Multiset.mem_cons_self _ _)
  refine ⟨owned.canonical, owned.numbered, owned.plain, ?_, ?_, ?_⟩
  · intro other addr isHeld
    rw [Function.update_apply] at isHeld
    split_ifs at isHeld with same
    · cases isHeld
      exact ⟨isMember, same ▸ inside⟩
    · exact owned.members other addr isHeld
  · intro addr isLeft
    have positive := Multiset.count_pos.mpr isLeft
    rw [released] at positive
    by_cases wasHeld : sets id = some addr
    · exact (owned.members id addr wasHeld).1
    · rw [if_neg wasHeld] at positive
      exact owned.held addr (Multiset.mem_cons_of_mem (Multiset.count_pos.mp positive))
  · intro addr uset member stored
    have counted := owned.refs addr uset member stored
    have updated := @holders_update sets size id inside (some p) addr
    rw [Multiset.count_cons] at counted
    rw [released]
    simp only [Option.some.injEq, @eq_comm _ addr p] at counted updated ⊢
    push_cast at counted ⊢
    split_ifs at counted updated ⊢ <;> omega

/-- Changing a set without its content. -/
theorem modify {f : Uset → Uset} (owned : Owned size named usets sets extra)
    (keeps : ∀ uset, (f uset).content = uset.content)
    (refs : ∀ uset, uset.refs + left.count addr ≤ (f uset).refs + extra.count addr)
    (others : ∀ other, other ≠ addr → left.count other = extra.count other)
    (held : ∀ other ∈ left, other ∈ usets.members)
    : Owned size named (usets.modify addr f) sets left := by
  have exps (uset : Uset) : (f uset).exp = uset.exp := congrArg Prod.fst (keeps uset)
  have ids (uset : Uset) : (f uset).id = uset.id := congrArg Prod.snd (keeps uset)
  have before {other : Addr} {uset : Uset} (stored : (usets.modify addr f).heap other = some uset)
      : ∃ old, usets.heap other = some old ∧ uset.exp = old.exp ∧ uset.id = old.id
          ∧ old.refs + left.count other ≤ uset.refs + extra.count other := by
    rw [Usets.heap_modify] at stored
    split_ifs at stored with same
    · obtain ⟨old, isOld, rfl⟩ := Option.map_eq_some_iff.mp stored
      rw [same]
      exact ⟨old, isOld, exps old, ids old, refs old⟩
    · exact ⟨uset, stored, rfl, rfl, by rw [others other same]⟩
  refine ⟨owned.canonical.modify addr exps, owned.numbered.congr ⟨rfl, rfl, rfl⟩ ?_, ?_,
    owned.members, held, ?_⟩
  · intro other exp id valid
    refine and_congr_right (fun member => ⟨?_, ?_⟩)
    · rintro ⟨uset, stored, rfl, rfl⟩
      obtain ⟨old, isOld, isExp, isId, -⟩ := before stored
      exact ⟨old, isOld, isExp.symm, isId.symm⟩
    · rintro ⟨old, isOld, rfl, rfl⟩
      rw [Usets.heap_modify]
      split_ifs with same
      · rw [same] at isOld
        exact ⟨f old, by rw [isOld, Option.map_some], exps old, ids old⟩
      · exact ⟨old, isOld, rfl, rfl⟩
  · intro other uset member stored
    obtain ⟨old, isOld, isExp, -⟩ := before stored
    rw [isExp]
    exact owned.plain other old member isOld
  · intro other uset member stored
    obtain ⟨old, isOld, -, isId, isRefs⟩ := before stored
    have counted := owned.refs other old member isOld
    rw [isId]
    omega

theorem setLink (owned : Owned size named usets sets extra) (addr : Addr) (link : Link)
    : Owned size named (usets.setLink addr link) sets extra :=
  owned.modify (fun _ => rfl) (fun _ => le_refl _) (fun _ _ => rfl) owned.held

/-- An object that is held. -/
theorem stored (owned : Owned size named usets sets extra) (isExtra : addr ∈ extra)
    : ∃ uset, usets.heap addr = some uset :=
  owned.canonical.allocated addr (owned.held addr isExtra)

/-- What `drop` does while another reference is left. -/
theorem drop_eq {uset : Uset} (stored : usets.heap addr = some uset) (more : uset.refs ≠ 1)
    : usets.drop addr = usets.modify addr (fun uset => { uset with refs := uset.refs - 1 }) := by
  simp only [Usets.drop, stored]
  rw [if_neg (by omega)]

/-- Giving up the last reference frees a set that no fact has and that has no id. -/
theorem free {uset : Uset} (owned : Owned size named usets sets (addr ::ₘ extra))
    (stored : usets.heap addr = some uset) (last : uset.refs = 1)
    : Owned size named
        { usets with
            heap := Function.update usets.heap addr none
            members := usets.members.filter (· ≠ addr) }
        sets extra := by
  have isMember := owned.held addr (Multiset.mem_cons_self _ _)
  have counted := owned.refs addr uset isMember stored
  rw [Multiset.count_cons_self, last] at counted
  push_cast at counted
  have noHolder : holders sets size addr = 0 := by
    split_ifs at counted <;> omega
  have noExtra : extra.count addr = 0 := by
    split_ifs at counted <;> omega
  have unnumbered : uset.id = invalidUset := by
    by_contra numbered
    rw [if_neg numbered] at counted
    omega
  generalize isNext : ({ usets with
    heap := Function.update usets.heap addr none
    members := usets.members.filter (· ≠ addr) } : Usets) = next
  have members (other : Addr) : other ∈ next.members ↔ other ∈ usets.members ∧ other ≠ addr := by
    rw [← isNext]
    simp
  have heap {other : Addr} (isOther : other ≠ addr) : next.heap other = usets.heap other := by
    rw [← isNext]
    exact Function.update_of_ne isOther _ _
  have exps {other : Addr} (isOther : other ≠ addr) : next.exp? other = usets.exp? other := by
    rw [Usets.exp?, heap isOther, Usets.exp?]
  have gone : next.heap addr = none := by
    rw [← isNext]
    exact Function.update_self ..
  refine ⟨⟨?_, ?_, ?_⟩, owned.numbered.congr ?_ ?_, ?_, ?_, ?_, ?_⟩
  · intro other member
    obtain ⟨old, isOther⟩ := (members other).mp member
    rw [heap isOther]
    exact owned.canonical.allocated other old
  · intro other found isFound
    have isOther : other ≠ addr := by
      rintro rfl
      rw [gone] at isFound
      cases isFound
    rw [heap isOther] at isFound
    rw [← isNext]
    exact owned.canonical.below other found isFound
  · intro left leftMember right rightMember equal
    obtain ⟨leftOld, leftOther⟩ := (members left).mp leftMember
    obtain ⟨rightOld, rightOther⟩ := (members right).mp rightMember
    rw [exps leftOther, exps rightOther] at equal
    exact owned.canonical.unique left leftOld right rightOld equal
  · rw [← isNext]
    exact ⟨rfl, rfl, rfl⟩
  · intro other exp id valid
    refine ⟨?_, ?_⟩
    · rintro ⟨member, found, isFound, isExp, isId⟩
      obtain ⟨old, isOther⟩ := (members other).mp member
      rw [heap isOther] at isFound
      exact ⟨old, found, isFound, isExp, isId⟩
    · rintro ⟨old, found, isFound, isExp, isId⟩
      have isOther : other ≠ addr := by
        rintro rfl
        rw [stored] at isFound
        cases isFound
        exact valid (isId.symm.trans unnumbered)
      exact ⟨(members other).mpr ⟨old, isOther⟩, found, (heap isOther).trans isFound, isExp, isId⟩
  · intro other found member isFound
    obtain ⟨old, isOther⟩ := (members other).mp member
    rw [heap isOther] at isFound
    exact owned.plain other found old isFound
  · intro id other isHeld
    obtain ⟨old, inside⟩ := owned.members id other isHeld
    refine ⟨(members other).mpr ⟨old, ?_⟩, inside⟩
    rintro rfl
    have positive := owned.holders_pos isHeld
    omega
  · intro other isExtra
    refine (members other).mpr ⟨owned.held other (Multiset.mem_cons_of_mem isExtra), ?_⟩
    rintro rfl
    have positive := Multiset.count_pos.mpr isExtra
    omega
  · intro other found member isFound
    obtain ⟨old, isOther⟩ := (members other).mp member
    rw [heap isOther] at isFound
    have bound := owned.refs other found old isFound
    rw [Multiset.count_cons_of_ne isOther] at bound
    exact bound

/-- `drop` gives up an extra reference. -/
theorem drop (owned : Owned size named usets sets (addr ::ₘ extra))
    : Owned size named (usets.drop addr) sets extra := by
  obtain ⟨uset, stored⟩ := owned.stored (Multiset.mem_cons_self addr extra)
  by_cases last : uset.refs = 1
  · have freed := owned.free stored last
    have isDrop : usets.drop addr
        = { usets with
              heap := Function.update usets.heap addr none
              members := usets.members.filter (· ≠ addr) } := by
      simp only [Usets.drop, stored]
      rw [if_pos (by omega)]
    rw [isDrop]
    exact freed
  · rw [drop_eq stored last]
    refine owned.modify (fun _ => rfl) ?_ ?_
      (fun other isExtra => owned.held other (Multiset.mem_cons_of_mem isExtra))
    · intro found
      rw [Multiset.count_cons_self]
      push_cast
      omega
    · intro other isOther
      rw [Multiset.count_cons_of_ne isOther]

/-- A set without an id is not among the named ones. -/
theorem not_named {uset : Uset} (owned : Owned size named usets sets extra)
    (member : addr ∈ usets.members) (stored : usets.heap addr = some uset)
    (unnumbered : uset.id = invalidUset)
    : uset.exp.set ∉ named := by
  intro isNamed
  obtain ⟨other, exp, id, ⟨otherMember, found, isFound, rfl, rfl⟩, valid, same⟩ :=
    (owned.numbered.mem_named _).mp isNamed
  have isOr := (owned.plain addr uset member stored).1
  have otherOr := (owned.plain other found otherMember isFound).1
  have equal : usets.exp? other = usets.exp? addr := by
    rw [Usets.exp?, Usets.exp?, isFound, stored, Option.map_some, Option.map_some,
      SetExpr.ext (otherOr.trans isOr.symm) same]
  obtain rfl := owned.canonical.unique other otherMember addr member equal
  rw [stored] at isFound
  cases isFound
  exact valid unnumbered

/-- `promote` numbers a set that has no id, and leaves everything else alone. -/
theorem promote {uset : Uset} (owned : Owned size named usets sets extra)
    (member : addr ∈ usets.members) (stored : usets.heap addr = some uset)
    (unnumbered : uset.id = invalidUset)
    (room : usets.firstId + (insert uset.exp.set named).card ≤ invalidUset)
    : Owned size (insert uset.exp.set named) (usets.promote addr) sets extra := by
  have absent := owned.not_named member stored unnumbered
  have numbered := owned.numbered
  have nextId := numbered.next
  have count := numbered.count
  rw [Finset.card_insert_of_notMem absent] at room
  have fits : (usets.nextId + 1) % 2 ^ 32 = usets.nextId + 1 := by
    refine Nat.mod_eq_of_lt ?_
    unfold invalidUset at room
    lia
  generalize isNext : usets.promote addr = next
  simp only [Usets.promote, stored, if_pos unnumbered, fits] at isNext
  have atAddr : next.heap addr
      = some { uset with id := usets.nextId, refs := uset.refs + 1 } := by
    rw [← isNext]
    exact Function.update_self ..
  have others {other : Addr} (isOther : other ≠ addr) : next.heap other = usets.heap other := by
    rw [← isNext]
    exact Function.update_of_ne isOther _ _
  have members : next.members = usets.members := by rw [← isNext]
  have firstId : next.firstId = usets.firstId := by rw [← isNext]
  have isNextId : next.nextId = usets.nextId + 1 := by rw [← isNext]
  have promoted : next.promoted = usets.promoted + 1 := by rw [← isNext]
  have exps (other : Addr) : next.exp? other = usets.exp? other := by
    by_cases isOther : other = addr
    · rw [isOther, Usets.exp?, Usets.exp?, atAddr, stored, Option.map_some, Option.map_some]
    · rw [Usets.exp?, others isOther, Usets.exp?]
  -- the numbered sets are the old ones and this one
  have entries (other : Addr) (exp : SetExpr) (id : UsetId) (valid : id ≠ invalidUset)
      : next.Entry other exp id
        ↔ usets.Entry other exp id ∨ other = addr ∧ exp = uset.exp ∧ id = usets.nextId := by
    rw [Usets.Entry, members, Usets.Entry]
    by_cases isOther : other = addr
    · rw [isOther, atAddr, stored]
      refine ⟨?_, ?_⟩
      · rintro ⟨-, found, isFound, rfl, rfl⟩
        cases isFound
        exact Or.inr ⟨rfl, rfl, rfl⟩
      · rintro (⟨-, found, isFound, isExp, isId⟩ | ⟨-, rfl, rfl⟩)
        · cases isFound
          exact (valid (isId.symm.trans unnumbered)).elim
        · exact ⟨member, _, rfl, rfl, rfl⟩
    · rw [others isOther]
      simp [isOther]
  have notInvalid : usets.nextId ≠ invalidUset := by lia
  refine ⟨⟨?_, ?_, ?_⟩, ⟨?_, ?_, ?_, ?_, ?_, ?_, ?_⟩, ?_, ?_, ?_, ?_⟩
  · intro other isMember
    rw [members] at isMember
    by_cases isOther : other = addr
    · exact ⟨_, isOther ▸ atAddr⟩
    · rw [others isOther]
      exact owned.canonical.allocated other isMember
  · intro other found isFound
    rw [← isNext]
    by_cases isOther : other = addr
    · exact isOther ▸ owned.canonical.below addr uset stored
    · rw [others isOther] at isFound
      exact owned.canonical.below other found isFound
  · intro left leftMember right rightMember equal
    rw [members] at leftMember rightMember
    rw [exps, exps] at equal
    exact owned.canonical.unique left leftMember right rightMember equal
  · lia
  · lia
  · rw [Finset.card_insert_of_notMem absent]
    lia
  · intro set
    rw [Finset.mem_insert, numbered.mem_named]
    refine ⟨?_, ?_⟩
    · rintro (rfl | ⟨other, exp, id, entry, valid, isSet⟩)
      · exact ⟨addr, uset.exp, usets.nextId,
          (entries _ _ _ notInvalid).mpr (Or.inr ⟨rfl, rfl, rfl⟩), notInvalid, rfl⟩
      · exact ⟨other, exp, id, (entries _ _ _ valid).mpr (Or.inl entry), valid, isSet⟩
    · rintro ⟨other, exp, id, entry, valid, isSet⟩
      rcases (entries _ _ _ valid).mp entry with old | ⟨-, rfl, -⟩
      · exact Or.inr ⟨other, exp, id, old, valid, isSet⟩
      · exact Or.inl isSet.symm
  · intro other exp id entry valid
    rcases (entries _ _ _ valid).mp entry with old | ⟨-, -, rfl⟩
    · have bounds := numbered.range other exp id old valid
      lia
    · lia
  · intro left right leftExp rightExp id leftEntry rightEntry valid
    rcases (entries _ _ _ valid).mp leftEntry with leftOld | ⟨rfl, -, rfl⟩
    · rcases (entries _ _ _ valid).mp rightEntry with rightOld | ⟨rfl, -, rfl⟩
      · exact numbered.distinct left right leftExp rightExp id leftOld rightOld valid
      · have bounds := numbered.range left leftExp _ leftOld valid
        lia
    · rcases (entries _ _ _ valid).mp rightEntry with rightOld | ⟨rfl, -, -⟩
      · have bounds := numbered.range right rightExp _ rightOld valid
        lia
      · rfl
  · intro index below
    rw [firstId]
    by_cases isLast : index = usets.promoted
    · have isNextIndex : usets.firstId + index = usets.nextId := by lia
      rw [isNextIndex]
      exact ⟨addr, uset.exp, (entries _ _ _ notInvalid).mpr (Or.inr ⟨rfl, rfl, rfl⟩)⟩
    · obtain ⟨other, exp, entry⟩ := numbered.onto index (by lia)
      have valid : usets.firstId + index ≠ invalidUset := by lia
      exact ⟨other, exp, (entries _ _ _ valid).mpr (Or.inl entry)⟩
  · intro other found isMember isFound
    rw [members] at isMember
    by_cases isOther : other = addr
    · rw [isOther, atAddr] at isFound
      cases isFound
      exact owned.plain addr uset member stored
    · rw [others isOther] at isFound
      exact owned.plain other found isMember isFound
  · rw [members]
    exact owned.members
  · rw [members]
    exact owned.held
  · intro other found isMember isFound
    rw [members] at isMember
    by_cases isOther : other = addr
    · rw [isOther, atAddr] at isFound
      cases isFound
      have counted := owned.refs addr uset member stored
      rw [if_pos unnumbered] at counted
      rw [isOther]
      dsimp only
      rw [if_neg notInvalid]
      omega
    · rw [others isOther] at isFound
      exact owned.refs other found isMember isFound

end Owned

end Glean.RTS
