import Glean.Ownership.FillOwnership

/-! Moving the sets of the trie into the container. Equal sets are shared: the link of a set is
the member that stands for it, and the trees that point to it are moved there one by one.
-/

namespace Glean.RTS

namespace Usets

/-- The units of the set at an address, none without one. -/
def unitsOf (usets : Usets) (owner : Option Addr) : Finset UnitId :=
  ((owner.bind usets.exp?).map SetExpr.set).getD ∅

theorem unitsOf_congr {usets next : Usets} {owner : Option Addr}
    (same : ∀ addr, owner = some addr → next.exp? addr = usets.exp? addr)
    : next.unitsOf owner = usets.unitsOf owner := by
  cases owner with
  | none => rfl
  | some addr => rw [unitsOf, unitsOf, Option.bind_some, Option.bind_some, same addr rfl]

theorem heap_modify (usets : Usets) (addr : Addr) (f : Uset → Uset) (other : Addr)
    : (usets.modify addr f).heap other
      = if other = addr then (usets.heap addr).map f else usets.heap other := by
  simp only [modify, Function.update_apply]

theorem exp?_setLink (usets : Usets) (addr : Addr) (link : Link) (other : Addr)
    : (usets.setLink addr link).exp? other = usets.exp? other := by
  rw [setLink, exp?_modify]
  exact fun _ => rfl

/-- The member that stands for a tree, as far as the sets have been added. -/
def resolve (usets : Usets) (tree : TreePtr) : TreePtr :=
  match tree with
  | .value addr =>
      match (usets.heap addr).map Uset.link with
      | some (.uset p) => .value p
      | _ => .value addr
  | other => other

def resolved (usets : Usets) (leaves : Multiset (Leaf TreePtr)) : Multiset (Leaf TreePtr) :=
  leaves.map (fun leaf => leaf.put (usets.resolve leaf.value))

theorem resolved_congr {usets next : Usets} {leaves : Multiset (Leaf TreePtr)}
    (same : ∀ leaf ∈ leaves, next.resolve leaf.value = usets.resolve leaf.value)
    : next.resolved leaves = usets.resolved leaves :=
  Multiset.map_congr rfl (fun leaf member => by rw [same leaf member])

/-- A set that is on the heap and differs from all members can become one. -/
theorem Canonical.adopt {usets : Usets} (canonical : usets.Canonical) {addr : Addr} {uset : Uset}
    (stored : usets.heap addr = some uset) (missing : usets.lookup uset.exp = none)
    : ({ usets with members := usets.members ++ [addr] } : Usets).Canonical where
  allocated := by
    intro other member
    rcases List.mem_append.mp member with old | new
    · exact canonical.allocated other old
    · rw [List.mem_singleton.mp new]
      exact ⟨uset, stored⟩
  below := canonical.below
  unique := by
    have absent := lookup_eq_none.mp missing
    have isNew : usets.exp? addr = some uset.exp := by rw [exp?, stored, Option.map_some]
    intro left leftMember right rightMember (equal : usets.exp? left = usets.exp? right)
    rcases List.mem_append.mp leftMember with leftOld | leftNew
    · rcases List.mem_append.mp rightMember with rightOld | rightNew
      · exact canonical.unique left leftOld right rightOld equal
      · rw [List.mem_singleton.mp rightNew, isNew] at equal
        exact (absent left leftOld equal).elim
    · rcases List.mem_append.mp rightMember with rightOld | rightNew
      · rw [List.mem_singleton.mp leftNew, isNew] at equal
        exact (absent right rightOld equal.symm).elim
      · rw [List.mem_singleton.mp leftNew, List.mem_singleton.mp rightNew]

end Usets

theorem redirect_self (tree : TreePtr) (leaves : Multiset (Leaf TreePtr))
    : redirect tree tree leaves = leaves := by
  have same (leaf : Leaf TreePtr)
      : leaf.put (if leaf.value = tree then tree else leaf.value) = leaf := by
    split_ifs with isTree
    · rw [← isTree]
      rfl
    · rfl
  rw [redirect, Multiset.map_congr rfl (fun leaf _ => same leaf), Multiset.map_id']

/-- The container while sets are added. A member counts the trees that it stands for, any other
set the trees that still point to it.
-/
structure Sharing (units : Nat → Finset UnitId) (usets : Usets)
    (leaves : Multiset (Leaf TreePtr))
    : Prop where
  canonical : usets.Canonical
  plain : ∀ addr uset, usets.heap addr = some uset → uset.Plain
  self : ∀ addr ∈ usets.members, (usets.heap addr).map Uset.link = some (.uset addr)
  links
    : ∀ addr uset p, usets.heap addr = some uset → uset.link = .uset p →
        p ∈ usets.members ∧ usets.exp? p = some uset.exp
  alive
    : ∀ leaf ∈ leaves, ∀ addr, leaf.value = .value addr → ∃ uset, usets.heap addr = some uset
  unmarked : ∀ leaf ∈ leaves, ¬ leaf.value.IsLink
  refs
    : ∀ addr uset, usets.heap addr = some uset → addr ∉ usets.members →
        pointers leaves (.value addr) ≤ uset.refs
  shared
    : ∀ addr uset, usets.heap addr = some uset → addr ∈ usets.members →
        pointers (usets.resolved leaves) (.value addr) ≤ uset.refs
  sets
    : ∀ leaf ∈ leaves, ∀ key, leaf.Contains key → usets.unitsOf leaf.value.owner = units key

namespace Sharing

variable {units : Nat → Finset UnitId} {usets : Usets} {leaves rest : Multiset (Leaf TreePtr)}
  {leaf : Leaf TreePtr} {addr p : Addr} {uset : Uset}

/-- A set whose link is not its own is no member. -/
theorem not_member (sharing : Sharing units usets leaves)
    (stored : usets.heap addr = some uset) (other : uset.link ≠ .uset addr)
    : addr ∉ usets.members := by
  intro member
  have self := sharing.self addr member
  rw [stored] at self
  exact other (Option.some.inj self)

/-- Resolution never leads to a set that is no member, unless from its own trees. -/
theorem resolve_eq (sharing : Sharing units usets leaves) (notMember : addr ∉ usets.members)
    {tree : TreePtr} (leads : usets.resolve tree = .value addr)
    : tree = .value addr := by
  cases tree with
  | null => exact leads
  | link owner => exact leads
  | value other =>
      cases stored : usets.heap other with
      | none => simpa [Usets.resolve, stored] using leads
      | some found =>
          cases isLink : found.link with
          | null => simpa [Usets.resolve, stored, isLink] using leads
          | trees keys => simpa [Usets.resolve, stored, isLink] using leads
          | uset p =>
              simp only [Usets.resolve, stored, Option.map_some, isLink,
                TreePtr.value.injEq] at leads
              exact (notMember (leads ▸ (sharing.links other found p stored isLink).1)).elim

/-- A set that is no member resolves from its own trees only. -/
theorem pointers_resolved_le (sharing : Sharing units usets leaves)
    (notMember : addr ∉ usets.members)
    : pointers (usets.resolved leaves) (.value addr) ≤ pointers leaves (.value addr) := by
  rw [pointers, pointers, Usets.resolved, Multiset.map_map, Multiset.count_map,
    Multiset.count_map]
  refine Multiset.card_le_card (Multiset.monotone_filter_right _ (fun leaf leads => ?_))
  exact (sharing.resolve_eq notMember leads.symm).symm

theorem resolve_unlinked (stored : usets.heap addr = some uset)
    (unlinked : ∀ p, uset.link ≠ .uset p)
    : usets.resolve (.value addr) = .value addr := by
  cases isLink : uset.link with
  | null => simp [Usets.resolve, stored, isLink]
  | trees keys => simp [Usets.resolve, stored, isLink]
  | uset p => exact (unlinked p isLink).elim

/-- A set is added: its link is set to the member that stands for it, which counts its trees
from now on.
-/
theorem link {next : Usets} (sharing : Sharing units usets leaves)
    (stored : usets.heap addr = some uset) (unlinked : ∀ p, uset.link ≠ .uset p)
    (canonical : next.Canonical)
    (atAddr : next.heap addr = some { uset with link := .uset p })
    (others : ∀ other, other ≠ addr → next.heap other = (usets.heap other).map (fun before =>
      { before with refs := before.refs + if other = p then uset.refs else 0 }))
    (members : ∀ other, other ∈ next.members ↔ other ∈ usets.members ∨ other = p)
    (isMember : p ∈ usets.members ∨ p = addr) (equal : usets.exp? p = some uset.exp)
    : Sharing units next leaves := by
  have notMember := sharing.not_member stored (unlinked addr)
  have before {other : Addr} {found : Uset} (different : other ≠ addr)
      (isFound : next.heap other = some found)
      : ∃ old, usets.heap other = some old ∧ found.exp = old.exp ∧ found.id = old.id
          ∧ found.link = old.link
          ∧ found.refs = old.refs + if other = p then uset.refs else 0 := by
    rw [others other different] at isFound
    obtain ⟨old, isOld, rfl⟩ := Option.map_eq_some_iff.mp isFound
    exact ⟨old, isOld, rfl, rfl, rfl, rfl⟩
  have exps (other : Addr) : next.exp? other = usets.exp? other := by
    rw [Usets.exp?, Usets.exp?]
    by_cases same : other = addr
    · rw [same, atAddr, stored, Option.map_some, Option.map_some]
    · rw [others other same, Option.map_map]
      rfl
  have resolveNext (tree : TreePtr) : next.resolve tree
      = if usets.resolve tree = .value addr then .value p else usets.resolve tree := by
    split_ifs with isAddr
    · rw [sharing.resolve_eq notMember isAddr]
      simp [Usets.resolve, atAddr]
    · cases tree with
      | null => rfl
      | link owner => rfl
      | value other =>
          have different : other ≠ addr := by
            rintro rfl
            exact isAddr (resolve_unlinked stored unlinked)
          simp only [Usets.resolve, others other different, Option.map_map, Function.comp_def]
  have resolved : next.resolved leaves
      = redirect (.value addr) (.value p) (usets.resolved leaves) := by
    rw [Usets.resolved, redirect, Usets.resolved, Multiset.map_map]
    exact Multiset.map_congr rfl (fun leaf _ => congrArg leaf.put (resolveNext leaf.value))
  refine ⟨canonical, ?_, ?_, ?_, ?_, sharing.unmarked, ?_, ?_, ?_⟩
  · intro other found isFound
    by_cases same : other = addr
    · rw [same, atAddr] at isFound
      cases isFound
      exact (sharing.plain addr uset stored).congr rfl
    · obtain ⟨old, isOld, exp, id, -⟩ := before same isFound
      exact (sharing.plain other old isOld).congr (Prod.ext exp.symm id.symm)
  · intro other member
    by_cases same : other = addr
    · have isP : other = p := by
        refine ((members other).mp member).resolve_left (fun old => ?_)
        exact notMember (same ▸ old)
      rw [← isP, same] at atAddr
      rw [same, atAddr, Option.map_some]
    · have old : other ∈ usets.members := by
        rcases (members other).mp member with old | isP
        · exact old
        · exact isP ▸ isMember.resolve_right (fun isAddr => same (isP.trans isAddr))
      rw [others other same, Option.map_map]
      exact sharing.self other old
  · intro other found q isFound isLink
    rw [exps, members]
    by_cases same : other = addr
    · rw [same, atAddr] at isFound
      cases isFound
      cases isLink
      exact ⟨Or.inr rfl, equal⟩
    · obtain ⟨old, isOld, exp, -, link, -⟩ := before same isFound
      rw [link] at isLink
      rw [exp]
      obtain ⟨member, stands⟩ := sharing.links other old q isOld isLink
      exact ⟨Or.inl member, stands⟩
  · intro leaf member other isValue
    by_cases same : other = addr
    · exact ⟨_, same ▸ atAddr⟩
    · obtain ⟨found, isFound⟩ := sharing.alive leaf member other isValue
      exact ⟨_, by rw [others other same, isFound, Option.map_some]⟩
  · intro other found isFound outside
    obtain ⟨notOld, notP⟩ := not_or.mp (fun either => outside ((members other).mpr either))
    by_cases same : other = addr
    · rw [same, atAddr] at isFound
      cases isFound
      rw [same]
      exact sharing.refs addr uset stored notMember
    · obtain ⟨old, isOld, -, -, -, refs⟩ := before same isFound
      rw [refs, if_neg notP, add_zero]
      exact sharing.refs other old isOld notOld
  · intro other found isFound member
    have counted := sharing.refs addr uset stored notMember
    have fewer := sharing.pointers_resolved_le notMember
    rw [resolved]
    by_cases isSelf : p = addr
    · rw [isSelf, redirect_self]
      by_cases same : other = addr
      · rw [same, atAddr] at isFound
        cases isFound
        rw [same]
        dsimp only
        omega
      · obtain ⟨old, isOld, -, -, -, refs⟩ := before same isFound
        have notP : other ≠ p := fun isP => same (isP.trans isSelf)
        rw [refs, if_neg notP, add_zero]
        exact sharing.shared other old isOld (((members other).mp member).resolve_right notP)
    · have isOther : p ∈ usets.members := isMember.resolve_right isSelf
      have isOld : other ∈ usets.members := by
        rcases (members other).mp member with old | isP
        · exact old
        · exact isP ▸ isOther
      have different : other ≠ addr := fun isAddr => notMember (isAddr ▸ isOld)
      obtain ⟨old, wasFound, -, -, -, refs⟩ := before different isFound
      have bound := sharing.shared other old wasFound isOld
      rw [pointers_redirect (by simpa using Ne.symm isSelf), refs]
      by_cases isP : other = p
      · simp only [TreePtr.value.injEq, isP, if_true]
        rw [isP] at bound different
        simp only [different, if_false]
        push_cast
        omega
      · simpa [different, isP] using bound
  · intro leaf member key inside
    rw [Usets.unitsOf_congr (fun other _ => exps other)]
    exact sharing.sets leaf member key inside

/-- A tree is moved to the member that stands for it. -/
theorem drop (sharing : Sharing units usets (leaf ::ₘ rest)) (isValue : leaf.value = .value addr)
    (stored : usets.heap addr = some uset) (isLink : uset.link = .uset p) (different : p ≠ addr)
    : Sharing units (usets.dropEntry addr) (leaf.put (.value p) ::ₘ rest) := by
  obtain ⟨isMember, equal⟩ := sharing.links addr uset p stored isLink
  have notMember : addr ∉ usets.members := by
    refine sharing.not_member stored (fun self => ?_)
    rw [isLink] at self
    exact different (Link.uset.inj self)
  have counted := sharing.refs addr uset stored notMember
  rw [pointers_cons, if_pos isValue.symm] at counted
  push_cast at counted
  generalize isNext : usets.dropEntry addr = next
  have members : next.members = usets.members := by rw [← isNext]; rfl
  have fresh : next.fresh = usets.fresh := by rw [← isNext]; rfl
  have others (other : Addr) (isOther : other ≠ addr) : next.heap other = usets.heap other := by
    rw [← isNext]
    exact Function.update_of_ne isOther _ _
  have atAddr : next.heap addr
      = if uset.refs - 1 = 0 then none else some { uset with refs := uset.refs - 1 } := by
    rw [← isNext]
    simp [Usets.dropEntry, stored]
  have ofMember {other : Addr} (member : other ∈ usets.members) : other ≠ addr :=
    fun isAddr => notMember (isAddr ▸ member)
  -- the set is freed with the last tree that points to it only
  have kept {other : Leaf TreePtr} (member : other ∈ rest) (pointsTo : other.value = .value addr)
      : next.heap addr = some { uset with refs := uset.refs - 1 } := by
    have positive := pointers_pos member
    rw [pointsTo] at positive
    rw [atAddr, if_neg (by omega)]
  have exps {other : Addr} (isOther : other ≠ addr) : next.exp? other = usets.exp? other := by
    rw [Usets.exp?, others other isOther, Usets.exp?]
  have expsAt {other : Leaf TreePtr} (member : other ∈ rest)
      (pointsTo : other.value = .value addr)
      : next.exp? addr = usets.exp? addr := by
    rw [Usets.exp?, kept member pointsTo, Usets.exp?, stored, Option.map_some, Option.map_some]
  have resolved : next.resolved (leaf.put (.value p) ::ₘ rest)
      = usets.resolved (leaf ::ₘ rest) := by
    have head : next.resolve (.value p) = usets.resolve leaf.value := by
      have self := sharing.self p isMember
      rw [isValue]
      simp only [Usets.resolve, others p different, self, stored, Option.map_some, isLink]
    have tail : next.resolved rest = usets.resolved rest := by
      refine Usets.resolved_congr (fun other member => ?_)
      cases value : other.value with
      | null => rfl
      | link owner => rfl
      | value target =>
          by_cases isOther : target = addr
          · rw [isOther] at value ⊢
            simp only [Usets.resolve, kept member value, stored, Option.map_some]
          · simp only [Usets.resolve, others target isOther]
    rw [Usets.resolved, Usets.resolved, Multiset.map_cons, Multiset.map_cons]
    exact congrArg₂ Multiset.cons (congrArg leaf.put head) tail
  refine ⟨⟨?_, ?_, ?_⟩, ?_, ?_, ?_, ?_, ?_, ?_, ?_, ?_⟩
  · intro other member
    rw [members] at member
    rw [others other (ofMember member)]
    exact sharing.canonical.allocated other member
  · intro other found isFound
    rw [fresh]
    by_cases isOther : other = addr
    · rw [isOther]
      exact sharing.canonical.below addr uset stored
    · rw [others other isOther] at isFound
      exact sharing.canonical.below other found isFound
  · intro left leftMember right rightMember same
    rw [members] at leftMember rightMember
    rw [exps (ofMember leftMember), exps (ofMember rightMember)] at same
    exact sharing.canonical.unique left leftMember right rightMember same
  · intro other found isFound
    by_cases isOther : other = addr
    · rw [isOther, atAddr] at isFound
      split_ifs at isFound
      cases isFound
      exact (sharing.plain addr uset stored).congr rfl
    · rw [others other isOther] at isFound
      exact sharing.plain other found isFound
  · intro other member
    rw [members] at member
    rw [others other (ofMember member)]
    exact sharing.self other member
  · intro other found q isFound isLinked
    rw [members]
    by_cases isOther : other = addr
    · rw [isOther, atAddr] at isFound
      split_ifs at isFound
      cases isFound
      obtain rfl := Link.uset.inj (isLink.symm.trans isLinked)
      rw [exps different]
      exact ⟨isMember, equal⟩
    · rw [others other isOther] at isFound
      obtain ⟨member, stands⟩ := sharing.links other found q isFound isLinked
      rw [exps (ofMember member)]
      exact ⟨member, stands⟩
  · intro other member target pointsTo
    rcases Multiset.mem_cons.mp member with rfl | isRest
    · obtain rfl := TreePtr.value.inj pointsTo
      rw [others _ different]
      exact sharing.canonical.allocated _ isMember
    · by_cases isOther : target = addr
      · rw [isOther] at pointsTo ⊢
        exact ⟨_, kept isRest pointsTo⟩
      · rw [others target isOther]
        exact sharing.alive other (Multiset.mem_cons_of_mem isRest) target pointsTo
  · intro other member
    rcases Multiset.mem_cons.mp member with rfl | isRest
    · rintro ⟨owner, isOwner⟩
      cases isOwner
    · exact sharing.unmarked other (Multiset.mem_cons_of_mem isRest)
  · intro other found isFound outside
    rw [members] at outside
    have notP : other ≠ p := fun isP => outside (isP ▸ isMember)
    simp only [pointers_cons, Leaf.put, TreePtr.value.injEq, notP, if_false, add_zero]
    by_cases isOther : other = addr
    · rw [isOther, atAddr] at isFound
      split_ifs at isFound
      cases isFound
      rw [isOther]
      dsimp only
      omega
    · rw [others other isOther] at isFound
      have bound := sharing.refs other found isFound outside
      rw [pointers_cons] at bound
      push_cast at bound
      omega
  · intro other found isFound member
    rw [members] at member
    rw [resolved]
    rw [others other (ofMember member)] at isFound
    exact sharing.shared other found isFound member
  · intro other member key inside
    rcases Multiset.mem_cons.mp member with rfl | isRest
    · have sets := sharing.sets leaf (Multiset.mem_cons_self _ _) key inside
      rw [← sets, isValue]
      simp only [Leaf.put, TreePtr.owner, Usets.unitsOf, Option.bind_some]
      rw [exps different, equal, Usets.exp?, stored]
      rfl
    · rw [← sharing.sets other (Multiset.mem_cons_of_mem isRest) key inside]
      refine Usets.unitsOf_congr (fun target isOwner => ?_)
      by_cases isOther : target = addr
      · rw [isOther] at isOwner ⊢
        cases value : other.value with
        | null => simp [value, TreePtr.owner] at isOwner
        | value owner =>
            refine expsAt isRest ?_
            simpa [value, TreePtr.owner] using isOwner
        | link owner =>
            exact (sharing.unmarked other (Multiset.mem_cons_of_mem isRest) ⟨owner, value⟩).elim
      · exact exps isOther

end Sharing

/-- The state of `collectUsets` when the trees up to a key have been visited. -/
structure Collecting (units : Nat → Finset UnitId) (numUnits first : Nat) (usets : Usets)
    (leaves : Multiset (Leaf TreePtr)) (next : Nat)
    : Prop where
  sharing : Sharing units usets leaves
  numbers : usets.firstId = numUnits ∧ usets.nextId = numUnits ∧ usets.promoted = 0
  visited
    : ∀ leaf ∈ leaves, ∀ addr, leaf.value = .value addr → ∀ key, leaf.Contains key →
        first ≤ key → key < next → addr ∈ usets.members

/-- A value of the trie, and what is known about it when it is visited. -/
theorem collectVisit_value {units : Nat → Finset UnitId} {usets : Usets} {leaf : Leaf TreePtr}
    {rest : Multiset (Leaf TreePtr)} {addr : Addr} (sharing : Sharing units usets (leaf ::ₘ rest))
    (isValue : leaf.value = .value addr) (key size block : Nat)
    : ∃ next p, collectVisit usets leaf.value key size block = (next, some (.value p))
        ∧ Sharing units next (leaf.put (.value p) ::ₘ rest) ∧ p ∈ next.members
        ∧ (∀ member ∈ usets.members, member ∈ next.members)
        ∧ next.firstId = usets.firstId ∧ next.nextId = usets.nextId
        ∧ next.promoted = usets.promoted := by
  obtain ⟨entry, stored⟩ := sharing.alive leaf (Multiset.mem_cons_self _ _) addr isValue
  have same : leaf.put (.value addr) = leaf := by
    rw [← isValue]
    rfl
  by_cases added : ∃ p, entry.link = .uset p
  · obtain ⟨p, isLink⟩ := added
    obtain ⟨isMember, -⟩ := sharing.links addr entry p stored isLink
    by_cases isSelf : p = addr
    · refine ⟨usets, addr, ?_, same.symm ▸ sharing, isSelf ▸ isMember, fun _ => id, rfl, rfl,
        rfl⟩
      simp [collectVisit, isValue, stored, isLink, isSelf]
    · refine ⟨usets.dropEntry addr, p, ?_, sharing.drop isValue stored isLink isSelf, isMember,
        fun _ => id, rfl, rfl, rfl⟩
      simp [collectVisit, isValue, stored, isLink, isSelf]
  · have unlinked (p : Addr) : entry.link ≠ .uset p := fun isLink => added ⟨p, isLink⟩
    have visit : collectVisit usets leaf.value key size block
        = let linked := (usets.addEntry addr entry).1.setLink addr
            (.uset (usets.addEntry addr entry).2)
          if (usets.addEntry addr entry).2 ≠ addr then
            (linked.dropEntry addr, some (.value (usets.addEntry addr entry).2))
          else
            (linked, some (.value addr)) := by
      rw [isValue]
      simp only [collectVisit, stored]
    cases found : usets.lookup entry.exp with
    | none =>
        have adopted : Sharing units
            ({ usets with members := usets.members ++ [addr] }.setLink addr (.uset addr))
            (leaf ::ₘ rest) := by
          refine sharing.link stored unlinked ?_ ?_ ?_ ?_ (Or.inr rfl) ?_
          · exact (sharing.canonical.adopt stored found).modify addr (fun _ => rfl)
          · simp [Usets.setLink, Usets.heap_modify, stored]
          · intro other different
            simp [Usets.setLink, Usets.heap_modify, different]
          · intro other
            simp [Usets.setLink, Usets.modify]
          · rw [Usets.exp?, stored, Option.map_some]
        refine ⟨{ usets with members := usets.members ++ [addr] }.setLink addr (.uset addr), addr,
          ?_, ?_, ?_, ?_, rfl, rfl, rfl⟩
        · rw [visit, Usets.addEntry, found]
          simp
        · rw [same]
          exact adopted
        · simp [Usets.setLink, Usets.modify]
        · exact fun member isMember => List.mem_append_left _ isMember
    | some p =>
        obtain ⟨isMember, equal⟩ := Usets.lookup_some found
        have notMember := sharing.not_member stored (unlinked addr)
        have different : p ≠ addr := fun isAddr => notMember (isAddr ▸ isMember)
        have shared : Sharing units ((usets.use p entry.refs).setLink addr (.uset p))
            (leaf ::ₘ rest) := by
          refine sharing.link stored unlinked ?_ ?_ ?_ ?_ (Or.inl isMember) equal
          · exact (sharing.canonical.use p entry.refs).modify addr (fun _ => rfl)
          · simp [Usets.setLink, Usets.use, Usets.heap_modify, stored, different.symm]
          · intro other isOther
            by_cases isP : other = p
            · simp [Usets.setLink, Usets.use, Usets.heap_modify, isP, different]
            · simp [Usets.setLink, Usets.use, Usets.heap_modify, isOther, isP]
          · intro other
            have known : other = p → other ∈ usets.members := fun isP => isP ▸ isMember
            simpa [Usets.setLink, Usets.use, Usets.modify] using known
        have linked : ((usets.use p entry.refs).setLink addr (.uset p)).heap addr
            = some { entry with link := .uset p } := by
          simp [Usets.setLink, Usets.use, Usets.heap_modify, stored, different.symm]
        refine ⟨_, p, ?_, shared.drop isValue linked rfl different, isMember, fun _ => id, rfl,
          rfl, rfl⟩
        rw [visit, Usets.addEntry, found]
        simp [different]

/-- Every call of the function that `collectUsets` gives to `foreach` keeps the invariant. -/
theorem collectVisit_keeps {units : Nat → Finset UnitId} {numUnits first last : Nat}
    : BlockTree.Keeps 16 collectVisit first last (Collecting units numUnits first) where
  put := by
    intro usets next leaf rest key size value positive atKey stop apart collecting visited
    have sharing := collecting.sharing
    -- the other leaves have no key in this one
    have earlier {member : Leaf TreePtr} (isRest : member ∈ rest) {addr : Addr}
        (isValue : member.value = .value addr) {other : Nat} (inside : member.Contains other)
        (low : first ≤ other) (high : other < key + size)
        : addr ∈ usets.members := by
      refine collecting.visited member (Multiset.mem_cons_of_mem isRest) addr isValue other inside
        low ?_
      obtain ⟨above, below⟩ := inside
      rcases apart member isRest with after | before
      · omega
      · omega
    cases tree : leaf.value with
    | null =>
        rw [tree] at visited
        obtain ⟨rfl, rfl⟩ : usets = next ∧ .null = value := by
          simpa [collectVisit] using visited
        have same : leaf.put .null = leaf := by
          rw [← tree]
          rfl
        rw [same]
        refine ⟨sharing, collecting.numbers, ?_⟩
        intro member isMember addr isValue other inside low high
        rcases Multiset.mem_cons.mp isMember with rfl | isRest
        · rw [tree] at isValue
          cases isValue
        · exact earlier isRest isValue inside low high
    | link owner =>
        exact (sharing.unmarked leaf (Multiset.mem_cons_self _ _) ⟨owner, tree⟩).elim
    | value addr =>
        obtain ⟨after, p, isVisit, shared, isMember, more, firstId, nextId, promoted⟩ :=
          collectVisit_value sharing tree key size leaf.size
        rw [isVisit] at visited
        obtain ⟨rfl, isP⟩ := Prod.mk.inj visited
        obtain rfl := Option.some.inj isP
        refine ⟨shared, ?_, ?_⟩
        · rw [firstId, nextId, promoted]
          exact collecting.numbers
        · intro member isLeaf target isValue other inside low high
          rcases Multiset.mem_cons.mp isLeaf with rfl | isRest
          · exact TreePtr.value.inj isValue ▸ isMember
          · exact more _ (earlier isRest isValue inside low high)
  split := by
    intro usets next leaf rest key size positive atKey stop apart collecting visited
    have sharing := collecting.sharing
    cases tree : leaf.value with
    | null =>
        rw [tree] at visited
        simp [collectVisit] at visited
    | link owner =>
        exact (sharing.unmarked leaf (Multiset.mem_cons_self _ _) ⟨owner, tree⟩).elim
    | value addr =>
        obtain ⟨after, p, isVisit, -⟩ := collectVisit_value sharing tree key size leaf.size
        rw [isVisit] at visited
        simp at visited

/-- Resetting the links of some sets. -/
theorem Usets.foldl_setLink (usets : Usets) (addrs : List Addr)
    : addrs.foldl (fun usets addr => usets.setLink addr .null) usets
      = { usets with heap := fun other =>
            if other ∈ addrs then (usets.heap other).map (fun uset => { uset with link := .null })
            else usets.heap other } := by
  induction addrs generalizing usets with
  | nil => rfl
  | cons addr addrs ih =>
      rw [List.foldl_cons, ih]
      simp only [setLink, modify, Function.update_apply, List.mem_cons]
      congr 1
      funext other
      by_cases isAddr : other = addr
      · by_cases isLater : addr ∈ addrs
        · simp [isAddr, isLater, Function.comp_def]
        · simp [isAddr, isLater]
      · simp [isAddr]

/-- The members of the container are sets of units without an id, and their links are null. -/
structure Unnumbered (numUnits : Nat) (usets : Usets) : Prop where
  canonical : usets.Canonical
  plain
    : ∀ addr uset, addr ∈ usets.members → usets.heap addr = some uset →
        uset.Plain ∧ uset.link = .null
  numbers : usets.firstId = numUnits ∧ usets.nextId = numUnits ∧ usets.promoted = 0

/-- What `collectUsets` gives: every value of the trie is a member of the container, which
counts the trees with its value.
-/
structure Collected (units : Nat → Finset UnitId) (numUnits minkey maxkey : Nat) (usets : Usets)
    (leaves : Multiset (Leaf TreePtr))
    : Prop where
  unnumbered : Unnumbered numUnits usets
  unmarked : ∀ leaf ∈ leaves, ¬ leaf.value.IsLink
  members
    : ∀ leaf ∈ leaves, ∀ addr, leaf.value = .value addr → ∀ key, leaf.Contains key →
        minkey ≤ key → key ≤ maxkey → addr ∈ usets.members
  refs
    : ∀ addr uset, addr ∈ usets.members → usets.heap addr = some uset →
        pointers leaves (.value addr) ≤ uset.refs
  sets
    : ∀ leaf ∈ leaves, ∀ key, leaf.Contains key → usets.unitsOf leaf.value.owner = units key

theorem Collecting.collected {units : Nat → Finset UnitId} {numUnits minkey maxkey next : Nat}
    {usets reset : Usets} {leaves : Multiset (Leaf TreePtr)}
    (collecting : Collecting units numUnits minkey usets leaves next)
    (all : minkey ≤ maxkey → maxkey < next)
    (isReset : usets.members.foldl (fun usets addr => usets.setLink addr .null) usets = reset)
    : Collected units numUnits minkey maxkey reset leaves := by
  have sharing := collecting.sharing
  rw [Usets.foldl_setLink] at isReset
  have members : reset.members = usets.members := by rw [← isReset]
  have exps (other : Addr) : reset.exp? other = usets.exp? other := by
    rw [← isReset, Usets.exp?, Usets.exp?]
    dsimp only
    split_ifs
    · rw [Option.map_map]
      rfl
    · rfl
  have before {addr : Addr} {uset : Uset} (member : addr ∈ usets.members)
      (stored : reset.heap addr = some uset)
      : ∃ old, usets.heap addr = some old ∧ uset = { old with link := .null } := by
    rw [← isReset] at stored
    dsimp only at stored
    rw [if_pos member] at stored
    obtain ⟨old, isOld, isNew⟩ := Option.map_eq_some_iff.mp stored
    exact ⟨old, isOld, isNew.symm⟩
  refine ⟨⟨⟨?_, ?_, ?_⟩, ?_, ?_⟩, sharing.unmarked, ?_, ?_, ?_⟩
  · intro addr member
    rw [members] at member
    obtain ⟨uset, stored⟩ := sharing.canonical.allocated addr member
    refine ⟨{ uset with link := .null }, ?_⟩
    rw [← isReset]
    dsimp only
    rw [if_pos member, stored, Option.map_some]
  · intro addr uset stored
    obtain ⟨old, isOld, -⟩ : ∃ old, usets.heap addr = some old ∧ old.exp = uset.exp := by
      have exp := exps addr
      rw [Usets.exp?, Usets.exp?, stored] at exp
      exact Option.map_eq_some_iff.mp exp.symm
    rw [← isReset]
    exact sharing.canonical.below addr old isOld
  · intro left leftMember right rightMember equal
    rw [members] at leftMember rightMember
    rw [exps, exps] at equal
    exact sharing.canonical.unique left leftMember right rightMember equal
  · intro addr uset member stored
    rw [members] at member
    obtain ⟨old, isOld, rfl⟩ := before member stored
    exact ⟨(sharing.plain addr old isOld).congr rfl, rfl⟩
  · rw [← isReset]
    exact collecting.numbers
  · intro leaf isLeaf addr isValue key inside low high
    rw [members]
    exact collecting.visited leaf isLeaf addr isValue key inside low
      (Nat.lt_of_le_of_lt high (all (Nat.le_trans low high)))
  · intro addr uset member stored
    rw [members] at member
    obtain ⟨old, isOld, rfl⟩ := before member stored
    have shared := sharing.shared addr old isOld member
    -- a member stands at least for the trees with its own value
    have more : pointers leaves (.value addr)
        ≤ pointers (usets.resolved leaves) (.value addr) := by
      rw [pointers, pointers, Usets.resolved, Multiset.map_map, Multiset.count_map,
        Multiset.count_map]
      refine Multiset.card_le_card (Multiset.monotone_filter_right _ (fun leaf isValue => ?_))
      have self := sharing.self addr member
      simp only [Function.comp_apply, Leaf.put, ← isValue, Usets.resolve, self]
    dsimp only
    omega
  · intro leaf isLeaf key inside
    rw [Usets.unitsOf_congr (fun other _ => exps other)]
    exact sharing.sets leaf isLeaf key inside

/-- Before any set is added, every set counts the trees with its value. -/
theorem Collecting.start {units : Nat → Finset UnitId} {numUnits first : Nat} {heap : Heap}
    {leaves : Multiset (Leaf TreePtr)} (filled : TrieArray.Filled units heap leaves)
    : Collecting units numUnits first
        { Usets.new numUnits with heap := heap.objects, fresh := heap.fresh } leaves first := by
  have counts := filled.counts
  refine ⟨⟨⟨nofun, counts.below, nofun⟩, filled.plain, nofun, ?_, ?_, filled.unmarked, ?_, nofun,
    ?_⟩, ⟨rfl, rfl, rfl⟩, ?_⟩
  · intro addr uset p stored isLink
    rw [(counts.settled addr uset stored List.not_mem_nil).link] at isLink
    cases isLink
  · intro leaf member addr isValue
    exact counts.allocated member (by rw [isValue]; rfl)
  · intro addr uset stored _
    exact le_of_eq (counts.settled addr uset stored List.not_mem_nil).refs.symm
  · intro leaf member key inside
    rw [← filled.sets leaf member key inside]
    cases leaf.value.owner with
    | none => rfl
    | some addr =>
        simp only [Usets.unitsOf, Heap.setOf, Option.bind_some, Usets.exp?, Option.map_map]
        rfl
  · intro leaf member addr isValue key inside low high
    exact (Nat.not_lt.mpr low high).elim

/-- `collectUsets` shares the sets of the trie. -/
theorem collectUsets_collected {units : Nat → Finset UnitId} {numUnits : Nat} {heap : Heap}
    {trie trieNext : TrieArray} {usets : Usets}
    (filled : TrieArray.Filled units heap trie.trees.leaves) (fits : trie.maxkey < 2 ^ 32)
    (collected : collectUsets numUnits heap trie = (usets, trieNext))
    : Collected units numUnits trie.minkey trie.maxkey usets trieNext.trees.leaves
        ∧ trieNext.minkey = trie.minkey ∧ trieNext.maxkey = trie.maxkey := by
  have start : Collecting units numUnits trie.minkey
      { Usets.new numUnits with heap := heap.objects, fresh := heap.fresh } trie.trees.leaves
      trie.minkey :=
    Collecting.start filled
  unfold collectUsets TrieArray.traverse at collected
  generalize { Usets.new numUnits with heap := heap.objects, fresh := heap.fresh } = empty
    at start collected
  by_cases range : trie.minkey ≤ trie.maxkey
  · rcases visited : Trees.traverse collectVisit empty trie.trees trie.minkey
      (trie.maxkey - trie.minkey + 1) with ⟨after, trees⟩
    simp only [if_pos range, visited, Prod.mk.injEq] at collected
    obtain ⟨isUsets, rfl⟩ := collected
    have kept := Trees.traverse_keeps collectVisit_keeps (by omega) start visited
    exact ⟨kept.collected (fun _ => by omega) isUsets, rfl, rfl⟩
  · simp only [if_neg range, Prod.mk.injEq] at collected
    obtain ⟨isUsets, rfl⟩ := collected
    exact ⟨start.collected (fun isRange => (range isRange).elim) isUsets, rfl, rfl⟩

end Glean.RTS
