import Glean.Library.Sweep
import Glean.Ownership.Owned

/-! Completion of ownership along references. The backwards loop over the facts does what a
descending sweep over the reference graph does, and numbers exactly the sets of facts.
-/

namespace Glean.RTS

/-- While the references of a fact with some units are visited, the link of a set is null or
its union with these units.
-/
def Links (usets : Usets) (touched : List Addr) (units : Finset UnitId) : Prop :=
  ∀ addr uset, addr ∈ usets.members → usets.heap addr = some uset →
    uset.link = .null
      ∨ ∃ p, uset.link = .uset p ∧ addr ∈ touched ∧ p ∈ usets.members
          ∧ usets.exp? p = some ⟨.or, uset.exp.set ∪ units⟩

namespace Links

variable {usets next : Usets} {touched : List Addr} {units : Finset UnitId} {p : Addr}
  {exp : SetExpr}

theorem grant (links : Links usets touched units) (grants : Grants usets next p exp)
    : Links next touched units := by
  have kept {addr : Addr} {old uset : Uset} (member : addr ∈ usets.members)
      (isOld : usets.heap addr = some old) (exps : uset.exp = old.exp)
      (sameLink : uset.link = old.link)
      : uset.link = .null
        ∨ ∃ p, uset.link = .uset p ∧ addr ∈ touched ∧ p ∈ next.members
            ∧ next.exp? p = some ⟨.or, uset.exp.set ∪ units⟩ := by
    rw [sameLink, exps]
    rcases links addr old member isOld with isNull | ⟨q, isLink, isTouched, isMember, isUnion⟩
    · exact Or.inl isNull
    · refine Or.inr ⟨q, isLink, isTouched, (grants.members q).mpr (Or.inl isMember), ?_⟩
      rw [grants.exps isMember]
      exact isUnion
  intro addr uset member stored
  by_cases isP : addr = p
  · by_cases known : p ∈ usets.members
    · obtain ⟨old, isOld, -, storedNext⟩ := grants.known known
      rw [isP, storedNext] at stored
      cases stored
      rw [← isP] at known isOld
      exact kept known isOld rfl rfl
    · rw [isP, grants.new known] at stored
      cases stored
      exact Or.inl rfl
  · rw [grants.others addr isP] at stored
    exact kept (((grants.members addr).mp member).resolve_right isP) stored rfl rfl

/-- Changing counts does not concern links. -/
theorem modify {f : Uset → Uset} (links : Links usets touched units) (addr : Addr)
    (exps : ∀ uset, (f uset).exp = uset.exp) (sameLink : ∀ uset, (f uset).link = uset.link)
    : Links (usets.modify addr f) touched units := by
  intro other uset member stored
  obtain ⟨old, isOld, isExp, isLink⟩ : ∃ old, usets.heap other = some old ∧ uset.exp = old.exp
      ∧ uset.link = old.link := by
    rw [Usets.heap_modify] at stored
    split_ifs at stored with same
    · obtain ⟨old, isOld, rfl⟩ := Option.map_eq_some_iff.mp stored
      exact ⟨old, same ▸ isOld, exps old, sameLink old⟩
    · exact ⟨uset, stored, rfl, rfl⟩
  rw [isLink, isExp]
  rcases links other old member isOld with isNull | ⟨q, isLink, isTouched, isMember, isUnion⟩
  · exact Or.inl isNull
  · refine Or.inr ⟨q, isLink, isTouched, isMember, ?_⟩
    rw [Usets.exp?_modify usets addr exps]
    exact isUnion

/-- A union is remembered. -/
theorem setLink (links : Links usets touched units) {addr : Addr} {uset : Uset}
    (stored : usets.heap addr = some uset) (isMember : p ∈ usets.members)
    (isUnion : usets.exp? p = some ⟨.or, uset.exp.set ∪ units⟩)
    : Links (usets.setLink addr (.uset p)) (touched ++ [addr]) units := by
  intro other found member isFound
  rw [Usets.setLink, Usets.heap_modify] at isFound
  split_ifs at isFound with same
  · rw [stored] at isFound
    cases isFound
    refine Or.inr ⟨p, rfl, by simp [same], isMember, ?_⟩
    rw [Usets.exp?_setLink]
    exact isUnion
  · rcases links other found member isFound with isNull | ⟨q, isLink, isTouched, isOld, isExp⟩
    · exact Or.inl isNull
    · refine Or.inr ⟨q, isLink, List.mem_append_left _ isTouched, isOld, ?_⟩
      rw [Usets.exp?_setLink]
      exact isExp

end Links

/-- The state of the loop over the references of a fact with a set. -/
structure Referring (size : Nat) (named : Finset (Finset UnitId)) (set : Addr)
    (units : Finset UnitId) (state : Completing)
    : Prop where
  owned : Owned size named state.usets state.sets state.touched
  member : set ∈ state.usets.members
  exp : state.usets.exp? set = some ⟨.or, units⟩
  links : Links state.usets state.touched units

namespace Referring

variable {size : Nat} {named : Finset (Finset UnitId)} {set : Addr} {units : Finset UnitId}
  {state : Completing} {id : Id}

/-- Storing a set for one fact changes the units of that fact only. -/
theorem unitsOf_update {usets next after : Usets} {sets : Id → Option Addr} {p : Addr}
    {exp : SetExpr} {extra : Multiset Addr} (owned : Owned size named usets sets extra)
    (grants : Grants usets next p exp) (exps : ∀ addr, after.exp? addr = next.exp? addr)
    (other : Id)
    : after.unitsOf (Function.update sets id (some p) other)
      = if other = id then exp.set else usets.unitsOf (sets other) := by
  rw [Function.update_apply, Usets.unitsOf_congr (fun addr _ => exps addr)]
  split_ifs with same
  · rw [Usets.unitsOf, Option.bind_some, grants.exp_eq]
    rfl
  · refine Usets.unitsOf_congr (fun addr isHeld => grants.exps ?_)
    exact (owned.members other addr isHeld).1

theorem nonempty (referring : Referring size named set units state) : units.Nonempty := by
  obtain ⟨uset, stored, isExp⟩ := Option.map_eq_some_iff.mp referring.exp
  have plain := referring.owned.plain set uset referring.member stored
  rw [isExp] at plain
  exact plain.2

/-- A reference to a fact that had no owner. -/
theorem referenceNew (referring : Referring size named set units state) (inside : id < size)
    (isNone : state.sets id = none)
    : Referring size named set units
        { state with
            sets := Function.update state.sets id (some set)
            usets := state.usets.use set 1 } := by
  have grants := referring.owned.canonical.use_grants referring.member referring.exp
  have granted := referring.owned.grant grants rfl referring.nonempty
  refine ⟨granted.store inside (by simp [isNone]), referring.member, grants.exp_eq, ?_⟩
  exact referring.links.grant grants

/-- A reference to a fact whose union has been computed before. -/
theorem referenceLinked {me p : Addr} {uset : Uset}
    (referring : Referring size named set units state) (inside : id < size)
    (isHeld : state.sets id = some me)
    (isTouched : me ∈ state.touched) (isMember : p ∈ state.usets.members)
    (isUnion : state.usets.exp? p = some ⟨.or, uset.exp.set ∪ units⟩)
    : Referring size named set units
        { state with
            usets := (state.usets.use p 1).drop me
            sets := Function.update state.sets id (some p) }
      ∧ ∀ addr, ((state.usets.use p 1).drop me).exp? addr = (state.usets.use p 1).exp? addr := by
  have grants := referring.owned.canonical.use_grants isMember isUnion
  have granted := referring.owned.grant grants rfl
    (referring.nonempty.mono Finset.subset_union_right)
  have storing : Owned size named (state.usets.use p 1) (Function.update state.sets id (some p))
      (me ::ₘ state.touched) := by
    refine granted.store inside (fun addr => ?_)
    simp only [Multiset.count_cons, isHeld, Option.some.injEq, eq_comm]
  -- the set has been touched, so this is not its last reference
  obtain ⟨after, storedAfter⟩ := storing.stored (Multiset.mem_cons_self me _)
  have more : after.refs ≠ 1 := by
    have counted := storing.refs me after (storing.held me (Multiset.mem_cons_self me _)) storedAfter
    have positive : 0 < (state.touched : Multiset Addr).count me :=
      Multiset.count_pos.mpr (Multiset.mem_coe.mpr isTouched)
    rw [Multiset.count_cons_self] at counted
    push_cast at counted
    split_ifs at counted <;> omega
  have dropped := storing.drop
  rw [Owned.drop_eq storedAfter more] at dropped ⊢
  have exps := Usets.exp?_modify (state.usets.use p 1) me
    (f := fun uset => { uset with refs := uset.refs - 1 }) (fun _ => rfl)
  refine ⟨⟨dropped, referring.member, ?_, ?_⟩, exps⟩
  · rw [exps, grants.exps referring.member]
    exact referring.exp
  · exact (referring.links.grant grants).modify me (fun _ => rfl) (fun _ => rfl)

/-- A reference to a fact whose union has to be computed. -/
theorem referenceMerged {me p : Addr} {uset : Uset} {next : Usets}
    (referring : Referring size named set units state) (inside : id < size)
    (isHeld : state.sets id = some me) (stored : state.usets.heap me = some uset)
    (grants : Grants state.usets next p ⟨.or, uset.exp.set ∪ units⟩)
    : Referring size named set units
        { usets := next.setLink me (.uset p)
          touched := state.touched ++ [me]
          sets := Function.update state.sets id (some p) } := by
  have isMember := (referring.owned.members id me isHeld).1
  have granted := referring.owned.grant grants rfl
    (referring.nonempty.mono Finset.subset_union_right)
  have touched : ((state.touched ++ [me] : List Addr) : Multiset Addr)
      = me ::ₘ state.touched := by
    rw [← Multiset.coe_add, Multiset.coe_singleton, add_comm, Multiset.singleton_add]
  have storing : Owned size named next (Function.update state.sets id (some p))
      ((state.touched ++ [me] : List Addr) : Multiset Addr) := by
    refine granted.store inside (fun addr => ?_)
    rw [touched]
    simp only [Multiset.count_cons, isHeld, Option.some.injEq, eq_comm]
  have kept := (grants.members set).mpr (Or.inl referring.member)
  refine ⟨storing.setLink me _, kept, ?_, ?_⟩
  · rw [Usets.exp?_setLink, grants.exps referring.member]
    exact referring.exp
  · obtain ⟨after, storedAfter⟩ := grants.canonical.allocated me
      ((grants.members me).mpr (Or.inl isMember))
    have same : after.exp = uset.exp := by
      have exps := grants.exps isMember
      rw [Usets.exp?, Usets.exp?, stored, storedAfter, Option.map_some, Option.map_some] at exps
      exact Option.some.inj exps
    refine (referring.links.grant grants).setLink storedAfter
      ((grants.members p).mpr (Or.inr rfl)) ?_
    rw [same]
    exact grants.exp_eq

/-- One round of the loop adds the units of the fact to those of the reference. -/
theorem reference (referring : Referring size named set units state) (inside : id < size)
    : Referring size named set units (state.reference set id)
      ∧ ∀ other, (state.reference set id).usets.unitsOf ((state.reference set id).sets other)
          = if other = id then state.usets.unitsOf (state.sets id) ∪ units
            else state.usets.unitsOf (state.sets other) := by
  have owned := referring.owned
  cases isHeld : state.sets id with
  | none =>
      have step : state.reference set id
          = { state with
                sets := Function.update state.sets id (some set)
                usets := state.usets.use set 1 } := by
        rw [Completing.reference, isHeld]
      rw [step]
      refine ⟨referring.referenceNew inside isHeld, fun other => ?_⟩
      have grants := owned.canonical.use_grants referring.member referring.exp
      rw [unitsOf_update owned grants (fun _ => rfl)]
      simp [Usets.unitsOf]
  | some me =>
      have isMember := (owned.members id me isHeld).1
      obtain ⟨uset, stored⟩ := owned.canonical.allocated me isMember
      have isOr := (owned.plain me uset isMember stored).1
      have exp : state.usets.exp? me = some ⟨.or, uset.exp.set⟩ := by
        rw [Usets.exp?, stored, Option.map_some, ← isOr]
      have before : state.usets.unitsOf (some me) = uset.exp.set := by
        rw [Usets.unitsOf, Option.bind_some, exp]
        rfl
      rw [before]
      rcases referring.links me uset isMember stored with
        isNull | ⟨p, isLink, isTouched, isUnionMember, isUnion⟩
      · rcases merged : state.usets.merge me set with ⟨next, p⟩
        have grants := owned.canonical.merge_grants isMember referring.member exp referring.exp
          merged
        have step : state.reference set id
            = { usets := next.setLink me (.uset p)
                touched := state.touched ++ [me]
                sets := Function.update state.sets id (some p) } := by
          simp only [Completing.reference, isHeld, stored, Option.map_some, isNull, merged]
        rw [step]
        refine ⟨referring.referenceMerged inside isHeld stored grants, fun other => ?_⟩
        exact unitsOf_update owned grants (next.exp?_setLink me _) other
      · have grants := owned.canonical.use_grants isUnionMember isUnion
        have step : state.reference set id
            = { state with
                  usets := (state.usets.use p 1).drop me
                  sets := Function.update state.sets id (some p) } := by
          simp only [Completing.reference, isHeld, stored, Option.map_some, isLink]
        rw [step]
        obtain ⟨kept, exps⟩ :=
          referring.referenceLinked inside isHeld isTouched isUnionMember isUnion
        exact ⟨kept, unitsOf_update owned grants exps⟩

/-- The whole loop, by induction on the references left. -/
theorem references {ids : List Id} (referring : Referring size named set units state)
    (inside : ∀ id ∈ ids, id < size)
    : Referring size named set units (ids.foldl (Completing.reference set) state)
      ∧ ∀ other,
          (ids.foldl (Completing.reference set) state).usets.unitsOf
              ((ids.foldl (Completing.reference set) state).sets other)
            = if other ∈ ids then state.usets.unitsOf (state.sets other) ∪ units
              else state.usets.unitsOf (state.sets other) := by
  induction ids generalizing state with
  | nil => exact ⟨referring, fun other => by simp⟩
  | cons id ids ih =>
      obtain ⟨first, isFirst⟩ := referring.reference (inside id List.mem_cons_self)
      obtain ⟨rest, isRest⟩ := ih first (fun other member => inside other (List.mem_cons_of_mem _ member))
      refine ⟨rest, fun other => ?_⟩
      rw [List.foldl_cons, isRest, isFirst]
      by_cases isId : other = id
      · by_cases again : other ∈ ids
        · simp [isId, Finset.union_assoc]
        · simp [isId]
      · simp [isId]

end Referring

/-- What `drop` leaves of the container. -/
theorem Usets.drop_kept {usets : Usets} {addr other : Addr} {uset : Uset}
    (member : other ∈ (usets.drop addr).members)
    (stored : (usets.drop addr).heap other = some uset)
    : other ∈ usets.members ∧ ∃ old, usets.heap other = some old ∧ uset.exp = old.exp
        ∧ uset.link = old.link := by
  unfold Usets.drop at member stored
  cases found : usets.heap addr with
  | none =>
      rw [found] at member stored
      exact ⟨member, uset, stored, rfl, rfl⟩
  | some dropped =>
      rw [found] at member stored
      dsimp only at member stored
      split_ifs at member stored with last
      · obtain ⟨isMember, isOther⟩ := List.mem_filter.mp member
        have different : other ≠ addr := by simpa using isOther
        have kept : usets.heap other = some uset := by
          rw [← stored]
          exact (Function.update_of_ne different _ _).symm
        exact ⟨isMember, uset, kept, rfl, rfl⟩
      · rw [Usets.heap_modify] at stored
        split_ifs at stored with same
        · obtain ⟨old, isOld, rfl⟩ := Option.map_eq_some_iff.mp stored
          exact ⟨member, old, same ▸ isOld, rfl, rfl⟩
        · exact ⟨member, uset, stored, rfl, rfl⟩

/-- `promote` changes counts and ids only. -/
theorem Usets.promote_kept (usets : Usets) (addr other : Addr)
    : (usets.promote addr).members = usets.members
      ∧ ((usets.promote addr).heap other).map (fun uset => (uset.exp, uset.link))
        = (usets.heap other).map (fun uset => (uset.exp, uset.link)) := by
  unfold Usets.promote
  cases found : usets.heap addr with
  | none => exact ⟨rfl, rfl⟩
  | some uset =>
      dsimp only
      split_ifs
      · refine ⟨rfl, ?_⟩
        by_cases same : other = addr
        · simp [same, found]
        · simp [Function.update_of_ne same]
      · exact ⟨rfl, rfl⟩

theorem Usets.exp?_promote (usets : Usets) (addr other : Addr)
    : (usets.promote addr).exp? other = usets.exp? other := by
  have kept := congrArg (Option.map Prod.fst) (usets.promote_kept addr other).2
  simp only [Option.map_map] at kept
  exact kept

/-- The loop over the touched sets resets all links and keeps the units of all facts. -/
theorem reset_links {size : Nat} {named : Finset (Finset UnitId)} {usets : Usets}
    {sets : Id → Option Addr} {todo : List Addr}
    (owned : Owned size named usets sets todo)
    (links : ∀ addr uset, addr ∈ usets.members → usets.heap addr = some uset →
      uset.link = .null ∨ addr ∈ todo)
    : Owned size named (todo.foldl Completing.reset usets) sets 0
      ∧ (∀ addr uset, addr ∈ (todo.foldl Completing.reset usets).members →
          (todo.foldl Completing.reset usets).heap addr = some uset → uset.link = .null)
      ∧ ∀ id, (todo.foldl Completing.reset usets).unitsOf (sets id) = usets.unitsOf (sets id) := by
  induction todo generalizing usets with
  | nil =>
      refine ⟨owned, fun addr uset member stored => ?_, fun _ => rfl⟩
      exact (links addr uset member stored).resolve_right List.not_mem_nil
  | cons addr todo ih =>
      have dropped : Owned size named (Completing.reset usets addr) sets todo :=
        (owned.setLink addr .null).drop
      have kept {other : Addr} {uset : Uset}
          (member : other ∈ (Completing.reset usets addr).members)
          (stored : (Completing.reset usets addr).heap other = some uset)
          : other ∈ usets.members ∧ ∃ old, usets.heap other = some old ∧ uset.exp = old.exp
              ∧ uset.link = if other = addr then .null else old.link := by
        obtain ⟨isMember, old, isOld, exps, isLink⟩ := Usets.drop_kept member stored
        rw [Usets.setLink, Usets.heap_modify] at isOld
        refine ⟨isMember, ?_⟩
        split_ifs at isOld ⊢ with same
        · obtain ⟨before, isBefore, rfl⟩ := Option.map_eq_some_iff.mp isOld
          exact ⟨before, same ▸ isBefore, exps, isLink⟩
        · exact ⟨old, isOld, exps, isLink⟩
      obtain ⟨finished, unlinked, units⟩ := ih dropped (fun other uset member stored => by
        obtain ⟨isMember, old, isOld, -, isLink⟩ := kept member stored
        split_ifs at isLink with same
        · exact Or.inl isLink
        · rw [isLink]
          refine (links other old isMember isOld).imp_right (fun isTodo => ?_)
          exact (List.mem_cons.mp isTodo).resolve_left same)
      refine ⟨finished, unlinked, fun id => (units id).trans ?_⟩
      refine Usets.unitsOf_congr (fun other isHeld => ?_)
      have member := (dropped.members id other isHeld).1
      obtain ⟨uset, stored⟩ := dropped.canonical.allocated other member
      obtain ⟨-, old, isOld, exps, -⟩ := kept member stored
      rw [Usets.exp?, Usets.exp?, stored, isOld, Option.map_some, Option.map_some, exps]

/-- Between two facts no link is set and no extra reference is held. -/
structure Completed (size : Nat) (named : Finset (Finset UnitId)) (units : Id → Finset UnitId)
    (usets : Usets) (sets : Id → Option Addr)
    : Prop where
  owned : Owned size named usets sets 0
  unlinked
    : ∀ addr uset, addr ∈ usets.members → usets.heap addr = some uset → uset.link = .null
  owners : ∀ id, usets.unitsOf (sets id) = units id

namespace Completed

variable {size : Nat} {named : Finset (Finset UnitId)} {units : Id → Finset UnitId}
  {usets : Usets} {sets : Id → Option Addr}

/-- A fact with a set has units. -/
theorem exp_eq (completed : Completed size named units usets sets) {id : Id} {addr : Addr}
    (isHeld : sets id = some addr)
    : addr ∈ usets.members ∧ usets.exp? addr = some ⟨.or, units id⟩ ∧ (units id).Nonempty := by
  have owned := completed.owned
  have member := (owned.members id addr isHeld).1
  obtain ⟨uset, stored⟩ := owned.canonical.allocated addr member
  have plain := owned.plain addr uset member stored
  have isUnits : uset.exp.set = units id := by
    rw [← completed.owners id, isHeld, Usets.unitsOf, Option.bind_some, Usets.exp?, stored]
    rfl
  have isExp : uset.exp = ⟨.or, units id⟩ := SetExpr.ext plain.1 isUnits
  refine ⟨member, ?_, isUnits ▸ plain.2⟩
  rw [Usets.exp?, stored, Option.map_some, isExp]

/-- A fact without a set has no units. -/
theorem units_none (completed : Completed size named units usets sets) {id : Id}
    (isNone : sets id = none)
    : units id = ∅ := by
  rw [← completed.owners id, isNone]
  rfl

/-- The set of a fact is numbered when the fact is visited. -/
theorem promote (completed : Completed size named units usets sets) {id : Id} {addr : Addr}
    (isHeld : sets id = some addr)
    (room : usets.firstId + (insert (units id) named).card ≤ invalidUset)
    : Completed size (insert (units id) named) units (usets.promote addr) sets := by
  obtain ⟨member, isExp, -⟩ := completed.exp_eq isHeld
  obtain ⟨uset, stored, sameExp⟩ := Option.map_eq_some_iff.mp isExp
  have isSet : uset.exp.set = units id := by rw [sameExp]
  by_cases unnumbered : uset.id = invalidUset
  · have promoted := completed.owned.promote member stored unnumbered (by rw [isSet]; exact room)
    rw [isSet] at promoted
    refine ⟨promoted, ?_, ?_⟩
    · intro other found isMember isFound
      obtain ⟨members, kept⟩ := usets.promote_kept addr other
      rw [members] at isMember
      rw [isFound] at kept
      obtain ⟨old, isOld, same⟩ := Option.map_eq_some_iff.mp kept.symm
      rw [← (Prod.mk.inj same).2]
      exact completed.unlinked other old isMember isOld
    · intro other
      rw [Usets.unitsOf_congr (fun held _ => usets.exp?_promote addr held)]
      exact completed.owners other
  · have known : units id ∈ named := by
      refine (completed.owned.numbered.mem_named _).mpr ?_
      exact ⟨addr, uset.exp, uset.id, ⟨member, uset, stored, rfl, rfl⟩, unnumbered, isSet⟩
    have unchanged : usets.promote addr = usets := by
      simp only [Usets.promote, stored, if_neg unnumbered]
    rw [Finset.insert_eq_of_mem known, unchanged]
    exact completed

/-- One round of the loop: a fact adds its units to its references. -/
theorem fact {references : References} {fact : Fact} {next : Usets} {setsNext : Id → Option Addr}
    (completed : Completed size named units usets sets)
    (smaller : ∀ id ∈ references fact.type fact.clause, id < fact.id)
    (room : (units fact.id).Nonempty →
      usets.firstId + (insert (units fact.id) named).card ≤ invalidUset)
    (done : completeFact references (usets, sets) fact = (next, setsNext))
    : Completed size (if (units fact.id).Nonempty then insert (units fact.id) named else named)
        (Sweep.visit units (fact.id, references fact.type fact.clause)) next setsNext := by
  cases isHeld : sets fact.id with
  | none =>
      have empty := completed.units_none isHeld
      have same : Sweep.visit units (fact.id, references fact.type fact.clause) = units := by
        funext key
        simp [Sweep.visit, empty]
      simp only [completeFact, isHeld, Prod.mk.injEq] at done
      obtain ⟨rfl, rfl⟩ := done
      rw [same, if_neg (by simp [empty])]
      exact completed
  | some set =>
      obtain ⟨-, -, nonempty⟩ := completed.exp_eq isHeld
      have promoted := completed.promote isHeld (room nonempty)
      obtain ⟨member, isExp, -⟩ := promoted.exp_eq isHeld
      have inside := (completed.owned.members fact.id set isHeld).2
      have start : Referring size (insert (units fact.id) named) set (units fact.id)
          ⟨usets.promote set, sets, []⟩ :=
        ⟨promoted.owned, member, isExp,
          fun addr uset isMember stored => Or.inl (promoted.unlinked addr uset isMember stored)⟩
      obtain ⟨referring, added⟩ := start.references
        (fun id isReference => Nat.lt_trans (smaller id isReference) inside)
      simp only [completeFact, isHeld, Prod.mk.injEq] at done
      obtain ⟨rfl, rfl⟩ := done
      obtain ⟨owned, unlinked, kept⟩ := reset_links referring.owned
        (fun addr uset isMember stored => (referring.links addr uset isMember stored).imp_right
          (fun linked => by
            obtain ⟨_, _, isTouched, _⟩ := linked
            exact isTouched))
      rw [if_pos nonempty]
      refine ⟨owned, unlinked, fun id => ?_⟩
      rw [kept, added, Sweep.visit]
      simp only [promoted.owners]

end Completed

section FirstId

@[simp]
theorem Usets.firstId_use (usets : Usets) (addr : Addr) (refs : Int)
    : (usets.use addr refs).firstId = usets.firstId := rfl

@[simp]
theorem Usets.firstId_setLink (usets : Usets) (addr : Addr) (link : Link)
    : (usets.setLink addr link).firstId = usets.firstId := rfl

@[simp]
theorem Usets.firstId_drop (usets : Usets) (addr : Addr)
    : (usets.drop addr).firstId = usets.firstId := by
  unfold Usets.drop
  split
  · rfl
  · split_ifs <;> rfl

@[simp]
theorem Usets.firstId_promote (usets : Usets) (addr : Addr)
    : (usets.promote addr).firstId = usets.firstId := by
  unfold Usets.promote
  split
  · rfl
  · split_ifs <;> rfl

@[simp]
theorem Usets.firstId_merge (usets : Usets) (left right : Addr)
    : (usets.merge left right).1.firstId = usets.firstId := by
  unfold Usets.merge Usets.add
  split
  · split_ifs
    · rfl
    · rfl
    · split <;> rfl
  · rfl

theorem Completing.firstId_reference (set : Addr) (state : Completing) (id : Id)
    : (state.reference set id).usets.firstId = state.usets.firstId := by
  unfold Completing.reference
  split
  · simp
  · split <;> simp

/-- The first set id stays. -/
theorem firstId_completeFact (references : References) (state : Usets × (Id → Option Addr))
    (fact : Fact)
    : (completeFact references state fact).1.firstId = state.1.firstId := by
  have referenced (set : Addr) (ids : List Id) (state : Completing)
      : (ids.foldl (Completing.reference set) state).usets.firstId = state.usets.firstId := by
    induction ids generalizing state with
    | nil => rfl
    | cons id ids ih => exact (ih _).trans (Completing.firstId_reference set state id)
  have resetting (touched : List Addr) (usets : Usets)
      : (touched.foldl Completing.reset usets).firstId = usets.firstId := by
    induction touched generalizing usets with
    | nil => rfl
    | cons addr touched ih => exact (ih _).trans (by simp [Completing.reset])
  unfold completeFact
  split
  · rfl
  · dsimp only
    rw [resetting, referenced, Usets.firstId_promote]

end FirstId

/-- The nodes of the reference graph, in the order of the facts. -/
def referenceGraph (references : References) (facts : List Fact) : List (Id × List Id) :=
  facts.map (fun fact => (fact.id, references fact.type fact.clause))

/-- The whole loop, by induction on the facts left. The named sets are the sets of facts. -/
theorem Completed.facts {size : Nat} {named final : Finset (Finset UnitId)}
    {units : Id → Finset UnitId} {usets next : Usets} {sets setsNext : Id → Option Addr}
    {references : References} {facts : List Fact}
    (completed : Completed size named units usets sets)
    (descending : Sweep.Descending (referenceGraph references facts))
    (isFinal : ∀ fact ∈ facts,
      (Sweep.run units (referenceGraph references facts) fact.id).Nonempty →
        Sweep.run units (referenceGraph references facts) fact.id ∈ final)
    (room : usets.firstId + final.card ≤ invalidUset) (within : named ⊆ final)
    (done : facts.foldl (completeFact references) (usets, sets) = (next, setsNext))
    : ∃ namedNext, Completed size namedNext
          (Sweep.run units (referenceGraph references facts)) next setsNext
        ∧ named ⊆ namedNext ∧ next.firstId = usets.firstId
        ∧ ∀ fact ∈ facts, (Sweep.run units (referenceGraph references facts) fact.id).Nonempty →
            Sweep.run units (referenceGraph references facts) fact.id ∈ namedNext := by
  induction facts generalizing named units usets sets with
  | nil =>
      obtain ⟨rfl, rfl⟩ := Prod.mk.inj done
      exact ⟨named, completed, Finset.Subset.refl _, rfl, by simp⟩
  | cons fact facts ih =>
      have graph : referenceGraph references (fact :: facts)
          = (fact.id, references fact.type fact.clause) :: referenceGraph references facts := rfl
      rw [graph] at descending isFinal ⊢
      have smaller : ∀ id ∈ references fact.type fact.clause, id < fact.id :=
        descending.edges _ List.mem_cons_self
      have rest : Sweep.Descending (referenceGraph references facts) :=
        ⟨(List.pairwise_cons.mp descending.order).2,
          fun other member => descending.edges other (List.mem_cons_of_mem _ member)⟩
      -- the units of the fact do not change any more
      have settled : Sweep.run units ((fact.id, references fact.type fact.clause)
          :: referenceGraph references facts) fact.id = units fact.id := by
        refine Sweep.run_of_larger descending units (fun node member => ?_)
        rcases List.mem_cons.mp member with rfl | later
        · exact Nat.le_refl _
        · exact Nat.le_of_lt ((List.pairwise_cons.mp descending.order).1 node later)
      have isFact := isFinal fact List.mem_cons_self
      rw [settled] at isFact
      rw [List.foldl_cons] at done
      rcases once : completeFact references (usets, sets) fact with ⟨middle, setsMiddle⟩
      rw [once] at done
      have sameFirst : middle.firstId = usets.firstId := by
        have same := firstId_completeFact references (usets, sets) fact
        rw [once] at same
        exact same
      have visited := completed.fact smaller (fun nonempty => ?_) once
      · have stillWithin : (if (units fact.id).Nonempty then insert (units fact.id) named
            else named) ⊆ final := by
          split_ifs with nonempty
          · exact Finset.insert_subset (isFact nonempty) within
          · exact within
        obtain ⟨namedNext, finished, grown, firstId, numbered⟩ := ih visited rest
          (fun other member => isFinal other (List.mem_cons_of_mem _ member)) (by lia) stillWithin
          done
        refine ⟨namedNext, finished, ?_, firstId.trans sameFirst, ?_⟩
        · split_ifs at grown
          · exact (Finset.subset_insert _ _).trans grown
          · exact grown
        · intro other member nonempty
          rcases List.mem_cons.mp member with rfl | later
          · rw [settled] at nonempty ⊢
            rw [if_pos nonempty] at grown
            exact grown (Finset.mem_insert_self _ _)
          · exact numbered other later nonempty
      · have more := Finset.card_le_card (Finset.insert_subset (isFact nonempty) within)
        lia

end Glean.RTS
