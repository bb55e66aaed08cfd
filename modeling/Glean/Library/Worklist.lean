import Mathlib.Data.Finset.Card
import Mathlib.Data.List.Nodup

/-! Exploring a graph with a stack of pending keys. A key is marked when it is pushed, so that it
is pushed once. Keys without an entry have no successors and are not found. Exploration can go on
from further roots.
-/

namespace Glean.Worklist

variable {Key : Type}

/-- The top of the stack comes first. -/
structure Work (Key : Type) where
  marked : List Key
  pending : List Key
  found : List Key

def Work.empty : Work Key := ⟨[], [], []⟩

/-- A key is a root or the successor of a key that is reached. -/
inductive Reached (next : Key → Option (List Key)) (root : Key → Prop) : Key → Prop where
  | root {key : Key} (isRoot : root key) : Reached next root key
  | step {key target : Key} {targets : List Key} (reached : Reached next root key)
      (isNext : next key = some targets) (member : target ∈ targets)
      : Reached next root target

theorem Reached.mono {next : Key → Option (List Key)} {root more : Key → Prop} {key : Key}
    (grows : ∀ key, root key → more key) (reached : Reached next root key)
    : Reached next more key := by
  induction reached with
  | root isRoot => exact .root (grows _ isRoot)
  | step _ isNext member ih => exact .step ih isNext member

/-- What holds while keys are explored; `busy` are those whose successors are being pushed. -/
structure Explores (next : Key → Option (List Key)) (root : Key → Prop) (busy : List Key)
    (work : Work Key) : Prop where
  pendingMarked : ∀ key ∈ work.pending, key ∈ work.marked
  pendingNodup : work.pending.Nodup
  busyMarked : ∀ key ∈ busy, key ∈ work.marked
  busyPopped : ∀ key ∈ busy, key ∉ work.pending
  foundNodup : work.found.Nodup
  found
    : ∀ key, key ∈ work.found
        ↔ key ∈ work.marked ∧ key ∉ work.pending ∧ key ∉ busy ∧ (next key).isSome
  reached : ∀ key ∈ work.marked, Reached next root key
  closed
    : ∀ key ∈ work.found, ∀ targets, next key = some targets → ∀ target ∈ targets,
        target ∈ work.marked

variable {next : Key → Option (List Key)} {root : Key → Prop} {busy : List Key}
variable {work last : Work Key} {key : Key}

theorem explores_empty (next : Key → Option (List Key)) (root : Key → Prop)
    : Explores next root [] .empty where
  pendingMarked := nofun
  pendingNodup := .nil
  busyMarked := nofun
  busyPopped := nofun
  foundNodup := .nil
  found := fun _ => ⟨nofun, fun ⟨member, _⟩ => nomatch member⟩
  reached := nofun
  closed := nofun

/-- There may be more roots than were thought of. -/
theorem Explores.mono {more : Key → Prop} (explores : Explores next root busy work)
    (grows : ∀ key, root key → more key)
    : Explores next more busy work :=
  { explores with reached := fun key member => (explores.reached key member).mono grows }

/-- The key on the top is popped, and becomes busy. -/
theorem Explores.pop {rest : List Key} (explores : Explores next root [] work)
    (isPending : work.pending = key :: rest)
    : Explores next root [key] { work with pending := rest } := by
  have nodup := explores.pendingNodup
  have isMarked := explores.pendingMarked
  have isFound := explores.found
  rw [isPending] at nodup isMarked
  obtain ⟨notRest, restNodup⟩ := List.nodup_cons.mp nodup
  exact
    { pendingMarked := fun other member => isMarked other (List.mem_cons_of_mem _ member)
      pendingNodup := restNodup
      busyMarked := fun other member =>
        isMarked other (List.mem_singleton.mp member ▸ List.mem_cons_self)
      busyPopped := fun other member => List.mem_singleton.mp member ▸ notRest
      foundNodup := explores.foundNodup
      found := fun other => by
        rw [isFound other, isPending, List.mem_cons, List.mem_singleton, not_or]
        exact ⟨fun ⟨marked, ⟨different, notPending⟩, _, isEntry⟩ =>
            ⟨marked, notPending, different, isEntry⟩,
          fun ⟨marked, notPending, different, isEntry⟩ =>
            ⟨marked, ⟨different, notPending⟩, nofun, isEntry⟩⟩
      reached := explores.reached
      closed := explores.closed }

/-- A key without an entry is not found. -/
theorem Explores.skip (explores : Explores next root [key] work) (isNone : next key = none)
    : Explores next root [] work :=
  { explores with
    busyMarked := nofun
    busyPopped := nofun
    found := fun other => by
      rw [explores.found other, List.mem_singleton]
      refine ⟨fun ⟨marked, notPending, _, isEntry⟩ => ⟨marked, notPending, nofun, isEntry⟩, ?_⟩
      intro ⟨marked, notPending, _, isEntry⟩
      refine ⟨marked, notPending, ?_, isEntry⟩
      intro same
      rw [same, isNone] at isEntry
      cases isEntry }

/-- A key is found once its successors are marked. -/
theorem Explores.finish {targets : List Key} (explores : Explores next root [key] work)
    (isNext : next key = some targets) (isMarked : ∀ target ∈ targets, target ∈ work.marked)
    : Explores next root [] { work with found := work.found ++ [key] } := by
  have isBusy : key ∈ [key] := List.mem_singleton.mpr rfl
  have notFound : key ∉ work.found := fun member => ((explores.found key).mp member).2.2.1 isBusy
  exact
    { pendingMarked := explores.pendingMarked
      pendingNodup := explores.pendingNodup
      busyMarked := nofun
      busyPopped := nofun
      foundNodup := List.nodup_append.mpr ⟨explores.foundNodup, List.nodup_singleton key,
        fun other member last isLast same =>
          notFound (List.mem_singleton.mp isLast ▸ same ▸ member)⟩
      found := fun other => by
        rw [List.mem_append, explores.found other, List.mem_singleton]
        constructor
        · rintro (⟨marked, notPending, _, isEntry⟩ | rfl)
          · exact ⟨marked, notPending, nofun, isEntry⟩
          · exact ⟨explores.busyMarked other isBusy, explores.busyPopped other isBusy, nofun,
              isNext ▸ rfl⟩
        · intro ⟨marked, notPending, _, isEntry⟩
          by_cases same : other = key
          · exact .inr same
          · exact .inl ⟨marked, notPending, same, isEntry⟩
      reached := explores.reached
      closed := fun other member others isOther => by
        rcases List.mem_append.mp member with old | new
        · exact explores.closed other old others isOther
        · obtain rfl := List.mem_singleton.mp new
          obtain rfl := Option.some.inj (isNext.symm.trans isOther)
          exact isMarked }

/-- With no key pending, exactly the keys with an entry that are reached are found. -/
theorem Explores.mem_found_iff (explores : Explores next root [] work)
    (isEmpty : work.pending = []) (roots : ∀ key, root key → key ∈ work.marked)
    : key ∈ work.found ↔ Reached next root key ∧ (next key).isSome := by
  have isFound : ∀ key, key ∈ work.found ↔ key ∈ work.marked ∧ (next key).isSome := by
    intro key
    rw [explores.found key, isEmpty]
    exact ⟨fun ⟨marked, _, _, isEntry⟩ => ⟨marked, isEntry⟩,
      fun ⟨marked, isEntry⟩ => ⟨marked, nofun, nofun, isEntry⟩⟩
  have isMarked : ∀ {key}, Reached next root key → key ∈ work.marked := by
    intro key reached
    induction reached with
    | root isRoot => exact roots _ isRoot
    | step _ isNext member ih =>
        have found := (isFound _).mpr ⟨ih, isNext ▸ rfl⟩
        exact explores.closed _ found _ isNext _ member
  rw [isFound key]
  exact ⟨fun ⟨marked, isEntry⟩ => ⟨explores.reached key marked, isEntry⟩,
    fun ⟨reached, isEntry⟩ => ⟨isMarked reached, isEntry⟩⟩

variable [DecidableEq Key]

def enqueue (work : Work Key) (key : Key) : Work Key :=
  if key ∈ work.marked then
    work
  else
    { work with marked := key :: work.marked, pending := key :: work.pending }

def enqueueAll (work : Work Key) (keys : List Key) : Work Key := keys.foldl enqueue work

/-- Look at the successors of the key on the top. -/
def visit (next : Key → Option (List Key)) (work : Work Key) (key : Key) (rest : List Key)
    : Work Key :=
  match next key with
  | none => { work with pending := rest }
  | some targets =>
      let visited := enqueueAll { work with pending := rest } targets
      { visited with found := visited.found ++ [key] }

/-- Keys are visited until none is pending. -/
inductive Drains (next : Key → Option (List Key)) : Work Key → Work Key → Prop where
  | empty {work : Work Key} (isEmpty : work.pending = []) : Drains next work work
  | visit {work last : Work Key} {key : Key} {rest : List Key}
      (isPending : work.pending = key :: rest)
      (drains : Drains next (visit next work key rest) last)
      : Drains next work last

theorem enqueue_of_mem (known : key ∈ work.marked) : enqueue work key = work := if_pos known

theorem enqueue_of_notMem (new : key ∉ work.marked)
    : enqueue work key
      = { work with marked := key :: work.marked, pending := key :: work.pending } :=
  if_neg new

theorem mem_marked_enqueue {other : Key}
    : other ∈ (enqueue work key).marked ↔ other = key ∨ other ∈ work.marked := by
  by_cases known : key ∈ work.marked
  · rw [enqueue_of_mem known]
    exact ⟨.inr, fun either => either.elim (fun same => same ▸ known) id⟩
  · rw [enqueue_of_notMem known]
    exact List.mem_cons

theorem found_enqueueAll (work : Work Key) (keys : List Key)
    : (enqueueAll work keys).found = work.found := by
  induction keys generalizing work with
  | nil => rfl
  | cons key keys ih =>
      refine (ih (enqueue work key)).trans ?_
      by_cases known : key ∈ work.marked
      · rw [enqueue_of_mem known]
      · rw [enqueue_of_notMem known]

theorem mem_marked_enqueueAll {keys : List Key} {other : Key}
    : other ∈ (enqueueAll work keys).marked ↔ other ∈ keys ∨ other ∈ work.marked := by
  induction keys generalizing work with
  | nil => exact ⟨.inr, fun either => either.resolve_left nofun⟩
  | cons key keys ih =>
      rw [enqueueAll, List.foldl_cons, ← enqueueAll, ih, mem_marked_enqueue, List.mem_cons,
        or_left_comm, or_assoc]

/-- A key that is reached may be pushed. -/
theorem Explores.enqueue (explores : Explores next root busy work)
    (reached : Reached next root key)
    : Explores next root busy (enqueue work key) := by
  by_cases known : key ∈ work.marked
  · rw [enqueue_of_mem known]
    exact explores
  · have different : ∀ {other}, other ∈ work.marked → other ≠ key :=
      fun isMarked same => known (same ▸ isMarked)
    rw [enqueue_of_notMem known]
    exact
      { pendingMarked := fun other member => (List.mem_cons.mp member).elim
          (fun same => same ▸ List.mem_cons_self)
          (fun old => List.mem_cons_of_mem _ (explores.pendingMarked other old))
        pendingNodup := List.nodup_cons.mpr
          ⟨fun member => known (explores.pendingMarked key member), explores.pendingNodup⟩
        busyMarked := fun other member => List.mem_cons_of_mem _ (explores.busyMarked other member)
        busyPopped := fun other member isPending => (List.mem_cons.mp isPending).elim
          (different (explores.busyMarked other member)) (explores.busyPopped other member)
        foundNodup := explores.foundNodup
        found := by
          intro other
          refine (explores.found other).trans ⟨?_, ?_⟩
          · intro ⟨isMarked, notPending, notBusy, isEntry⟩
            exact ⟨List.mem_cons_of_mem _ isMarked,
              fun member => (List.mem_cons.mp member).elim (different isMarked) notPending, notBusy,
              isEntry⟩
          · intro ⟨isMarked, notPending, notBusy, isEntry⟩
            have old : other ≠ key := fun same => notPending (same ▸ List.mem_cons_self)
            exact ⟨(List.mem_cons.mp isMarked).resolve_left old,
              fun member => notPending (List.mem_cons_of_mem _ member), notBusy, isEntry⟩
        reached := fun other member => (List.mem_cons.mp member).elim
          (fun same => same ▸ reached) (explores.reached other)
        closed := fun other member targets isNext target isTarget =>
          List.mem_cons_of_mem _ (explores.closed other member targets isNext target isTarget) }

theorem Explores.enqueueAll {keys : List Key} (explores : Explores next root busy work)
    (reached : ∀ key ∈ keys, Reached next root key)
    : Explores next root busy (enqueueAll work keys) := by
  induction keys generalizing work with
  | nil => exact explores
  | cons key keys ih =>
      exact ih (explores.enqueue (reached key List.mem_cons_self))
        (fun other member => reached other (List.mem_cons_of_mem _ member))

theorem visit_none {rest : List Key} (isNone : next key = none)
    : visit next work key rest = { work with pending := rest } := by
  rw [visit, isNone]

theorem visit_some {rest targets : List Key} (isNext : next key = some targets)
    : visit next work key rest
      = { enqueueAll { work with pending := rest } targets with found := work.found ++ [key] } := by
  rw [visit, isNext]
  simp only [found_enqueueAll]

theorem Explores.visit {rest : List Key} (explores : Explores next root [] work)
    (isPending : work.pending = key :: rest)
    : Explores next root [] (visit next work key rest) := by
  have popped := explores.pop isPending
  cases isNext : next key with
  | none =>
      rw [visit_none isNext]
      exact popped.skip isNext
  | some targets =>
      have isReached := explores.reached key (popped.busyMarked key (List.mem_singleton.mpr rfl))
      have pushed := popped.enqueueAll (fun target member => isReached.step isNext member)
      have finished := pushed.finish isNext
        (fun target member => mem_marked_enqueueAll.mpr (.inl member))
      rw [found_enqueueAll] at finished
      rw [visit_some isNext]
      exact finished

theorem mem_marked_visit {other : Key} {rest : List Key} (member : other ∈ work.marked)
    : other ∈ (visit next work key rest).marked := by
  cases isNext : next key with
  | none =>
      rw [visit_none isNext]
      exact member
  | some targets =>
      rw [visit_some isNext]
      exact mem_marked_enqueueAll.mpr (.inr member)

theorem Drains.mem_marked {other : Key} (drains : Drains next work last)
    (member : other ∈ work.marked)
    : other ∈ last.marked := by
  induction drains with
  | empty => exact member
  | visit _ _ ih => exact ih (mem_marked_visit member)

theorem Drains.pending (drains : Drains next work last) : last.pending = [] := by
  induction drains with
  | empty isEmpty => exact isEmpty
  | visit _ _ ih => exact ih

theorem Drains.explores (drains : Drains next work last) (explores : Explores next root [] work)
    : Explores next root [] last := by
  induction drains with
  | empty => exact explores
  | visit isPending _ ih => exact ih (explores.visit isPending)

/-- Keys that are not marked yet may be pushed once, and pending keys are popped. -/
private def budget (keys : Finset Key) (work : Work Key) : Nat :=
  2 * (keys.filter (· ∉ work.marked)).card + work.pending.length

private theorem budget_enqueue {keys : Finset Key} (isKey : key ∈ keys)
    : budget keys (enqueue work key) ≤ budget keys work := by
  by_cases known : key ∈ work.marked
  · rw [enqueue_of_mem known]
  · rw [enqueue_of_notMem known]
    have smaller
        : (keys.filter (· ∉ key :: work.marked)).card < (keys.filter (· ∉ work.marked)).card := by
      apply Finset.card_lt_card
      refine Finset.ssubset_iff_of_subset ?_ |>.mpr ⟨key, ?_, ?_⟩
      · intro other member
        rw [Finset.mem_filter, List.mem_cons, not_or] at member
        exact Finset.mem_filter.mpr ⟨member.1, member.2.2⟩
      · exact Finset.mem_filter.mpr ⟨isKey, known⟩
      · intro member
        exact (Finset.mem_filter.mp member).2 List.mem_cons_self
    simp only [budget, List.length_cons]
    omega

private theorem budget_enqueueAll {keys : Finset Key} {targets : List Key}
    (inKeys : ∀ target ∈ targets, target ∈ keys)
    : budget keys (enqueueAll work targets) ≤ budget keys work := by
  induction targets generalizing work with
  | nil => exact le_rfl
  | cons target targets ih =>
      exact (ih (fun other member => inKeys other (List.mem_cons_of_mem _ member))).trans
        (budget_enqueue (inKeys target List.mem_cons_self))

private theorem budget_visit {keys : Finset Key} {rest : List Key}
    (inKeys : ∀ key targets, next key = some targets → ∀ target ∈ targets, target ∈ keys)
    (isPending : work.pending = key :: rest)
    : budget keys (visit next work key rest) < budget keys work := by
  have popped : budget keys { work with pending := rest } < budget keys work := by
    simp only [budget, isPending, List.length_cons]
    omega
  cases isNext : next key with
  | none =>
      rw [visit_none isNext]
      exact popped
  | some targets =>
      rw [visit_some isNext]
      exact (budget_enqueueAll (inKeys key targets isNext)).trans_lt popped

/-- Where finitely many keys are successors, the stack is emptied. -/
theorem exists_drains (keys : Finset Key)
    (inKeys : ∀ key targets, next key = some targets → ∀ target ∈ targets, target ∈ keys)
    (work : Work Key)
    : ∃ last, Drains next work last := by
  induction size : budget keys work using Nat.strongRecOn generalizing work with
  | ind size ih =>
      cases isPending : work.pending with
      | nil => exact ⟨work, .empty isPending⟩
      | cons key rest =>
          have smaller := budget_visit inKeys isPending
          obtain ⟨last, drains⟩ := ih _ (by omega) (visit next work key rest) rfl
          exact ⟨last, .visit isPending drains⟩

end Glean.Worklist
