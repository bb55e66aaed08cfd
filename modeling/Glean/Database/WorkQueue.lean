import Mathlib.Data.List.Range
import Mathlib.Data.List.Nodup
import Glean.Library.SortedMap

/-! The queue of available work parcels (`Glean.Database.Work.Queue`), as far as one database is
concerned: parcels of others in the same queues are left out.
-/

namespace Glean.Database.Indexing

abbrev TaskName := String

/-- `ParcelQueue` -/
inductive ParcelQueue where
  /-- No parcels are assigned yet. -/
  | range (first count : Nat)
  /-- Ranges of parcels, with their sizes, in ascending order. -/
  | ranges (sizes : List (Nat × Nat))

/-- `maximumBy (comparing snd)`, which prefers later ranges. -/
def largest : List (Nat × Nat) → Option (Nat × Nat)
  | [] => none
  | first :: rest => some (rest.foldl (fun best range => if best.2 > range.2 then best else range) first)

/-- `IntMap.delete` -/
def deleteRange (first : Nat) (sizes : List (Nat × Nat)) : List (Nat × Nat) :=
  sizes.filter (·.1 ≠ first)

/-- A queue is never empty. -/
def nonEmpty (sizes : List (Nat × Nat)) : Option ParcelQueue :=
  if sizes.isEmpty then none else some (.ranges sizes)

/-- Take the first parcel, or the one in the middle of the largest range; an empty queue is an error. -/
def readParcelQueue : ParcelQueue → Option (Nat × Option ParcelQueue)
  | .range first count =>
      some (first, if count > 1 then some (.ranges [(first + 1, count - 1)]) else none)
  | .ranges sizes =>
      (largest sizes).map (fun (first, count) =>
        let middle := first + count / 2
        let halves := [(first, middle - first), (middle + 1, first + count - (middle + 1))]
        (middle, nonEmpty ((halves.filter (·.2 > 0)).foldr
          (fun range sizes => SortedMap.insertEntries range.1 range.2 sizes)
          (deleteRange first sizes))))

/-- Take the next parcel if it is there. -/
def readParcelQueueNear (previous : Nat) : ParcelQueue → Option (Nat × Option ParcelQueue)
  | .range first count => readParcelQueue (.range first count)
  | .ranges sizes =>
      match sizes.lookup (previous + 1) with
      | some count =>
          let others := deleteRange (previous + 1) sizes
          some (previous + 1, if count > 1 then
            some (.ranges (SortedMap.insertEntries (previous + 2) (count - 1) others))
          else
            nonEmpty others)
      | none => readParcelQueue (.ranges sizes)

/-- The parcels of a queue. -/
def ParcelQueue.parcels : ParcelQueue → List Nat
  | .range first count => List.range' first count
  | .ranges sizes => sizes.flatMap (fun range => List.range' range.1 range.2)

/-- A queue of some parcels, all different. -/
def ParcelQueue.Proper : ParcelQueue → Prop
  | .range _ count => 0 < count
  | .ranges sizes => sizes ≠ [] ∧ (∀ range ∈ sizes, 0 < range.2) ∧ (ParcelQueue.ranges sizes).parcels.Nodup

/-- What taking one parcel from a queue does. -/
structure Takes (queue : ParcelQueue) (index : Nat) (rest : Option ParcelQueue) : Prop where
  parcels : queue.parcels.Perm (index :: (rest.map ParcelQueue.parcels).getD [])
  proper : ∀ remaining ∈ rest, remaining.Proper

theorem largest_mem {sizes : List (Nat × Nat)} {range : Nat × Nat} (found : largest sizes = some range)
    : range ∈ sizes := by
  cases sizes with
  | nil => cases found
  | cons first rest =>
      have folded : ∀ (others : List (Nat × Nat)) (best : Nat × Nat),
          others.foldl (fun best range => if best.2 > range.2 then best else range) best
            ∈ best :: others := by
        intro others
        induction others with
        | nil => exact fun best => List.mem_cons_self
        | cons next others ih =>
            intro best
            rw [List.foldl_cons]
            rcases List.mem_cons.mp (ih (if best.2 > next.2 then best else next)) with same | member
            · rw [same]
              split
              next => exact List.mem_cons_self
              next => exact List.mem_cons_of_mem _ List.mem_cons_self
            · exact List.mem_cons_of_mem _ (List.mem_cons_of_mem _ member)
      rw [← Option.some.inj found]
      exact folded rest first

/-- The parcels of some ranges. -/
abbrev spans (sizes : List (Nat × Nat)) : List Nat := (ParcelQueue.ranges sizes).parcels

theorem spans_perm {left right : List (Nat × Nat)} (same : left.Perm right)
    : (spans left).Perm (spans right) :=
  same.flatMap_right _

/-- Ranges without common parcels start at different ones. -/
theorem starts_distinct {sizes : List (Nat × Nat)} (positive : ∀ range ∈ sizes, 0 < range.2)
    (distinct : (spans sizes).Nodup)
    : sizes.Pairwise (fun left right => left.1 ≠ right.1) := by
  have disjoint := (List.nodup_flatMap.mp distinct).2
  refine disjoint.imp_of_mem (fun {left right} isLeft isRight apart same => ?_)
  refine apart (List.mem_range'_1.mpr ⟨le_rfl, ?_⟩) (List.mem_range'_1.mpr ⟨same.ge, ?_⟩)
  · have := positive left isLeft
    omega
  · have := positive right isRight
    omega

/-- Every range is taken out on its own. -/
theorem perm_deleteRange {sizes : List (Nat × Nat)} {first count : Nat}
    (distinct : sizes.Pairwise (fun left right => left.1 ≠ right.1)) (member : (first, count) ∈ sizes)
    : sizes.Perm ((first, count) :: deleteRange first sizes) := by
  induction sizes with
  | nil => cases member
  | cons range rest ih =>
      obtain ⟨apart, restDistinct⟩ := List.pairwise_cons.mp distinct
      rcases List.mem_cons.mp member with rfl | isRest
      · have kept : deleteRange first ((first, count) :: rest) = rest := by
          rw [deleteRange, List.filter_cons_of_neg (by simp)]
          exact List.filter_eq_self.mpr (fun other isOther => by simpa using (apart other isOther).symm)
        rw [kept]
      · have different : range.1 ≠ first := apart _ isRest
        have kept : deleteRange first (range :: rest) = range :: deleteRange first rest :=
          List.filter_cons_of_pos (by simpa using different)
        rw [kept]
        exact ((ih restDistinct isRest).cons range).trans (.swap _ _ _)

theorem foldr_insert_perm {new sizes : List (Nat × Nat)}
    (distinct : (new ++ sizes).Pairwise (fun left right => left.1 ≠ right.1))
    : (new.foldr (fun range sizes => SortedMap.insertEntries range.1 range.2 sizes) sizes).Perm
        (new ++ sizes) := by
  induction new with
  | nil => exact .refl _
  | cons range rest ih =>
      obtain ⟨apart, restDistinct⟩ := List.pairwise_cons.mp distinct
      have inserted := ih restDistinct
      refine (SortedMap.insertEntries_perm range.2 (fun other member => ?_)).trans (inserted.cons range)
      exact (apart other (inserted.mem_iff.mp member)).symm

/-- Replacing ranges so that one parcel is left out takes this parcel. -/
theorem takes_ranges {sizes new others : List (Nat × Nat)} {index : Nat}
    (proper : (ParcelQueue.ranges sizes).Proper) (positive : ∀ range ∈ new ++ others, 0 < range.2)
    (same : (spans sizes).Perm (index :: spans (new ++ others)))
    : Takes (.ranges sizes) index
        (nonEmpty (new.foldr (fun range sizes => SortedMap.insertEntries range.1 range.2 sizes) others)) := by
  have distinct : (spans (new ++ others)).Nodup :=
    (List.nodup_cons.mp (same.nodup_iff.mp proper.2.2)).2
  have inserted := foldr_insert_perm (starts_distinct positive distinct)
  rw [nonEmpty]
  split
  next isEmpty =>
    rw [List.isEmpty_iff.mp isEmpty] at inserted
    rw [inserted.symm.eq_nil] at same
    exact ⟨same, by simp⟩
  next isSome =>
    refine ⟨same.trans ((spans_perm inserted.symm).cons index), ?_⟩
    rintro remaining ⟨⟩
    refine ⟨by simpa using isSome, fun range member => positive range (inserted.mem_iff.mp member), ?_⟩
    exact (spans_perm inserted).nodup_iff.mpr distinct

/-- Halves without parcels do not count. -/
theorem spans_filter (sizes : List (Nat × Nat)) : spans (sizes.filter (·.2 > 0)) = spans sizes := by
  induction sizes with
  | nil => rfl
  | cons range rest ih =>
      obtain ⟨first, count⟩ := range
      have split : ∀ others, spans ((first, count) :: others) = List.range' first count ++ spans others :=
        fun others => List.flatMap_cons
      cases count with
      | zero => rw [List.filter_cons_of_neg (by simp), ih, split]; rfl
      | succ count => rw [List.filter_cons_of_pos (by simp), split, split, ih]

theorem spans_append (left right : List (Nat × Nat)) : spans (left ++ right) = spans left ++ spans right :=
  List.flatMap_append

/-- The largest range without its middle parcel. -/
theorem perm_split {first count : Nat} (positive : 0 < count) (others : List (Nat × Nat))
    : (spans ((first, count) :: others)).Perm
        ((first + count / 2) :: spans ([(first, first + count / 2 - first),
          (first + count / 2 + 1, first + count - (first + count / 2 + 1))] ++ others)) := by
  have halves : count = count / 2 + (count - count / 2 - 1 + 1) := by omega
  have isLeft : first + count / 2 - first = count / 2 := by omega
  have isRight : first + count - (first + count / 2 + 1) = count - count / 2 - 1 := by omega
  have whole : List.range' first count = List.range' first (count / 2)
      ++ (first + count / 2) :: List.range' (first + count / 2 + 1) (count - count / 2 - 1) := by
    conv_lhs => rw [halves, ← List.range'_append_1, List.range'_succ]
  rw [isLeft, isRight]
  simp only [spans, ParcelQueue.parcels, List.cons_append, List.nil_append, List.flatMap_cons, whole]
  rw [List.append_assoc, List.cons_append]
  exact List.perm_middle

theorem takes_readParcelQueue {queue : ParcelQueue} (proper : queue.Proper)
    : ∃ index rest, readParcelQueue queue = some (index, rest) ∧ Takes queue index rest := by
  cases queue with
  | range first count =>
      refine ⟨first, _, rfl, ?_⟩
      obtain ⟨less, rfl⟩ : ∃ less, count = less + 1 := ⟨count - 1, (Nat.succ_pred_eq_of_pos proper).symm⟩
      split
      next more =>
        refine ⟨?_, ?_⟩
        · simp [ParcelQueue.parcels, List.range'_succ]
        · rintro remaining ⟨⟩
          refine ⟨by simp, fun range member => ?_, ?_⟩
          · rw [List.mem_singleton.mp member]
            exact Nat.sub_pos_of_lt more
          · simpa [ParcelQueue.parcels] using List.nodup_range'
      next =>
        obtain rfl : less = 0 := by omega
        exact ⟨.refl _, by simp⟩
  | ranges sizes =>
      obtain ⟨⟨first, count⟩, found⟩ : ∃ range, largest sizes = some range := by
        cases sizes with
        | nil => exact absurd rfl proper.1
        | cons range rest => exact ⟨_, rfl⟩
      have isRange := largest_mem found
      refine ⟨first + count / 2, _, by rw [readParcelQueue, found]; rfl, ?_⟩
      refine takes_ranges proper (fun range member => ?_) ?_
      · rcases List.mem_append.mp member with isHalf | isOther
        · simpa using (List.mem_filter.mp isHalf).2
        · exact proper.2.1 range (List.mem_filter.mp isOther).1
      · have whole := spans_perm (perm_deleteRange (starts_distinct proper.2.1 proper.2.2) isRange)
        refine (whole.trans (perm_split (proper.2.1 _ isRange) _)).trans (.cons _ ?_)
        rw [spans_append, spans_append, spans_filter]

theorem nonEmpty_insertEntries (first count : Nat) (sizes : List (Nat × Nat))
    : nonEmpty (SortedMap.insertEntries first count sizes)
      = some (.ranges (SortedMap.insertEntries first count sizes)) := by
  refine if_neg ?_
  cases sizes with
  | nil => simp [SortedMap.insertEntries]
  | cons range rest =>
      unfold SortedMap.insertEntries
      split_ifs <;> simp

/-- The first parcel of a range is taken by leaving the rest of the range. -/
theorem takes_first {sizes : List (Nat × Nat)} (proper : (ParcelQueue.ranges sizes).Proper)
    {first count : Nat} (found : sizes.lookup first = some count)
    : Takes (.ranges sizes) first
        (if count > 1 then
          some (.ranges (SortedMap.insertEntries (first + 1) (count - 1) (deleteRange first sizes)))
        else
          nonEmpty (deleteRange first sizes)) := by
  have isRange : (first, count) ∈ sizes := by
    obtain ⟨before, rest, isSplit, _⟩ := List.lookup_eq_some_iff.mp found
    simp [isSplit]
  have positive : 0 < count := proper.2.1 _ isRange
  have whole := spans_perm (perm_deleteRange (starts_distinct proper.2.1 proper.2.2) isRange)
  have others : ∀ range ∈ deleteRange first sizes, 0 < range.2 :=
    fun range member => proper.2.1 range (List.mem_filter.mp member).1
  split
  next more =>
    have rest : ∀ range ∈ [(first + 1, count - 1)] ++ deleteRange first sizes, 0 < range.2 := by
      intro range member
      rcases List.mem_append.mp member with isRest | isOther
      · rw [List.mem_singleton.mp isRest]
        exact Nat.sub_pos_of_lt more
      · exact others range isOther
    have one : List.range' first count = first :: List.range' (first + 1) (count - 1) := by
      conv_lhs => rw [← Nat.succ_pred_eq_of_pos positive, List.range'_succ]
      rfl
    have same : spans ((first, count) :: deleteRange first sizes)
        = first :: spans ([(first + 1, count - 1)] ++ deleteRange first sizes) := by
      simp only [spans, ParcelQueue.parcels, List.flatMap_cons, List.cons_append,
        List.nil_append, one]
    have taken := takes_ranges proper rest (whole.trans (.of_eq same))
    rwa [List.foldr_cons, List.foldr_nil, nonEmpty_insertEntries] at taken
  next =>
    obtain rfl : count = 1 := by omega
    have same : spans ((first, 1) :: deleteRange first sizes)
        = first :: spans ([] ++ deleteRange first sizes) := rfl
    have taken := takes_ranges proper others (whole.trans (.of_eq same))
    rwa [List.foldr_nil] at taken

/-- Taking the parcel that follows another one. -/
theorem takes_readParcelQueueNear {queue : ParcelQueue} (proper : queue.Proper) (previous : Nat)
    : ∃ index rest, readParcelQueueNear previous queue = some (index, rest) ∧ Takes queue index rest := by
  cases queue with
  | range first count => exact takes_readParcelQueue proper
  | ranges sizes =>
      rw [readParcelQueueNear]
      cases found : sizes.lookup (previous + 1) with
      | none => exact takes_readParcelQueue proper
      | some count => exact ⟨previous + 1, _, rfl, takes_first proper found⟩

/-- `WorkQueue` -/
def WorkQueue := TaskName → List ParcelQueue

namespace WorkQueue

def empty : WorkQueue := fun _ => []

def set (queue : WorkQueue) (name : TaskName) (parcels : List ParcelQueue) : WorkQueue :=
  fun other => if other = name then parcels else queue other

/-- Add the parcels of a task. -/
def insertWorkQueue (queue : WorkQueue) (name : TaskName) (count : Nat) : WorkQueue :=
  queue.set name (queue name ++ [.range 0 count])

/-- Add one parcel, which comes first. -/
def writeWorkQueue (queue : WorkQueue) (name : TaskName) (index : Nat) : WorkQueue :=
  queue.set name (.range index 1 :: queue name)

/-- Take a parcel of a task, if possible after the one before it. -/
def readWorkQueue (queue : WorkQueue) (name : TaskName) (near : Option Nat)
    : Option (Nat × WorkQueue) :=
  match queue name with
  | [] => none
  | first :: rest =>
      let read :=
        match near with
        | some previous => readParcelQueueNear previous first
        | none => readParcelQueue first
      read.map (fun (index, remaining) =>
        (index, queue.set name (match remaining with
          | some parcels => parcels :: rest
          | none => rest)))

/-- The parcels of a task that are available. -/
def available (queue : WorkQueue) (name : TaskName) : List Nat := (queue name).flatMap ParcelQueue.parcels

def Proper (queue : WorkQueue) : Prop := ∀ name, ∀ parcels ∈ queue name, parcels.Proper

variable {queue after : WorkQueue} {name other : TaskName} {index count : Nat}

theorem available_set (queue : WorkQueue) (name other : TaskName) (parcels : List ParcelQueue)
    : (queue.set name parcels).available other
      = if other = name then parcels.flatMap ParcelQueue.parcels else queue.available other := by
  simp only [available, set]
  split <;> rfl

theorem Proper.set (proper : queue.Proper) {parcels : List ParcelQueue}
    (areProper : ∀ parcel ∈ parcels, parcel.Proper)
    : (queue.set name parcels).Proper := by
  intro other
  simp only [WorkQueue.set]
  split
  next => exact areProper
  next => exact proper other

theorem available_insertWorkQueue (queue : WorkQueue) (name other : TaskName) (count : Nat)
    : (queue.insertWorkQueue name count).available other
      = if other = name then queue.available name ++ List.range' 0 count else queue.available other := by
  rw [insertWorkQueue, available_set, List.flatMap_append]
  simp [available, ParcelQueue.parcels]

theorem Proper.insertWorkQueue (proper : queue.Proper) (positive : 0 < count)
    : (queue.insertWorkQueue name count).Proper := by
  refine proper.set (fun parcels member => ?_)
  rcases List.mem_append.mp member with old | isNew
  · exact proper name parcels old
  · rw [List.mem_singleton.mp isNew]
    exact positive

theorem available_writeWorkQueue (queue : WorkQueue) (name other : TaskName) (index : Nat)
    : (queue.writeWorkQueue name index).available other
      = if other = name then index :: queue.available name else queue.available other :=
  available_set _ _ _ _

theorem Proper.writeWorkQueue (proper : queue.Proper) : (queue.writeWorkQueue name index).Proper := by
  refine proper.set (fun parcels member => ?_)
  rcases List.mem_cons.mp member with isNew | old
  · rw [isNew]
    exact Nat.one_pos
  · exact proper name parcels old

/-- Reading takes one available parcel and leaves all others. -/
theorem Proper.readWorkQueue {near : Option Nat} (proper : queue.Proper)
    (read : queue.readWorkQueue name near = some (index, after))
    : after.Proper ∧ (queue.available name).Perm (index :: after.available name)
      ∧ ∀ other, other ≠ name → after.available other = queue.available other := by
  rw [WorkQueue.readWorkQueue] at read
  split at read
  next => cases read
  next first rest isQueue =>
    have firstProper : first.Proper := proper name first (by rw [isQueue]; exact List.mem_cons_self)
    have restProper : ∀ parcels ∈ rest, parcels.Proper := fun parcels member =>
      proper name parcels (by rw [isQueue]; exact List.mem_cons_of_mem _ member)
    obtain ⟨taken, remaining, isRead, takes⟩ : ∃ taken remaining,
        (match near with
          | some previous => readParcelQueueNear previous first
          | none => readParcelQueue first) = some (taken, remaining) ∧ Takes first taken remaining := by
      cases near with
      | some previous => exact takes_readParcelQueueNear firstProper previous
      | none => exact takes_readParcelQueue firstProper
    simp only [isRead, Option.map_some, Option.some.injEq, Prod.mk.injEq] at read
    obtain ⟨rfl, rfl⟩ := read
    refine ⟨proper.set ?_, ?_, fun other different => ?_⟩
    · cases remaining with
      | none => exact restProper
      | some parcels => exact List.forall_mem_cons.mpr ⟨takes.proper parcels rfl, restProper⟩
    · rw [available_set, if_pos rfl, available, isQueue, List.flatMap_cons]
      have both := takes.parcels.append_right (rest.flatMap ParcelQueue.parcels)
      cases remaining with
      | none => exact both
      | some parcels => exact both
    · rw [available_set, if_neg different]

end WorkQueue

end Glean.Database.Indexing
