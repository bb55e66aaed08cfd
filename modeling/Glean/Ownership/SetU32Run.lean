import Mathlib.Data.Set.Lattice
import Mathlib.Logic.Function.Basic
import Mathlib.Order.CompletePartialOrder
import Glean.Ownership.SetU32Union

/-! Sets of 32-bit numbers through any calls that build them: each keeps its one representation,
so that equality of the arrays is equality of the sets.
-/

namespace Glean.RTS.SetU32

/-- The arrays are those of the blocks of a set. -/
def Represents (set : SetU32) (elements : Set Nat) : Prop :=
  ∃ chunks, Ordered chunks ∧ set = encode chunks
    ∧ ∀ value, value ∈ elements ↔ Contains chunks value

theorem represents_empty : Represents empty ∅ :=
  ⟨[], ⟨.nil, by simp, by simp⟩, rfl, by simp [Contains]⟩

theorem Represents.canonical {set : SetU32} {elements : Set Nat}
    (represents : Represents set elements)
    : Canonical set := by
  obtain ⟨chunks, ordered, isEncoded, -⟩ := represents
  exact ⟨chunks, ordered, isEncoded⟩

theorem Represents.mem_values {set : SetU32} {elements : Set Nat} {value : Nat}
    (represents : Represents set elements)
    : value ∈ set.values ↔ value ∈ elements := by
  obtain ⟨chunks, -, rfl, same⟩ := represents
  rw [mem_values_encode, same]

/-- No value of an earlier block is above, so the block is not before that of the value. -/
theorem id_le_of_contains {chunks : List Chunk} {chunk : Chunk} {value : Nat}
    (ordered : Ordered chunks) (member : chunk ∈ chunks)
    (notBelow : ∀ other, Contains chunks other → other ≤ value)
    : chunk.id ≤ value / 256 := by
  obtain ⟨bit, isElement⟩ := ordered.nonempty chunk member
  have atMost := notBelow _ ((contains_of_mem ordered.ascending member).mpr isElement)
  omega

theorem contains_concat {chunks : List Chunk} {id : Nat} {elements : Finset Byte} {value : Nat}
    : Contains (chunks ++ [⟨id, elements⟩]) value
      ↔ Contains chunks value ∨ (id = value / 256 ∧ Fin.ofNat 256 value ∈ elements) := by
  rw [contains_append]
  simp [Contains]

theorem eq_iff_parts {value other : Nat}
    : value = other ↔ other / 256 = value / 256 ∧ Fin.ofNat 256 value = Fin.ofNat 256 other := by
  rw [Fin.ext_iff, Fin.val_ofNat, Fin.val_ofNat]
  omega

/-- Appending a value that no other one is above: in the last block, or in a new one. -/
theorem append_represents {set : SetU32} {elements : Set Nat} {value : Nat}
    (represents : Represents set elements) (isWord : value < 2 ^ 32)
    (notBelow : ∀ other ∈ elements, other ≤ value)
    : ∃ result, set.append value = some result ∧ Represents result (insert value elements) := by
  obtain ⟨chunks, ordered, rfl, same⟩ := represents
  have atMost (other : Nat) (contained : Contains chunks other) : other ≤ value :=
    notBelow other ((same other).mpr contained)
  by_cases isLast : ∃ chunk ∈ chunks.getLast?, chunk.id = value / 256
  · obtain ⟨chunk, isLast, isBlock⟩ := isLast
    obtain ⟨passed, rfl⟩ := List.getLast?_eq_some_iff.mp isLast
    have member : chunk ∈ passed ++ [chunk] := List.mem_append_right _ List.mem_cons_self
    have nonempty := ordered.nonempty chunk member
    have bitsBelow (bit : Byte) (isElement : bit ∈ chunk.elements)
        : bit ≤ Fin.ofNat 256 value := by
      have below := atMost _ ((contains_of_mem ordered.ascending member).mpr isElement)
      have inside := bit.isLt
      rw [Fin.le_def, Fin.val_ofNat]
      omega
    refine ⟨_, append_encode_last passed nonempty isBlock bitsBelow, _, ?_, rfl, fun other => ?_⟩
    · obtain ⟨ascending, nonempty, bounded⟩ := ordered
      rw [List.forall_mem_append, List.forall_mem_singleton] at nonempty bounded
      obtain ⟨passedAscending, -, before⟩ := List.pairwise_append.mp ascending
      refine ⟨List.pairwise_append.mpr ⟨passedAscending, List.pairwise_singleton _ _, ?_⟩, ?_, ?_⟩
      · intro other isPassed last isLast
        rw [List.mem_singleton.mp isLast]
        exact before other isPassed chunk List.mem_cons_self
      · rw [List.forall_mem_append, List.forall_mem_singleton]
        exact ⟨nonempty.1, Finset.insert_nonempty _ _⟩
      · rw [List.forall_mem_append, List.forall_mem_singleton]
        exact bounded
    · have shape : Contains (passed ++ [chunk]) other ↔ Contains passed other
          ∨ (chunk.id = other / 256 ∧ Fin.ofNat 256 other ∈ chunk.elements) := contains_concat
      rw [Set.mem_insert_iff, same, shape, contains_concat, Finset.mem_insert, eq_iff_parts,
        isBlock]
      tauto
  · have isNew : ∀ chunk ∈ chunks.getLast?, chunk.id ≠ value / 256 :=
      fun chunk isLast' isBlock => isLast ⟨chunk, isLast', isBlock⟩
    refine ⟨_, append_encode_new chunks isNew, _, ?_, rfl, fun other => ?_⟩
    · obtain ⟨ascending, nonempty, bounded⟩ := ordered
      refine ⟨List.pairwise_append.mpr ⟨ascending, List.pairwise_singleton _ _, ?_⟩, ?_, ?_⟩
      · intro chunk member last isNewBlock
        rw [List.mem_singleton.mp isNewBlock]
        have notAfter := id_le_of_contains ⟨ascending, nonempty, bounded⟩ member atMost
        refine lt_of_le_of_ne notAfter (fun isBlock => ?_)
        -- a block with the id is the last one, as none can follow it
        obtain ⟨before, after, rfl⟩ := List.append_of_mem member
        cases after using List.reverseRecOn with
        | nil => exact isNew chunk (by simp) isBlock
        | append_singleton after last =>
            have lastMember : last ∈ before ++ chunk :: (after ++ [last]) := by simp
            have lastNotAfter :=
              id_le_of_contains ⟨ascending, nonempty, bounded⟩ lastMember atMost
            have tail := (List.pairwise_append.mp ascending).2.1
            have above := (List.pairwise_cons.mp tail).1 last (by simp)
            dsimp only at isBlock
            omega
      · rw [List.forall_mem_append, List.forall_mem_singleton]
        exact ⟨nonempty, Finset.singleton_nonempty _⟩
      · rw [List.forall_mem_append, List.forall_mem_singleton]
        refine ⟨bounded, ?_⟩
        dsimp only
        omega
    · rw [Set.mem_insert_iff, same, contains_concat, Finset.mem_singleton, eq_iff_parts]
      tauto

/-- The values of a list in ascending order, by induction on it. -/
theorem foldlM_append_represents {set : SetU32} {elements : Set Nat} {values : List Nat}
    (represents : Represents set elements) (ascending : values.Pairwise (· ≤ ·))
    (areWords : ∀ value ∈ values, value < 2 ^ 32)
    (notBelow : ∀ other ∈ elements, ∀ value ∈ values, other ≤ value)
    : ∃ result, values.foldlM append set = some result
        ∧ Represents result (elements ∪ {value | value ∈ values}) := by
  induction values generalizing set elements with
  | nil => exact ⟨set, rfl, by simpa using represents⟩
  | cons value values ih =>
      rw [List.forall_mem_cons] at areWords
      obtain ⟨above, ascending⟩ := List.pairwise_cons.mp ascending
      obtain ⟨next, appended, represents⟩ := append_represents represents areWords.1
        (fun other member => notBelow other member value List.mem_cons_self)
      obtain ⟨result, goesOn, isResult⟩ := ih represents ascending areWords.2 (by
        intro other member later isLater
        rcases Set.mem_insert_iff.mp member with rfl | earlier
        · exact above later isLater
        · exact notBelow other earlier later (List.mem_cons_of_mem _ isLater))
      refine ⟨result, ?_, ?_⟩
      · rw [List.foldlM_cons, appended]
        exact goesOn
      · have same : elements ∪ {other | other ∈ value :: values}
            = insert value elements ∪ {other | other ∈ values} := by
          ext other
          simp only [Set.mem_union, Set.mem_insert_iff, Set.mem_ofPred_eq, List.mem_cons]
          tauto
        rw [same]
        exact isResult

theorem fromEliasFano_represents {values : List Nat} (ascending : values.Pairwise (· ≤ ·))
    (areWords : ∀ value ∈ values, value < 2 ^ 32)
    : ∃ result, fromEliasFano values = some result
        ∧ Represents result {value | value ∈ values} := by
  obtain ⟨result, appended, represents⟩ :=
    foldlM_append_represents represents_empty ascending areWords (by simp)
  rw [Set.empty_union] at represents
  exact ⟨result, appended, represents⟩

/-- What a merge of two sets returns and leaves in its result. -/
structure MergeExact (left right : Set Nat) (outcome : Pointer × SetU32) : Prop where
  left_iff : outcome.1 = .left ↔ right ⊆ left
  right_iff : outcome.1 = .right ↔ left ⊂ right
  union : outcome.1 = .result → Represents outcome.2 (left ∪ right)
  untouched : outcome.1 ≠ .result → outcome.2 = empty

theorem merge_exact {left right : SetU32} {ofLeft ofRight : Set Nat} {same : Bool}
    (isLeft : Represents left ofLeft) (isRight : Represents right ofRight)
    (isSame : same = true → ofLeft = ofRight)
    : MergeExact ofLeft ofRight (merge same left right) := by
  cases same with
  | true =>
      obtain rfl := isSame rfl
      refine ⟨?_, ?_, ?_, fun _ => rfl⟩
      · exact iff_of_true rfl subset_rfl
      · exact iff_of_false (by simp [merge]) (fun proper => proper.2 proper.1)
      · intro isResult
        simp [merge] at isResult
  | false =>
      obtain ⟨leftChunks, leftOrdered, rfl, sameLeft⟩ := isLeft
      obtain ⟨rightChunks, rightOrdered, rfl, sameRight⟩ := isRight
      have notIncluded {chunks others : List Chunk} {elements excluded : Set Nat}
          (sameElements : ∀ value, value ∈ elements ↔ Contains chunks value)
          (sameExcluded : ∀ value, value ∈ excluded ↔ Contains others value)
          (proper : ∃ value, Contains chunks value ∧ ¬ Contains others value)
          : ¬ elements ⊆ excluded := by
        obtain ⟨value, contained, absent⟩ := proper
        intro subset
        exact absent ((sameExcluded value).mp (subset ((sameElements value).mpr contained)))
      have merges := merge_merges leftOrdered rightOrdered
      generalize merge false (encode leftChunks) (encode rightChunks) = outcome at merges
      cases merges with
      | left includes =>
          have subset : ofRight ⊆ ofLeft := fun value member =>
            (sameLeft value).mpr (includes value ((sameRight value).mp member))
          refine ⟨iff_of_true rfl subset, iff_of_false (by simp) (fun proper => proper.2 subset),
            ?_, fun _ => rfl⟩
          intro isResult
          cases isResult
      | right includes proper =>
          have subset : ofLeft ⊆ ofRight := fun value member =>
            (sameRight value).mpr (includes value ((sameLeft value).mp member))
          have notBoth := notIncluded sameRight sameLeft proper
          refine ⟨iff_of_false (by simp) notBoth, iff_of_true rfl ⟨subset, notBoth⟩, ?_,
            fun _ => rfl⟩
          intro isResult
          cases isResult
      | result chunks ordered union onlyLeft onlyRight =>
          have notLeft := notIncluded sameRight sameLeft onlyRight
          have notRight := notIncluded sameLeft sameRight onlyLeft
          refine ⟨iff_of_false (by simp) notLeft,
            iff_of_false (by simp) (fun proper => notRight proper.1), ?_, fun other => ?_⟩
          · intro _
            refine ⟨chunks, ordered, rfl, fun value => ?_⟩
            rw [union, ← sameLeft, ← sameRight]
            rfl
          · exact absurd rfl other

theorem eq_true_iff {set other : SetU32} : set.eq other = true ↔ set = other := by
  obtain ⟨hdrs, dense, sparse⟩ := set
  obtain ⟨otherHdrs, otherDense, otherSparse⟩ := other
  simp [SetU32.eq, and_assoc]

/-- A set has one representation. -/
theorem Represents.unique {set other : SetU32} {elements : Set Nat}
    (isSet : Represents set elements) (isOther : Represents other elements)
    : set = other := by
  obtain ⟨chunks, ordered, rfl, same⟩ := isSet
  obtain ⟨others, otherOrdered, rfl, sameOther⟩ := isOther
  have equal := eq_of_contains ordered otherOrdered
    (fun value => (same value).symm.trans (sameOther value))
  rw [equal]

theorem Represents.eq_iff {set other : SetU32} {elements otherElements : Set Nat}
    (isSet : Represents set elements) (isOther : Represents other otherElements)
    : set.eq other = true ↔ elements = otherElements := by
  rw [eq_true_iff]
  constructor
  · rintro rfl
    ext value
    rw [← isSet.mem_values, isOther.mem_values]
  · rintro rfl
    exact isSet.unique isOther

/-- The calls that build sets, which have names. -/
inductive Event (Name : Type) where
  | append (name : Name) (value : Nat)
  | merge (result left right : Name)
  | fromEliasFano (name : Name) (values : List Nat)
  | copy (name source : Name)

variable {Name : Type} [DecidableEq Name]

def step (sets : Name → SetU32) : Event Name → Option (Name → SetU32)
  | .append name value => ((sets name).append value).map (Function.update sets name)
  | .merge result left right =>
      let merged := (SetU32.merge (left = right) (sets left) (sets right)).2
      some (Function.update sets result merged)
  | .fromEliasFano name values =>
      (SetU32.fromEliasFano values).map (Function.update sets name)
  | .copy name source => some (Function.update sets name (sets source))

open Classical in
/-- The elements of the sets after a call; a merge that returns one of its arguments leaves its
result empty.
-/
noncomputable def contents (elements : Name → Set Nat) : Event Name → Name → Set Nat
  | .append name value => Function.update elements name (insert value (elements name))
  | .merge result left right =>
      Function.update elements result
        (if elements right ⊆ elements left ∨ elements left ⊆ elements right then ∅
          else elements left ∪ elements right)
  | .fromEliasFano name values => Function.update elements name {value | value ∈ values}
  | .copy name source => Function.update elements name (elements source)

/-- Values are appended in ascending order, and a merge is called with an empty result. -/
def Allowed (elements : Name → Set Nat) : Event Name → Prop
  | .append name value => value < 2 ^ 32 ∧ ∀ other ∈ elements name, other ≤ value
  | .merge result _ _ => elements result = ∅
  | .fromEliasFano _ values => values.Pairwise (· ≤ ·) ∧ ∀ value ∈ values, value < 2 ^ 32
  | .copy _ _ => True

def AllowedRun (elements : Name → Set Nat) : List (Event Name) → Prop
  | [] => True
  | event :: events => Allowed elements event ∧ AllowedRun (contents elements event) events

/-- Each name has the representation of its set. -/
def AllRepresent (sets : Name → SetU32) (elements : Name → Set Nat) : Prop :=
  ∀ name, Represents (sets name) (elements name)

theorem AllRepresent.update {sets : Name → SetU32} {elements : Name → Set Nat}
    (all : AllRepresent sets elements) (name : Name) {set : SetU32} {ofSet : Set Nat}
    (represents : Represents set ofSet)
    : AllRepresent (Function.update sets name set) (Function.update elements name ofSet) := by
  intro other
  by_cases same : other = name
  · subst same
    rw [Function.update_self, Function.update_self]
    exact represents
  · rw [Function.update_of_ne same, Function.update_of_ne same]
    exact all other

theorem step_represents {sets : Name → SetU32} {elements : Name → Set Nat} {event : Event Name}
    (all : AllRepresent sets elements) (allowed : Allowed elements event)
    : ∃ after, step sets event = some after ∧ AllRepresent after (contents elements event) := by
  cases event with
  | append name value =>
      obtain ⟨result, appended, represents⟩ := append_represents (all name) allowed.1 allowed.2
      refine ⟨Function.update sets name result, ?_, all.update name represents⟩
      rw [step, appended]
      rfl
  | merge result left right =>
      refine ⟨_, rfl, all.update result ?_⟩
      have exact : MergeExact (elements left) (elements right)
          (SetU32.merge (decide (left = right)) (sets left) (sets right)) :=
        merge_exact (all left) (all right) (fun same => by rw [of_decide_eq_true same])
      generalize SetU32.merge (decide (left = right)) (sets left) (sets right) = outcome at exact
      split
      next includes =>
        have notResult : outcome.1 ≠ .result := by
          rcases includes with isLeft | isRight
          · rw [exact.left_iff.mpr isLeft]
            simp
          · by_cases isLeft : elements right ⊆ elements left
            · rw [exact.left_iff.mpr isLeft]
              simp
            · rw [exact.right_iff.mpr ⟨isRight, isLeft⟩]
              simp
        rw [exact.untouched notResult]
        exact represents_empty
      next neither =>
        rw [not_or] at neither
        cases isPointer : outcome.1 with
        | left => exact absurd (exact.left_iff.mp isPointer) neither.1
        | right => exact absurd (exact.right_iff.mp isPointer).1 neither.2
        | result => exact exact.union isPointer
  | fromEliasFano name values =>
      obtain ⟨result, appended, represents⟩ := fromEliasFano_represents allowed.1 allowed.2
      refine ⟨Function.update sets name result, ?_, all.update name represents⟩
      rw [step, appended]
      rfl
  | copy name source => exact ⟨_, rfl, all.update name (all source)⟩

/-- No assertion fails, and each set keeps its representation, by induction on the calls. -/
theorem run_represents {events : List (Event Name)} {sets : Name → SetU32}
    {elements : Name → Set Nat} (all : AllRepresent sets elements)
    (allowed : AllowedRun elements events)
    : ∃ after, events.foldlM step sets = some after
        ∧ AllRepresent after (events.foldl contents elements) := by
  induction events generalizing sets elements with
  | nil => exact ⟨sets, rfl, all⟩
  | cons event events ih =>
      obtain ⟨next, stepped, goesOn⟩ := step_represents all allowed.1
      obtain ⟨after, ran, represents⟩ := ih goesOn allowed.2
      refine ⟨after, ?_, represents⟩
      rw [List.foldlM_cons, stepped]
      exact ran

/-- `left` has all numbers of `right`. -/
def Includes (left right : SetU32) : Prop :=
  ∀ value ∈ right.values, value ∈ left.values

theorem Represents.includes_iff {left right : SetU32} {ofLeft ofRight : Set Nat}
    (isLeft : Represents left ofLeft) (isRight : Represents right ofRight)
    : Includes left right ↔ ofRight ⊆ ofLeft := by
  refine forall_congr' (fun value => ?_)
  rw [isLeft.mem_values, isRight.mem_values]

/-- The pointer that `merge` returns is to a set that includes the other one, with nothing in the
result, and where neither does it is to their union.
-/
structure IsMerge (left right : SetU32) (outcome : Pointer × SetU32) : Prop where
  left_iff : outcome.1 = .left ↔ Includes left right
  right_iff : outcome.1 = .right ↔ Includes right left ∧ ¬ Includes left right
  union : outcome.1 = .result → Canonical outcome.2
    ∧ ∀ value, value ∈ outcome.2.values ↔ value ∈ left.values ∨ value ∈ right.values
  untouched : outcome.1 ≠ .result → outcome.2 = empty

theorem MergeExact.isMerge {left right : SetU32} {ofLeft ofRight : Set Nat}
    {outcome : Pointer × SetU32} (exact : MergeExact ofLeft ofRight outcome)
    (isLeft : Represents left ofLeft) (isRight : Represents right ofRight)
    : IsMerge left right outcome where
  left_iff := exact.left_iff.trans (isLeft.includes_iff isRight).symm
  right_iff := by
    rw [exact.right_iff, isLeft.includes_iff isRight, isRight.includes_iff isLeft]
    rfl
  union := fun isResult => by
    have represents := exact.union isResult
    refine ⟨represents.canonical, fun value => ?_⟩
    rw [represents.mem_values, isLeft.mem_values, isRight.mem_values]
    rfl
  untouched := exact.untouched

/-- The sets that any calls build hold what the calls put in, in the one representation of each:
the equality of the arrays, and the hash, are those of the sets.
-/
theorem run_canonical {events : List (Event Name)} (allowed : AllowedRun (fun _ => ∅) events)
    : ∃ sets, events.foldlM step (fun _ => empty) = some sets
        ∧ (∀ name, Canonical (sets name) ∧ ∀ value,
            value ∈ (sets name).values ↔ value ∈ events.foldl contents (fun _ => ∅) name)
        ∧ ∀ left right,
          ((sets left).eq (sets right) = true
              ↔ ∀ value, value ∈ (sets left).values ↔ value ∈ (sets right).values)
          ∧ ((sets left).eq (sets right) = true
              → ∀ xxh64 seed, (sets left).hash xxh64 seed = (sets right).hash xxh64 seed)
          ∧ IsMerge (sets left) (sets right)
              (SetU32.merge (left = right) (sets left) (sets right)) := by
  obtain ⟨sets, ran, all⟩ := run_represents (fun _ => represents_empty) allowed
  refine ⟨sets, ran, fun name => ⟨(all name).canonical, fun _ => (all name).mem_values⟩,
    fun left right => ⟨?_, fun equal _ _ => ?_, ?_⟩⟩
  · rw [(all left).eq_iff (all right), Set.ext_iff]
    refine forall_congr' (fun value => ?_)
    rw [(all left).mem_values, (all right).mem_values]
  · rw [eq_true_iff.mp equal]
  · have exact := merge_exact (all left) (all right)
      (fun same : decide (left = right) = true => by rw [of_decide_eq_true same])
    exact exact.isMerge (all left) (all right)

theorem run_canonical_copied
    : ∃ sets, [Event.fromEliasFano 0 [1, 300], .append 1 2, .merge 2 0 1, .copy 3 2].foldlM step
          (fun _ : Nat => empty) = some sets
        ∧ Canonical (sets 3) ∧ IsMerge (sets 0) (sets 1)
            (SetU32.merge false (sets 0) (sets 1)) := by
  have allowed : AllowedRun (fun _ : Nat => ∅)
      [Event.fromEliasFano 0 [1, 300], .append 1 2, .merge 2 0 1, .copy 3 2] := by
    refine ⟨⟨by simp, by simp⟩, ⟨by decide, ?_⟩, ?_, trivial, trivial⟩
    · simp [contents]
    · simp [contents, Allowed]
  obtain ⟨sets, ran, canonical, exact⟩ := run_canonical allowed
  exact ⟨sets, ran, (canonical 3).1, (exact 0 1).2.2⟩

end Glean.RTS.SetU32
