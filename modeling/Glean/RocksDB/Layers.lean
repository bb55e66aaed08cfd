import Glean.RocksDB.Enumerate

/-! Lookups built from fact sets, snapshots, stacked lookups and databases, and which of their
enumerations yield the facts of the requested range.
-/

namespace Glean.Rocks

open Glean.RTS

/-- How a lookup is built. -/
inductive Layers where
  | factSet (set : FactSet)
  | snapshot (base : Layers) (boundary : Id)
  | stacked (base upper : Layers)
  | database (db : Database) (facts : List Fact) (represents : Represents db facts)

namespace Layers

def lookup : Layers → Lookup
  | .factSet set => set.lookup
  | .snapshot base boundary => Snapshot base.lookup boundary
  | .stacked base upper => Stacked base.lookup upper.lookup
  | .database db _ _ => db.lookup

/-- The facts of a lookup. Of two stacked lookups the lower one counts below the starting id
of the upper one.
-/
def facts : Layers → List Fact
  | .factSet set => set.facts
  | .snapshot base boundary => base.facts.filter (fun fact => fact.id < boundary)
  | .stacked base upper =>
      base.facts.filter (fun fact => fact.id < upper.lookup.startingId)
        ++ upper.facts.filter (fun fact => upper.lookup.startingId ≤ fact.id)
  | .database _ facts _ => facts

/-- No inverted range with facts between its bounds reaches a fact set. -/
def ForwardOk : Layers → Id → Id → Prop
  | .factSet set, first, upto => set.RangeOk first upto
  | .snapshot base boundary, first, upto =>
      first < boundary → base.ForwardOk first (clampTo boundary upto)
  | .stacked base upper, first, upto =>
      if first < upper.lookup.startingId then
        if upto ≠ Id.invalid ∧ upto ≤ upper.lookup.startingId then
          base.ForwardOk first upto
        else
          base.ForwardOk first upper.lookup.startingId
            ∧ upper.ForwardOk upper.lookup.startingId upto
      else
        upper.ForwardOk first upto
  | .database _ _ _, _, _ => True

/-- The same for backward enumeration; a snapshot that is reached must have nothing to
enumerate, in the requested range and in the swapped one.
-/
def BackwardOk : Layers → Id → Id → Prop
  | .factSet set, first, downto => set.RangeOk downto first
  | .snapshot base boundary, first, downto =>
      downto < boundary →
        base.ForwardOk (clampTo boundary first) downto
          ∧ ∀ fact ∈ base.facts,
              ¬ InRange (clampTo boundary first) downto fact.id
                ∧ ¬ InRange downto (clampTo boundary first) fact.id
  | .stacked base upper, first, downto =>
      if first ≠ Id.invalid ∧ first ≤ upper.lookup.startingId then
        base.BackwardOk first downto
      else if upper.lookup.startingId ≤ downto then
        upper.BackwardOk first downto
      else
        upper.BackwardOk first upper.lookup.startingId
          ∧ base.BackwardOk upper.lookup.startingId downto
  | .database _ _ _, _, _ => True

/-- The facts stored anywhere in the layers. -/
def stored : Layers → List Fact
  | .factSet set => set.facts
  | .snapshot base _ => base.stored
  | .stacked base upper => base.stored ++ upper.stored
  | .database _ facts _ => facts

/-- Stacked lookups do not store the same fact. -/
def Disjoint : Layers → Prop
  | .factSet _ => True
  | .snapshot base _ => base.Disjoint
  | .stacked base upper =>
      base.Disjoint ∧ upper.Disjoint ∧ ∀ fact ∈ base.stored, fact ∉ upper.stored
  | .database _ _ _ => True

theorem facts_subset_stored (layers : Layers) {fact : Fact} (member : fact ∈ layers.facts)
    : fact ∈ layers.stored := by
  induction layers with
  | factSet set => exact member
  | snapshot base boundary ih => exact ih (List.mem_filter.mp member).1
  | stacked base upper baseIh upperIh =>
      rcases List.mem_append.mp member with lower | higher
      · exact List.mem_append_left _ (baseIh (List.mem_filter.mp lower).1)
      · exact List.mem_append_right _ (upperIh (List.mem_filter.mp higher).1)
  | database db facts represents => exact member

section

variable {base upper : List Fact} {first upto mid boundary : Id}

theorem factsInRange_below (inside : first < boundary)
    : factsInRange (base.filter (fun fact => fact.id < boundary)) first upto
      = factsInRange base first (clampTo boundary upto) := by
  unfold factsInRange
  rw [List.filter_filter]
  refine List.filter_congr (fun fact _ => ?_)
  rw [Bool.eq_iff_iff]
  simp only [InRange, clampTo, Id.invalid, Bool.and_eq_true, decide_eq_true_eq]
  grind

theorem factsInRange_above (outside : boundary ≤ first)
    : factsInRange (base.filter (fun fact => fact.id < boundary)) first upto = [] := by
  refine factsInRange_eq_nil (fun fact member inside => ?_)
  have low : fact.id < boundary := by simpa using (List.mem_filter.mp member).2
  exact absurd (lt_of_lt_of_le low outside) (not_lt.mpr inside.1)

theorem factsInRange_from (upper : List Fact) (first upto mid : Id)
    : factsInRange (upper.filter (fun fact => mid ≤ fact.id)) first upto
      = factsInRange upper (max first mid) upto := by
  unfold factsInRange
  rw [List.filter_filter]
  refine List.filter_congr (fun fact _ => ?_)
  rw [Bool.eq_iff_iff, Bool.and_eq_true, decide_eq_true_eq, decide_eq_true_eq,
    decide_eq_true_eq]
  unfold InRange
  rw [max_le_iff]
  exact and_right_comm

/-- The facts of two layers around `mid`. -/
def splitAt (mid : Id) (base upper : List Fact) : List Fact :=
  base.filter (fun fact => fact.id < mid) ++ upper.filter (fun fact => mid ≤ fact.id)

theorem factsInRange_splitAt
    : factsInRange (splitAt mid base upper) first upto
      = factsInRange (base.filter (fun fact => fact.id < mid)) first upto
        ++ factsInRange upper (max first mid) upto := by
  rw [← factsInRange_from]
  exact List.filter_append ..

/-- A range that ends at `mid` or before lies in the lower layer. -/
theorem factsInRange_lower (bounded : upto ≠ Id.invalid) (ends : upto ≤ mid)
    : factsInRange (splitAt mid base upper) first upto = factsInRange base first upto := by
  have nothing : factsInRange upper (max first mid) upto = [] := by
    refine factsInRange_eq_nil (fun fact _ inside => ?_)
    have above : mid ≤ fact.id := (le_max_right _ _).trans inside.1
    exact inside.2.elim bounded (fun below => absurd (below.trans_le ends) (not_lt.mpr above))
  rw [factsInRange_splitAt, nothing, List.append_nil]
  unfold factsInRange
  rw [List.filter_filter]
  refine List.filter_congr (fun fact _ => ?_)
  rw [Bool.eq_iff_iff, Bool.and_eq_true, decide_eq_true_eq, decide_eq_true_eq]
  refine ⟨fun both => both.1, fun inside => ⟨inside, ?_⟩⟩
  exact inside.2.elim (fun absent => (bounded absent).elim) (fun below => below.trans_le ends)

/-- A range across `mid` is divided there. -/
theorem factsInRange_across (low : first < mid) (ends : ¬ (upto ≠ Id.invalid ∧ upto ≤ mid))
    : factsInRange (splitAt mid base upper) first upto
      = factsInRange base first mid ++ factsInRange upper mid upto := by
  have clamped : clampTo mid upto = mid := by
    unfold clampTo
    split_ifs with bounded
    · exact min_eq_right (le_of_lt (not_le.mp (fun high => ends ⟨bounded, high⟩)))
    · rfl
  rw [factsInRange_splitAt, factsInRange_below low, clamped, max_eq_right low.le]

/-- A range that starts at `mid` or later lies in the upper layer. -/
theorem factsInRange_upper (high : mid ≤ first)
    : factsInRange (splitAt mid base upper) first upto = factsInRange upper first upto := by
  rw [factsInRange_splitAt, factsInRange_above high, max_eq_left high, List.nil_append]

end

/-- How a forward enumeration ends. -/
noncomputable def forward (layers : Layers) (first upto : Id) : Option (List Fact) :=
  open Classical in
  if layers.ForwardOk first upto then some (factsInRange layers.facts first upto) else none

/-- Forward enumeration yields the facts of the range or gets stuck, by induction on the
layers.
-/
theorem enumerate_ends (layers : Layers) (first upto : Id)
    : (layers.lookup.enumerate first upto).Ends (layers.forward first upto) := by
  classical
  induction layers generalizing first upto with
  | factSet set =>
      exact set.enumerate_ends first upto
  | snapshot base boundary ih =>
      change (if boundary ≤ first then EmptyIterator
        else base.lookup.enumerate first (clampTo boundary upto)).Ends _
      split_ifs with outside
      · have ok : (Layers.snapshot base boundary).ForwardOk first upto :=
          fun inside => absurd inside (not_lt.mpr outside)
        rw [forward, if_pos ok, facts, factsInRange_above outside]
        exact EmptyIterator.yields .anyOrder
      · have inside := not_le.mp outside
        have same : (Layers.snapshot base boundary).forward first upto
            = base.forward first (clampTo boundary upto) := by
          simp [forward, ForwardOk, inside, facts, factsInRange_below inside]
        rw [same]
        exact ih first _
  | stacked base upper baseIh upperIh =>
      have split : (Layers.stacked base upper).facts
          = splitAt upper.lookup.startingId base.facts upper.facts := rfl
      change (if first < upper.lookup.startingId then _ else _ : FactIterator).Ends _
      split_ifs with low bounded
      · have same : (Layers.stacked base upper).forward first upto
            = base.forward first upto := by
          simp [forward, ForwardOk, low, bounded, split,
            factsInRange_lower bounded.1 bounded.2]
        rw [same]
        exact baseIh first upto
      · have same : (Layers.stacked base upper).forward first upto
            = (base.forward first upper.lookup.startingId).bind fun left =>
                (upper.forward upper.lookup.startingId upto).map (left ++ ·) := by
          simp only [forward, ForwardOk, if_pos low, if_neg bounded, split,
            factsInRange_across low bounded]
          split_ifs with both baseOk upperOk upperOk' baseOk' upperOk'' <;> simp_all
        rw [same]
        exact (baseIh first _).append (upperIh _ upto)
      · have same : (Layers.stacked base upper).forward first upto
            = upper.forward first upto := by
          simp [forward, ForwardOk, low, split, factsInRange_upper (not_lt.mp low)]
        rw [same]
        exact upperIh first upto
  | database db facts represents =>
      have ok : (Layers.database db facts represents).ForwardOk first upto := trivial
      rw [forward, if_pos ok]
      exact represents.enumerate_yields first upto .anyOrder

/-- How a backward enumeration ends. -/
noncomputable def backward : Layers → Id → Id → Option (List Fact)
  | .factSet set, first, downto =>
      open Classical in
      if set.RangeOk downto first then
        some (factsInRange set.facts downto first).reverse
      else
        none
  | .snapshot base boundary, first, downto =>
      if boundary ≤ downto then some [] else base.forward (clampTo boundary first) downto
  | .stacked base upper, first, downto =>
      if first ≠ Id.invalid ∧ first ≤ upper.lookup.startingId then
        base.backward first downto
      else if upper.lookup.startingId ≤ downto then
        upper.backward first downto
      else
        (upper.backward first upper.lookup.startingId).bind fun above =>
          (base.backward upper.lookup.startingId downto).map (above ++ ·)
  | .database _ facts _, first, downto => some (factsInRange facts downto first).reverse

theorem enumerateBack_ends (layers : Layers) (first downto : Id)
    : (layers.lookup.enumerateBack first downto).Ends (layers.backward first downto) := by
  classical
  induction layers generalizing first downto with
  | factSet set => exact set.enumerateBack_ends downto first
  | snapshot base boundary _ =>
      change (if boundary ≤ downto then EmptyIterator
        else base.lookup.enumerate (clampTo boundary first) downto).Ends _
      unfold backward
      split_ifs with outside
      · exact EmptyIterator.yields .anyOrder
      · exact base.enumerate_ends _ downto
  | stacked base upper baseIh upperIh =>
      change (if first ≠ Id.invalid ∧ first ≤ upper.lookup.startingId then _ else _ :
        FactIterator).Ends _
      unfold backward
      split_ifs with lower higher
      · exact baseIh first downto
      · exact upperIh first downto
      · exact (upperIh first _).append (baseIh _ downto)
  | database db facts represents =>
      exact represents.enumerateBack_yields downto first .anyOrder

/-- Enumerations yield stored facts only. -/
theorem backward_subset (layers : Layers) {first downto : Id} {result : List Fact}
    (ends : layers.backward first downto = some result) {fact : Fact} (member : fact ∈ result)
    : fact ∈ layers.stored := by
  induction layers generalizing first downto result with
  | factSet set =>
      unfold backward at ends
      split_ifs at ends
      obtain rfl := Option.some.inj ends
      exact (mem_factsInRange.mp (List.mem_reverse.mp member)).1
  | snapshot base boundary _ =>
      unfold backward forward at ends
      split_ifs at ends
      · obtain rfl := Option.some.inj ends
        simp at member
      · obtain rfl := Option.some.inj ends
        exact base.facts_subset_stored (mem_factsInRange.mp member).1
  | stacked base upper baseIh upperIh =>
      unfold backward at ends
      split_ifs at ends
      · exact List.mem_append_left _ (baseIh ends member)
      · exact List.mem_append_right _ (upperIh ends member)
      · obtain ⟨above, aboveEnds, rest⟩ := Option.bind_eq_some_iff.mp ends
        obtain ⟨below, belowEnds, rfl⟩ := Option.map_eq_some_iff.mp rest
        rcases List.mem_append.mp member with inAbove | inBelow
        · exact List.mem_append_right _ (upperIh aboveEnds inAbove)
        · exact List.mem_append_left _ (baseIh belowEnds inBelow)
  | database db facts represents =>
      obtain rfl := Option.some.inj ends
      exact (mem_factsInRange.mp (List.mem_reverse.mp member)).1

theorem clampTo_ne_invalid {boundary first : Id} (positive : Id.invalid < boundary)
    : clampTo boundary first ≠ Id.invalid := by
  unfold clampTo
  simp only [Id.invalid] at *
  split_ifs <;> lia

/-- A snapshot enumerates its base forwards, so it is right when there is nothing to yield. -/
theorem snapshot_backward_iff (base : Layers) (boundary first downto : Id)
    : (Layers.snapshot base boundary).backward first downto
        = some (factsInRange (Layers.snapshot base boundary).facts downto first).reverse
      ↔ (Layers.snapshot base boundary).BackwardOk first downto := by
  have below : (Layers.snapshot base boundary).facts
      = base.facts.filter (fun fact => fact.id < boundary) := rfl
  rw [below]
  unfold backward BackwardOk
  split_ifs with outside
  · rw [factsInRange_above outside]
    exact iff_of_true rfl (fun inside => absurd inside (not_lt.mpr outside))
  · have inside := not_le.mp outside
    have bounded : clampTo boundary first ≠ Id.invalid :=
      clampTo_ne_invalid (Nat.zero_lt_of_lt inside)
    rw [factsInRange_below inside, ← factsInRange_swap_iff (Or.inl bounded), forward]
    split_ifs with ok
    · simp [inside, ok]
    · simp [inside, ok]

theorem backward_of_ok (layers : Layers) {first downto : Id}
    (ok : layers.BackwardOk first downto)
    : layers.backward first downto = some (factsInRange layers.facts downto first).reverse := by
  induction layers generalizing first downto with
  | factSet set => exact if_pos ok
  | snapshot base boundary _ => exact (snapshot_backward_iff base boundary first downto).mpr ok
  | stacked base upper baseIh upperIh =>
      have split : (Layers.stacked base upper).facts
          = splitAt upper.lookup.startingId base.facts upper.facts := rfl
      rw [split]
      unfold backward
      unfold BackwardOk at ok
      split_ifs at ok ⊢ with lower higher
      · rw [factsInRange_lower lower.1 lower.2]
        exact baseIh ok
      · rw [factsInRange_upper higher]
        exact upperIh ok
      · rw [factsInRange_across (not_le.mp higher) lower, List.reverse_append, upperIh ok.1,
          baseIh ok.2]
        rfl
  | database db facts represents => rfl

/-- With disjoint layers a right answer has right parts: the facts of each part tell which
layer they come from.
-/
theorem ok_of_backward (layers : Layers) (disjoint : layers.Disjoint) {first downto : Id}
    (right : layers.backward first downto
      = some (factsInRange layers.facts downto first).reverse)
    : layers.BackwardOk first downto := by
  induction layers generalizing first downto with
  | factSet set =>
      by_contra bad
      have outOfRange : ¬ set.RangeOk downto first := bad
      unfold backward at right
      rw [if_neg outOfRange] at right
      cases right
  | snapshot base boundary _ =>
      exact (snapshot_backward_iff base boundary first downto).mp right
  | stacked base upper baseIh upperIh =>
      obtain ⟨baseDisjoint, upperDisjoint, apart⟩ := disjoint
      have split : (Layers.stacked base upper).facts
          = splitAt upper.lookup.startingId base.facts upper.facts := rfl
      rw [split] at right
      unfold backward at right
      unfold BackwardOk
      split_ifs at right ⊢ with lower higher
      · rw [factsInRange_lower lower.1 lower.2] at right
        exact baseIh baseDisjoint right
      · rw [factsInRange_upper higher] at right
        exact upperIh upperDisjoint right
      · rw [factsInRange_across (not_le.mp higher) lower, List.reverse_append] at right
        obtain ⟨above, aboveEnds, rest⟩ := Option.bind_eq_some_iff.mp right
        obtain ⟨below, belowEnds, joined⟩ := Option.map_eq_some_iff.mp rest
        classical
        -- The facts of the upper layer come first on both sides.
        have upperSide {facts : List Fact} {range : List Fact}
            (stored : ∀ fact ∈ facts, fact ∈ upper.stored)
            (others : ∀ fact ∈ range, fact ∈ base.stored)
            : (facts ++ range).filter (fun fact => fact ∈ upper.stored) = facts := by
          rw [List.filter_append, List.filter_eq_self.mpr (by simpa using stored),
            List.filter_eq_nil_iff.mpr (by
              intro fact member inUpper
              exact apart fact (others fact member) (by simpa using inUpper)),
            List.append_nil]
        have sameAbove : above = (factsInRange upper.facts upper.lookup.startingId first).reverse := by
          have filtered := congrArg (List.filter (fun fact => fact ∈ upper.stored)) joined
          rw [upperSide, upperSide] at filtered
          · exact filtered
          · intro fact member
            exact upper.facts_subset_stored (mem_factsInRange.mp (List.mem_reverse.mp member)).1
          · intro fact member
            exact base.facts_subset_stored (mem_factsInRange.mp (List.mem_reverse.mp member)).1
          · exact fun fact member => upper.backward_subset aboveEnds member
          · exact fun fact member => base.backward_subset belowEnds member
        rw [sameAbove] at joined aboveEnds
        have sameBelow := List.append_cancel_left joined
        rw [sameBelow] at belowEnds
        exact ⟨upperIh upperDisjoint aboveEnds, baseIh baseDisjoint belowEnds⟩
  | database db facts represents => trivial

/-- Which enumerations are right. Forwards: exactly those in which no inverted range with
facts between its bounds reaches a fact set. Backwards: also, no snapshot is reached that has
anything to enumerate; this is exact when stacked lookups do not store the same fact.
-/
theorem enumeration_iff (layers : Layers) (first upto : Id)
    : ((layers.lookup.enumerate first upto).Yields .anyOrder
          (factsInRange layers.facts first upto)
        ↔ layers.ForwardOk first upto)
      ∧ (layers.BackwardOk upto first →
          (layers.lookup.enumerateBack upto first).Yields .anyOrder
            (factsInRange layers.facts first upto).reverse)
      ∧ (layers.Disjoint →
          (layers.lookup.enumerateBack upto first).Yields .anyOrder
            (factsInRange layers.facts first upto).reverse →
          layers.BackwardOk upto first) := by
  have forwardEnds := layers.enumerate_ends first upto
  have backwardEnds := layers.enumerateBack_ends upto first
  refine ⟨?_, fun ok => ?_, fun disjoint right => ?_⟩
  · rw [forwardEnds.yields_iff, forward]
    split_ifs with ok
    · simp [ok]
    · simp [ok]
  · rw [backwardEnds.yields_iff]
    exact layers.backward_of_ok ok
  · rw [backwardEnds.yields_iff] at right
    exact layers.ok_of_backward disjoint right

theorem missing_first
    : ∀ fact ∈ (FactSet.new 1024 Id.invalid_lt_1024).bucket 1, fact.key ≠ (⟨[0], []⟩ : Clause).key := by
  decide

theorem missing_second
    : ∀ fact
        ∈ ((FactSet.new 1024 Id.invalid_lt_1024).push 1 ⟨[0], []⟩ Pid.one_lt_limit
            missing_first).bucket 1,
        fact.key ≠ (⟨[1], []⟩ : Clause).key := by
  decide

/-- The facts 1024 and 1025. -/
def twoFacts : FactSet :=
  ((FactSet.new 1024 Id.invalid_lt_1024).push 1 ⟨[0], []⟩ Pid.one_lt_limit missing_first).push 1
    ⟨[1], []⟩ Pid.one_lt_limit missing_second

/-- A snapshot of two facts does not enumerate them backwards, and the fact set does not
enumerate the inverted range from 1025 to 1024.
-/
theorem twoFacts_not_enumerated
    : ¬ ((Layers.snapshot (.factSet twoFacts) 1026).lookup.enumerateBack 0 0).Yields .anyOrder
          (factsInRange (Layers.snapshot (.factSet twoFacts) 1026).facts 0 0).reverse
      ∧ ¬ ((Layers.factSet twoFacts).lookup.enumerate 1025 1024).Yields .anyOrder
          (factsInRange (Layers.factSet twoFacts).facts 1025 1024) := by
  have member : ⟨1024, 1, [0], []⟩ ∈ twoFacts.facts := by decide
  refine ⟨fun right => ?_, fun right => ?_⟩
  · rw [(enumerateBack_ends _ 0 0).yields_iff] at right
    obtain ⟨-, nothing⟩ := (snapshot_backward_iff _ _ _ _).mp right (by decide)
    exact (nothing _ member).2 (by decide)
  · rw [(enumerate_ends _ 1025 1024).yields_iff, forward] at right
    split_ifs at right with ok
    rcases ok with absent | nothing
    · exact absurd absent (by decide)
    · exact nothing _ member (by decide)

end Layers

end Glean.Rocks
