import Glean.RTS.FactSet

/-! Enumeration of fact sets by id, forwards and backwards, and when it is undefined. -/

namespace Glean.RTS

namespace FactSet

/-- Positions up to `stop` are read one by one. -/
theorem vectorIterator_yields {facts : List Fact} {pos stop : Nat} (ordered : pos ≤ stop)
    (inside : stop ≤ facts.length) (protocol : Cursor.Protocol)
    : (vectorIterator facts pos stop).Yields protocol ((facts.take stop).drop pos) := by
  have ahead {p : Nat} (before : p < stop)
      : ∃ fact, facts[p]? = some fact
        ∧ (facts.take stop).drop p = fact :: (facts.take stop).drop (p + 1) := by
    have here : p < (facts.take stop).length := by simpa [List.length_take] using ⟨before, by omega⟩
    refine ⟨facts[p], List.getElem?_eq_getElem (by omega), ?_⟩
    rw [List.drop_eq_getElem_cons here, List.getElem_take]
  have moves {p : Nat} {fact : Fact} {rest : List Fact} (low : p ≤ stop)
      (items : fact :: rest = (facts.take stop).drop p)
      : p < stop ∧ facts[p]? = some fact ∧ rest = (facts.take stop).drop (p + 1) := by
    have before : p < stop := by
      rcases Nat.lt_or_eq_of_le low with less | rfl
      · exact less
      · simp at items
    obtain ⟨other, here, split⟩ := ahead before
    rw [split] at items
    obtain ⟨rfl, rfl⟩ := List.cons.inj items
    exact ⟨before, here, rfl⟩
  refine ⟨fun (p : Nat) items => p ≤ stop ∧ items = (facts.take stop).drop p, ⟨?_, ?_, ?_, ?_⟩,
    ordered, rfl⟩
  · intro (p : Nat) items related
    rw [related.2]
    change _ ≤ facts.length - p
    simp only [List.length_drop, List.length_take]
    omega
  · intro (p : Nat) related demand
    have atStop : p = stop := by
      by_contra different
      obtain ⟨fact, -, split⟩ := ahead (lt_of_le_of_ne related.1 different)
      rw [← related.2] at split
      cases split
    exact ⟨p, by simp [vectorIterator, atStop], related⟩
  · intro (p : Nat) fact rest related demand
    obtain ⟨before, here, after⟩ := moves related.1 related.2
    refine ⟨fact, p, p + 1, ?_, ?_, related, ?_, before, after⟩
    · simp [vectorIterator, before.ne, here]
    · exact Fact.ShownAs.of_keyValue rfl
    · have short : ¬ facts.length ≤ p := by omega
      simp [vectorIterator, before.ne, short]
  · intro _ (p : Nat) fact rest related
    obtain ⟨before, -, after⟩ := moves related.1 related.2
    have short : ¬ facts.length ≤ p := by omega
    exact ⟨p + 1, by simp [vectorIterator, before.ne, short], before, after⟩

/-- Behind `stop`, the iterator runs past the end of the vector. -/
theorem vectorIterator_stuck {facts : List Fact} {pos stop : Nat} (origin : Nat)
    (behind : stop < pos) (inside : pos ≤ facts.length)
    : (vectorIterator facts origin stop).Stuck .keyValue pos := by
  induction remaining : facts.length - pos generalizing pos with
  | zero =>
      have atEnd : facts.length ≤ pos := by omega
      exact .atGet (by simp [vectorIterator, behind.ne', atEnd])
  | succ remaining ih =>
      have before : pos < facts.length := by omega
      have shows : (vectorIterator facts origin stop).get .keyValue pos
          = some (some facts[pos], pos) := by
        simp [vectorIterator, behind.ne', before]
      have moves : (vectorIterator facts origin stop).next pos = some (pos + 1) := by
        simp [vectorIterator, behind.ne', before]
      have next : (vectorIterator facts origin stop).Stuck .keyValue (pos + 1) := by
        apply ih
        · omega
        · omega
        · omega
      exact .later shows moves next

/-- Positions are read backwards, down to `stop`. -/
theorem vectorBackIterator_yields {facts : List Fact} {pos stop : Nat} (ordered : stop ≤ pos)
    (inside : pos ≤ facts.length) (protocol : Cursor.Protocol)
    : (vectorBackIterator facts pos stop).Yields protocol
        ((facts.take pos).drop stop).reverse := by
  have ahead {p : Nat} (after : stop < p + 1) (low : p + 1 ≤ facts.length)
      : ∃ fact, facts[p]? = some fact
        ∧ ((facts.take (p + 1)).drop stop).reverse
          = fact :: ((facts.take p).drop stop).reverse := by
    have here : p < facts.length := by omega
    refine ⟨facts[p], List.getElem?_eq_getElem here, ?_⟩
    rw [List.take_succ_eq_append_getElem here, List.drop_append_of_le_length (by simp; omega),
      List.reverse_append]
    rfl
  have moves {p : Nat} {fact : Fact} {rest : List Fact} (low : stop ≤ p)
      (high : p ≤ facts.length) (items : fact :: rest = ((facts.take p).drop stop).reverse)
      : ∃ before, p = before + 1 ∧ stop < before + 1 ∧ facts[before]? = some fact
        ∧ rest = ((facts.take before).drop stop).reverse := by
    cases p with
    | zero => simp at items
    | succ before =>
        have after : stop < before + 1 := by
          rcases Nat.lt_or_eq_of_le low with less | same
          · exact less
          · simp [same] at items
        obtain ⟨other, here, split⟩ := ahead after high
        rw [split] at items
        obtain ⟨rfl, rfl⟩ := List.cons.inj items
        exact ⟨before, rfl, after, here, rfl⟩
  refine ⟨fun (p : Nat) items => stop ≤ p ∧ p ≤ facts.length
    ∧ items = ((facts.take p).drop stop).reverse, ⟨?_, ?_, ?_, ?_⟩, ordered, inside, rfl⟩
  · intro (p : Nat) items related
    rw [related.2.2]
    change _ ≤ p
    simp only [List.length_reverse, List.length_drop, List.length_take]
    omega
  · intro (p : Nat) related demand
    have atStop : p = stop := by
      have short := congrArg List.length related.2.2
      simp only [List.length_nil, List.length_reverse, List.length_drop, List.length_take]
        at short
      have low := related.1
      have high := related.2.1
      omega
    refine ⟨p, ?_, related⟩
    subst atStop
    cases p with
    | zero => simp [vectorBackIterator]
    | succ before => simp [vectorBackIterator]
  · intro (p : Nat) fact rest related demand
    obtain ⟨before, rfl, after, here, items⟩ := moves related.1 related.2.1 related.2.2
    have high := related.2.1
    refine ⟨fact, before + 1, before, ?_, ?_, related, ?_, Nat.lt_succ_iff.mp after, by omega,
      items⟩
    · simp [vectorBackIterator, after.ne', here]
    · exact Fact.ShownAs.of_keyValue rfl
    · simp [vectorBackIterator, after.ne']
  · intro _ (p : Nat) fact rest related
    obtain ⟨before, rfl, after, -, items⟩ := moves related.1 related.2.1 related.2.2
    have high := related.2.1
    exact ⟨before, by simp [vectorBackIterator, after.ne'], Nat.lt_succ_iff.mp after, by omega,
      items⟩

/-- In front of `stop`, the iterator runs past the beginning of the vector. -/
theorem vectorBackIterator_stuck {facts : List Fact} {pos stop : Nat} (origin : Nat)
    (before : pos < stop) (inside : stop ≤ facts.length)
    : (vectorBackIterator facts origin stop).Stuck .keyValue pos := by
  induction pos with
  | zero => exact .atGet (by simp [vectorBackIterator, before.ne'])
  | succ pos ih =>
      have here : pos < facts.length := by omega
      have shows : (vectorBackIterator facts origin stop).get .keyValue (pos + 1)
          = some (some facts[pos], pos + 1) := by
        simp [vectorBackIterator, before.ne, here]
      have moves : (vectorBackIterator facts origin stop).next (pos + 1) = some pos := by
        simp [vectorBackIterator, before.ne]
      exact .later shows moves (ih (Nat.lt_of_succ_lt before))

theorem lowerBound_le_length (set : FactSet) (id : Id)
    : set.lowerBound id ≤ set.facts.length := by
  unfold lowerBound
  split_ifs
  · exact Nat.zero_le _
  · exact Nat.min_le_right _ _

/-- A position lies from the lower bound on when its fact has no smaller id. -/
theorem lowerBound_le_iff (set : FactSet) (id : Id) {i : Nat} (inside : i < set.facts.length)
    : set.lowerBound id ≤ i ↔ id ≤ set.startingId + i := by
  unfold lowerBound
  split_ifs <;> grind

/-- The end position of an enumeration. -/
def stopPosition (set : FactSet) (upto : Id) : Nat :=
  if upto ≠ Id.invalid then set.lowerBound upto else set.facts.length

theorem stopPosition_le_length (set : FactSet) (upto : Id)
    : set.stopPosition upto ≤ set.facts.length := by
  unfold stopPosition
  split_ifs
  · exact set.lowerBound_le_length upto
  · exact le_refl _

theorem lt_stopPosition_iff (set : FactSet) (upto : Id) {i : Nat}
    (inside : i < set.facts.length)
    : i < set.stopPosition upto ↔ upto = Id.invalid ∨ set.startingId + i < upto := by
  unfold stopPosition
  split_ifs with bounded
  · rw [← not_le, set.lowerBound_le_iff upto inside, not_le]
    simp [bounded]
  · simp [not_not.mp bounded, inside]

/-- The facts between the positions of a range are those with ids in the range. -/
theorem positions_eq (set : FactSet) (first upto : Id)
    : (set.facts.take (set.stopPosition upto)).drop (set.lowerBound first)
      = factsInRange set.facts first upto := by
  have sublist : ((set.facts.take (set.stopPosition upto)).drop (set.lowerBound first)).Sublist
      set.facts :=
    (List.drop_sublist _ _).trans (List.take_sublist _ _)
  refine eq_of_ascending (set.ascending.sublist sublist) (set.ascending.filter _) ?_
  intro fact
  rw [factsInRange, List.mem_filter, decide_eq_true_eq, List.mem_iff_getElem?]
  constructor
  · intro found
    obtain ⟨n, here⟩ := found
    rw [List.getElem?_drop, List.getElem?_take] at here
    split_ifs at here with beforeStop
    obtain ⟨inside, rfl⟩ := List.getElem?_eq_some_iff.mp here
    refine ⟨List.getElem_mem inside, ?_⟩
    rw [set.id_getElem]
    exact ⟨(set.lowerBound_le_iff first inside).mp (Nat.le_add_right _ _),
      (set.lt_stopPosition_iff upto inside).mp beforeStop⟩
  · intro found
    obtain ⟨member, low, high⟩ := found
    obtain ⟨i, inside, rfl⟩ := List.getElem_of_mem member
    rw [set.id_getElem] at low high
    have fromStart := (set.lowerBound_le_iff first inside).mpr low
    have beforeStop := (set.lt_stopPosition_iff upto inside).mpr high
    refine ⟨i - set.lowerBound first, ?_⟩
    rw [List.getElem?_drop, Nat.add_sub_cancel' fromStart, List.getElem?_take,
      if_pos beforeStop, List.getElem?_eq_getElem inside]

/-- No fact lies between the bounds of an inverted range. -/
def RangeOk (set : FactSet) (first upto : Id) : Prop :=
  upto = Id.invalid ∨ ∀ fact ∈ set.facts, ¬ (upto ≤ fact.id ∧ fact.id < first)

/-- The start position does not lie behind the end position. -/
theorem rangeOk_iff (set : FactSet) (first upto : Id)
    : set.RangeOk first upto ↔ set.lowerBound first ≤ set.stopPosition upto := by
  constructor
  · intro ok
    by_contra behind
    have inside : set.stopPosition upto < set.facts.length :=
      lt_of_lt_of_le (not_le.mp behind) (set.lowerBound_le_length first)
    have notBefore := (set.lt_stopPosition_iff upto inside).not.mp (lt_irrefl _)
    have notFrom := (set.lowerBound_le_iff first inside).not.mp behind
    rw [not_or] at notBefore
    rcases ok with unbounded | nothing
    · exact notBefore.1 unbounded
    · refine nothing _ (List.getElem_mem inside) ?_
      rw [set.id_getElem]
      exact ⟨not_lt.mp notBefore.2, not_le.mp notFrom⟩
  · intro ordered
    by_cases unbounded : upto = Id.invalid
    · exact Or.inl unbounded
    · refine Or.inr (fun fact member between => ?_)
      obtain ⟨i, inside, rfl⟩ := List.getElem_of_mem member
      rw [set.id_getElem] at between
      have notBefore : ¬ i < set.stopPosition upto := by
        rw [set.lt_stopPosition_iff upto inside]
        exact not_or.mpr ⟨unbounded, not_lt.mpr between.1⟩
      have notFrom : ¬ set.lowerBound first ≤ i := by
        rw [set.lowerBound_le_iff first inside]
        exact not_le.mpr between.2
      exact notFrom (ordered.trans (not_lt.mp notBefore))

theorem enumerate_yields (set : FactSet) {first upto : Id} (ok : set.RangeOk first upto)
    (protocol : Cursor.Protocol)
    : (set.enumerate first upto).Yields protocol (factsInRange set.facts first upto) := by
  rw [← set.positions_eq]
  exact vectorIterator_yields ((set.rangeOk_iff first upto).mp ok)
    (set.stopPosition_le_length upto) protocol

theorem enumerate_stuck (set : FactSet) {first upto : Id} (bad : ¬ set.RangeOk first upto)
    : (set.enumerate first upto).Stuck .keyValue (set.enumerate first upto).state := by
  rw [set.rangeOk_iff] at bad
  exact vectorIterator_stuck _ (not_le.mp bad) (set.lowerBound_le_length first)

theorem enumerateBack_yields (set : FactSet) {first upto : Id} (ok : set.RangeOk first upto)
    (protocol : Cursor.Protocol)
    : (set.enumerateBack upto first).Yields protocol
        (factsInRange set.facts first upto).reverse := by
  rw [← set.positions_eq]
  exact vectorBackIterator_yields ((set.rangeOk_iff first upto).mp ok)
    (set.stopPosition_le_length upto) protocol

theorem enumerateBack_stuck (set : FactSet) {first upto : Id} (bad : ¬ set.RangeOk first upto)
    : (set.enumerateBack upto first).Stuck .keyValue (set.enumerateBack upto first).state := by
  rw [set.rangeOk_iff] at bad
  exact vectorBackIterator_stuck _ (not_le.mp bad) (set.lowerBound_le_length first)

end FactSet

/-- A concatenation is stuck when its first part is, by induction on the calls. -/
theorem AppendIterator.stuck_first {first second : FactIterator} {state : first.State}
    (stuck : first.Stuck .keyValue state) (other : second.State) (checked : Bool)
    : (AppendIterator first second).Stuck .keyValue (.first state other checked) := by
  induction stuck generalizing checked with
  | atGet undefined => exact .atGet (by simp [AppendIterator, appendGet, undefined])
  | @atNext state after fact gets undefined =>
      have shows : (AppendIterator first second).get .keyValue (.first state other checked)
          = some (some fact, .first after other true) := by
        simp [AppendIterator, appendGet, gets]
      exact .atNext shows (by simp [AppendIterator, appendNext, appendAdvance, undefined])
  | @later state after moved fact gets moves _ ih =>
      have shows : (AppendIterator first second).get .keyValue (.first state other checked)
          = some (some fact, .first after other true) := by
        simp [AppendIterator, appendGet, gets]
      have advances : (AppendIterator first second).next (.first after other true)
          = some (.first moved other false) := by
        simp [AppendIterator, appendNext, appendAdvance, moves]
      exact .later shows advances (ih false)

/-- A concatenation in its second part is stuck when that part is. -/
theorem AppendIterator.stuck_second {first second : FactIterator} {state : second.State}
    (stuck : second.Stuck .keyValue state) (checked : Bool)
    : (AppendIterator first second).Stuck .keyValue (.second state checked) := by
  induction stuck generalizing checked with
  | atGet undefined => exact .atGet (by simp [AppendIterator, appendGet, undefined])
  | @atNext state after fact gets undefined =>
      have shows : (AppendIterator first second).get .keyValue (.second state checked)
          = some (some fact, .second after true) := by
        simp [AppendIterator, appendGet, gets]
      exact .atNext shows (by simp [AppendIterator, appendNext, appendAdvance, undefined])
  | @later state after moved fact gets moves _ ih =>
      have shows : (AppendIterator first second).get .keyValue (.second state checked)
          = some (some fact, .second after true) := by
        simp [AppendIterator, appendGet, gets]
      have advances : (AppendIterator first second).next (.second after true)
          = some (.second moved false) := by
        simp [AppendIterator, appendNext, appendAdvance, moves]
      exact .later shows advances (ih false)

/-- A concatenation reaches its stuck second part once the first part is exhausted, by
induction on what the first part has left.
-/
theorem AppendIterator.stuck_after {protocol : Cursor.Protocol} {first second : FactIterator}
    {R : first.State → List Fact → Prop}
    (simulates : Cursor.Simulates Fact.ShownAs protocol first R) {state : first.State}
    {items : List Fact} (related : R state items) {other : second.State}
    (stuck : second.Stuck .keyValue other) (checked : Bool)
    : (AppendIterator first second).Stuck .keyValue (.first state other checked) := by
  induction items generalizing state checked with
  | nil =>
      obtain ⟨after, done, -⟩ := simulates.done related .keyValue
      cases stuck with
      | atGet undefined => exact .atGet (by simp [AppendIterator, appendGet, done, undefined])
      | @atNext _ shown fact gets undefined =>
          have shows : (AppendIterator first second).get .keyValue (.first state other checked)
              = some (some fact, .second shown true) := by
            simp [AppendIterator, appendGet, done, gets]
          exact .atNext shows (by simp [AppendIterator, appendNext, appendAdvance, undefined])
      | @later _ shown moved fact gets moves rest =>
          have shows : (AppendIterator first second).get .keyValue (.first state other checked)
              = some (some fact, .second shown true) := by
            simp [AppendIterator, appendGet, done, gets]
          have advances : (AppendIterator first second).next (.second shown true)
              = some (.second moved false) := by
            simp [AppendIterator, appendNext, appendAdvance, moves]
          exact .later shows advances (stuck_second rest false)
  | cons item rest ih =>
      obtain ⟨shown, after, moved, gets, -, -, moves, next⟩ := simulates.shows related .keyValue
      have shows : (AppendIterator first second).get .keyValue (.first state other checked)
          = some (some shown, .first after other true) := by
        simp [AppendIterator, appendGet, gets]
      have advances : (AppendIterator first second).next (.first after other true)
          = some (.first moved other false) := by
        simp [AppendIterator, appendNext, appendAdvance, moves]
      exact .later shows advances (ih next false)

/-- What becomes of an iterator: it yields the facts, or it gets stuck. -/
def FactIterator.Ends (iter : FactIterator) : Option (List Fact) → Prop
  | some facts => iter.Yields .anyOrder facts
  | none => iter.Stuck .keyValue iter.state

/-- An iterator yields facts exactly when it ends that way. -/
theorem FactIterator.Ends.yields_iff {iter : FactIterator} {result : Option (List Fact)}
    (ends : iter.Ends result) (facts : List Fact)
    : iter.Yields .anyOrder facts ↔ result = some facts := by
  cases result with
  | none =>
      refine iff_of_false ?_ (by simp)
      exact Cursor.Stuck.not_delivers ends facts
  | some others =>
      constructor
      · intro yields
        exact congrArg some (FactIterator.Yields.unique ends yields)
      · intro same
        exact Option.some.inj same ▸ ends

theorem FactIterator.Ends.append {first second : FactIterator}
    {left right : Option (List Fact)} (leftEnds : first.Ends left)
    (rightEnds : second.Ends right)
    : (FactIterator.append first second).Ends
        (left.bind fun facts => right.map (facts ++ ·)) := by
  cases left with
  | none => exact AppendIterator.stuck_first leftEnds second.state false
  | some facts =>
      cases right with
      | none =>
          obtain ⟨R, simulates, start⟩ := leftEnds
          exact AppendIterator.stuck_after simulates start rightEnds false
      | some more => exact AppendIterator.yields leftEnds rightEnds

theorem FactSet.enumerate_ends (set : FactSet) (first upto : Id)
    [Decidable (set.RangeOk first upto)]
    : (set.enumerate first upto).Ends
        (if set.RangeOk first upto then some (factsInRange set.facts first upto) else none) := by
  split_ifs with ok
  · exact set.enumerate_yields ok .anyOrder
  · exact set.enumerate_stuck ok

theorem FactSet.enumerateBack_ends (set : FactSet) (first upto : Id)
    [Decidable (set.RangeOk first upto)]
    : (set.enumerateBack upto first).Ends
        (if set.RangeOk first upto then
          some (factsInRange set.facts first upto).reverse
        else
          none) := by
  split_ifs with ok
  · exact set.enumerateBack_yields ok .anyOrder
  · exact set.enumerateBack_stuck ok

end Glean.RTS
