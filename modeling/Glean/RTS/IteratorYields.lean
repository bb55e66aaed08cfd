import Glean.RTS.FactIterator

/-! What the iterator combinators yield, given what their parts yield.
Appending and merging look before they move, so they may be driven in any order whatever
protocol their parts need; filtering leaves its base on a hidden fact until the next look.
-/

namespace Glean.RTS

open Cursor (Protocol)

/-- The snapshot iterator yields the facts before the first one at or above the boundary.
Witness: the base simulation restricted to `takeWhile`; the base itself is never moved past
the fact that ends the sequence.
-/
theorem SnapshotIterator.yields {protocol : Protocol} {base : FactIterator}
    {facts : List Fact} (boundary : Id) (yields : base.Yields protocol facts)
    : (SnapshotIterator base boundary).Yields protocol
        (facts.takeWhile (fun fact => fact.id < boundary)) := by
  obtain ⟨R, simulates, start⟩ := yields
  refine ⟨fun state items => ∃ ahead, R state ahead
    ∧ items = ahead.takeWhile (fun fact => fact.id < boundary), ⟨?_, ?_, ?_, ?_⟩,
    facts, start, rfl⟩
  · intro state items related
    obtain ⟨ahead, base, rfl⟩ := related
    exact ((List.takeWhile_sublist _).length_le).trans (simulates.bounded base)
  · intro state related demand
    obtain ⟨ahead, inner, empty⟩ := related
    cases ahead with
    | nil =>
        obtain ⟨after, gets, kept⟩ := simulates.done inner demand
        exact ⟨after, by simp [SnapshotIterator, gets], [], kept, rfl⟩
    | cons fact rest =>
        have above : boundary ≤ fact.id := by
          by_contra below
          simp [Nat.lt_of_not_le below] at empty
        obtain ⟨shown, after, -, gets, agrees, kept, -⟩ := simulates.shows inner demand
        refine ⟨after, ?_, fact :: rest, kept, empty⟩
        simp [SnapshotIterator, gets, agrees.id_eq, above]
  · intro state item rest related demand
    obtain ⟨ahead, inner, split⟩ := related
    cases ahead with
    | nil => simp at split
    | cons fact more =>
        have below : fact.id < boundary := by
          by_contra above
          simp [above] at split
        simp only [List.takeWhile_cons, below, decide_true, ↓reduceIte, List.cons.injEq]
          at split
        obtain ⟨rfl, rfl⟩ := split
        obtain ⟨shown, after, moved, gets, agrees, kept, moves, next⟩ :=
          simulates.shows inner demand
        refine ⟨shown, after, moved, ?_, agrees, ⟨_, kept, ?_⟩, moves, more, next, rfl⟩
        · simp [SnapshotIterator, gets, agrees.id_eq, below]
        · simp [below]
  · intro free state item rest related
    obtain ⟨ahead, inner, split⟩ := related
    cases ahead with
    | nil => simp at split
    | cons fact more =>
        obtain ⟨moved, moves, next⟩ := simulates.moves free inner
        have tail : rest = more.takeWhile (fun fact => fact.id < boundary) := by
          rw [List.takeWhile_cons] at split
          split at split
          · exact (List.cons.inj split).2
          · cases split
        exact ⟨moved, moves, more, next, tail⟩

/-- The loop of the filter stops at the first visible fact and knows how to move past it.
Witness: induction on the facts ahead; the base's size bounds the rounds.
-/
theorem filterLoop_finds {protocol : Protocol} {base : FactIterator}
    {R : base.State → List Fact → Prop}
    (simulates : Cursor.Simulates Fact.ShownAs protocol base R) (visible : Id → Bool)
    (demand : Demand) {rounds : Nat} {state : base.State} {ahead : List Fact}
    (start : R state ahead) (enough : ahead.length < rounds)
    : match ahead.filter (fun fact => visible fact.id) with
      | [] => ∃ after, filterLoop base visible demand rounds state = some (none, after)
          ∧ R after []
      | fact :: rest => ∃ shown after moved later,
          filterLoop base visible demand rounds state = some (some shown, after)
          ∧ Fact.ShownAs demand shown fact
          ∧ R after (fact :: later)
          ∧ base.next after = some moved
          ∧ R moved later
          ∧ later.filter (fun fact => visible fact.id) = rest := by
  induction ahead generalizing rounds state with
  | nil =>
      obtain ⟨rounds, rfl⟩ := Nat.exists_eq_succ_of_ne_zero (Nat.pos_iff_ne_zero.mp enough)
      obtain ⟨after, gets, kept⟩ := simulates.done start demand
      exact ⟨after, by simp [filterLoop, gets], kept⟩
  | cons fact rest ih =>
      obtain ⟨rounds, rfl⟩ :=
        Nat.exists_eq_succ_of_ne_zero (Nat.pos_iff_ne_zero.mp (Nat.zero_lt_of_lt enough))
      obtain ⟨shown, after, moved, gets, agrees, kept, moves, next⟩ :=
        simulates.shows start demand
      cases seen : visible fact.id with
      | true =>
          simp only [List.filter_cons, seen, ↓reduceIte]
          exact ⟨shown, after, moved, rest, by simp [filterLoop, gets, agrees.id_eq, seen],
            agrees, kept, moves, next, rfl⟩
      | false =>
          have tail := ih next (Nat.lt_of_succ_lt_succ (by simpa using enough))
          have skips : filterLoop base visible demand (rounds + 1) state
              = filterLoop base visible demand rounds moved := by
            simp [filterLoop, gets, agrees.id_eq, seen, moves]
          simp only [List.filter_cons, seen, Bool.false_eq_true, ↓reduceIte, Nat.succ_eq_add_one,
            skips]
          exact tail

/-- Filtering yields the visible facts in the base's order, for clients that look before
they move.
-/
theorem FilterIterator.yields {protocol : Protocol} {base : FactIterator}
    {facts : List Fact} (visible : Id → Bool) (yields : base.Yields protocol facts)
    : (FilterIterator base visible).Yields .getFirst
        (facts.filter (fun fact => visible fact.id)) := by
  obtain ⟨R, simulates, start⟩ := yields
  refine ⟨fun state items => ∃ ahead, R state ahead
    ∧ items = ahead.filter (fun fact => visible fact.id), ⟨?_, ?_, ?_, by simp⟩,
    facts, start, rfl⟩
  · intro state items related
    obtain ⟨ahead, inner, rfl⟩ := related
    exact (List.length_filter_le _ _).trans (simulates.bounded inner)
  · intro state related demand
    obtain ⟨ahead, inner, empty⟩ := related
    have found := filterLoop_finds simulates visible demand inner
      (Nat.lt_succ_of_le (simulates.bounded inner))
    rw [← empty] at found
    obtain ⟨after, gets, kept⟩ := found
    exact ⟨after, gets, [], kept, rfl⟩
  · intro state item rest related demand
    obtain ⟨ahead, inner, split⟩ := related
    have found := filterLoop_finds simulates visible demand inner
      (Nat.lt_succ_of_le (simulates.bounded inner))
    rw [← split] at found
    obtain ⟨shown, after, moved, later, gets, agrees, kept, moves, next, tail⟩ := found
    have seen : visible item.id = true := by
      have member : item ∈ ahead.filter (fun fact => visible fact.id) := by
        rw [← split]
        exact List.mem_cons_self
      exact (List.mem_filter.mp member).2
    refine ⟨shown, after, moved, gets, agrees, ⟨item :: later, kept, ?_⟩, moves,
      later, next, tail.symm⟩
    simp [seen, tail]

/-- The states of an append iterator and the facts ahead of it. A checked state has just
shown its current fact, so its current part can move.
-/
def AppendAhead (first second : FactIterator) (R : first.State → List Fact → Prop)
    (S : second.State → List Fact → Prop)
    : AppendState first.State second.State → List Fact → Prop
  | .first current other checked, items =>
      ∃ facts more, R current facts ∧ S other more ∧ items = facts ++ more
        ∧ (checked = true → ∃ fact rest moved,
            facts = fact :: rest ∧ first.next current = some moved ∧ R moved rest)
  | .second current checked, items =>
      S current items
        ∧ (checked = true → ∀ fact rest, items = fact :: rest →
            ∃ moved, second.next current = some moved ∧ S moved rest)

section Append

variable {protocol : Protocol} {first second : FactIterator}
  {R : first.State → List Fact → Prop} {S : second.State → List Fact → Prop}

/-- Looking at the second part shows its next fact and leaves the state checked. -/
theorem AppendAhead.get_second
    (simulates : Cursor.Simulates Fact.ShownAs protocol second S) {current : second.State}
    {items : List Fact} (start : S current items)
    : ∃ shown after, second.get .keyValue current = some (shown, after)
        ∧ shown = items.head? ∧ AppendAhead first second R S (.second after true) items := by
  cases items with
  | nil =>
      obtain ⟨after, gets, kept⟩ := simulates.done start .keyValue
      exact ⟨none, after, gets, rfl, kept, by simp⟩
  | cons fact rest =>
      obtain ⟨shown, after, moved, gets, agrees, kept, moves, next⟩ :=
        simulates.shows start .keyValue
      refine ⟨some shown, after, gets, congrArg some agrees, kept, ?_⟩
      intro _ other tail split
      obtain ⟨rfl, rfl⟩ := List.cons.inj split
      exact ⟨moved, moves, next⟩

/-- A look shows the first fact ahead and leaves the state checked, by cases on which part
is current and whether it is exhausted.
-/
theorem AppendAhead.get
    (left : Cursor.Simulates Fact.ShownAs protocol first R)
    (right : Cursor.Simulates Fact.ShownAs protocol second S)
    {state : AppendState first.State second.State} {items : List Fact}
    (ahead : AppendAhead first second R S state items)
    : ∃ after, appendGet first second state = some (items.head?, after)
        ∧ AppendAhead first second R S after items
        ∧ ∀ fact rest, items = fact :: rest →
            ∃ moved, appendAdvance first second after = some moved
              ∧ AppendAhead first second R S moved rest
              ∧ appendNext first second after = some moved := by
  have swapped {current : second.State} {items : List Fact} (start : S current items)
      : ∃ after, (second.get .keyValue current).map
            (fun result =>
              ((result.1, AppendState.second result.2 true)
                : Option Fact × AppendState first.State second.State))
          = some (items.head?, after)
        ∧ AppendAhead first second R S after items
        ∧ ∀ fact rest, items = fact :: rest →
            ∃ moved, appendAdvance first second after = some moved
              ∧ AppendAhead first second R S moved rest
              ∧ appendNext first second after = some moved := by
    obtain ⟨shown, after, gets, rfl, kept⟩ := get_second (R := R) right start
    refine ⟨.second after true, by simp [gets], kept, ?_⟩
    intro fact rest split
    obtain ⟨moved, moves, next⟩ := kept.2 rfl fact rest split
    exact ⟨.second moved false, by simp [appendAdvance, moves], ⟨next, by simp⟩,
      by simp [appendNext, appendAdvance, moves]⟩
  cases state with
  | second current checked => exact swapped ahead.1
  | first current other checked =>
      obtain ⟨facts, more, inner, rest, rfl, -⟩ := ahead
      cases facts with
      | nil =>
          obtain ⟨after, gets, -⟩ := left.done inner .keyValue
          simpa only [appendGet, gets, Option.bind_some, List.nil_append] using swapped rest
      | cons fact tail =>
          obtain ⟨shown, after, moved, gets, agrees, kept, moves, next⟩ :=
            left.shows inner .keyValue
          refine ⟨.first after other true, ?_, ?_, ?_⟩
          · simp only [appendGet, gets, Option.bind_some]
            rw [show shown = fact from agrees]
            rfl
          · exact ⟨fact :: tail, more, kept, rest, rfl,
              fun _ => ⟨fact, tail, moved, rfl, moves, next⟩⟩
          · intro head later split
            obtain ⟨rfl, rfl⟩ := List.cons.inj split
            exact ⟨.first moved other false, by simp [appendAdvance, moves],
              ⟨tail, more, next, rest, rfl, by simp⟩,
              by simp [appendNext, appendAdvance, moves]⟩

end Append

/-- Appending yields the first sequence and then the second. -/
theorem AppendIterator.yields {protocol : Protocol} {first second : FactIterator}
    {facts more : List Fact} (left : first.Yields protocol facts)
    (right : second.Yields protocol more)
    : (AppendIterator first second).Yields .anyOrder (facts ++ more) := by
  obtain ⟨R, simulatesR, startR⟩ := left
  obtain ⟨S, simulatesS, startS⟩ := right
  refine ⟨AppendAhead first second R S, ⟨?_, ?_, ?_, ?_⟩,
    facts, more, startR, startS, rfl, by simp⟩
  · intro state items ahead
    cases state with
    | first current other checked =>
        obtain ⟨facts, more, inner, rest, rfl, -⟩ := ahead
        rw [List.length_append]
        exact Nat.add_le_add (simulatesR.bounded inner) (simulatesS.bounded rest)
    | second current checked => exact simulatesS.bounded ahead.1
  · intro state ahead demand
    obtain ⟨after, gets, kept, -⟩ := ahead.get simulatesR simulatesS
    exact ⟨after, gets, kept⟩
  · intro state item rest ahead demand
    obtain ⟨after, gets, kept, moves⟩ := ahead.get simulatesR simulatesS
    obtain ⟨moved, -, next, step⟩ := moves item rest rfl
    exact ⟨item, after, moved, gets, Fact.ShownAs.of_keyValue rfl, kept, step, next⟩
  · intro _ state item rest ahead
    obtain ⟨after, gets, kept, moves⟩ := ahead.get simulatesR simulatesS
    obtain ⟨moved, advance, next, -⟩ := moves item rest rfl
    have unchecked (step : appendNext first second state = appendAdvance first second after)
        : ∃ moved, appendNext first second state = some moved
            ∧ AppendAhead first second R S moved rest :=
      ⟨moved, step.trans advance, next⟩
    cases state with
    | first current other checked =>
        cases checked with
        | false => exact unchecked (by simp [appendNext, gets])
        | true =>
            obtain ⟨facts, more, -, others, split, ready⟩ := ahead
            obtain ⟨fact, tail, inner, rfl, innerMoves, innerNext⟩ := ready rfl
            obtain ⟨rfl, rfl⟩ := List.cons.inj split
            exact ⟨.first inner other false,
              by simp [AppendIterator, appendNext, appendAdvance, innerMoves],
              tail, more, innerNext, others, rfl, by simp⟩
    | second current checked =>
        cases checked with
        | false => exact unchecked (by simp [appendNext, gets])
        | true =>
            obtain ⟨inner, innerMoves, innerNext⟩ := ahead.2 rfl item rest rfl
            exact ⟨.second inner false,
              by simp [AppendIterator, appendNext, appendAdvance, innerMoves], innerNext,
              by simp⟩

/-- The order in which merging prefers its left part: only a strictly smaller suffix on the
right wins.
-/
def mergeOrder (prefixSize : Nat) (left right : Fact) : Bool :=
  decide (¬ suffix prefixSize right < suffix prefixSize left)

/-- The facts ahead of one merged part; a dropped part has none. -/
def PartAhead (iter : FactIterator) (R : iter.State → List Fact → Prop)
    : Option iter.State → List Fact → Prop
  | none, facts => facts = []
  | some state, facts => R state facts

/-- A part that has just shown its first fact and can move past it. -/
def PartReady (iter : FactIterator) (R : iter.State → List Fact → Prop)
    (part : Option iter.State) (rest : List Fact)
    : Prop :=
  ∃ inner moved, part = some inner ∧ iter.next inner = some moved ∧ R moved rest

/-- Trying a part shows its first fact, or drops the part when it is exhausted. -/
theorem tryGet_partAhead {protocol : Protocol} {iter : FactIterator}
    {R : iter.State → List Fact → Prop}
    (simulates : Cursor.Simulates Fact.ShownAs protocol iter R) (demand : Demand)
    {part : Option iter.State} {facts : List Fact} (ahead : PartAhead iter R part facts)
    : match facts with
      | [] => tryGet iter demand part = some (none, none)
      | fact :: rest => ∃ shown after,
          tryGet iter demand part = some (some shown, after)
          ∧ Fact.ShownAs demand shown fact
          ∧ PartAhead iter R after (fact :: rest)
          ∧ PartReady iter R after rest := by
  cases part with
  | none =>
      obtain rfl : facts = [] := ahead
      rfl
  | some state =>
      cases facts with
      | nil =>
          obtain ⟨after, gets, -⟩ := simulates.done ahead demand
          simp [tryGet, gets]
      | cons fact rest =>
          obtain ⟨shown, after, moved, gets, agrees, kept, moves, next⟩ :=
            simulates.shows ahead demand
          exact ⟨shown, some after, by simp [tryGet, gets], agrees, kept,
            after, moved, rfl, moves, next⟩

/-- The facts ahead of a merge iterator. Once a part is current, it has shown the first of
them and can move.
-/
structure MergeAhead (left right : FactIterator) (prefixSize : Nat)
    (R : left.State → List Fact → Prop) (S : right.State → List Fact → Prop)
    (state : MergeState left.State right.State) (items : List Fact)
    : Prop where
  split
    : ∃ facts more, PartAhead left R state.left facts ∧ PartAhead right S state.right more
        ∧ items = facts.merge more (mergeOrder prefixSize)
        ∧ (state.current = some .left → ∃ fact rest, facts = fact :: rest
            ∧ items = fact :: rest.merge more (mergeOrder prefixSize)
            ∧ PartReady left R state.left rest)
        ∧ (state.current = some .right → ∃ fact rest, more = fact :: rest
            ∧ items = fact :: facts.merge rest (mergeOrder prefixSize)
            ∧ PartReady right S state.right rest)

section Merge

variable {protocol : Protocol} {left right : FactIterator} {prefixSize : Nat}
  {R : left.State → List Fact → Prop} {S : right.State → List Fact → Prop}

/-- A merge iterator with a current part moves past the first fact ahead. -/
theorem MergeAhead.next {state : MergeState left.State right.State} {fact : Fact}
    {rest : List Fact} (ahead : MergeAhead left right prefixSize R S state (fact :: rest))
    (looked : state.current ≠ none)
    : ∃ moved, mergeNext left right prefixSize state = some moved
        ∧ MergeAhead left right prefixSize R S moved rest := by
  obtain ⟨facts, more, onLeft, onRight, -, currentLeft, currentRight⟩ := ahead.split
  obtain ⟨leftState, rightState, current⟩ := state
  cases current with
  | none => exact absurd rfl looked
  | some side =>
      cases side with
      | left =>
          obtain ⟨head, tail, rfl, split, inner, moved, part, moves, next⟩ := currentLeft rfl
          dsimp only at part
          subst part
          obtain ⟨rfl, rfl⟩ := List.cons.inj split
          exact ⟨⟨some moved, rightState, none⟩, by simp [mergeNext, moves],
            ⟨tail, more, next, onRight, rfl, by simp, by simp⟩⟩
      | right =>
          obtain ⟨head, tail, rfl, split, inner, moved, part, moves, next⟩ := currentRight rfl
          dsimp only at part
          subst part
          obtain ⟨rfl, rfl⟩ := List.cons.inj split
          exact ⟨⟨leftState, some moved, none⟩, by simp [mergeNext, moves],
            ⟨facts, tail, onLeft, next, rfl, by simp, by simp⟩⟩

/-- A look shows the first fact ahead and makes its part current. With nothing current, the
heads of both parts are compared as `mergeOrder` does, since what is shown has the key of
the fact.
-/
theorem MergeAhead.get (leftSimulates : Cursor.Simulates Fact.ShownAs protocol left R)
    (rightSimulates : Cursor.Simulates Fact.ShownAs protocol right S) (demand : Demand)
    {state : MergeState left.State right.State} {items : List Fact}
    : MergeAhead left right prefixSize R S state items →
      match items with
      | [] => ∃ after, mergeGet left right prefixSize demand state = some (none, after)
          ∧ MergeAhead left right prefixSize R S after []
      | fact :: rest => ∃ shown after,
          mergeGet left right prefixSize demand state = some (some shown, after)
          ∧ Fact.ShownAs demand shown fact
          ∧ MergeAhead left right prefixSize R S after (fact :: rest)
          ∧ after.current ≠ none := by
  intro ahead
  obtain ⟨facts, more, onLeft, onRight, whole, currentLeft, currentRight⟩ := ahead.split
  obtain ⟨leftState, rightState, current⟩ := state
  cases current with
  | some side =>
      cases side with
      | left =>
          obtain ⟨head, tail, rfl, split, inner, -, part, -⟩ := currentLeft rfl
          dsimp only at part onLeft
          subst part
          obtain ⟨shown, after, moved, gets, agrees, kept, moves, next⟩ :=
            leftSimulates.shows onLeft demand
          rw [split]
          refine ⟨shown, ⟨some after, rightState, some .left⟩, by simp [mergeGet, gets],
            agrees, ⟨head :: tail, more, kept, onRight, split.symm.trans whole, ?_, by simp⟩,
            by simp⟩
          exact fun _ => ⟨head, tail, rfl, rfl, after, moved, rfl, moves, next⟩
      | right =>
          obtain ⟨head, tail, rfl, split, inner, -, part, -⟩ := currentRight rfl
          dsimp only at part onRight
          subst part
          obtain ⟨shown, after, moved, gets, agrees, kept, moves, next⟩ :=
            rightSimulates.shows onRight demand
          rw [split]
          refine ⟨shown, ⟨leftState, some after, some .right⟩, by simp [mergeGet, gets],
            agrees, ⟨facts, head :: tail, onLeft, kept, split.symm.trans whole, by simp, ?_⟩,
            by simp⟩
          exact fun _ => ⟨head, tail, rfl, rfl, after, moved, rfl, moves, next⟩
  | none =>
      have onLeft := tryGet_partAhead leftSimulates demand onLeft
      have onRight := tryGet_partAhead rightSimulates demand onRight
      subst whole
      cases facts with
      | nil =>
          cases more with
          | nil =>
              rw [List.nil_merge]
              refine ⟨⟨none, none, none⟩, by simp [mergeGet, onLeft, onRight], ?_⟩
              exact ⟨[], [], rfl, rfl, by simp, by simp, by simp⟩
          | cons fact rest =>
              obtain ⟨shown, after, gets, agrees, kept, inner, moved, rfl, moves, next⟩ := onRight
              rw [List.nil_merge]
              refine ⟨shown, ⟨none, some inner, some .right⟩,
                by simp [mergeGet, onLeft, gets], agrees,
                ⟨[], fact :: rest, rfl, kept, by simp, by simp, ?_⟩, by simp⟩
              exact fun _ => ⟨fact, rest, rfl, by simp, inner, moved, rfl, moves, next⟩
      | cons fact rest =>
          obtain ⟨shown, after, gets, agrees, kept, inner, moved, rfl, moves, next⟩ := onLeft
          cases more with
          | nil =>
              rw [List.merge_right]
              refine ⟨shown, ⟨some inner, none, some .left⟩,
                by simp [mergeGet, onRight, gets], agrees,
                ⟨fact :: rest, [], kept, rfl, by simp, ?_, by simp⟩, by simp⟩
              exact fun _ => ⟨fact, rest, rfl, by simp, inner, moved, rfl, moves, next⟩
          | cons other tail =>
              obtain ⟨shown', after', gets', agrees', kept', inner', moved', rfl, moves',
                next'⟩ := onRight
              have suffixes : suffix prefixSize shown' < suffix prefixSize shown
                  ↔ suffix prefixSize other < suffix prefixSize fact := by
                simp only [suffix, agrees.key_eq, agrees'.key_eq]
              by_cases smaller : suffix prefixSize other < suffix prefixSize fact
              · have prefers : ¬ mergeOrder prefixSize fact other = true := by
                  simp [mergeOrder, smaller]
                rw [List.cons_merge_cons_neg _ _ _ prefers]
                refine ⟨shown', ⟨some inner, some inner', some .right⟩,
                  by simp [mergeGet, gets, gets', suffixes.mpr smaller], agrees',
                  ⟨fact :: rest, other :: tail, kept, kept',
                    (List.cons_merge_cons_neg _ _ _ prefers).symm, by simp, ?_⟩, by simp⟩
                exact fun _ => ⟨other, tail, rfl, rfl, inner', moved', rfl, moves', next'⟩
              · have prefers : mergeOrder prefixSize fact other = true := by
                  simp [mergeOrder, smaller]
                rw [List.cons_merge_cons_pos _ _ _ prefers]
                refine ⟨shown, ⟨some inner, some inner', some .left⟩,
                  by simp [mergeGet, gets, gets', not_lt.mp (mt suffixes.mp smaller)],
                  agrees,
                  ⟨fact :: rest, other :: tail, kept, kept',
                    (List.cons_merge_cons_pos _ _ _ prefers).symm, ?_, by simp⟩, by simp⟩
                exact fun _ => ⟨fact, rest, rfl, rfl, inner, moved, rfl, moves, next⟩

end Merge

/-- A merge iterator yields the merge of its parts' facts. -/
theorem MergeIterator.yields {protocol : Protocol} {left right : FactIterator}
    {facts more : List Fact} (prefixSize : Nat) (onLeft : left.Yields protocol facts)
    (onRight : right.Yields protocol more)
    : (MergeIterator left right prefixSize).Yields .anyOrder
        (facts.merge more (mergeOrder prefixSize)) := by
  obtain ⟨R, simulatesR, startR⟩ := onLeft
  obtain ⟨S, simulatesS, startS⟩ := onRight
  refine ⟨MergeAhead left right prefixSize R S, ⟨?_, ?_, ?_, ?_⟩,
    ⟨facts, more, startR, startS, rfl, by simp [MergeIterator], by simp [MergeIterator]⟩⟩
  · intro state items ahead
    obtain ⟨facts, more, onLeft, onRight, rfl, -⟩ := ahead.split
    have bound {iter : FactIterator} {T : iter.State → List Fact → Prop}
        (simulates : Cursor.Simulates Fact.ShownAs protocol iter T)
        {part : Option iter.State} {items : List Fact} (ahead : PartAhead iter T part items)
        : items.length ≤ (part.map iter.size).getD 0 := by
      cases part with
      | none =>
          obtain rfl : items = [] := ahead
          simp
      | some inner => exact simulates.bounded ahead
    rw [List.length_merge]
    exact Nat.add_le_add (bound simulatesR onLeft) (bound simulatesS onRight)
  · intro state ahead demand
    exact MergeAhead.get simulatesR simulatesS demand ahead
  · intro state item rest ahead demand
    obtain ⟨shown, after, gets, agrees, kept, looked⟩ :=
      MergeAhead.get simulatesR simulatesS demand ahead
    obtain ⟨moved, moves, next⟩ := kept.next looked
    exact ⟨shown, after, moved, gets, agrees, kept, moves, next⟩
  · intro _ state item rest ahead
    cases current : state.current with
    | some side => exact ahead.next (by simp [current])
    | none =>
        obtain ⟨shown, after, gets, -, kept, looked⟩ :=
          MergeAhead.get simulatesR simulatesS .keyOnly ahead
        obtain ⟨moved, moves, next⟩ := kept.next looked
        refine ⟨moved, ?_, next⟩
        have same : mergeNext left right prefixSize state
            = mergeNext left right prefixSize after := by
          obtain ⟨side, isSide⟩ := Option.ne_none_iff_exists'.mp looked
          simp [mergeNext, current, gets, isSide]
        exact same.trans moves

/-- A look at an iterator only changes its state: it still yields the same facts, and the
look tells whether there are any.
-/
theorem FactIterator.Yields.look {protocol : Protocol} {iter : FactIterator}
    {facts : List Fact} (yields : iter.Yields protocol facts)
    : match facts with
      | [] => ∃ after, iter.get .keyOnly iter.state = some (none, after)
      | _ :: _ => ∃ shown after, iter.get .keyOnly iter.state = some (some shown, after)
          ∧ FactIterator.Yields protocol { iter with state := after } facts := by
  obtain ⟨R, simulates, start⟩ := yields
  cases facts with
  | nil =>
      obtain ⟨after, gets, -⟩ := simulates.done start .keyOnly
      exact ⟨after, gets⟩
  | cons fact rest =>
      obtain ⟨shown, after, -, gets, -, kept, -⟩ := simulates.shows start .keyOnly
      exact ⟨shown, after, gets, R,
        ⟨simulates.bounded, simulates.done, simulates.shows, simulates.moves⟩, kept⟩

/-- `FactIterator::merge` yields the merge of both sides, also when it leaves out a side
that is exhausted from the start.
-/
theorem FactIterator.merge_yields {protocol : Protocol} {left right : FactIterator}
    {facts more : List Fact} (prefixSize : Nat) (onLeft : left.Yields protocol facts)
    (onRight : right.Yields protocol more)
    : (FactIterator.merge left right prefixSize).Yields protocol
        (facts.merge more (mergeOrder prefixSize)) := by
  have lookLeft := onLeft.look
  have lookRight := onRight.look
  cases facts with
  | nil =>
      obtain ⟨after, gets⟩ := lookLeft
      simpa [FactIterator.merge, gets] using onRight
  | cons fact rest =>
      obtain ⟨shown, after, gets, keptLeft⟩ := lookLeft
      cases more with
      | nil =>
          obtain ⟨after', gets'⟩ := lookRight
          simpa [FactIterator.merge, gets, gets'] using keptLeft
      | cons other tail =>
          obtain ⟨shown', after', gets', keptRight⟩ := lookRight
          have merged := MergeIterator.yields prefixSize keptLeft keptRight
          simp only [FactIterator.merge, gets, gets']
          cases protocol with
          | getFirst => exact merged.getFirst
          | anyOrder => exact merged

end Glean.RTS
