import Glean.RTS.Rebase
import Glean.RTS.Validate

/-! Typechecking a clause with a table of types: when its strings are read as they should be, it is
accepted exactly if it is the canonical encoding of a key and a value with the references of the table.
-/

namespace Glean.RTS.Validate

open UntrustedString (IsUtf8 ReadsRight untrustedLoop untrustedChunks intLimit)

variable {varint : Varint} {u8 : U8Next} {inventory : Inventory} {ref : Pid → Id → Prop}

/-- Unless the index overflows or the end is passed, the loop ends as it does without a limit. -/
theorem chunks_of_untrustedLoop (u8 : U8Next) (range : Bytes) (fuel k i : Nat)
    : untrustedLoop u8 range fuel k i = .undefined
      ∨ Input.chunks u8 range i fuel
        = (untrustedLoop u8 range fuel k i >>= fun result => .ok result.2) := by
  induction fuel generalizing k i with
  | zero => exact .inl rfl
  | succ fuel ih =>
      rw [UntrustedString.untrustedLoop_succ, Input.chunks_succ]
      split
      next => exact .inl rfl
      next =>
        split
        next => exact .inl rfl
        next =>
          split
          next =>
            generalize i + (u8.next (range.drop i)).2 = behind
            have escaped := ih (behind + 1) (behind + 1)
            by_cases atLimit : intLimit ≤ behind + 1
            · rcases range[behind]? with - | byte
              · exact .inr rfl
              · by_cases isEnd : byte = 0
                · exact .inl (isEnd ▸ if_pos atLimit)
                · by_cases isEscape : byte = 1
                  · exact .inl (isEscape ▸ if_pos atLimit)
                  · exact .inr (by split <;> simp_all)
            · simp only [if_neg atLimit]
              rcases range[behind]? with - | byte
              · exact .inr rfl
              · by_cases isEnd : byte = 0
                · subst isEnd
                  exact .inr rfl
                · by_cases isEscape : byte = 1
                  · subst isEscape
                    rcases escaped with isUndefined | later
                    · exact .inl (congrArg (Outcome.bind · _) isUndefined)
                    · exact .inr (later.trans (Outcome.bind_assoc
                        (untrustedLoop u8 range fuel (behind + 1) (behind + 1))
                        (fun later => .ok ((range.drop k).take (behind - k) ++ later.1, later.2))
                        (fun result => .ok result.2)).symm)
                  · exact .inr (by split <;> simp_all)
          next => exact ih k _

theorem validate_of_untrusted (u8 : U8Next) (range : Bytes)
    : UntrustedString.validateUntrustedString u8 range = .undefined
      ∨ Input.validateUntrustedString u8 range
        = UntrustedString.validateUntrustedString u8 range := by
  unfold UntrustedString.validateUntrustedString untrustedChunks Input.validateUntrustedString
  dsimp only
  split
  next => exact .inl rfl
  next =>
    split
    next isEnd =>
      split
      next => exact .inl rfl
      next => exact .inr (if_pos isEnd)
    next notEnd =>
      rcases chunks_of_untrustedLoop u8 range (range.length + 1) 0
        ((range.takeWhile (fun byte => Input.IsText byte)).length) with isUndefined | same
      · exact .inl (by rw [isUndefined]; rfl)
      · right
        refine (if_neg notEnd).trans ?_
        exact same

/-- Ranges that are read as they should be are accepted if they start with a mangled text. -/
theorem validate_of_readsRight (utf8 : u8.ReadsUtf8) {range : Bytes} (right : ReadsRight u8 range)
    : Input.validateUntrustedString u8 range ≠ .undefined
      ∧ ∀ size, Input.validateUntrustedString u8 range = .ok size
        ↔ ∃ text, IsUtf8 text ∧ mangleString text <+: range
          ∧ size = (mangleString text).length := by
  have reads := UntrustedString.reads_of_readsRight u8 utf8 range right
  rcases validate_of_untrusted u8 range with isUndefined | same
  · exact (reads.inside.1 isUndefined).elim
  · rw [same]
    exact ⟨reads.inside.1, reads.validates⟩

mutual

/-- The strings of a value that has been read are texts. -/
theorem ofType_of_reads (utf8 : u8.ReadsUtf8)
    : (value : Value) → {rep : Rep} → {input rest : Bytes} → Reads varint u8 rep input value rest →
        HasType u8 ref rep value →
        (∀ range, StringAt varint u8 ref rep input range → ReadsRight u8 range) →
        OfType ref rep value
  | .byte _, _, _, _, .byte, .byte, _ => .byte
  | .nat _, _, _, _, .nat _, .nat small, _ => .nat small
  | .string _, _, input, _, .string accepted, .string _, right => by
      obtain ⟨text, isText, ⟨behind, rfl⟩, rfl⟩ :=
        ((validate_of_readsRight utf8 (right input .string)).2 _).mp accepted
      rw [List.take_left]
      exact .string isText
  | .array elements, _, _, _, .array decoded reads, .array small all, right =>
      .array small (allOfType_of_reads utf8 elements reads all
        (fun range inside => right range (.array decoded inside)))
  | .tuple fields, _, _, _, .tuple reads, .tuple all, right =>
      .tuple (allOfType_of_reads utf8 fields reads all
        (fun range inside => right range (.tuple inside)))
  | .alt _ value, _, _, _, .alt decoded isField reads, .alt small isSame inside, right => by
      obtain rfl := Option.some.inj (isField.symm.trans isSame)
      exact .alt small isField (ofType_of_reads utf8 value reads inside
        (fun range inside => right range (.alt decoded isField inside)))
  | .ref _, _, _, _, .ref _, .ref small isRef, _ => .ref small isRef

theorem allOfType_of_reads (utf8 : u8.ReadsUtf8)
    : (values : List Value) → {reps : List Rep} → {input rest : Bytes} →
        ReadsAll varint u8 reps input values rest → HasTypes u8 ref reps values →
        (∀ range, StringAtAny varint u8 ref reps input range → ReadsRight u8 range) →
        AllOfType ref reps values
  | [], _, _, _, .nil, .nil, _ => .nil
  | value :: values, _, _, _, .cons reads readsOthers, .cons first others, right =>
      .cons
        (ofType_of_reads utf8 value reads first (fun range inside => right range (.first inside)))
        (allOfType_of_reads utf8 values readsOthers others
          (fun range inside => right range (.later reads first inside)))

end

mutual

/-- The encoding of a value with texts as strings is read as the value. -/
theorem reads_of_ofType (utf8 : u8.ReadsUtf8)
    : (value : Value) → {rep : Rep} → {rest : Bytes} → OfType ref rep value →
        (∀ range, StringAt varint u8 ref rep (encodeValue varint value ++ rest) range →
          ReadsRight u8 range) →
        Reads varint u8 rep (encodeValue varint value ++ rest) value rest
          ∧ HasType u8 ref rep value
  | .byte _, _, _, .byte, _ => ⟨.byte, .byte⟩
  | .nat _, _, _, .nat small, _ => ⟨.nat (varint.decode_encode _ small), .nat small⟩
  | .string _, _, rest, @OfType.string _ text isText, right => by
      have accepted := ((validate_of_readsRight utf8 (right _ .string)).2 _).mpr
        ⟨text, isText, List.prefix_append _ rest, rfl⟩
      have reads : Reads varint u8 .string (mangleString text ++ rest)
          (.string ((mangleString text ++ rest).take (mangleString text).length))
          ((mangleString text ++ rest).drop (mangleString text).length) := .string accepted
      rw [List.take_left, List.drop_left] at reads
      exact ⟨reads, .string accepted⟩
  | .array elements, _, rest, .array small all, right => by
      have decoded := varint.decode_encode (encodeValues varint elements ++ rest) small
      obtain ⟨reads, typed⟩ := readsAll_of_allOfType utf8 elements all (fun range inside =>
        right range (by
          rw [encodeValue, List.append_assoc]
          exact .array decoded inside))
      rw [encodeValue, List.append_assoc]
      exact ⟨.array decoded reads, .array small typed⟩
  | .tuple fields, _, _, .tuple all, right => by
      obtain ⟨reads, typed⟩ := readsAll_of_allOfType utf8 fields all
        (fun range inside => right range (.tuple inside))
      exact ⟨.tuple reads, .tuple typed⟩
  | .alt selector value, _, rest, .alt small isField inside, right => by
      have decoded := varint.decode_encode (encodeValue varint value ++ rest) small
      obtain ⟨reads, typed⟩ := reads_of_ofType utf8 value inside (fun range within =>
        right range (by
          rw [encodeValue, List.append_assoc]
          exact .alt decoded isField within))
      rw [encodeValue, List.append_assoc]
      exact ⟨.alt decoded isField reads, .alt small isField typed⟩
  | .ref _, _, _, .ref small isRef, _ =>
      ⟨.ref (varint.decode_encode _ small), .ref small isRef⟩

theorem readsAll_of_allOfType (utf8 : u8.ReadsUtf8)
    : (values : List Value) → {reps : List Rep} → {rest : Bytes} → AllOfType ref reps values →
        (∀ range, StringAtAny varint u8 ref reps (encodeValues varint values ++ rest) range →
          ReadsRight u8 range) →
        ReadsAll varint u8 reps (encodeValues varint values ++ rest) values rest
          ∧ HasTypes u8 ref reps values
  | [], _, _, .nil, _ => ⟨.nil, .nil⟩
  | value :: values, _, rest, .cons first others, right => by
      rw [encodeValues, List.append_assoc] at right ⊢
      obtain ⟨reads, typed⟩ := reads_of_ofType utf8 value first
        (fun range inside => right range (.first inside))
      obtain ⟨readsOthers, typedOthers⟩ := readsAll_of_allOfType utf8 values others
        (fun range inside => right range (.later reads typed inside))
      exact ⟨.cons reads readsOthers, .cons typed typedOthers⟩

end

/-- A renamer gives back the ids that have a property, and refuses the others. -/
def ChecksRefs (rename : Nat → Nat → Id → Outcome (Nat × Id)) (ref : Pid → Id → Prop) : Prop :=
  ∀ id pid state, pid ≠ Pid.invalid → id < 2 ^ 64 →
    (rename id pid state = .ok (id, state) ∧ ref pid id)
      ∨ (∃ message, rename id pid state = .error message) ∧ ¬ ref pid id

section Renamer

variable {rename : Nat → Nat → Id → Outcome (Nat × Id)}

mutual

/-- A value is given back if its references are right. -/
theorem ChecksRefs.renames (checks : ChecksRefs rename ref)
    : (value : Value) → {rep : Rep} → (state : Id) → rep.Refers (· ≠ Pid.invalid) →
        HasType u8 ref rep value → Renames rename rep value state value state
  | .byte _, _, _, _, .byte => .byte
  | .nat _, _, _, _, .nat _ => .nat
  | .string _, _, _, _, .string _ => .string
  | .array elements, _, state, refers, .array _ all =>
      .array (checks.renamesAll elements state (refersAll_replicate refers _) all)
  | .tuple fields, _, state, refers, .tuple all => .tuple (checks.renamesAll fields state refers all)
  | .alt _ value, _, state, refers, .alt _ isField inside =>
      .alt isField (checks.renames value state (refersAll_getElem refers isField) inside)
  | .ref id, _, state, refers, .ref small isRef => by
      rcases checks id _ state refers small with ⟨isSame, -⟩ | ⟨-, notRef⟩
      · exact .ref isSame
      · exact (notRef isRef).elim

theorem ChecksRefs.renamesAll (checks : ChecksRefs rename ref)
    : (values : List Value) → {reps : List Rep} → (state : Id) → RefersAll (· ≠ Pid.invalid) reps →
        HasTypes u8 ref reps values → RenamesAll rename reps values state values state
  | [], _, _, _, .nil => .nil
  | value :: values, _, state, refers, .cons first others =>
      .cons (checks.renames value state refers.1 first)
        (checks.renamesAll values state refers.2 others)

end

mutual

/-- What has been read and renamed is the same value, with references that are right. -/
theorem ChecksRefs.hasType (checks : ChecksRefs rename ref)
    : (value : Value) → {rep : Rep} → {input rest : Bytes} → {renamed : Value} →
        {state after : Id} → rep.Refers (· ≠ Pid.invalid) → Reads varint u8 rep input value rest →
        Renames rename rep value state renamed after →
        renamed = value ∧ after = state ∧ HasType u8 ref rep value
  | .byte _, _, _, _, _, _, _, _, .byte, .byte => ⟨rfl, rfl, .byte⟩
  | .nat _, _, _, _, _, _, _, _, .nat decoded, .nat =>
      ⟨rfl, rfl, .nat (varint.decode_prefix decoded).1⟩
  | .string _, _, _, _, _, _, _, _, .string accepted, .string => ⟨rfl, rfl, hasType_string accepted⟩
  | .array elements, _, _, _, _, _, _, refers, .array decoded readsAll, .array renamesAll => by
      obtain ⟨rfl, rfl, all⟩ :=
        checks.hasTypes elements (refersAll_replicate refers _) readsAll renamesAll
      exact ⟨rfl, rfl, .array (varint.decode_prefix decoded).1 all⟩
  | .tuple fields, _, _, _, _, _, _, refers, .tuple readsAll, .tuple renamesAll => by
      obtain ⟨rfl, rfl, all⟩ := checks.hasTypes fields refers readsAll renamesAll
      exact ⟨rfl, rfl, .tuple all⟩
  | .alt _ value, _, _, _, _, _, _, refers, .alt decoded isField reads, .alt isSame renames => by
      obtain rfl := Option.some.inj (isField.symm.trans isSame)
      obtain ⟨rfl, rfl, inside⟩ :=
        checks.hasType value (refersAll_getElem refers isField) reads renames
      exact ⟨rfl, rfl, .alt (varint.decode_prefix decoded).1 isField inside⟩
  | .ref id, _, _, _, _, state, _, refers, .ref decoded, .ref isRenamed => by
      have small := (varint.decode_prefix decoded).1
      rcases checks id _ state refers small with ⟨isSame, isRef⟩ | ⟨⟨message, isError⟩, -⟩
      · rw [isSame] at isRenamed
        cases isRenamed
        exact ⟨rfl, rfl, .ref small isRef⟩
      · rw [isError] at isRenamed
        cases isRenamed

theorem ChecksRefs.hasTypes (checks : ChecksRefs rename ref)
    : (values : List Value) → {reps : List Rep} → {input rest : Bytes} → {renamed : List Value} →
        {state after : Id} → RefersAll (· ≠ Pid.invalid) reps →
        ReadsAll varint u8 reps input values rest →
        RenamesAll rename reps values state renamed after →
        renamed = values ∧ after = state ∧ HasTypes u8 ref reps values
  | [], _, _, _, _, _, _, _, .nil, .nil => ⟨rfl, rfl, .nil⟩
  | value :: values, _, _, _, _, _, _, refers, .cons reads readsOthers,
      .cons renames renamesOthers => by
      obtain ⟨rfl, rfl, first⟩ := checks.hasType value refers.1 reads renames
      obtain ⟨rfl, rfl, others⟩ := checks.hasTypes values refers.2 readsOthers renamesOthers
      exact ⟨rfl, rfl, .cons first others⟩

end

theorem Outcome.bind_ne_undefined {α β : Type} {outcome : Outcome α} {next : α → Outcome β}
    (defined : outcome ≠ .undefined) (continues : ∀ result, outcome = .ok result →
      next result ≠ .undefined)
    : (outcome >>= next) ≠ .undefined := by
  cases outcome with
  | ok result => exact continues result rfl
  | error message => rintro ⟨⟩
  | undefined => exact (defined rfl).elim

theorem packed_ne_undefined (input : Bytes) : Input.packed varint input ≠ .undefined := by
  rw [Input.packed]
  split
  next => rintro ⟨⟩
  next => rintro ⟨⟩

theorem bytes_ne_undefined (input : Bytes) (size : Nat) : Input.bytes input size ≠ .undefined := by
  rw [Input.bytes]
  split
  next => rintro ⟨⟩
  next => rintro ⟨⟩

theorem checkEnum_ne_undefined (arity : Nat) (input : Bytes) (state : Id)
    : checkEnum varint arity input state ≠ .undefined := by
  refine Outcome.bind_ne_undefined (packed_ne_undefined input) (fun result _ => ?_)
  dsimp only
  split
  next => rintro ⟨⟩
  next => rintro ⟨⟩

/-- A check has an outcome on input whose strings are read as they should be. -/
def Defined (varint : Varint) (u8 : U8Next) (ref : Pid → Id → Prop)
    (check : Bytes → Id → Outcome (Checked Id)) (rep : Rep) : Prop :=
  ∀ input state, (∀ range, StringAt varint u8 ref rep input range → ReadsRight u8 range) →
    check input state ≠ .undefined

def AllDefined (varint : Varint) (u8 : U8Next) (ref : Pid → Id → Prop)
    (check : Bytes → Id → Outcome (Checked Id)) (reps : List Rep) : Prop :=
  ∀ input state, (∀ range, StringAtAny varint u8 ref reps input range → ReadsRight u8 range) →
    check input state ≠ .undefined

/-- Two checks, one after the other: the second one starts behind a value that has been read. -/
theorem allDefined_cons (checks : ChecksRefs rename ref)
    {first others : Bytes → Id → Outcome (Checked Id)} {rep : Rep} {reps : List Rep}
    (refers : rep.Refers (· ≠ Pid.invalid)) (accepts : Accepts varint u8 rename first rep)
    (isFirst : Defined varint u8 ref first rep) (areOthers : AllDefined varint u8 ref others reps)
    : AllDefined varint u8 ref
        (fun input state => first input state >>= fun checked =>
          others checked.rest checked.state >>= fun more =>
            .ok { more with output := checked.output ++ more.output })
        (rep :: reps) := by
  intro input state right
  refine Outcome.bind_ne_undefined
    (isFirst input state (fun range inside => right range (.first inside))) ?_
  intro checked isChecked
  obtain ⟨value, renamed, reads, renames, -⟩ := (accepts input state checked).mp isChecked
  have typed := (checks.hasType value refers reads renames).2.2
  refine Outcome.bind_ne_undefined (areOthers _ _
    (fun range inside => right range (.later reads typed inside))) ?_
  rintro more - ⟨⟩

theorem allDefined_checkTimes (checks : ChecksRefs rename ref)
    {once : Bytes → Id → Outcome (Checked Id)} {rep : Rep} (refers : rep.Refers (· ≠ Pid.invalid))
    (accepts : Accepts varint u8 rename once rep) (isOnce : Defined varint u8 ref once rep)
    : (count : Nat) → AllDefined varint u8 ref (checkTimes once count) (List.replicate count rep)
  | 0 => by rintro input state - ⟨⟩
  | count + 1 =>
      allDefined_cons checks refers accepts isOnce
        (allDefined_checkTimes checks refers accepts isOnce count)

mutual

/-- Checking a value of a type has an outcome, by the cases of the type. -/
theorem defined_checkTy (utf8 : u8.ReadsUtf8) (checks : ChecksRefs rename ref)
    : (ty : Ty) → ty.repType.Refers (· ≠ Pid.invalid) →
        Defined varint u8 ref (checkTy varint u8 rename ty) ty.repType
  | .byte, _ => by
      intro input state _
      refine Outcome.bind_ne_undefined (bytes_ne_undefined input 1) ?_
      rintro rest - ⟨⟩
  | .nat, _ => by
      intro input state _
      refine Outcome.bind_ne_undefined (packed_ne_undefined input) ?_
      rintro rest - ⟨⟩
  | .string, _ => by
      intro input state right
      have defined := (validate_of_readsRight utf8 (right input .string)).1
      refine Outcome.bind_ne_undefined (Outcome.bind_ne_undefined defined ?_) ?_
      · rintro size - ⟨⟩
      · rintro rest - ⟨⟩
  | .array element, refers => by
      intro input state right
      have elementRefers : element.repType.Refers (· ≠ Pid.invalid) := refers
      by_cases isByte : element.derefType = .byte
      · rw [checkTy_array_byte isByte]
        refine Outcome.bind_ne_undefined (packed_ne_undefined input) (fun result _ => ?_)
        refine Outcome.bind_ne_undefined
          (Outcome.bind_ne_undefined (bytes_ne_undefined result.2 result.1) ?_) ?_
        · rintro after - ⟨⟩
        · rintro checked - ⟨⟩
      · rw [checkTy_array_loop isByte]
        refine Outcome.bind_ne_undefined (packed_ne_undefined input) (fun result decoded => ?_)
        have decoded := Input.packed_eq_ok.mp decoded
        refine Outcome.bind_ne_undefined (allDefined_checkTimes checks elementRefers
          (accepts_checkTy element) (defined_checkTy utf8 checks element elementRefers) result.1 _ _
          (fun range inside => right range (.array decoded inside))) ?_
        rintro checked - ⟨⟩
  | .record fields, refers => by
      intro input state right
      exact allDefined_checkFields utf8 checks fields refers input state
        (fun range inside => right range (.tuple inside))
  | .sum fields, refers => by
      intro input state right
      rw [checkTy_sum]
      refine Outcome.bind_ne_undefined (packed_ne_undefined input) (fun result decoded => ?_)
      have decoded := Input.packed_eq_ok.mp decoded
      refine Outcome.bind_ne_undefined (defined_checkAlt utf8 checks fields refers result.1 result.2
        state (fun field isField range inside => right range (.alt decoded isField inside))) ?_
      rintro checked - ⟨⟩
  | .predicate pid, refers => by
      intro input state _
      refine Outcome.bind_ne_undefined (packed_ne_undefined input) (fun result decoded => ?_)
      have small := (varint.decode_prefix (Input.packed_eq_ok.mp decoded)).1
      refine Outcome.bind_ne_undefined ?_ ?_
      · rcases checks result.1 pid state refers small with ⟨isSame, -⟩ | ⟨⟨message, isError⟩, -⟩
        · rw [isSame]
          rintro ⟨⟩
        · rw [isError]
          rintro ⟨⟩
      · rintro renamed - ⟨⟩
  | .namedType ty, refers => defined_checkTy utf8 checks ty refers
  | .maybe ty, refers => by
      intro input state right
      refine Outcome.bind_ne_undefined (packed_ne_undefined input) (fun result decoded => ?_)
      obtain ⟨selector, rest⟩ := result
      have decoded := Input.packed_eq_ok.mp decoded
      dsimp only
      split
      next => rintro ⟨⟩
      next =>
        refine Outcome.bind_ne_undefined (defined_checkTy utf8 checks ty refers.2.1 _ _
          (fun range inside => right range (.alt decoded rfl inside))) ?_
        rintro checked - ⟨⟩
      next => rintro ⟨⟩
  | .enumerated names, _ => fun input state _ => checkEnum_ne_undefined names.length input state
  | .boolean, _ => fun input state _ => checkEnum_ne_undefined 2 input state

theorem allDefined_checkFields (utf8 : u8.ReadsUtf8) (checks : ChecksRefs rename ref)
    : (fields : List Ty) → RefersAll (· ≠ Pid.invalid) (repTypes fields) →
        AllDefined varint u8 ref (checkFields varint u8 rename fields) (repTypes fields)
  | [], _ => by rintro input state - ⟨⟩
  | field :: fields, refers =>
      allDefined_cons checks refers.1 (accepts_checkTy field)
        (defined_checkTy utf8 checks field refers.1)
        (allDefined_checkFields utf8 checks fields refers.2)

theorem defined_checkAlt (utf8 : u8.ReadsUtf8) (checks : ChecksRefs rename ref)
    : (fields : List Ty) → RefersAll (· ≠ Pid.invalid) (repTypes fields) →
        (selector : Nat) → (input : Bytes) → (state : Id) →
        (∀ field, (repTypes fields)[selector]? = some field →
          ∀ range, StringAt varint u8 ref field input range → ReadsRight u8 range) →
        checkAlt varint u8 rename fields selector input state ≠ .undefined
  | [], _, _, _, _, _ => by rintro ⟨⟩
  | field :: _, refers, 0, input, state, right =>
      defined_checkTy utf8 checks field refers.1 input state (right _ rfl)
  | _ :: fields, refers, selector + 1, input, state, right =>
      defined_checkAlt utf8 checks fields refers.2 selector input state right

end

theorem checkClause_ne_undefined (utf8 : u8.ReadsUtf8) (checks : ChecksRefs rename ref)
    {predicate : Predicate} (keyRefers : predicate.keyTy.repType.Refers (· ≠ Pid.invalid))
    (valueRefers : predicate.valTy.repType.Refers (· ≠ Pid.invalid)) {clause : Clause}
    (right : ClauseReadsRight varint u8 ref predicate clause) (state : Id)
    : checkClause varint u8 rename predicate.keyTy predicate.valTy clause state ≠ .undefined := by
  refine Outcome.bind_ne_undefined
    (defined_checkTy utf8 checks predicate.keyTy keyRefers _ _ right.1) (fun checked isChecked => ?_)
  split
  next => rintro ⟨⟩
  next atEnd =>
    obtain ⟨key, renamed, reads, renames, -⟩ :=
      (accepts_checkTy predicate.keyTy _ _ _).mp isChecked
    have typed := (checks.hasType key keyRefers reads renames).2.2
    rw [not_not.mp atEnd] at reads
    refine Outcome.bind_ne_undefined (defined_checkTy utf8 checks predicate.valTy valueRefers _ _
      (right.2 key reads typed)) (fun value _ => ?_)
    split
    next => rintro ⟨⟩
    next => rintro ⟨⟩

/-- A clause is given back if and only if it is canonical, with references that are right. -/
theorem checkClause_gives_back (utf8 : u8.ReadsUtf8) (checks : ChecksRefs rename ref)
    {predicate : Predicate} (keyRefers : predicate.keyTy.repType.Refers (· ≠ Pid.invalid))
    (valueRefers : predicate.valTy.repType.Refers (· ≠ Pid.invalid)) {clause : Clause}
    (right : ClauseReadsRight varint u8 ref predicate clause) (state after : Id)
    : checkClause varint u8 rename predicate.keyTy predicate.valTy clause state
          = .ok ⟨clause.bytes, clause.key.length, after⟩
      ↔ after = state ∧ ∃ key value, OfType ref predicate.keyTy.repType key
          ∧ OfType ref predicate.valTy.repType value
          ∧ clause = ⟨encodeValue varint key, encodeValue varint value⟩ := by
  obtain ⟨keyBytes, valueBytes⟩ := clause
  rw [checkClause_eq_ok]
  constructor
  · rintro ⟨key, value, renamedKey, renamedValue, between, readsKey, readsValue, renamesKey,
      renamesValue, output, keySize⟩
    obtain ⟨rfl, rfl, keyType⟩ := checks.hasType key keyRefers readsKey renamesKey
    obtain ⟨rfl, rfl, valueType⟩ := checks.hasType value valueRefers readsValue renamesValue
    obtain ⟨isKey, isValue⟩ := List.append_inj output keySize
    refine ⟨rfl, renamedKey, renamedValue, ofType_of_reads utf8 _ readsKey keyType right.1,
      ofType_of_reads utf8 _ readsValue valueType (right.2 _ readsKey keyType), ?_⟩
    rw [← isKey, ← isValue]
  · rintro ⟨rfl, key, value, keyType, valueType, isClause⟩
    obtain ⟨rfl, rfl⟩ := Clause.mk.inj isClause
    have rightKey : ∀ range, StringAt varint u8 ref predicate.keyTy.repType
        (encodeValue varint key ++ []) range → ReadsRight u8 range := by
      rw [List.append_nil]
      exact right.1
    have readsKey := reads_of_ofType utf8 key keyType rightKey
    rw [List.append_nil] at readsKey
    have rightValue : ∀ range, StringAt varint u8 ref predicate.valTy.repType
        (encodeValue varint value ++ []) range → ReadsRight u8 range := by
      rw [List.append_nil]
      exact right.2 key readsKey.1 readsKey.2
    have readsValue := reads_of_ofType utf8 value valueType rightValue
    rw [List.append_nil] at readsValue
    exact ⟨key, value, key, value, after, readsKey.1, readsValue.1,
      checks.renames key after keyRefers readsKey.2,
      checks.renames value after valueRefers readsValue.2, rfl, rfl⟩

end Renamer

end Glean.RTS.Validate
