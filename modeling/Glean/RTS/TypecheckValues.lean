import Glean.RTS.CheckSignature
import Glean.RTS.Varint

/-! What the typechecker accepts: the encodings of values of a type.
-/

namespace Glean.RTS

variable {σ : Type} {varint : Varint} {u8 : U8Next}
  {rename : Nat → Nat → σ → Outcome (Nat × σ)}

namespace Input

theorem packed_eq_ok {input : Bytes} {result : Nat × Bytes}
    : packed varint input = .ok result ↔ varint.tryDecodeVarint input = some result := by
  rw [packed]
  cases varint.tryDecodeVarint input <;> simp

theorem bytes_eq_ok {input rest : Bytes} {size : Nat}
    : bytes input size = .ok rest ↔ ∃ skipped, skipped.length = size ∧ input = skipped ++ rest := by
  rw [bytes]
  constructor
  · intro skipped
    split at skipped
    next => cases skipped
    next long =>
      cases skipped
      exact ⟨input.take size, by simp; omega, (List.take_append_drop size input).symm⟩
  · rintro ⟨skipped, rfl, rfl⟩
    rw [if_neg (by simp), List.drop_left]

theorem skipUntrustedString_eq_ok {input rest : Bytes}
    : skipUntrustedString u8 input = .ok rest
      ↔ ∃ size, validateUntrustedString u8 input = .ok size ∧ rest = input.drop size := by
  rw [skipUntrustedString, Outcome.bind_eq_ok]
  simp only [Outcome.pure_eq, Outcome.ok.injEq, eq_comm]

end Input

/-- A check accepts the encodings of values of a type and gives the encoding of the renamed
value.
-/
def Accepts (varint : Varint) (u8 : U8Next) (rename : Nat → Nat → σ → Outcome (Nat × σ))
    (check : Bytes → σ → Outcome (Checked σ)) (rep : Rep) : Prop :=
  ∀ (input : Bytes) (state : σ) (checked : Checked σ), check input state = .ok checked ↔
    ∃ value renamed, Reads varint u8 rep input value checked.rest
      ∧ Renames rename rep value state renamed checked.state
      ∧ checked.output = encodeValue varint renamed

/-- A check accepts the encodings of several values. -/
def AcceptsAll (varint : Varint) (u8 : U8Next) (rename : Nat → Nat → σ → Outcome (Nat × σ))
    (check : Bytes → σ → Outcome (Checked σ)) (reps : List Rep) : Prop :=
  ∀ (input : Bytes) (state : σ) (checked : Checked σ), check input state = .ok checked ↔
    ∃ values renamed, ReadsAll varint u8 reps input values checked.rest
      ∧ RenamesAll rename reps values state renamed checked.state
      ∧ checked.output = encodeValues varint renamed

theorem copied_output {skipped rest : Bytes} (state : σ)
    : copied (skipped ++ rest) rest state = ⟨rest, skipped, state⟩ := by
  simp [copied]

theorem accepts_byte : Accepts varint u8 rename (checkTy varint u8 rename .byte) .byte := by
  intro input state checked
  rw [checkTy, Outcome.bind_eq_ok]
  constructor
  · rintro ⟨rest, skips, isChecked⟩
    obtain ⟨skipped, isSingle, rfl⟩ := Input.bytes_eq_ok.mp skips
    obtain ⟨byte, rfl⟩ := List.length_eq_one_iff.mp isSingle
    rw [Outcome.pure_eq, copied_output] at isChecked
    cases isChecked
    exact ⟨.byte byte, .byte byte, .byte, .byte, by rw [encodeValue]⟩
  · obtain ⟨rest, output, after⟩ := checked
    rintro ⟨value, renamed, reads, renames, isOutput⟩
    cases reads with
    | @byte byte =>
        cases renames
        rw [encodeValue] at isOutput
        refine ⟨rest, Input.bytes_eq_ok.mpr ⟨[byte], rfl, rfl⟩, ?_⟩
        rw [Outcome.pure_eq, ← List.singleton_append, copied_output]
        exact congrArg Outcome.ok (by rw [← isOutput])

theorem accepts_nat : Accepts varint u8 rename (checkTy varint u8 rename .nat) .nat := by
  intro input state checked
  rw [checkTy, Outcome.bind_eq_ok]
  constructor
  · rintro ⟨⟨number, rest⟩, decoded, isChecked⟩
    cases isChecked
    exact ⟨.nat number, .nat number, .nat (Input.packed_eq_ok.mp decoded), .nat, by rw [encodeValue]⟩
  · obtain ⟨rest, output, after⟩ := checked
    rintro ⟨value, renamed, reads, renames, isOutput⟩
    cases reads with
    | @nat _ _ number decoded =>
        cases renames
        rw [encodeValue] at isOutput
        exact ⟨(number, rest), Input.packed_eq_ok.mpr decoded, congrArg Outcome.ok (by rw [← isOutput])⟩

theorem accepts_string
    : Accepts varint u8 rename (checkTy varint u8 rename .string) .string := by
  intro input state checked
  have isCopied {size : Nat} (accepted : Input.validateUntrustedString u8 input = .ok size)
      : copied input (input.drop size) state = ⟨input.drop size, input.take size, state⟩ := by
    have inside := Input.le_of_validateUntrustedString_eq_ok accepted
    rw [copied, List.length_drop]
    congr 2
    omega
  rw [checkTy, Outcome.bind_eq_ok]
  constructor
  · rintro ⟨rest, skips, isChecked⟩
    obtain ⟨size, accepted, rfl⟩ := Input.skipUntrustedString_eq_ok.mp skips
    rw [Outcome.pure_eq, isCopied accepted] at isChecked
    cases isChecked
    exact ⟨.string (input.take size), .string (input.take size), .string accepted, .string,
      by rw [encodeValue]⟩
  · obtain ⟨rest, output, after⟩ := checked
    rintro ⟨value, renamed, reads, renames, isOutput⟩
    cases reads with
    | @string _ size accepted =>
        cases renames
        rw [encodeValue] at isOutput
        refine ⟨_, Input.skipUntrustedString_eq_ok.mpr ⟨size, accepted, rfl⟩, ?_⟩
        rw [Outcome.pure_eq, isCopied accepted]
        exact congrArg Outcome.ok (by rw [← isOutput])

theorem accepts_predicate (pid : Pid)
    : Accepts varint u8 rename (checkTy varint u8 rename (.predicate pid)) (.predicate pid) := by
  intro input state checked
  rw [checkTy, Outcome.bind_eq_ok]
  constructor
  · rintro ⟨⟨id, rest⟩, decoded, renames⟩
    obtain ⟨⟨renamed, after⟩, isRenamed, isChecked⟩ := Outcome.bind_eq_ok.mp renames
    cases isChecked
    exact ⟨.ref id, .ref renamed, .ref (Input.packed_eq_ok.mp decoded), .ref isRenamed,
      by rw [encodeValue]⟩
  · obtain ⟨rest, output, after⟩ := checked
    rintro ⟨value, renamed, reads, renames, isOutput⟩
    cases reads with
    | @ref _ _ _ id decoded =>
        cases renames with
        | @ref _ _ renamed _ _ isRenamed =>
            rw [encodeValue] at isOutput
            refine ⟨(id, rest), Input.packed_eq_ok.mpr decoded, ?_⟩
            refine Outcome.bind_eq_ok.mpr ⟨(renamed, after), isRenamed, ?_⟩
            exact congrArg Outcome.ok (by rw [← isOutput])

theorem acceptsAll_nil
    : AcceptsAll varint u8 rename (fun input state => .ok ⟨input, [], state⟩) [] := by
  intro input state checked
  constructor
  · intro isChecked
    cases isChecked
    exact ⟨[], [], .nil, .nil, by rw [encodeValues]⟩
  · obtain ⟨rest, output, after⟩ := checked
    rintro ⟨values, renamed, reads, renames, isOutput⟩
    cases reads
    cases renames
    rw [encodeValues] at isOutput
    exact congrArg Outcome.ok (by rw [← isOutput])

theorem acceptsAll_cons {first others : Bytes → σ → Outcome (Checked σ)} {rep : Rep}
    {reps : List Rep} (acceptsFirst : Accepts varint u8 rename first rep)
    (acceptsOthers : AcceptsAll varint u8 rename others reps)
    : AcceptsAll varint u8 rename
        (fun input state => do
          let left ← first input state
          let right ← others left.rest left.state
          return { right with output := left.output ++ right.output })
        (rep :: reps) := by
  intro input state checked
  constructor
  · intro isChecked
    obtain ⟨left, isLeft, rest⟩ := Outcome.bind_eq_ok.mp isChecked
    obtain ⟨right, isRight, isResult⟩ := Outcome.bind_eq_ok.mp rest
    obtain ⟨value, renamed, reads, renames, isOutput⟩ := (acceptsFirst _ _ _).mp isLeft
    obtain ⟨values, others, readsAll, renamesAll, isOutputs⟩ := (acceptsOthers _ _ _).mp isRight
    cases isResult
    exact ⟨value :: values, renamed :: others, .cons reads readsAll, .cons renames renamesAll,
      by rw [encodeValues, isOutput, isOutputs]⟩
  · obtain ⟨rest, output, after⟩ := checked
    rintro ⟨values, renamed, readsAll, renamesAll, isOutput⟩
    cases readsAll with
    | @cons _ _ _ middle _ value values reads readsOthers =>
        cases renamesAll with
        | @cons _ _ _ renamed _ others _ between _ renames renamesOthers =>
            have isLeft := (acceptsFirst input state ⟨middle, encodeValue varint renamed, between⟩).mpr
              ⟨value, renamed, reads, renames, rfl⟩
            have isRight := (acceptsOthers middle between ⟨rest, encodeValues varint others, after⟩).mpr
              ⟨values, others, readsOthers, renamesOthers, rfl⟩
            rw [encodeValues] at isOutput
            refine Outcome.bind_eq_ok.mpr ⟨_, isLeft, Outcome.bind_eq_ok.mpr ⟨_, isRight, ?_⟩⟩
            exact congrArg Outcome.ok (by rw [← isOutput])

theorem acceptsAll_checkTimes {once : Bytes → σ → Outcome (Checked σ)} {rep : Rep}
    (accepts : Accepts varint u8 rename once rep) (times : Nat)
    : AcceptsAll varint u8 rename (checkTimes once times) (List.replicate times rep) := by
  induction times with
  | zero => exact acceptsAll_nil
  | succ times ih =>
      rw [List.replicate_succ]
      exact acceptsAll_cons accepts ih

theorem renamesAll_length {reps : List Rep} {values renamed : List Value} {state after : σ}
    (renames : RenamesAll rename reps values state renamed after)
    : values.length = reps.length ∧ renamed.length = reps.length := by
  induction reps generalizing values renamed state with
  | nil =>
      cases renames
      exact ⟨rfl, rfl⟩
  | cons rep reps ih =>
      cases renames with
      | cons _ others => simp [ih others]

/-- A number of elements and the elements. -/
theorem accepts_array {elements : Nat → Bytes → σ → Outcome (Checked σ)} {rep : Rep}
    (accepts : ∀ size, AcceptsAll varint u8 rename (elements size) (List.replicate size rep))
    : Accepts varint u8 rename
        (fun input state => Input.packed varint input >>= fun result =>
          elements result.1 result.2 state >>= fun checked =>
            .ok (checked.afterNat varint result.1))
        (.array rep) := by
  intro input state checked
  constructor
  · intro isChecked
    obtain ⟨⟨size, rest⟩, decoded, more⟩ := Outcome.bind_eq_ok.mp isChecked
    obtain ⟨inner, isInner, isResult⟩ := Outcome.bind_eq_ok.mp more
    obtain ⟨values, renamed, reads, renames, isOutput⟩ := (accepts size _ _ _).mp isInner
    obtain ⟨length, renamedLength⟩ := renamesAll_length renames
    rw [List.length_replicate] at length renamedLength
    cases isResult
    rw [← length] at reads renames decoded
    refine ⟨.array values, .array renamed, .array (Input.packed_eq_ok.mp decoded) reads,
      .array renames, ?_⟩
    rw [encodeValue, renamedLength, Checked.afterNat, isOutput]
  · obtain ⟨rest, output, after⟩ := checked
    rintro ⟨value, renamed, reads, renames, isOutput⟩
    cases reads with
    | @array _ _ middle _ values decoded readsAll =>
        cases renames with
        | @array _ _ renamed _ _ renamesAll =>
            obtain ⟨-, renamedLength⟩ := renamesAll_length renamesAll
            rw [List.length_replicate] at renamedLength
            have isInner := (accepts values.length middle state
              ⟨rest, encodeValues varint renamed, after⟩).mpr
              ⟨values, renamed, readsAll, renamesAll, rfl⟩
            rw [encodeValue, renamedLength] at isOutput
            refine Outcome.bind_eq_ok.mpr ⟨(values.length, middle), Input.packed_eq_ok.mpr decoded,
              Outcome.bind_eq_ok.mpr ⟨_, isInner, ?_⟩⟩
            exact congrArg Outcome.ok (by rw [Checked.afterNat, ← isOutput])

theorem copyBytes_eq_ok {input : Bytes} {size : Nat} {state : σ} {checked : Checked σ}
    : (Input.bytes input size >>= fun rest => .ok (copied input rest state)) = .ok checked
      ↔ checked.output.length = size ∧ input = checked.output ++ checked.rest
        ∧ checked.state = state := by
  rw [Outcome.bind_eq_ok]
  constructor
  · rintro ⟨rest, skips, isChecked⟩
    obtain ⟨skipped, isSize, rfl⟩ := Input.bytes_eq_ok.mp skips
    rw [copied_output] at isChecked
    cases isChecked
    exact ⟨isSize, rfl, rfl⟩
  · obtain ⟨rest, output, after⟩ := checked
    rintro ⟨isSize, isInput, isState⟩
    dsimp only at isSize isInput isState
    subst isInput isState
    exact ⟨rest, Input.bytes_eq_ok.mpr ⟨output, isSize, rfl⟩, congrArg Outcome.ok (copied_output _)⟩

/-- Copying an array of bytes at once does what checking its elements does. -/
theorem checkTimes_byte_eq_ok (varint : Varint) (u8 : U8Next)
    (rename : Nat → Nat → σ → Outcome (Nat × σ)) (size : Nat) {input : Bytes} {state : σ}
    {checked : Checked σ}
    : checkTimes (checkTy varint u8 rename .byte) size input state = .ok checked
      ↔ checked.output.length = size ∧ input = checked.output ++ checked.rest
        ∧ checked.state = state := by
  have once {input : Bytes} {state : σ} {checked : Checked σ}
      : checkTy varint u8 rename .byte input state = .ok checked
        ↔ checked.output.length = 1 ∧ input = checked.output ++ checked.rest
          ∧ checked.state = state := by
    rw [checkTy]
    exact copyBytes_eq_ok
  induction size generalizing input state checked with
  | zero =>
      obtain ⟨rest, output, after⟩ := checked
      rw [checkTimes, List.length_eq_zero_iff]
      constructor
      · intro isChecked
        cases isChecked
        exact ⟨rfl, rfl, rfl⟩
      · rintro ⟨isNil, isInput, isState⟩
        dsimp only at isNil isInput isState
        subst isNil isState isInput
        rfl
  | succ size ih =>
      rw [checkTimes]
      constructor
      · intro isChecked
        obtain ⟨first, isFirst, rest⟩ := Outcome.bind_eq_ok.mp isChecked
        obtain ⟨others, isOthers, isResult⟩ := Outcome.bind_eq_ok.mp rest
        obtain ⟨one, isInput, sameState⟩ := once.mp isFirst
        obtain ⟨isSize, isRest, isState⟩ := ih.mp isOthers
        cases isResult
        refine ⟨?_, ?_, isState.trans sameState⟩
        · rw [List.length_append, one, isSize, Nat.add_comm]
        · rw [isInput, isRest, List.append_assoc]
      · obtain ⟨rest, output, after⟩ := checked
        rintro ⟨isSize, isInput, isState⟩
        cases output with
        | nil => cases isSize
        | cons byte output =>
            have isFirst : checkTy varint u8 rename .byte input state
                = .ok ⟨output ++ rest, [byte], state⟩ :=
              once.mpr ⟨rfl, isInput, rfl⟩
            have isOthers : checkTimes (checkTy varint u8 rename .byte) size (output ++ rest) state
                = .ok ⟨rest, output, state⟩ :=
              ih.mpr ⟨Nat.succ.inj isSize, rfl, rfl⟩
            refine Outcome.bind_eq_ok.mpr ⟨_, isFirst, Outcome.bind_eq_ok.mpr ⟨_, isOthers, ?_⟩⟩
            dsimp only at isState
            subst isState
            rfl

theorem acceptsAll_bytes (size : Nat)
    : AcceptsAll varint u8 rename
        (fun input state => Input.bytes input size >>= fun rest => .ok (copied input rest state))
        (List.replicate size .byte) := by
  intro input state checked
  rw [copyBytes_eq_ok, ← checkTimes_byte_eq_ok varint u8 rename]
  exact acceptsAll_checkTimes accepts_byte size input state checked

/-- A selector and a value of the field that it selects. -/
theorem accepts_sum {alternative : Nat → Bytes → σ → Outcome (Checked σ)} {fields : List Rep}
    (outside : ∀ selector input state checked, fields[selector]? = none →
      alternative selector input state ≠ .ok checked)
    (accepts : ∀ selector field, fields[selector]? = some field →
      Accepts varint u8 rename (alternative selector) field)
    : Accepts varint u8 rename
        (fun input state => Input.packed varint input >>= fun result =>
          alternative result.1 result.2 state >>= fun checked =>
            .ok (checked.afterNat varint result.1))
        (.sum fields) := by
  intro input state checked
  constructor
  · intro isChecked
    obtain ⟨⟨selector, rest⟩, decoded, more⟩ := Outcome.bind_eq_ok.mp isChecked
    obtain ⟨inner, isInner, isResult⟩ := Outcome.bind_eq_ok.mp more
    cases isField : fields[selector]? with
    | none => exact absurd isInner (outside selector rest state inner isField)
    | some field =>
        obtain ⟨value, renamed, reads, renames, isOutput⟩ :=
          (accepts selector field isField rest state inner).mp isInner
        cases isResult
        refine ⟨.alt selector value, .alt selector renamed,
          .alt (Input.packed_eq_ok.mp decoded) isField reads, .alt isField renames, ?_⟩
        rw [encodeValue, Checked.afterNat, isOutput]
  · obtain ⟨rest, output, after⟩ := checked
    rintro ⟨value, renamed, reads, renames, isOutput⟩
    cases reads with
    | @alt _ _ middle _ selector field value decoded isField readsField =>
        cases renames with
        | @alt _ _ other _ renamed _ _ isOther renamesField =>
            rw [isField] at isOther
            cases isOther
            have isInner := (accepts selector field isField middle state
              ⟨rest, encodeValue varint renamed, after⟩).mpr
              ⟨value, renamed, readsField, renamesField, rfl⟩
            rw [encodeValue] at isOutput
            refine Outcome.bind_eq_ok.mpr ⟨(selector, middle), Input.packed_eq_ok.mpr decoded,
              Outcome.bind_eq_ok.mpr ⟨_, isInner, ?_⟩⟩
            exact congrArg Outcome.ok (by rw [Checked.afterNat, ← isOutput])

theorem accepts_tuple {fields : List Rep} {check : Bytes → σ → Outcome (Checked σ)}
    (accepts : AcceptsAll varint u8 rename check fields)
    : Accepts varint u8 rename check (.tuple fields) := by
  intro input state checked
  rw [accepts input state checked]
  constructor
  · rintro ⟨values, renamed, reads, renames, isOutput⟩
    exact ⟨.tuple values, .tuple renamed, .tuple reads, .tuple renames, by rw [encodeValue, isOutput]⟩
  · rintro ⟨value, renamed, reads, renames, isOutput⟩
    cases reads with
    | tuple readsAll =>
        cases renames with
        | tuple renamesAll =>
            rw [encodeValue] at isOutput
            exact ⟨_, _, readsAll, renamesAll, isOutput⟩

theorem accepts_checkEnum (arity : Nat)
    : Accepts varint u8 rename (checkEnum varint arity)
        (.sum (List.replicate arity (.tuple []))) := by
  let alternative (selector : Nat) (input : Bytes) (state : σ) : Outcome (Checked σ) :=
    if selector < arity then .ok ⟨input, [], state⟩ else .error "selector out of range"
  have same : checkEnum varint arity = fun input (state : σ) =>
      Input.packed varint input >>= fun result => alternative result.1 result.2 state >>=
        fun checked => .ok (checked.afterNat varint result.1) := by
    funext input state
    rw [checkEnum]
    congr 1
    funext result
    by_cases isLess : result.1 < arity
    · simp [alternative, isLess, Checked.afterNat]
    · simp [alternative, isLess]
  rw [same]
  refine accepts_sum ?_ ?_
  · intro selector input state checked outside
    rw [List.getElem?_eq_none_iff, List.length_replicate] at outside
    simp [alternative, Nat.not_lt.mpr outside]
  · intro selector field isField
    rw [List.getElem?_replicate] at isField
    split at isField
    next isLess =>
      cases isField
      simp only [alternative, if_pos isLess]
      exact accepts_tuple acceptsAll_nil
    next => cases isField

theorem repType_of_byte (ty : Ty) (isByte : ty.derefType = .byte) : ty.repType = .byte := by
  cases ty with
  | byte => rfl
  | namedType inner => exact repType_of_byte inner isByte
  | _ => cases isByte

theorem length_repTypes (fields : List Ty) : (repTypes fields).length = fields.length := by
  induction fields with
  | nil => rfl
  | cons field fields ih => exact congrArg (· + 1) ih

/-- The alternatives of `maybe`. -/
def maybeAlternative (varint : Varint) (u8 : U8Next) (rename : Nat → Nat → σ → Outcome (Nat × σ))
    (ty : Ty)
    : Nat → Bytes → σ → Outcome (Checked σ)
  | 0, input, state => .ok ⟨input, [], state⟩
  | 1, input, state => checkTy varint u8 rename ty input state
  | _ + 2, _, _ => .error "maybe selector out of range"

theorem accepts_maybe {ty : Ty} {rep : Rep}
    (accepts : Accepts varint u8 rename (checkTy varint u8 rename ty) rep)
    : Accepts varint u8 rename (checkTy varint u8 rename (.maybe ty)) (.sum [.tuple [], rep]) := by
  let alternative := maybeAlternative varint u8 rename ty
  have same : checkTy varint u8 rename (.maybe ty) = fun input state =>
      Input.packed varint input >>= fun result => alternative result.1 result.2 state >>=
        fun checked => .ok (checked.afterNat varint result.1) := by
    funext input state
    rw [checkTy]
    congr 1
    funext result
    obtain ⟨selector, rest⟩ := result
    rcases selector with _ | _ | selector
    · simp [alternative, maybeAlternative, Checked.afterNat]
    · rfl
    · rfl
  rw [same]
  refine accepts_sum ?_ ?_
  · intro selector input state checked outside
    rcases selector with _ | _ | selector
    · cases outside
    · cases outside
    · simp [alternative, maybeAlternative]
  · intro selector field isField
    rcases selector with _ | _ | selector
    · cases isField
      exact accepts_tuple acceptsAll_nil
    · cases isField
      exact accepts
    · cases isField

mutual

/-- The check of a type accepts the encodings of its values. -/
theorem accepts_checkTy
    : (ty : Ty) → Accepts varint u8 rename (checkTy varint u8 rename ty) ty.repType
  | .byte => accepts_byte
  | .nat => accepts_nat
  | .string => accepts_string
  | .array element => by
      rw [Ty.repType]
      by_cases isByte : element.derefType = .byte
      · rw [funext₂ (checkTy_array_byte isByte), repType_of_byte element isByte]
        exact accepts_array acceptsAll_bytes
      · rw [funext₂ (checkTy_array_loop isByte)]
        exact accepts_array (acceptsAll_checkTimes (accepts_checkTy element))
  | .record fields => accepts_tuple (acceptsAll_checkFields fields)
  | .sum fields => by
      rw [Ty.repType, funext₂ (checkTy_sum fields)]
      refine accepts_sum (fun selector input state checked outside => ?_) (accepts_checkAlt fields)
      rw [List.getElem?_eq_none_iff, length_repTypes] at outside
      rw [checkAlt_outside fields outside]
      simp
  | .predicate pid => accepts_predicate pid
  | .namedType ty => accepts_checkTy ty
  | .maybe ty => accepts_maybe (accepts_checkTy ty)
  | .enumerated names => accepts_checkEnum names.length
  | .boolean => accepts_checkEnum 2

theorem acceptsAll_checkFields
    : (fields : List Ty) →
        AcceptsAll varint u8 rename (checkFields varint u8 rename fields) (repTypes fields)
  | [] => acceptsAll_nil
  | field :: fields => acceptsAll_cons (accepts_checkTy field) (acceptsAll_checkFields fields)

theorem accepts_checkAlt
    : (fields : List Ty) → (selector : Nat) → (field : Rep) →
        (repTypes fields)[selector]? = some field →
        Accepts varint u8 rename (checkAlt varint u8 rename fields selector) field
  | [], _, _, isField => by cases isField
  | ty :: _, 0, _, isField => by
      cases isField
      exact accepts_checkTy ty
  | _ :: fields, selector + 1, field, isField => accepts_checkAlt fields selector field isField

end

/-- A clause is accepted if its key and value are encodings of values of their types. The result
is the encoding of the renamed values.
-/
theorem checkClause_eq_ok {keyTy valTy : Ty} {clause : Clause} {state after : σ} {output : Bytes}
    {keySize : Nat}
    : checkClause varint u8 rename keyTy valTy clause state = .ok ⟨output, keySize, after⟩
      ↔ ∃ key value renamedKey renamedValue between,
          Reads varint u8 keyTy.repType clause.key key []
          ∧ Reads varint u8 valTy.repType clause.value value []
          ∧ Renames rename keyTy.repType key state renamedKey between
          ∧ Renames rename valTy.repType value between renamedValue after
          ∧ output = encodeValue varint renamedKey ++ encodeValue varint renamedValue
          ∧ keySize = (encodeValue varint renamedKey).length := by
  rw [checkClause, Outcome.bind_eq_ok]
  constructor
  · rintro ⟨key, isKey, more⟩
    split at more
    next => cases more
    next nothing =>
      obtain ⟨value, isValue, last⟩ := Outcome.bind_eq_ok.mp more
      split at last
      next => cases last
      next end_ =>
        obtain ⟨keyValue, renamedKey, readsKey, renamesKey, keyOutput⟩ :=
          (accepts_checkTy keyTy _ _ _).mp isKey
        obtain ⟨valueValue, renamedValue, readsValue, renamesValue, valueOutput⟩ :=
          (accepts_checkTy valTy _ _ _).mp isValue
        rw [not_not.mp nothing] at readsKey
        rw [not_not.mp end_] at readsValue
        cases last
        exact ⟨keyValue, valueValue, renamedKey, renamedValue, key.state, readsKey, readsValue,
          renamesKey, renamesValue, by rw [keyOutput, valueOutput], by rw [keyOutput]⟩
  · rintro ⟨key, value, renamedKey, renamedValue, between, readsKey, readsValue, renamesKey,
      renamesValue, rfl, rfl⟩
    have isKey := (accepts_checkTy keyTy clause.key state
      ⟨[], encodeValue varint renamedKey, between⟩).mpr ⟨key, _, readsKey, renamesKey, rfl⟩
    have isValue := (accepts_checkTy valTy clause.value between
      ⟨[], encodeValue varint renamedValue, after⟩).mpr ⟨value, _, readsValue, renamesValue, rfl⟩
    refine ⟨_, isKey, ?_⟩
    rw [if_neg (by simp)]
    refine Outcome.bind_eq_ok.mpr ⟨_, isValue, ?_⟩
    rw [if_neg (by simp)]
    rfl

/-- The typechecker of a predicate stops with one outcome. It accepts a clause if its key and
value are encodings of values of their types with nothing left over, and gives the encoding of
the values with the facts they refer to renamed.
-/
theorem typechecker_accepts (varint : Varint) (u8 : U8Next)
    (rename : Nat → Nat → σ → Outcome (Nat × σ)) (keyTy valTy : Ty) (clause : Clause) (state : σ)
    : (∃! outcome, Typechecks varint u8 rename keyTy valTy clause state outcome)
      ∧ ∀ output keySize after,
          Typechecks varint u8 rename keyTy valTy clause state (.ok ⟨output, keySize, after⟩)
          ↔ ∃ key value renamedKey renamedValue between,
              Reads varint u8 keyTy.repType clause.key key []
              ∧ Reads varint u8 valTy.repType clause.value value []
              ∧ Renames rename keyTy.repType key state renamedKey between
              ∧ Renames rename valTy.repType value between renamedValue after
              ∧ output = encodeValue varint renamedKey ++ encodeValue varint renamedValue
              ∧ keySize = (encodeValue varint renamedKey).length := by
  refine ⟨⟨_, typechecks_iff.mpr rfl, fun _ typechecks => typechecks_iff.mp typechecks⟩, ?_⟩
  intro output keySize after
  rw [typechecks_iff, eq_comm]
  exact checkClause_eq_ok

/-- `U8_NEXT` on ASCII characters. -/
def U8Next.ascii : U8Next where
  next bytes :=
    match bytes with
    | byte :: _ => (if byte.val < 128 then some byte.val else none, 1)
    | [] => (none, 0)
  advances := by
    intro bytes notEmpty
    cases bytes with
    | nil => exact absurd rfl notEmpty
    | cons byte rest => simp
  until_zero before after := by
    cases before with
    | nil => rfl
    | cons byte rest => rfl

/-- A key that is a number is accepted although it is not the shortest encoding of any number. -/
theorem typechecker_accepts_long_nat
    : Typechecks .folly .ascii (fun id _ state => .ok (id, state)) .nat (.record []) ⟨[128, 0], []⟩
        () (.ok ⟨[0], 1, ()⟩)
      ∧ ∀ number, Varint.folly.encodeVarint number ≠ [128, 0] := by
  refine ⟨typechecks_iff.mpr rfl, fun number isEncoding => ?_⟩
  have shape : Varint.encodeBytes 10 number = [128, 0] := isEncoding
  rw [Varint.encodeBytes] at shape
  split at shape
  next => simp at shape
  next large =>
    rw [Varint.encodeBytes] at shape
    split at shape
    next small =>
      have isZero : number / 128 % 256 = 0 :=
        congrArg Fin.val (List.cons.inj (List.cons.inj shape).2).1
      omega
    next =>
      have isZero : (number / 128 % 128 + 128) % 256 = 0 :=
        congrArg Fin.val (List.cons.inj (List.cons.inj shape).2).1
      omega

end Glean.RTS
