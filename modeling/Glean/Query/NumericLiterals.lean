import Mathlib.Data.List.Induction
import Mathlib.Data.Nat.Digits.Defs
import Glean.Schema.Types

/-! Numerals on their way into a query or a fact: the lexer (`Glean.Angle.Lexer`), the typechecker
(`Glean.Query.Typecheck`) and the JSON reader (`Glean.Write.JSON`). Each of them converts between
machine integers without a check.
-/

namespace Glean.Angle

open Glean.RTS Glean.Schema

-- The lexer

/-- `$digit` -/
def IsDigit (byte : UInt8) : Prop := 48 ≤ byte.toNat ∧ byte.toNat ≤ 57

instance : DecidablePred IsDigit := fun _ => inferInstanceAs (Decidable (_ ∧ _))

/-- The text of a number, `$digit+`. -/
structure Digits where
  text : List UInt8
  nonempty : text ≠ []
  digits : ∀ byte ∈ text, IsDigit byte

/-- What the digits mean, the most significant one first. -/
def decimal (text : List UInt8) : Nat :=
  Nat.ofDigits 10 (text.reverse.map (fun byte => byte.toNat - 48))

def Digits.value (digits : Digits) : Nat := decimal digits.text

/-- The content of a `T_NatLit` token. -/
def number (text : List UInt8) : UInt64 :=
  text.foldl (fun x y => x * 10 + (y - 48).toUInt64) 0

-- The typechecker

/-- The patterns that numerals occur in. -/
inductive SourcePat where
  | nat (value : UInt64)
  | factId (type : Option Name) (fid : UInt64)

inductive TcMode where
  | query
  | predicate
  deriving DecidableEq

/-- What a name stands for. -/
inductive RefTarget where
  | type (ref : TypeRef)
  | pred (ref : PredicateRef)
  deriving DecidableEq

structure PredicateDetails where
  pid : Pid
  keyType : RtsType
  valueType : RtsType

/-- The parts of the typechecker's environment and state that are used here. Resolving a name may
fail, with no name found or with several.
-/
structure TcEnv where
  predicates : PredicateRef → Option PredicateDetails
  resolveTypeOrPred : Name → Except String (Option RefTarget)
  mode : TcMode

inductive TcError where
  | patType
  | unknownPredicate (ref : PredicateRef)
  | factIdsNotAllowed
  | cannotInfer
  | unresolved (message : String)

/-- The patterns that a numeral turns into. -/
inductive TcPat where
  | byte (value : UInt8)
  | nat (value : UInt64)
  | matchFid (fid : Int64)
  /-- `TcFactGen`; the value of the fact is a wildcard of its type. -/
  | factGen (pred : PidRef) (key : TcPat) (valueType : RtsType)

variable (env : TcEnv)

/-- `isFactIdAllowed` -/
def isFactIdAllowed : Except TcError Unit :=
  if env.mode ≠ .query then .error .factIdsNotAllowed else .ok ()

def resolve (name : Name) : Except TcError (Option RefTarget) :=
  match env.resolveTypeOrPred name with
  | .ok target => .ok target
  | .error message => .error (.unresolved message)

/-- The name in front of a fact id has to be that of the predicate. -/
def matchTarget (ref : PredicateRef) (fid : UInt64) : Option RefTarget → Except TcError TcPat
  | some (.pred other) => if ref = other then .ok (.matchFid fid.toInt64) else .error .patType
  | _ => .error .patType

def matchName (ref : PredicateRef) (fid : UInt64) : Option Name → Except TcError TcPat
  | none => .ok (.matchFid fid.toInt64)
  | some name => resolve env name >>= matchTarget ref fid

/-- A fact id at the type of a predicate. -/
def typecheckFactId (ref : PredicateRef) (type : Option Name) (fid : UInt64)
    : Except TcError TcPat :=
  isFactIdAllowed env >>= fun _ => matchName env ref fid type

/-- `typecheckPattern` on numerals. The fuel bounds the depth of the types, as the key of a
predicate may be of the predicate's own type.
-/
def typecheckPattern : Nat → RtsType → SourcePat → Option (Except TcError TcPat)
  | 0, _, _ => none
  | _ + 1, .byte, .nat w => some (.ok (.byte w.toUInt8))
  | _ + 1, .nat, .nat w => some (.ok (.nat w))
  | fuel + 1, .namedType _ expanded, pat => typecheckPattern fuel expanded pat
  | _ + 1, .predicate pred, .factId type fid => some (typecheckFactId env pred.ref type fid)
  | fuel + 1, .predicate pred, .nat w =>
      match env.predicates pred.ref with
      | none => some (.error (.unknownPredicate pred.ref))
      | some details =>
          (typecheckPattern fuel details.keyType (.nat w)).map (Except.map fun key =>
            .factGen ⟨details.pid, pred.ref⟩ key details.valueType)
  | _ + 1, _, _ => some (.error .patType)

/-- The type of a fact id is that of the named predicate. -/
def inferTarget (fid : UInt64) : Option RefTarget → Except TcError (TcPat × RtsType)
  | some (.pred ref) =>
      match env.predicates ref with
      | some details => .ok (.matchFid fid.toInt64, .predicate ⟨details.pid, ref⟩)
      | none => .error (.unknownPredicate ref)
  | _ => .error .patType

/-- `inferExpr` on numerals -/
def inferExpr : SourcePat → Except TcError (TcPat × RtsType)
  | .nat w => .ok (.nat w, .nat)
  | .factId none _ => .error .cannotInfer
  | .factId (some name) fid =>
      isFactIdAllowed env >>= fun _ => resolve env name >>= inferTarget env fid

/-- The number that the compiled query holds for a numeral. Fact ids become words again
(`fromIntegral (fromFid fid)`).
-/
def TcPat.compiled : TcPat → Nat
  | .byte value => value.toNat
  | .nat value => value.toNat
  | .matchFid fid => fid.toUInt64.toNat
  | .factGen _ key _ => key.compiled

-- The JSON reader

/-- A JSON number; `fractional` is whether it has a fraction or an exponent. -/
structure JsonNumber where
  negative : Bool
  integer : Digits
  fractional : Bool

/-- What a number without a fraction means. -/
def JsonNumber.value (json : JsonNumber) : Int :=
  if json.negative then -json.integer.value else json.integer.value

/-- A number as the JSON library sees it. -/
inductive ParsedNumber where
  | int64 (value : Int64)
  | double

def InInt64 (value : Int) : Prop := -2 ^ 63 ≤ value ∧ value < 2 ^ 63

instance (value : Int) : Decidable (InInt64 value) := inferInstanceAs (Decidable (_ ∧ _))

/-- The JSON library reads integers that are words, and takes nothing else for an integer. -/
structure ParsesNumbers (parseJson : JsonNumber → Option ParsedNumber) : Prop where
  integer
    : ∀ json, json.fractional = false → InInt64 json.value →
        parseJson json = some (.int64 (Int64.ofInt json.value))
  large
    : ∀ json, json.fractional = false → ¬ InInt64 json.value →
        ∀ value, parseJson json ≠ some (.int64 value)
  fraction : ∀ json, json.fractional = true → ∀ value, parseJson json ≠ some (.int64 value)

inductive JsonError where
  | parse
  | floatingPoint
  | term

/-- The calls that build a term. -/
inductive Push where
  | byte (value : UInt8)
  | nat (value : UInt64)
  | selector (value : UInt64)
  | fact (fid : Int64)

/-- `unfold` on numbers -/
def unfold (parsed : Option ParsedNumber) : Except JsonError Int64 :=
  match parsed with
  | none => .error .parse
  | some .double => .error .floatingPoint
  | some (.int64 value) => .ok value

/-- `jsonToTerm` on `J.Int` -/
def jsonToTerm : RtsType → Int64 → Except JsonError (List Push)
  | .nat, n => .ok [.nat n.toUInt64]
  | .byte, n => .ok [.byte n.toUInt64.toUInt8]
  | .namedType _ expanded, n => jsonToTerm expanded n
  | .predicate _, n => .ok [.fact n]
  | .enumerated names, n =>
      if n.toInt < names.length then .ok [.selector n.toUInt64] else .error .term
  | .maybe element, n => (jsonToTerm element n).map (.selector 1 :: ·)
  | _, _ => .error .term

/-- A number is parsed and written at a type. -/
def writeNumber (parseJson : JsonNumber → Option ParsedNumber) (type : RtsType)
    (json : JsonNumber)
    : Except JsonError (List Push) :=
  unfold (parseJson json) >>= jsonToTerm type

/-- The number that is stored. -/
def Push.stored : Push → Int
  | .byte value => value.toNat
  | .nat value => value.toNat
  | .selector value => value.toNat
  | .fact fid => fid.toInt

-- Widths

/-- A type takes numerals of so many bits: its expansion, or the key of the predicate, is `byte`
or `nat`.
-/
inductive Expects : RtsType → Nat → Prop where
  | byte : Expects .byte 8
  | nat : Expects .nat 64
  | namedType {ref : TypeRef} {expanded : RtsType} {bits : Nat} (expects : Expects expanded bits)
      : Expects (.namedType ref expanded) bits
  | predicate {pred : PidRef} {details : PredicateDetails} {bits : Nat}
      (known : env.predicates pred.ref = some details) (expects : Expects details.keyType bits)
      : Expects (.predicate pred) bits

/-- A type whose expansion is a predicate. -/
inductive IsPredicate : RtsType → PredicateRef → Prop where
  | predicate {pred : PidRef} : IsPredicate (.predicate pred) pred.ref
  | namedType {ref : TypeRef} {expanded : RtsType} {pred : PredicateRef}
      (isPredicate : IsPredicate expanded pred)
      : IsPredicate (.namedType ref expanded) pred

/-- Fact ids may be used, and the name in front of the id is that of the predicate. -/
def TakesFactId (type : RtsType) (name : Option Name) : Prop :=
  env.mode = .query
    ∧ ∃ ref, IsPredicate type ref
        ∧ ∀ given, name = some given → env.resolveTypeOrPred given = .ok (some (.pred ref))

/-- A type at which JSON numbers are stored in so many bits. -/
inductive JsonExpects : RtsType → Nat → Prop where
  | byte : JsonExpects .byte 8
  | nat : JsonExpects .nat 64
  | namedType {ref : TypeRef} {expanded : RtsType} {bits : Nat}
      (expects : JsonExpects expanded bits)
      : JsonExpects (.namedType ref expanded) bits
  | maybe {element : RtsType} {bits : Nat} (expects : JsonExpects element bits)
      : JsonExpects (.maybe element) bits

variable {env}

-- Numerals of a query

theorem decimal_concat (text : List UInt8) (byte : UInt8)
    : decimal (text ++ [byte]) = decimal text * 10 + (byte.toNat - 48) := by
  rw [decimal, List.reverse_append, List.reverse_singleton, List.singleton_append, List.map_cons,
    Nat.ofDigits_cons, decimal, Nat.add_comm, Nat.mul_comm]

theorem toNat_digit {byte : UInt8} (isDigit : IsDigit byte)
    : (byte - 48).toUInt64.toNat = byte.toNat - 48 := by
  have atLeast : (48 : UInt8) ≤ byte := UInt8.le_iff_toNat_le.mpr isDigit.1
  rw [UInt8.toNat_toUInt64, UInt8.toNat_sub_of_le _ _ atLeast]
  rfl

/-- The lexer counts modulo `2 ^ 64`. -/
theorem toNat_number {text : List UInt8} (digits : ∀ byte ∈ text, IsDigit byte)
    : (number text).toNat = decimal text % 2 ^ 64 := by
  induction text using List.reverseRecOn with
  | nil => rfl
  | append_singleton text byte ih =>
      have before := ih (fun digit member => digits digit (List.mem_append_left _ member))
      have last := toNat_digit (digits byte (List.mem_append_right _ (List.mem_singleton.mpr rfl)))
      have step : number (text ++ [byte]) = number text * 10 + (byte - 48).toUInt64 :=
        List.foldl_append
      rw [step, UInt64.toNat_add, UInt64.toNat_mul, last, before, decimal_concat]
      change (decimal text % 2 ^ 64 * 10 % 2 ^ 64 + (byte.toNat - 48)) % 2 ^ 64 = _
      omega

theorem Expects.bits_le {type : RtsType} {bits : Nat} (expects : Expects env type bits)
    : bits ≤ 64 := by
  induction expects with
  | byte => exact Nat.le_add_right 8 56
  | nat => exact le_rfl
  | namedType _ ih => exact ih
  | predicate _ _ ih => exact ih

/-- A numeral is cut to the width of its type. -/
theorem Expects.typecheckPattern {type : RtsType} {bits : Nat} (expects : Expects env type bits)
    (w : UInt64)
    : ∃ fuel pat, typecheckPattern env fuel type (.nat w) = some (.ok pat)
        ∧ pat.compiled = w.toNat % 2 ^ bits := by
  induction expects with
  | byte => exact ⟨1, .byte w.toUInt8, rfl, UInt64.toNat_toUInt8 w⟩
  | nat => exact ⟨1, .nat w, rfl, (Nat.mod_eq_of_lt w.toNat_lt).symm⟩
  | namedType _ ih =>
      obtain ⟨fuel, pat, checks, compiled⟩ := ih
      exact ⟨fuel + 1, pat, checks, compiled⟩
  | @predicate pred details bits known _ ih =>
      obtain ⟨fuel, pat, checks, compiled⟩ := ih
      refine ⟨fuel + 1, .factGen ⟨details.pid, pred.ref⟩ pat details.valueType, ?_, compiled⟩
      rw [Angle.typecheckPattern, known]
      simp only [checks, Option.map_some, Except.map]

/-- Only types that expect numerals take them. -/
theorem expects_of_typecheckPattern {fuel : Nat} {type : RtsType} {w : UInt64} {pat : TcPat}
    (checks : typecheckPattern env fuel type (.nat w) = some (.ok pat))
    : ∃ bits, Expects env type bits ∧ pat.compiled = w.toNat % 2 ^ bits := by
  induction fuel generalizing type pat with
  | zero => cases checks
  | succ fuel ih =>
      cases type with
      | byte =>
          cases checks
          exact ⟨8, .byte, UInt64.toNat_toUInt8 w⟩
      | nat =>
          cases checks
          exact ⟨64, .nat, (Nat.mod_eq_of_lt w.toNat_lt).symm⟩
      | namedType ref expanded =>
          obtain ⟨bits, expects, compiled⟩ := ih checks
          exact ⟨bits, .namedType expects, compiled⟩
      | predicate pred =>
          rw [typecheckPattern] at checks
          cases known : env.predicates pred.ref with
          | none =>
              rw [known] at checks
              cases checks
          | some details =>
              rw [known] at checks
              obtain ⟨result, keyChecks, isOk⟩ := Option.map_eq_some_iff.mp checks
              cases result with
              | error => cases isOk
              | ok key =>
                  cases isOk
                  obtain ⟨bits, expects, compiled⟩ := ih keyChecks
                  exact ⟨bits, .predicate known expects, compiled⟩
      | _ => cases checks

/-- A numeral keeps its value where it fits the type. -/
theorem typecheckPattern_exact_iff (env : TcEnv) (type : RtsType) (digits : Digits)
    : (∀ fuel pat, typecheckPattern env fuel type (.nat (number digits.text)) = some (.ok pat) →
          pat.compiled = digits.value)
        ↔ ∀ bits, Expects env type bits → digits.value < 2 ^ bits := by
  have lexed : (number digits.text).toNat = digits.value % 2 ^ 64 := toNat_number digits.digits
  constructor
  · intro exact bits expects
    obtain ⟨fuel, pat, checks, compiled⟩ := expects.typecheckPattern (number digits.text)
    rw [← exact fuel pat checks, compiled]
    exact Nat.mod_lt _ (Nat.two_pow_pos bits)
  · intro fits fuel pat checks
    obtain ⟨bits, expects, compiled⟩ := expects_of_typecheckPattern checks
    have small := fits bits expects
    have smaller : digits.value < 2 ^ 64 :=
      Nat.lt_of_lt_of_le small (Nat.pow_le_pow_right Nat.two_pos expects.bits_le)
    rw [compiled, lexed, Nat.mod_eq_of_lt smaller, Nat.mod_eq_of_lt small]

/-- Where no type is given, a numeral is a `nat`. -/
theorem inferExpr_exact_iff (env : TcEnv) (digits : Digits)
    : (∀ pat type, inferExpr env (.nat (number digits.text)) = .ok (pat, type) →
          pat.compiled = digits.value)
        ↔ digits.value < 2 ^ 64 := by
  have lexed : (number digits.text).toNat = digits.value % 2 ^ 64 := toNat_number digits.digits
  constructor
  · intro exact
    rw [← exact _ _ rfl]
    exact (number digits.text).toNat_lt
  · intro fits pat type infers
    cases infers
    exact lexed.trans (Nat.mod_eq_of_lt fits)

-- Fact ids

theorem compiled_matchFid (fid : UInt64) : (TcPat.matchFid fid.toInt64).compiled = fid.toNat :=
  rfl

theorem matchTarget_cases {ref : PredicateRef} {fid : UInt64} {target : Option RefTarget}
    {pat : TcPat} (isOk : matchTarget ref fid target = .ok pat)
    : pat = .matchFid fid.toInt64 ∧ target = some (.pred ref) := by
  match target with
  | none => cases isOk
  | some (.type other) => cases isOk
  | some (.pred other) =>
      by_cases same : ref = other
      · rw [matchTarget, if_pos same] at isOk
        cases isOk
        exact ⟨rfl, same ▸ rfl⟩
      · rw [matchTarget, if_neg same] at isOk
        cases isOk

theorem typecheckFactId_cases {ref : PredicateRef} {name : Option Name} {fid : UInt64}
    {pat : TcPat} (isOk : typecheckFactId env ref name fid = .ok pat)
    : pat = .matchFid fid.toInt64 ∧ env.mode = .query
        ∧ ∀ given, name = some given → env.resolveTypeOrPred given = .ok (some (.pred ref)) := by
  by_cases allowed : env.mode = .query
  · rw [typecheckFactId, isFactIdAllowed, if_neg (not_not_intro allowed)] at isOk
    cases name with
    | none =>
        cases isOk
        exact ⟨rfl, allowed, nofun⟩
    | some given =>
        cases resolves : env.resolveTypeOrPred given with
        | error message =>
            simp only [matchName, resolve, resolves] at isOk
            cases isOk
        | ok target =>
            simp only [matchName, resolve, resolves] at isOk
            obtain ⟨isPat, rfl⟩ := matchTarget_cases isOk
            refine ⟨isPat, allowed, fun other isGiven => ?_⟩
            rw [← Option.some.inj isGiven, resolves]
  · rw [typecheckFactId, isFactIdAllowed, if_pos allowed] at isOk
    cases isOk

theorem typecheckFactId_ok {ref : PredicateRef} {name : Option Name} (allowed : env.mode = .query)
    (resolves
      : ∀ given, name = some given → env.resolveTypeOrPred given = .ok (some (.pred ref)))
    (fid : UInt64)
    : typecheckFactId env ref name fid = .ok (.matchFid fid.toInt64) := by
  rw [typecheckFactId, isFactIdAllowed, if_neg (not_not_intro allowed)]
  cases name with
  | none => rfl
  | some given =>
      simp only [matchName, resolve, resolves given rfl]
      exact if_pos rfl

theorem TakesFactId.typecheckPattern {type : RtsType} {name : Option Name}
    (takes : TakesFactId env type name) (fid : UInt64)
    : ∃ fuel, typecheckPattern env fuel type (.factId name fid)
        = some (.ok (.matchFid fid.toInt64)) := by
  obtain ⟨allowed, ref, isPredicate, resolves⟩ := takes
  induction isPredicate with
  | predicate => exact ⟨1, congrArg some (typecheckFactId_ok allowed resolves fid)⟩
  | namedType _ ih =>
      obtain ⟨fuel, checks⟩ := ih resolves
      exact ⟨fuel + 1, checks⟩

theorem takesFactId_of_typecheckPattern {fuel : Nat} {type : RtsType} {name : Option Name}
    {fid : UInt64} {pat : TcPat}
    (checks : typecheckPattern env fuel type (.factId name fid) = some (.ok pat))
    : pat = .matchFid fid.toInt64 ∧ TakesFactId env type name := by
  suffices found
      : ∃ ref, IsPredicate type ref ∧ typecheckFactId env ref name fid = .ok pat by
    obtain ⟨ref, isPredicate, isOk⟩ := found
    obtain ⟨isPat, allowed, resolves⟩ := typecheckFactId_cases isOk
    exact ⟨isPat, allowed, ref, isPredicate, resolves⟩
  induction fuel generalizing type with
  | zero => cases checks
  | succ fuel ih =>
      cases type with
      | namedType ref expanded =>
          obtain ⟨pred, isPredicate, isOk⟩ := ih checks
          exact ⟨pred, .namedType isPredicate, isOk⟩
      | predicate pred => exact ⟨pred.ref, .predicate, Option.some.inj checks⟩
      | _ => cases checks

/-- A fact id keeps its value where it is a word. -/
theorem factId_exact_iff (env : TcEnv) (type : RtsType) (name : Option Name) (digits : Digits)
    : (∀ fuel pat,
          typecheckPattern env fuel type (.factId name (number digits.text)) = some (.ok pat) →
            pat.compiled = digits.value)
        ↔ (TakesFactId env type name → digits.value < 2 ^ 64) := by
  have lexed : (number digits.text).toNat = digits.value % 2 ^ 64 := toNat_number digits.digits
  constructor
  · intro exact takes
    obtain ⟨fuel, checks⟩ := takes.typecheckPattern (number digits.text)
    rw [← exact fuel _ checks]
    exact (number digits.text).toNat_lt
  · intro fits fuel pat checks
    obtain ⟨rfl, takes⟩ := takesFactId_of_typecheckPattern checks
    rw [compiled_matchFid, lexed, Nat.mod_eq_of_lt (fits takes)]

-- JSON numbers

theorem toNat_toUInt64 (n : Int64) : (n.toUInt64.toNat : Int) = n.toInt % 2 ^ 64 := by
  have isWord : n.toInt = n.toBitVec.toInt := rfl
  have isNat : n.toUInt64.toNat = n.toBitVec.toNat := rfl
  have small := n.toBitVec.isLt
  rw [isNat, isWord, BitVec.toInt_eq_toNat_cond]
  split <;> omega

theorem toNat_toByte (n : Int64) : (n.toUInt64.toUInt8.toNat : Int) = n.toInt % 2 ^ 8 := by
  have isWord := toNat_toUInt64 n
  rw [UInt64.toNat_toUInt8, Int.natCast_mod, isWord]
  change n.toInt % 2 ^ 64 % 256 = _
  omega

/-- An integer is cut to the width of its type. -/
theorem JsonExpects.jsonToTerm {type : RtsType} {bits : Nat} (expects : JsonExpects type bits)
    (n : Int64)
    : ∃ pushes push, jsonToTerm type n = .ok (pushes ++ [push])
        ∧ push.stored = n.toInt % 2 ^ bits := by
  induction expects with
  | byte => exact ⟨[], _, rfl, toNat_toByte n⟩
  | nat => exact ⟨[], _, rfl, toNat_toUInt64 n⟩
  | namedType _ ih =>
      obtain ⟨pushes, push, writes, stored⟩ := ih
      exact ⟨pushes, push, writes, stored⟩
  | maybe _ ih =>
      obtain ⟨pushes, push, writes, stored⟩ := ih
      refine ⟨.selector 1 :: pushes, push, ?_, stored⟩
      rw [Angle.jsonToTerm, writes]
      rfl

/-- The number that was written last. -/
def lastStored (pushes : List Push) : Option Int := pushes.getLast?.map Push.stored

/-- A number that is not rejected keeps its value where it is not negative and fits the type. -/
theorem writeNumber_exact_iff {parseJson : JsonNumber → Option ParsedNumber}
    (parses : ParsesNumbers parseJson) {type : RtsType} {bits : Nat}
    (expects : JsonExpects type bits) (json : JsonNumber)
    : (∀ pushes, writeNumber parseJson type json = .ok pushes →
          lastStored pushes = some json.value)
        ↔ (json.fractional = false → InInt64 json.value →
            0 ≤ json.value ∧ json.value < 2 ^ bits) := by
  have exactWord : InInt64 json.value → (Int64.ofInt json.value).toInt = json.value :=
    fun inRange => Int64.toInt_ofInt_of_le inRange.1 inRange.2
  obtain ⟨pushes, push, writes, stored⟩ := expects.jsonToTerm (Int64.ofInt json.value)
  have isLast : lastStored (pushes ++ [push]) = some push.stored := by
    rw [lastStored, List.getLast?_concat, Option.map_some]
  constructor
  · intro exact integral inRange
    have isWritten : writeNumber parseJson type json = .ok (pushes ++ [push]) := by
      rw [writeNumber, parses.integer json integral inRange]
      exact writes
    have kept := exact _ isWritten
    rw [isLast, stored, exactWord inRange, Option.some.injEq] at kept
    rw [← kept]
    exact ⟨Int.emod_nonneg _ (by positivity), Int.emod_lt_of_pos _ (by positivity)⟩
  · intro fits written isWritten
    cases parsed : parseJson json with
    | none =>
        rw [writeNumber, parsed] at isWritten
        cases isWritten
    | some number =>
        cases number with
        | double =>
            rw [writeNumber, parsed] at isWritten
            cases isWritten
        | int64 n =>
            have integral : json.fractional = false := by
              by_contra fraction
              exact parses.fraction json (by simpa using fraction) n parsed
            have inRange : InInt64 json.value := by
              by_contra large
              exact parses.large json integral large n parsed
            rw [writeNumber, parses.integer json integral inRange] at isWritten
            obtain rfl := Except.ok.inj (writes.symm.trans isWritten)
            obtain ⟨nonneg, small⟩ := fits integral inRange
            rw [isLast, stored, exactWord inRange, Int.emod_eq_of_lt nonneg small]

-- All numerals

/-- Numerals mean what they say, or are rejected, exactly where they fit: in a query the value has
to be below `2 ^ 8` for a byte and below `2 ^ 64` otherwise, and a JSON number that is an `Int64`
must also not be negative.
-/
theorem numerals_exact_iff {parseJson : JsonNumber → Option ParsedNumber}
    (parses : ParsesNumbers parseJson)
    : (∀ env type (digits : Digits),
          (∀ fuel pat,
              typecheckPattern env fuel type (.nat (number digits.text)) = some (.ok pat) →
                pat.compiled = digits.value)
            ↔ ∀ bits, Expects env type bits → digits.value < 2 ^ bits)
      ∧ (∀ env (digits : Digits),
          (∀ pat type, inferExpr env (.nat (number digits.text)) = .ok (pat, type) →
              pat.compiled = digits.value)
            ↔ digits.value < 2 ^ 64)
      ∧ (∀ env type name (digits : Digits),
          (∀ fuel pat,
              typecheckPattern env fuel type (.factId name (number digits.text))
                  = some (.ok pat) →
                pat.compiled = digits.value)
            ↔ (TakesFactId env type name → digits.value < 2 ^ 64))
      ∧ ∀ type bits json, JsonExpects type bits →
          ((∀ pushes, writeNumber parseJson type json = .ok pushes →
              lastStored pushes = some json.value)
            ↔ (json.fractional = false → InInt64 json.value →
                0 ≤ json.value ∧ json.value < 2 ^ bits)) :=
  ⟨typecheckPattern_exact_iff, inferExpr_exact_iff, factId_exact_iff,
    fun _ _ json expects => writeNumber_exact_iff parses expects json⟩

/-- A parser with exactly the documented behaviour. -/
def exactParser (json : JsonNumber) : Option ParsedNumber :=
  if json.fractional then
    some .double
  else if InInt64 json.value then
    some (.int64 (Int64.ofInt json.value))
  else
    none

theorem parsesNumbers_exactParser : ParsesNumbers exactParser where
  integer := fun json integral inRange => by
    rw [exactParser, integral, if_neg Bool.false_ne_true]
    exact if_pos inRange
  large := fun json integral large value parsed => by
    rw [exactParser, integral, if_neg Bool.false_ne_true, if_neg large] at parsed
    cases parsed
  fraction := fun json fractional value parsed => by
    rw [exactParser, fractional, if_pos rfl] at parsed
    cases parsed

/-- An environment without predicates. -/
def noPredicates : TcEnv := ⟨fun _ => none, fun _ => .ok none, .query⟩

/-- `256` -/
def twoHundredFiftySix : Digits := ⟨[50, 53, 54], by simp, by simp [IsDigit]⟩

/-- Witness: 256 is exact as a `nat` and as a JSON number at `nat`. -/
theorem numerals_exact_iff_256
    : (∀ fuel pat,
        typecheckPattern noPredicates fuel .nat (.nat (number twoHundredFiftySix.text))
            = some (.ok pat) →
          pat.compiled = twoHundredFiftySix.value)
      ∧ ∀ pushes,
          writeNumber exactParser .nat ⟨false, twoHundredFiftySix, false⟩ = .ok pushes →
            lastStored pushes = some 256 := by
  obtain ⟨inQuery, -, -, inJson⟩ := numerals_exact_iff parsesNumbers_exactParser
  have isValue : twoHundredFiftySix.value = 256 := by decide
  refine ⟨(inQuery noPredicates .nat twoHundredFiftySix).mpr (fun bits expects => ?_), ?_⟩
  · cases expects
    rw [isValue]
    decide
  · refine (inJson .nat 64 ⟨false, twoHundredFiftySix, false⟩ .nat).mpr (fun _ _ => ?_)
    change (0 : Int) ≤ (twoHundredFiftySix.value : Int) ∧ (twoHundredFiftySix.value : Int) < 2 ^ 64
    rw [isValue]
    decide

/-- `18446744073709551616`, which is `2 ^ 64` -/
def twoToThe64 : Digits :=
  ⟨[49, 56, 52, 52, 54, 55, 52, 52, 48, 55, 51, 55, 48, 57, 53, 53, 49, 54, 49, 54], by simp,
    by simp [IsDigit]⟩

/-- `1` -/
def one : Digits := ⟨[49], by simp, by simp [IsDigit]⟩

/-- The numeral `2 ^ 64` is compiled as 0 and 256 at `byte` as well, and a fact for which `-1` is
given holds `2 ^ 64 - 1`.
-/
theorem numerals_not_exact
    : (typecheckPattern noPredicates 1 .nat (.nat (number twoToThe64.text)) = some (.ok (.nat 0))
          ∧ twoToThe64.value = 2 ^ 64)
      ∧ (typecheckPattern noPredicates 1 .byte (.nat (number twoHundredFiftySix.text))
            = some (.ok (.byte 0))
          ∧ twoHundredFiftySix.value = 256)
      ∧ writeNumber exactParser .nat ⟨true, one, false⟩ = .ok [.nat 18446744073709551615]
      ∧ (JsonNumber.mk true one false).value = -1 := by
  have isMinusOne : (JsonNumber.mk true one false).value = -1 := by decide
  have isParsed : exactParser ⟨true, one, false⟩ = some (.int64 (-1)) := by
    rw [exactParser, isMinusOne]
    rfl
  refine ⟨⟨rfl, by decide⟩, ⟨rfl, by decide⟩, ?_, isMinusOne⟩
  rw [writeNumber, isParsed]
  rfl

end Glean.Angle
