import Glean.Query.EvolvePattern

/-! What evolved patterns match: the values whose old views match the pattern that was evolved. -/

namespace Glean.Schema

open Glean.RTS ValueCodec

-- Views

/-- Values of the type have no parts that a change of the type could move. -/
def IsScalar : Rep → Prop
  | .byte | .nat | .string | .predicate _ => True
  | .array _ | .tuple _ | .sum _ => False

section Views

variable {new old : RtsType} {term oldTerm : Term} {records sums : List Name → List Name → Prop}

/-- Types that match have the same scalars, except that predicates may differ. -/
theorem Matches.scalar_iff (matching : Matches records sums new old) {rep : Rep}
    (oneOf : rep = .byte ∨ rep = .nat ∨ rep = .string)
    : new.repType = rep ↔ old.repType = rep := by
  induction matching with
  | byte | nat | string => exact Iff.rfl
  | boolean | predicate | array | maybe | enumerated | record | sum =>
      rcases oneOf with rfl | rfl | rfl
      · exact ⟨nofun, nofun⟩
      · exact ⟨nofun, nofun⟩
      · exact ⟨nofun, nofun⟩
  | newNamed _ ih => exact ih
  | oldNamed _ ih => exact ih

theorem Matches.exists_predicate (matching : Matches records sums new old) {pid : Pid}
    (isOld : old.repType = .predicate pid)
    : ∃ newPid, new.repType = .predicate newPid := by
  induction matching with
  | byte | nat | string | boolean | array | maybe | enumerated | record | sum => cases isOld
  | predicate => exact ⟨_, rfl⟩
  | newNamed _ ih => exact ih isOld
  | oldNamed _ ih => exact ih isOld

theorem Matches.byteArray (matching : Matches records sums new old)
    (isOld : old.repType = .array .byte)
    : new.repType = .array .byte := by
  induction matching with
  | byte | nat | string | boolean | predicate | maybe | enumerated | record | sum => cases isOld
  | array element =>
      have isByte := Rep.array.inj isOld
      rw [RtsType.repType, element.byte_iff.mpr isByte]
  | newNamed _ ih => exact ih isOld
  | oldNamed _ ih => exact ih isOld

theorem Matches.view_self (matching : Matches records sums new old) (scalar : IsScalar old.repType)
    (term : Term)
    : View new old term term := by
  induction matching with
  | byte => exact .byte
  | nat => exact .nat
  | string => exact .string
  | predicate => exact .predicate
  | boolean | array | maybe | enumerated | record | sum => exact scalar.elim
  | newNamed _ ih => exact .newNamed (ih scalar)
  | oldNamed _ ih => exact .oldNamed (ih scalar)

theorem View.eq_of_scalar (view : View new old term oldTerm) (scalar : IsScalar old.repType)
    : oldTerm = term := by
  induction view with
  | byte | nat | string | predicate => rfl
  | boolean | array | byteArray | maybe | enumerated | record | sum => exact scalar.elim
  | newNamed _ ih => exact ih scalar
  | oldNamed _ ih => exact ih scalar

theorem View.elementsOf_eq (view : View new old term oldTerm) (isOld : old.repType = .array .byte)
    : elementsOf oldTerm = elementsOf term := by
  induction view with
  | byte | nat | string | predicate | boolean | maybe | enumerated | record | sum => cases isOld
  | @array _ old elements oldElements length views =>
      have scalar : IsScalar old.repType := by
        rw [Rep.array.inj isOld]
        trivial
      refine congrArg some (List.ext_getElem length fun index inOld inNew => ?_)
      exact (views index _ _ (List.getElem?_eq_getElem inNew)
        (List.getElem?_eq_getElem inOld)).eq_of_scalar scalar
  | byteArray => rfl
  | newNamed _ ih => exact ih isOld
  | oldNamed _ ih => exact ih isOld

/-- The elements of an array and those of its old view correspond. -/
theorem View.elements (view : View (.array new) (.array old) term oldTerm)
    (matching : Matches records sums new old) (typed : WellTyped (RtsType.array new).repType term)
    : ∃ elements oldElements, elementsOf term = some elements ∧ elementsOf oldTerm = some oldElements
        ∧ oldElements.length = elements.length
        ∧ ∀ (index : Nat) (element oldElement : Term), elements[index]? = some element →
            oldElements[index]? = some oldElement →
            WellTyped new.repType element ∧ View new old element oldElement := by
  cases view with
  | @array _ _ elements oldElements length views =>
      refine ⟨elements, oldElements, rfl, rfl, length, ?_⟩
      intro index element oldElement isElement isOld
      generalize isRep : (RtsType.array new).repType = rep at typed
      cases typed with
      | array _ _ all =>
          cases isRep
          exact ⟨mem_wellTyped_replicate.mp all element (List.mem_of_getElem? isElement),
            views index element oldElement isElement isOld⟩
  | @byteArray _ _ bytes isByte =>
      refine ⟨bytes.map .byte, bytes.map .byte, rfl, rfl, rfl, ?_⟩
      intro index element oldElement isElement isOld
      rw [isElement] at isOld
      cases isOld
      obtain ⟨byte, -, rfl⟩ := List.mem_map.mp (List.mem_of_getElem? isElement)
      have scalar : IsScalar old.repType := by
        rw [matching.byte_iff.mp isByte]
        trivial
      rw [isByte]
      exact ⟨.byte, matching.view_self scalar _⟩

end Views

-- Alternatives

section Alternatives

variable {new old : RtsType} {newAlts oldAlts : List FieldDef}

theorem repType_altFields (areAlts : altFields old new = some (oldAlts, newAlts))
    : old.repType = .sum (RtsType.fieldReps oldAlts)
      ∧ new.repType = .sum (RtsType.fieldReps newAlts) := by
  unfold altFields at areAlts
  split at areAlts
  next =>
    cases areAlts
    exact ⟨rfl, rfl⟩
  next =>
    cases areAlts
    exact ⟨rfl, rfl⟩
  next =>
    cases areAlts
    exact ⟨(RtsType.repType_lowerEnum _).symm, (RtsType.repType_lowerEnum _).symm⟩
  next =>
    cases areAlts
    exact ⟨rfl, rfl⟩
  next => cases areAlts

/-- The types of the content are compatible, whenever the names are the same. -/
structure CompatibleFields (new old : List FieldDef) : Prop where
  compatible
    : ∀ field ∈ new, ∀ oldField ∈ old, field.name = oldField.name →
        Compatible field.type oldField.type
  wellFormed : ∀ field ∈ new, field.type.WellFormed
  oldWellFormed : ∀ field ∈ old, field.type.WellFormed

theorem compatible_unit : Compatible RtsType.unit RtsType.unit :=
  .record (List.Subset.refl _) nofun

theorem type_of_mem_enumFields {names : List Name} {field : FieldDef}
    (member : field ∈ RtsType.enumFields names)
    : field.type = RtsType.unit := by
  obtain ⟨name, -, rfl⟩ := List.mem_map.mp member
  rfl

theorem wellFormed_unit : RtsType.unit.WellFormed := ⟨List.nodup_nil, trivial⟩

/-- Fields without content are compatible. -/
theorem compatibleFields_of_unit (areUnits : ∀ field ∈ newAlts, field.type = RtsType.unit)
    (oldAreUnits : ∀ field ∈ oldAlts, field.type = RtsType.unit)
    : CompatibleFields newAlts oldAlts where
  compatible field inNew oldField inOld _ := by
    rw [areUnits field inNew, oldAreUnits oldField inOld]
    exact compatible_unit
  wellFormed field member := by
    rw [areUnits field member]
    exact wellFormed_unit
  oldWellFormed field member := by
    rw [oldAreUnits field member]
    exact wellFormed_unit

theorem forall_mem_maybeFields {condition : FieldDef → Prop} {type : RtsType}
    : (∀ field ∈ RtsType.maybeFields type, condition field)
      ↔ condition (.mk "nothing" RtsType.unit) ∧ condition (.mk "just" type) := by
  rw [RtsType.maybeFields, List.forall_mem_cons, List.forall_mem_singleton]

/-- The alternatives of compatible types have the same names, and those with the same name are
compatible.
-/
theorem altFields_compatible (areAlts : altFields old new = some (oldAlts, newAlts))
    (compatible : Compatible new old) (wellFormed : new.WellFormed) (oldWellFormed : old.WellFormed)
    : SameNames (newAlts.map FieldDef.name) (oldAlts.map FieldDef.name)
      ∧ CompatibleFields newAlts oldAlts := by
  unfold altFields at areAlts
  split at areAlts
  next =>
    cases areAlts
    have areUnits (field : FieldDef) (member : field ∈ RtsType.boolFields)
        : field.type = RtsType.unit := by
      rcases List.mem_pair.mp member with rfl | rfl
      · rfl
      · rfl
    exact ⟨fun _ => Iff.rfl, compatibleFields_of_unit areUnits areUnits⟩
  next oldType newType =>
    cases areAlts
    refine ⟨fun _ => Iff.rfl, ?_, ?_, ?_⟩
    · cases compatible with
      | maybe element =>
          refine forall_mem_maybeFields.mpr ⟨?_, ?_⟩
          · exact forall_mem_maybeFields.mpr
              ⟨fun _ => compatible_unit, fun same => absurd same (by decide : "nothing" ≠ "just")⟩
          · exact forall_mem_maybeFields.mpr
              ⟨fun same => absurd same (by decide : "just" ≠ "nothing"), fun _ => element⟩
    · exact forall_mem_maybeFields.mpr ⟨wellFormed_unit, wellFormed⟩
    · exact forall_mem_maybeFields.mpr ⟨wellFormed_unit, oldWellFormed⟩
  next oldNames newNames =>
    cases areAlts
    cases compatible with
    | enumerated names =>
        rw [names_enumFields, names_enumFields]
        exact ⟨names, compatibleFields_of_unit (fun _ => type_of_mem_enumFields)
          fun _ => type_of_mem_enumFields⟩
  next oldFields newFields =>
    cases areAlts
    cases compatible with
    | sum names fields =>
        exact ⟨names, fields, RtsType.fieldsWellFormed_iff.mp wellFormed.2.2,
          RtsType.fieldsWellFormed_iff.mp oldWellFormed.2.2⟩
  next => cases areAlts

/-- A value with alternatives and its old view have those of the same name. -/
theorem View.alts (areAlts : altFields old new = some (oldAlts, newAlts)) {term oldTerm : Term}
    (view : View new old term oldTerm) (typed : WellTyped new.repType term)
    : ∃ selector oldSelector alt oldAlt content oldContent, term = .alt selector content
        ∧ oldTerm = .alt oldSelector oldContent ∧ newAlts[selector]? = some alt
        ∧ oldAlts[oldSelector]? = some oldAlt ∧ alt.name = oldAlt.name
        ∧ WellTyped alt.type.repType content ∧ View alt.type oldAlt.type content oldContent := by
  rw [(repType_altFields areAlts).2] at typed
  have ofSum (view : View (.sum newAlts) (.sum oldAlts) term oldTerm)
      : ∃ selector oldSelector alt oldAlt content oldContent, term = .alt selector content
          ∧ oldTerm = .alt oldSelector oldContent ∧ newAlts[selector]? = some alt
          ∧ oldAlts[oldSelector]? = some oldAlt ∧ alt.name = oldAlt.name
          ∧ WellTyped alt.type.repType content ∧ View alt.type oldAlt.type content oldContent := by
    cases view with
    | sum isAlt isOldAlt name contentView =>
        cases typed with
        | alt _ isField inside =>
            obtain ⟨alt, isAlt', rfl⟩ := getElem?_fieldReps.mp isField
            rw [isAlt] at isAlt'
            cases isAlt'
            exact ⟨_, _, _, _, _, _, rfl, rfl, isAlt, isOldAlt, name, inside,
              contentView⟩
  unfold altFields at areAlts
  split at areAlts
  next =>
    cases areAlts
    cases view with
    | boolean =>
        cases typed with
        | @alt _ selector _ content _ isField inside =>
            obtain ⟨alt, isAlt, rfl⟩ := getElem?_fieldReps.mp isField
            have isUnit : alt.type = RtsType.unit := by
              rcases List.mem_pair.mp (List.mem_of_getElem? isAlt) with rfl | rfl
              · rfl
              · rfl
            refine ⟨selector, selector, alt, alt, content, content, rfl, rfl, isAlt, isAlt, rfl, inside,
              ?_⟩
            rw [isUnit] at inside ⊢
            cases inside with
            | tuple all =>
                cases all with
                | nil => exact .record id rfl nofun nofun
  next =>
    cases areAlts
    cases view with
    | maybe lowered => exact ofSum lowered
  next =>
    cases areAlts
    cases view with
    | enumerated lowered => exact ofSum lowered
  next =>
    cases areAlts
    exact ofSum view
  next => cases areAlts

end Alternatives

-- Lists of patterns

section Lists

variable {Input Result : Type} {convert : Input → Outcome Result}

theorem mapM_outcomes {inputs : List Input}
    (each : ∀ input ∈ inputs, ∃ result, convert input = .ok result)
    : ∃ results, inputs.mapM convert = .ok results ∧ results.length = inputs.length
        ∧ ∀ (index : Nat) (input : Input) (result : Result), inputs[index]? = some input →
            results[index]? = some result → convert input = .ok result := by
  induction inputs with
  | nil => exact ⟨[], rfl, rfl, nofun⟩
  | cons input inputs ih =>
      rw [List.forall_mem_cons] at each
      obtain ⟨result, isResult⟩ := each.1
      obtain ⟨results, areResults, length, all⟩ := ih each.2
      refine ⟨result :: results, ?_, by rw [List.length_cons, length, List.length_cons], ?_⟩
      · rw [List.mapM_cons, isResult, areResults]
        rfl
      · rintro (_ | index) input' result' isInput isResult'
        · cases isInput
          cases isResult'
          exact isResult
        · exact all index input' result' isInput isResult'

theorem evolvePats_eq_mapM (old new : RtsType) (pats : List Pat)
    : evolvePats old new pats = pats.mapM (evolvePat old new) := by
  induction pats with
  | nil => rfl
  | cons pat pats ih => rw [evolvePats, ih, List.mapM_cons]

theorem allCover_iff {holds : Var → Term → Prop} {pats : List Pat} {terms : List Term}
    : allCover holds pats terms
      ↔ pats.length = terms.length
        ∧ ∀ (index : Nat) (pat : Pat) (term : Term), pats[index]? = some pat →
            terms[index]? = some term → pat.Covers holds term := by
  induction pats generalizing terms with
  | nil =>
      cases terms with
      | nil => exact ⟨fun _ => ⟨rfl, nofun⟩, fun _ => trivial⟩
      | cons term terms => exact ⟨nofun, nofun⟩
  | cons pat pats ih =>
      cases terms with
      | nil => exact ⟨nofun, nofun⟩
      | cons term terms =>
          rw [allCover, ih, List.length_cons, List.length_cons, Nat.succ_inj]
          constructor
          · rintro ⟨first, length, all⟩
            refine ⟨length, ?_⟩
            rintro (_ | index) pat' term' isPat isTerm
            · cases isPat
              cases isTerm
              exact first
            · exact all index pat' term' isPat isTerm
          · rintro ⟨length, all⟩
            exact ⟨all 0 pat term rfl rfl, length, fun index => all (index + 1)⟩

/-- Patterns cover as many terms when each of them covers those that it stands for. -/
theorem allCover_of_forall {holds holds' : Var → Term → Prop} {pats pats' : List Pat}
    {terms terms' : List Term} (covers : allCover holds pats terms)
    (samePats : pats'.length = pats.length) (sameTerms : terms'.length = terms.length)
    (each
      : ∀ (index : Nat) (pat pat' : Pat) (term term' : Term), pats[index]? = some pat →
          pats'[index]? = some pat' → terms[index]? = some term → terms'[index]? = some term' →
          pat.Covers holds term → pat'.Covers holds' term')
    : allCover holds' pats' terms' := by
  obtain ⟨length, all⟩ := allCover_iff.mp covers
  refine allCover_iff.mpr ⟨by rw [samePats, length, sameTerms], ?_⟩
  intro index pat' term' isPat' isTerm'
  have inPats := (List.getElem?_eq_some_iff.mp isPat').1
  have inTerms := (List.getElem?_eq_some_iff.mp isTerm').1
  rw [samePats] at inPats
  rw [sameTerms] at inTerms
  exact each index _ pat' _ term' (List.getElem?_eq_getElem inPats) isPat'
    (List.getElem?_eq_getElem inTerms) isTerm'
    (all index _ _ (List.getElem?_eq_getElem inPats) (List.getElem?_eq_getElem inTerms))

end Lists

-- Fields and alternatives of patterns

section Fields

variable {oldFields : List FieldDef} {terms : List Pat} {newField oldField : FieldDef}

theorem evolveField_of_notMem (missing : newField.name ∉ oldFields.map FieldDef.name)
    : evolveField newField oldFields terms = none := by
  induction oldFields generalizing terms with
  | nil => rw [evolveField]; exact nofun
  | cons oldField oldFields ih =>
      cases terms with
      | nil => rw [evolveField]; exact nofun
      | cons term terms =>
          rw [List.map_cons, List.mem_cons, not_or] at missing
          rw [evolveField, ih missing.2]
          exact if_neg (Ne.symm missing.1)

/-- A field with the name of an old one has its term. -/
theorem evolveField_of_getElem? (different : (oldFields.map FieldDef.name).Nodup) {index : Nat}
    {term : Pat} (isOld : oldFields[index]? = some oldField) (isTerm : terms[index]? = some term)
    (sameName : newField.name = oldField.name)
    : evolveField newField oldFields terms
      = some (evolvePat oldField.type newField.type term) := by
  induction oldFields generalizing terms index with
  | nil => cases isOld
  | cons first oldFields ih =>
      rw [List.map_cons, List.nodup_cons] at different
      cases terms with
      | nil => cases isTerm
      | cons firstTerm terms =>
          cases index with
          | zero =>
              cases isOld
              cases isTerm
              rw [evolveField, evolveField_of_notMem (sameName ▸ different.1)]
              exact if_pos sameName.symm
          | succ index => rw [evolveField, ih different.2 isOld isTerm]

end Fields

theorem evolveAlt_ok {oldAlts newAlts : List FieldDef} {selector : Nat} {oldAlt : FieldDef}
    (isOldAlt : oldAlts[selector]? = some oldAlt)
    (member : oldAlt.name ∈ newAlts.map FieldDef.name)
    : ∃ newSelector newAlt, evolveAlt oldAlts newAlts selector = some (oldAlt, newSelector, newAlt)
        ∧ newAlts[newSelector]? = some newAlt ∧ newAlt.name = oldAlt.name := by
  obtain ⟨alt, inNew, sameName⟩ := List.mem_map.mp member
  have found : (newAlts.findIdx? fun newAlt => newAlt.name = oldAlt.name).isSome := by
    rw [List.findIdx?_isSome, List.any_eq_true]
    exact ⟨alt, inNew, decide_eq_true sameName⟩
  obtain ⟨newSelector, isFirst⟩ := Option.isSome_iff_exists.mp found
  obtain ⟨inside, hasName, -⟩ := List.findIdx?_eq_some_iff_getElem.mp isFirst
  refine ⟨newSelector, newAlts[newSelector], ?_, List.getElem?_eq_getElem inside,
    of_decide_eq_true hasName⟩
  simp only [evolveAlt, isOldAlt, Option.bind_eq_bind, Option.bind_some, isFirst,
    List.getElem?_eq_getElem inside, Option.pure_def]

/-- Fields with different names are at one place when their names are the same. -/
theorem index_eq_of_name_eq {fields : List FieldDef} (different : (fields.map FieldDef.name).Nodup)
    {index position : Nat} {field other : FieldDef} (isField : fields[index]? = some field)
    (isOther : fields[position]? = some other) (sameName : field.name = other.name)
    : index = position := by
  have isName := getElem?_names.mpr ⟨field, isField, sameName⟩
  have isOtherName := getElem?_names.mpr ⟨other, isOther, rfl⟩
  exact (List.getElem?_inj (List.getElem?_eq_some_iff.mp isName).1 different).mp
    (isName.trans isOtherName.symm)

-- Patterns

/-- The pattern has no alternatives of a sum, and takes apart values of types only that are not
named on either side, nor enumerations with repeated names. Literal facts are at some types only.
-/
inductive Direct (facts : RtsType → RtsType → Prop) : RtsType → RtsType → Pat → Prop where
  | byte {old new : RtsType} {byte : Byte} : Direct facts old new (.byte byte)
  | nat {old new : RtsType} {number : Nat} : Direct facts old new (.nat number)
  | byteArray {old new : RtsType} {bytes : Bytes} : Direct facts old new (.byteArray bytes)
  | string {old new : RtsType} {text : Bytes} : Direct facts old new (.string text)
  | array {old new : RtsType} {elements : List Pat}
    (all : ∀ pat ∈ elements, Direct facts old new pat)
    : Direct facts (.array old) (.array new) (.array elements)
  | tuple {old new : List FieldDef} {terms : List Pat}
    (all
      : ∀ (index : Nat) (oldField newField : FieldDef) (term : Pat), old[index]? = some oldField →
          newField ∈ new → newField.name = oldField.name → terms[index]? = some term →
          Direct facts oldField.type newField.type term)
    : Direct facts (.record old) (.record new) (.tuple terms)
  | alt {old new : RtsType} {oldAlts newAlts : List FieldDef} {selector : Nat} {term : Pat}
    (areAlts : altFields old new = some (oldAlts, newAlts))
    (oldDifferent : (oldAlts.map FieldDef.name).Nodup)
    (newDifferent : (newAlts.map FieldDef.name).Nodup)
    (inside
      : ∀ oldAlt newAlt, oldAlts[selector]? = some oldAlt → newAlt ∈ newAlts →
          newAlt.name = oldAlt.name → Direct facts oldAlt.type newAlt.type term)
    : Direct facts old new (.alt selector term)
  | wild {old new type : RtsType} : Direct facts old new (.ref (.wild type))
  | never {old new type : RtsType} : Direct facts old new (.ref (.never type))
  | fid {old new : RtsType} {id : Id} (isFact : facts old new) : Direct facts old new (.ref (.fid id))
  | bind {old new : RtsType} {var : Var} : Direct facts old new (.ref (.bind var))
  | var {old new : RtsType} {var : Var} : Direct facts old new (.ref (.var var))
  | and {old new : RtsType} {left right : Pat} (leftDirect : Direct facts old new left)
    (rightDirect : Direct facts old new right)
    : Direct facts old new (.ref (.and left right))
  | strPrefix {old new : RtsType} {text : Bytes} {rest : Pat} (restDirect : Direct facts old new rest)
    : Direct facts old new (.ref (.strPrefix text rest))
  | ext {old new : RtsType} : Direct facts old new (.ref .ext)

/-- A variable stands where its type is represented. -/
def VarTyped (var : Var) (rep : Rep) : Prop := var.type.repType = rep

/-- A variable stands at an evolution of its type, which it keeps. -/
def VarEvolved (var : Var) (rep : Rep) : Prop :=
  ∃ new old, Compatible new old ∧ var.type.repType = old.repType ∧ new.repType = rep

/-- What a variable is bound to in an evolved pattern, and what it would be in the old one. -/
def Seen (var : Var) (term oldTerm : Term) : Prop :=
  ∃ new old, Compatible new old ∧ var.type.repType = old.repType ∧ View new old term oldTerm

/-- A pattern is evolved to one that matches the values whose old views match the pattern. -/
structure EvolvesTo (facts : RtsType → RtsType → Prop) (old new : RtsType) (pat pat' : Pat) : Prop where
  isPat : evolvePat old new pat = .ok pat'
  typed : PatTyped VarEvolved new.repType pat'
  sound
    : ∀ (holds holds' : Var → Term → Prop),
        (∀ var term oldTerm, Seen var term oldTerm → holds var term → holds' var oldTerm) →
        ∀ term oldTerm, (new.repType ≠ .string → WellTyped new.repType term) →
          View new old term oldTerm → pat'.Covers holds term → pat.Covers holds' oldTerm
  complete
    : (∀ new old, facts old new → sameType old new = true) →
        ∀ (holds holds' : Var → Term → Prop),
          (∀ var term oldTerm, Seen var term oldTerm → holds' var oldTerm → holds var term) →
          ∀ term oldTerm, (new.repType ≠ .string → WellTyped new.repType term) →
            View new old term oldTerm → pat.Covers holds' oldTerm → pat'.Covers holds term

section Patterns

variable {facts : RtsType → RtsType → Prop} {old new : RtsType}

/-- A pattern that stays as it is covers a value when it covers its old view. -/
theorem EvolvesTo.of_same {pat : Pat} (isPat : evolvePat old new pat = .ok pat)
    (typed : PatTyped VarEvolved new.repType pat)
    (same
      : ∀ term oldTerm, View new old term oldTerm →
          ∀ holds holds' : Var → Term → Prop, pat.Covers holds term ↔ pat.Covers holds' oldTerm)
    : EvolvesTo facts old new pat pat where
  isPat := isPat
  typed := typed
  sound holds holds' _ term oldTerm _ view := (same term oldTerm view holds holds').mp
  complete _ holds holds' _ term oldTerm _ view := (same term oldTerm view holds holds').mpr

/-- A pattern of a scalar that no variable is part of. -/
theorem EvolvesTo.of_scalar {pat : Pat} (isPat : evolvePat old new pat = .ok pat)
    (typed : PatTyped VarEvolved new.repType pat) (scalar : IsScalar old.repType)
    (same
      : ∀ (term : Term) (holds holds' : Var → Term → Prop),
          pat.Covers holds term ↔ pat.Covers holds' term)
    : EvolvesTo facts old new pat pat := by
  refine .of_same isPat typed fun term oldTerm view holds holds' => ?_
  rw [view.eq_of_scalar scalar]
  exact same term holds holds'

theorem EvolvesTo.array {elements : List Pat} (compatible : Compatible new old)
    (each : ∀ pat ∈ elements, ∃ pat', EvolvesTo facts old new pat pat')
    : ∃ elements', EvolvesTo facts (.array old) (.array new) (.array elements) (.array elements') := by
  obtain ⟨elements', areElements, length, all⟩ := mapM_outcomes fun pat member =>
    (each pat member).imp fun _ evolves => evolves.isPat
  have evolvesAt {index : Nat} {pat pat' : Pat} (isPat : elements[index]? = some pat)
      (isPat' : elements'[index]? = some pat')
      : EvolvesTo facts old new pat pat' := by
    obtain ⟨evolved, evolves⟩ := each pat (List.mem_of_getElem? isPat)
    have same := all index pat pat' isPat isPat'
    rw [evolves.isPat] at same
    cases same
    exact evolves
  refine ⟨elements', ?_, ?_, ?_, ?_⟩
  · rw [evolvePat, evolvePats_eq_mapM, areElements]
    rfl
  · refine .array fun pat' member => ?_
    obtain ⟨index, isPat'⟩ := List.mem_iff_getElem?.mp member
    have inside := (List.getElem?_eq_some_iff.mp isPat').1
    rw [length] at inside
    exact (evolvesAt (List.getElem?_eq_getElem inside) isPat').typed
  · rintro holds holds' seen term oldTerm typed view ⟨terms, areTerms, covers⟩
    obtain ⟨terms', oldTerms, areTerms', areOld, sameLength, views⟩ :=
      view.elements compatible (typed nofun)
    rw [areTerms'] at areTerms
    cases areTerms
    refine ⟨oldTerms, areOld, allCover_of_forall covers length.symm sameLength ?_⟩
    intro index pat' pat term oldTerm isPat' isPat isTerm isOld
    obtain ⟨termTyped, termView⟩ := views index term oldTerm isTerm isOld
    exact (evolvesAt isPat isPat').sound holds holds' seen term oldTerm (fun _ => termTyped) termView
  · rintro unchanged holds holds' seen term oldTerm typed view ⟨oldTerms, areOld, covers⟩
    obtain ⟨terms, oldTerms', areTerms, areOld', sameLength, views⟩ :=
      view.elements compatible (typed nofun)
    rw [areOld'] at areOld
    cases areOld
    refine ⟨terms, areTerms, allCover_of_forall covers length sameLength.symm ?_⟩
    intro index pat pat' oldTerm term isPat isPat' isOld isTerm
    obtain ⟨termTyped, termView⟩ := views index term oldTerm isTerm isOld
    exact (evolvesAt isPat isPat').complete unchanged holds holds' seen term oldTerm
      (fun _ => termTyped) termView

theorem EvolvesTo.tuple {old new : List FieldDef} {terms : List Pat}
    (different : (new.map FieldDef.name).Nodup) (oldDifferent : (old.map FieldDef.name).Nodup)
    (sameLength : terms.length = old.length)
    (each
      : ∀ (index : Nat) (oldField newField : FieldDef) (term : Pat), old[index]? = some oldField →
          newField ∈ new → newField.name = oldField.name → terms[index]? = some term →
          ∃ pat', EvolvesTo facts oldField.type newField.type term pat')
    : ∃ terms', EvolvesTo facts (.record old) (.record new) (.tuple terms) (.tuple terms') := by
  have evolvesField {index : Nat} {oldField newField : FieldDef} {term : Pat}
      (isOld : old[index]? = some oldField) (inNew : newField ∈ new)
      (sameName : newField.name = oldField.name) (isTerm : terms[index]? = some term)
      : ∃ pat', EvolvesTo facts oldField.type newField.type term pat'
          ∧ (evolveField newField old terms).getD (.ok (.ref (.wild newField.type))) = .ok pat' := by
    obtain ⟨pat', evolves⟩ := each index oldField newField term isOld inNew sameName isTerm
    refine ⟨pat', evolves, ?_⟩
    rw [evolveField_of_getElem? oldDifferent isOld isTerm sameName, Option.getD_some, evolves.isPat]
  -- a new field has the term of the old one with its name, if there is one, or a wildcard
  have fieldCases (newField : FieldDef) (inNew : newField ∈ new)
      : (∃ (index : Nat) (oldField : FieldDef) (term : Pat), old[index]? = some oldField
            ∧ terms[index]? = some term ∧ newField.name = oldField.name)
        ∨ (newField.name ∉ old.map FieldDef.name
          ∧ (evolveField newField old terms).getD (.ok (.ref (.wild newField.type)))
            = .ok (.ref (.wild newField.type))) := by
    by_cases inOld : newField.name ∈ old.map FieldDef.name
    · obtain ⟨oldField, member, sameName⟩ := List.mem_map.mp inOld
      obtain ⟨index, isOld⟩ := List.mem_iff_getElem?.mp member
      have inside : index < terms.length := by
        have inOld := (List.getElem?_eq_some_iff.mp isOld).1
        omega
      exact .inl ⟨index, oldField, terms[index], isOld, List.getElem?_eq_getElem inside,
        sameName.symm⟩
    · refine .inr ⟨inOld, ?_⟩
      rw [evolveField_of_notMem inOld]
      rfl
  obtain ⟨terms', areTerms, length, all⟩ := @mapM_outcomes _ _
    (fun newField => (evolveField newField old terms).getD (.ok (.ref (.wild newField.type)))) new
    (by
      intro newField inNew
      rcases fieldCases newField inNew with ⟨_, _, _, isOld, isTerm, sameName⟩ | ⟨_, isWild⟩
      · obtain ⟨pat', -, isPat'⟩ := evolvesField isOld inNew sameName isTerm
        exact ⟨pat', isPat'⟩
      · exact ⟨_, isWild⟩)
  have evolvesAt {position index : Nat} {oldField newField : FieldDef} {term pat' : Pat}
      (isNew : new[position]? = some newField) (isPat' : terms'[position]? = some pat')
      (isOld : old[index]? = some oldField) (isTerm : terms[index]? = some term)
      (sameName : newField.name = oldField.name)
      : EvolvesTo facts oldField.type newField.type term pat' := by
    obtain ⟨evolved, evolves, isEvolved⟩ :=
      evolvesField isOld (List.mem_of_getElem? isNew) sameName isTerm
    have same := all position newField pat' isNew isPat'
    rw [isEvolved] at same
    cases same
    exact evolves
  refine ⟨terms', ?_, ?_, ?_, ?_⟩
  · simp only [evolvePat, areTerms]
    rfl
  · refine .tuple (by rw [length, length_fieldReps]) fun position rep pat' isRep isPat' => ?_
    obtain ⟨newField, isNew, rfl⟩ := getElem?_fieldReps.mp isRep
    rcases fieldCases newField (List.mem_of_getElem? isNew) with
      ⟨index, oldField, term, isOld, isTerm, sameName⟩ | ⟨_, isWild⟩
    · exact (evolvesAt isNew isPat' isOld isTerm sameName).typed
    · have same := all position newField pat' isNew isPat'
      rw [isWild] at same
      cases same
      exact .wild rfl
  · rintro holds holds' seen term oldTerm typed view ⟨contents, rfl, covers⟩
    obtain ⟨patLength, all⟩ := allCover_iff.mp covers
    cases view with
    | @record _ _ _ oldContents place oldLength names views =>
        refine ⟨oldContents, rfl, allCover_iff.mpr ⟨sameLength.trans oldLength.symm, ?_⟩⟩
        intro index pat oldContent isPat isContent
        have inOld : index < old.length := by
          have inside := (List.getElem?_eq_some_iff.mp isPat).1
          omega
        have isOld := List.getElem?_eq_getElem inOld
        obtain ⟨newField, isNew, sameName⟩ := names index _ isOld
        have inNew : place index < terms'.length := by
          have inside := (List.getElem?_eq_some_iff.mp isNew).1
          omega
        have isPat' := List.getElem?_eq_getElem inNew
        rw [patLength] at inNew
        have isNewContent := List.getElem?_eq_getElem inNew
        refine (evolvesAt isNew isPat' isOld isPat sameName).sound holds holds' seen _ _ ?_
          (views index newField _ _ _ isNew isOld isNewContent isContent)
          (all (place index) _ _ isPat' isNewContent)
        intro _
        cases typed nofun with
        | tuple fieldsTyped =>
            exact (wellTypeds_iff.mp fieldsTyped).2 _ _ _
              (getElem?_fieldReps.mpr ⟨newField, isNew, rfl⟩) isNewContent
  · rintro unchanged holds holds' seen term oldTerm typed view ⟨oldContents, rfl, covers⟩
    obtain ⟨patLength, covered⟩ := allCover_iff.mp covers
    cases view with
    | @record _ _ contents _ place oldLength names views =>
        cases typed nofun with
        | tuple fieldsTyped =>
            obtain ⟨contentsLength, contentsTyped⟩ := wellTypeds_iff.mp fieldsTyped
            rw [length_fieldReps] at contentsLength
            refine ⟨contents, rfl, allCover_iff.mpr ⟨length.trans contentsLength.symm, ?_⟩⟩
            intro position pat' content isPat' isContent
            have inNew : position < new.length := by
              have inside := (List.getElem?_eq_some_iff.mp isPat').1
              omega
            have isNew := List.getElem?_eq_getElem inNew
            rcases fieldCases _ (List.mem_of_getElem? isNew) with
              ⟨index, oldField, pat, isOld, isPat, sameName⟩ | ⟨_, isWild⟩
            · -- the old content is the view of that at the place of the name, which is here
              obtain ⟨named, isNamed, isName⟩ := names index oldField isOld
              obtain rfl := index_eq_of_name_eq different isNamed isNew (isName.trans sameName.symm)
              have inOld : index < oldContents.length := by
                have inside := (List.getElem?_eq_some_iff.mp isOld).1
                omega
              have isOldContent := List.getElem?_eq_getElem inOld
              refine (evolvesAt isNew isPat' isOld isPat sameName).complete unchanged holds holds'
                seen _ _ (fun _ => ?_)
                (views index _ oldField content _ isNew isOld isContent isOldContent)
                (covered index pat _ isPat isOldContent)
              exact contentsTyped _ _ _ (getElem?_fieldReps.mpr ⟨_, isNew, rfl⟩) isContent
            · have same := all position _ pat' isNew isPat'
              rw [isWild] at same
              cases same
              exact trivial

theorem EvolvesTo.alt {oldAlts newAlts : List FieldDef} {selector : Nat} {term : Pat}
    {oldAlt : FieldDef} (areAlts : altFields old new = some (oldAlts, newAlts))
    (oldDifferent : (oldAlts.map FieldDef.name).Nodup)
    (newDifferent : (newAlts.map FieldDef.name).Nodup)
    (sameNames : SameNames (newAlts.map FieldDef.name) (oldAlts.map FieldDef.name))
    (isOldAlt : oldAlts[selector]? = some oldAlt)
    (each
      : ∀ newAlt ∈ newAlts, newAlt.name = oldAlt.name →
          ∃ pat', EvolvesTo facts oldAlt.type newAlt.type term pat')
    : ∃ pat', EvolvesTo facts old new (.alt selector term) pat' := by
  have inNew := (sameNames oldAlt.name).mpr
    (List.mem_of_getElem? (getElem?_names.mpr ⟨oldAlt, isOldAlt, rfl⟩))
  obtain ⟨newSelector, newAlt, isEvolved, isNewAlt, sameName⟩ := evolveAlt_ok isOldAlt inNew
  obtain ⟨pat', evolves⟩ := each newAlt (List.mem_of_getElem? isNewAlt) sameName
  refine ⟨.alt newSelector pat', ?_, ?_, ?_, ?_⟩
  · simp only [evolvePat, areAlts, isEvolved, evolves.isPat, Outcome.ok_bind, Outcome.pure_eq]
  · rw [(repType_altFields areAlts).2]
    exact .alt (getElem?_fieldReps.mpr ⟨newAlt, isNewAlt, rfl⟩) evolves.typed
  · rintro holds holds' seen value oldValue typed view ⟨content, rfl, covers⟩
    have isSum : new.repType ≠ .string := by
      rw [(repType_altFields areAlts).2]
      exact nofun
    obtain ⟨_, oldSelector, alt, oldAlt', _, oldContent, ⟨⟩, rfl, isAlt, isOldAlt', name, inside,
      contentView⟩ := view.alts areAlts (typed isSum)
    rw [isNewAlt] at isAlt
    cases isAlt
    obtain rfl := index_eq_of_name_eq oldDifferent isOldAlt' isOldAlt (name.symm.trans sameName)
    rw [isOldAlt] at isOldAlt'
    cases isOldAlt'
    exact ⟨oldContent, rfl,
      evolves.sound holds holds' seen _ _ (fun _ => inside) contentView covers⟩
  · rintro unchanged holds holds' seen value oldValue typed view ⟨oldContent, rfl, covers⟩
    have isSum : new.repType ≠ .string := by
      rw [(repType_altFields areAlts).2]
      exact nofun
    obtain ⟨valueSelector, _, alt, oldAlt', content, _, rfl, ⟨⟩, isAlt, isOldAlt', name, inside,
      contentView⟩ := view.alts areAlts (typed isSum)
    rw [isOldAlt] at isOldAlt'
    cases isOldAlt'
    obtain rfl := index_eq_of_name_eq newDifferent isAlt isNewAlt (name.trans sameName.symm)
    rw [isNewAlt] at isAlt
    cases isAlt
    exact ⟨content, rfl,
      evolves.complete unchanged holds holds' seen _ _ (fun _ => inside) contentView covers⟩

theorem EvolvesTo.var {var : Var} (compatible : Compatible new old)
    (typed : var.type.repType = old.repType)
    : EvolvesTo facts old new (.ref (.bind var)) (.ref (.bind var))
      ∧ EvolvesTo facts old new (.ref (.var var)) (.ref (.var var)) := by
  have evolved : VarEvolved var new.repType := ⟨new, old, compatible, typed, rfl⟩
  have isSeen {term oldTerm : Term} (view : View new old term oldTerm) : Seen var term oldTerm :=
    ⟨new, old, compatible, typed, view⟩
  refine ⟨⟨rfl, .bind evolved, ?_, ?_⟩, ⟨rfl, .var evolved, ?_, ?_⟩⟩
  · intro holds holds' seen term oldTerm _ view
    exact seen var term oldTerm (isSeen view)
  · intro _ holds holds' seen term oldTerm _ view
    exact seen var term oldTerm (isSeen view)
  · intro holds holds' seen term oldTerm _ view
    exact seen var term oldTerm (isSeen view)
  · intro _ holds holds' seen term oldTerm _ view
    exact seen var term oldTerm (isSeen view)

/-- A literal fact stays where the type is the same one, and is never matched elsewhere. -/
theorem EvolvesTo.fid {id : Id} {pid : Pid} (compatible : Compatible new old)
    (isFact : facts old new) (typed : old.repType = .predicate pid)
    : ∃ pat', EvolvesTo facts old new (.ref (.fid id)) pat' := by
  have scalar : IsScalar old.repType := by
    rw [typed]
    trivial
  by_cases same : sameType old new = true
  · obtain ⟨newPid, newTyped⟩ := compatible.exists_predicate typed
    refine ⟨_, .of_scalar ?_ (newTyped ▸ .fid) scalar fun _ _ _ => Iff.rfl⟩
    simp only [evolvePat, evolveMatch, if_pos same]
    rfl
  · refine ⟨.ref (.never new), ?_, .never rfl, ?_, ?_⟩
    · simp only [evolvePat, evolveMatch, if_neg same]
      rfl
    · intro _ _ _ _ _ _ _ covers
      exact covers.elim
    · intro unchanged
      exact absurd (unchanged new old isFact) same

theorem EvolvesTo.and {left right left' right' : Pat} (ofLeft : EvolvesTo facts old new left left')
    (ofRight : EvolvesTo facts old new right right')
    : EvolvesTo facts old new (.ref (.and left right)) (.ref (.and left' right')) where
  isPat := by
    simp only [evolvePat, evolveMatch, ofLeft.isPat, ofRight.isPat, Outcome.ok_bind, Outcome.pure_eq]
  typed := .and ofLeft.typed ofRight.typed
  sound holds holds' seen term oldTerm typed view covers :=
    ⟨ofLeft.sound holds holds' seen term oldTerm typed view covers.1,
      ofRight.sound holds holds' seen term oldTerm typed view covers.2⟩
  complete unchanged holds holds' seen term oldTerm typed view covers :=
    ⟨ofLeft.complete unchanged holds holds' seen term oldTerm typed view covers.1,
      ofRight.complete unchanged holds holds' seen term oldTerm typed view covers.2⟩

theorem EvolvesTo.strPrefix {text : Bytes} {rest rest' : Pat} (compatible : Compatible new old)
    (isString : old.repType = .string) (ofRest : EvolvesTo facts old new rest rest')
    : EvolvesTo facts old new (.ref (.strPrefix text rest)) (.ref (.strPrefix text rest')) := by
  have isNewString := (compatible.scalar_iff (.inr (.inr rfl))).mpr isString
  have scalar : IsScalar old.repType := by
    rw [isString]
    trivial
  refine ⟨?_, ?_, ?_, ?_⟩
  · simp only [evolvePat, evolveMatch, ofRest.isPat, Outcome.ok_bind, Outcome.pure_eq]
  · rw [isNewString]
    exact .strPrefix (isNewString ▸ ofRest.typed)
  · rintro holds holds' seen term oldTerm typed view ⟨more, rfl, covers⟩
    refine ⟨more, view.eq_of_scalar scalar, ?_⟩
    exact ofRest.sound holds holds' seen _ _ (absurd isNewString) (compatible.view_self scalar _) covers
  · rintro unchanged holds holds' seen term oldTerm typed view ⟨more, isText, covers⟩
    refine ⟨more, (view.eq_of_scalar scalar).symm.trans isText, ?_⟩
    exact ofRest.complete unchanged holds holds' seen _ _ (absurd isNewString)
      (compatible.view_self scalar _) covers

/-- Every pattern of the old type is evolved to one of the new type that matches what it matched. -/
theorem Direct.evolvesTo {pat : Pat} (direct : Direct facts old new pat)
    (compatible : Compatible new old) (wellFormed : new.WellFormed) (oldWellFormed : old.WellFormed)
    (typed : PatTyped VarTyped old.repType pat)
    : ∃ pat', EvolvesTo facts old new pat pat' := by
  have ofScalar {old new : RtsType} {pat : Pat} {rep : Rep} (compatible : Compatible new old)
      (isRep : old.repType = rep) (oneOf : rep = .byte ∨ rep = .nat ∨ rep = .string)
      (isPat : evolvePat old new pat = .ok pat) (typed : PatTyped VarEvolved rep pat)
      (same
        : ∀ (term : Term) (holds holds' : Var → Term → Prop),
            pat.Covers holds term ↔ pat.Covers holds' term)
      : ∃ pat', EvolvesTo facts old new pat pat' := by
    have scalar : IsScalar old.repType := by
      rw [isRep]
      rcases oneOf with rfl | rfl | rfl
      · trivial
      · trivial
      · trivial
    rw [← (compatible.scalar_iff oneOf).mpr isRep] at typed
    exact ⟨pat, .of_scalar isPat typed scalar same⟩
  induction direct with
  | @byte old =>
      generalize isRep : old.repType = rep at typed
      cases typed
      exact ofScalar compatible isRep (.inl rfl) rfl .byte fun _ _ _ => Iff.rfl
  | @nat old =>
      generalize isRep : old.repType = rep at typed
      cases typed with
      | nat small =>
          exact ofScalar compatible isRep (.inr (.inl rfl)) rfl (.nat small) fun _ _ _ => Iff.rfl
  | @byteArray old new bytes =>
      generalize isRep : old.repType = rep at typed
      cases typed
      refine ⟨_, .of_same rfl (compatible.byteArray isRep ▸ .byteArray) ?_⟩
      intro term oldTerm view holds holds'
      rw [Pat.Covers, Pat.Covers, view.elementsOf_eq isRep]
  | @string old =>
      generalize isRep : old.repType = rep at typed
      cases typed
      exact ofScalar compatible isRep (.inr (.inr rfl)) rfl .string fun _ _ _ => Iff.rfl
  | @array old new elements all ih =>
      cases compatible with
      | array compatible =>
          generalize isRep : (RtsType.array old).repType = rep at typed
          cases typed with
          | array allTyped =>
              cases isRep
              obtain ⟨elements', evolves⟩ := EvolvesTo.array compatible fun pat member =>
                ih pat member compatible wellFormed oldWellFormed (allTyped pat member)
              exact ⟨_, evolves⟩
  | @tuple old new terms all ih =>
      cases compatible with
      | record names fields =>
          cases typed with
          | tuple length allTyped =>
              rw [length_fieldReps] at length
              have inNew := RtsType.fieldsWellFormed_iff.mp wellFormed.2
              have inOld := RtsType.fieldsWellFormed_iff.mp oldWellFormed.2
              obtain ⟨terms', evolves⟩ := EvolvesTo.tuple wellFormed.1 oldWellFormed.1 length
                fun index oldField newField term isOld isNew sameName isTerm =>
                  ih index oldField newField term isOld isNew sameName isTerm
                    (fields newField isNew oldField (List.mem_of_getElem? isOld) sameName)
                    (inNew newField isNew) (inOld oldField (List.mem_of_getElem? isOld))
                    (allTyped index _ term (getElem?_fieldReps.mpr ⟨oldField, isOld, rfl⟩) isTerm)
              exact ⟨_, evolves⟩
  | @alt old new oldAlts newAlts selector term areAlts oldDifferent newDifferent _ ih =>
      obtain ⟨sameNames, fields⟩ := altFields_compatible areAlts compatible wellFormed oldWellFormed
      rw [(repType_altFields areAlts).1] at typed
      cases typed with
      | alt isField inside =>
          obtain ⟨oldAlt, isOldAlt, rfl⟩ := getElem?_fieldReps.mp isField
          have inOld := List.mem_of_getElem? isOldAlt
          exact EvolvesTo.alt areAlts oldDifferent newDifferent sameNames isOldAlt
            fun newAlt inNew sameName =>
              ih oldAlt newAlt isOldAlt inNew sameName
                (fields.compatible newAlt inNew oldAlt inOld sameName)
                (fields.wellFormed newAlt inNew) (fields.oldWellFormed oldAlt inOld) inside
  | wild =>
      exact ⟨_, rfl, .wild rfl, fun _ _ _ _ _ _ _ _ => trivial, fun _ _ _ _ _ _ _ _ _ => trivial⟩
  | never =>
      exact ⟨_, rfl, .never rfl, fun _ _ _ _ _ _ _ => False.elim,
        fun _ _ _ _ _ _ _ _ => False.elim⟩
  | @fid old new id isFact =>
      generalize isRep : old.repType = rep at typed
      cases typed
      exact EvolvesTo.fid compatible isFact isRep
  | @bind old =>
      generalize isRep : old.repType = rep at typed
      cases typed with
      | bind isAllowed => exact ⟨_, (EvolvesTo.var compatible (isAllowed.trans isRep.symm)).1⟩
  | @var old =>
      generalize isRep : old.repType = rep at typed
      cases typed with
      | var isAllowed => exact ⟨_, (EvolvesTo.var compatible (isAllowed.trans isRep.symm)).2⟩
  | @and old _ _ _ _ _ leftIh rightIh =>
      generalize isRep : old.repType = rep at typed
      cases typed with
      | and leftTyped rightTyped =>
          rw [← isRep] at leftTyped rightTyped
          obtain ⟨left', ofLeft⟩ := leftIh compatible wellFormed oldWellFormed leftTyped
          obtain ⟨right', ofRight⟩ := rightIh compatible wellFormed oldWellFormed rightTyped
          exact ⟨_, ofLeft.and ofRight⟩
  | @strPrefix old new _ _ _ ih =>
      generalize isRep : old.repType = rep at typed
      cases typed with
      | strPrefix restTyped =>
          rw [← isRep] at restTyped
          obtain ⟨rest', ofRest⟩ := ih compatible wellFormed oldWellFormed restTyped
          exact ⟨_, ofRest.strPrefix compatible isRep⟩
  | ext => exact ⟨_, rfl, .ext, fun _ _ _ _ _ _ _ => False.elim, fun _ _ _ _ _ _ _ _ => False.elim⟩

end Patterns

/-- A pattern of the old type that is evolved as intended, with literal facts of all types. -/
def Evolvable : RtsType → RtsType → Pat → Prop := Direct fun _ _ => True

/-- The pattern has literal facts of types only that stay the same. -/
def KeepsFacts : RtsType → RtsType → Pat → Prop := Direct fun old new => sameType old new = true

namespace EvolvedRecords

def number : Var := ⟨.nat, 0⟩

/-- The only field of the old record comes second in the new one. -/
theorem direct_field (facts : RtsType → RtsType → Prop)
    : Direct facts (.record (numbers ["a"])) (.record (numbers ["b", "a"]))
        (.tuple [.ref (.bind number)]) := by
  refine .tuple fun index oldField newField term _ _ _ isTerm => ?_
  cases index with
  | zero =>
      cases isTerm
      exact .bind
  | succ index => cases isTerm

theorem typed_field
    : PatTyped VarTyped (RtsType.record (numbers ["a"])).repType (.tuple [.ref (.bind number)]) := by
  refine .tuple rfl fun index field term isField isTerm => ?_
  cases index with
  | zero =>
      cases isField
      cases isTerm
      exact .bind rfl
  | succ index => cases isTerm

theorem view_field
    : View (.record (numbers ["b", "a"])) (.record (numbers ["a"])) (.tuple [.nat 5, .nat 7])
        (.tuple [.nat 7]) := by
  refine .record (fun _ => 1) rfl ?_ ?_
  · intro index oldField isOld
    cases index with
    | zero =>
        cases isOld
        exact ⟨_, rfl, rfl⟩
    | succ index => cases isOld
  · intro index field oldField content oldContent isField isOld isContent isOldContent
    cases index with
    | zero =>
        cases isField
        cases isOld
        cases isContent
        cases isOldContent
        exact .nat
    | succ index => cases isOld

/-- A predicate that a later version of it evolves. -/
theorem accepted_predicate
    : Accepted (.predicate ⟨2, ⟨"P", 2⟩⟩) (.predicate ⟨1, ⟨"P", 1⟩⟩) :=
  ⟨AssocMap.empty.insert ⟨"P", 1⟩ ⟨"P", 2⟩, .empty, .empty, fun _ => none, fun _ => none,
    fun ref => some ref.version, .predicate ⟨"P", 2⟩, .predicate ⟨"P", 1⟩, 1, nofun, nofun, rfl, rfl,
    rfl⟩

end EvolvedRecords

end Glean.Schema
