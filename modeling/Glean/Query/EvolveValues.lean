import Glean.Query.Evolve
import Glean.Schema.BackCompatible

/-! What the conversion of the values of an evolved type gives. -/

namespace Glean.Schema

open Glean.RTS ValueCodec

/-- A value of the new type seen as one of the old type: an old field has the content of the new
field with its name, and an alternative is that with its name.
-/
inductive View : RtsType → RtsType → Term → Term → Prop where
  | byte {term : Term} : View .byte .byte term term
  | nat {term : Term} : View .nat .nat term term
  | string {term : Term} : View .string .string term term
  | boolean {term : Term} : View .boolean .boolean term term
  | predicate {new old : PidRef} {term : Term} : View (.predicate new) (.predicate old) term term
  | array {new old : RtsType} {elements oldElements : List Term}
    (length : oldElements.length = elements.length)
    (views
      : ∀ (index : Nat) (element oldElement : Term), elements[index]? = some element →
          oldElements[index]? = some oldElement → View new old element oldElement)
    : View (.array new) (.array old) (.array elements) (.array oldElements)
  | byteArray {new old : RtsType} {bytes : Bytes} (isByte : new.repType = .byte)
    : View (.array new) (.array old) (.byteArray bytes) (.byteArray bytes)
  | record {new old : List FieldDef} {contents oldContents : List Term} (position : Nat → Nat)
    (length : oldContents.length = old.length)
    (names
      : ∀ index oldField, old[index]? = some oldField →
          ∃ field, new[position index]? = some field ∧ field.name = oldField.name)
    (views
      : ∀ index field oldField content oldContent, new[position index]? = some field →
          old[index]? = some oldField → contents[position index]? = some content →
          oldContents[index]? = some oldContent → View field.type oldField.type content oldContent)
    : View (.record new) (.record old) (.tuple contents) (.tuple oldContents)
  | sum {new old : List FieldDef} {selector oldSelector : Nat} {alt oldAlt : FieldDef}
    {content oldContent : Term}
    (isAlt : new[selector]? = some alt) (isOldAlt : old[oldSelector]? = some oldAlt)
    (name : alt.name = oldAlt.name) (view : View alt.type oldAlt.type content oldContent)
    : View (.sum new) (.sum old) (.alt selector content) (.alt oldSelector oldContent)
  | maybe {new old : RtsType} {term oldTerm : Term}
    (lowered : View (RtsType.lowerMaybe new) (RtsType.lowerMaybe old) term oldTerm)
    : View (.maybe new) (.maybe old) term oldTerm
  | enumerated {new old : List Name} {term oldTerm : Term}
    (lowered : View (RtsType.lowerEnum new) (RtsType.lowerEnum old) term oldTerm)
    : View (.enumerated new) (.enumerated old) term oldTerm
  | newNamed {ref : TypeRef} {new old : RtsType} {term oldTerm : Term}
    (expanded : View new old term oldTerm)
    : View (.namedType ref new) old term oldTerm
  | oldNamed {ref : TypeRef} {new old : RtsType} {term oldTerm : Term}
    (expanded : View new old term oldTerm)
    : View new (.namedType ref old) term oldTerm

/-- A function gives the old view of every value of the new type. -/
def Converts (change : Term → Outcome Term) (new old : RtsType) : Prop :=
  ∀ term, WellTyped new.repType term →
    ∃ oldTerm, change term = .ok oldTerm ∧ View new old term oldTerm
      ∧ WellTyped old.repType oldTerm

/-- The types differ in nothing but named types. -/
def SameShape : RtsType → RtsType → Prop := Matches Eq Eq

/-- All old fields come first in the new records, in the same order. -/
def InPlace : RtsType → RtsType → Prop := Matches (fun new old => old <+: new) SameNames

-- Named types

section Named

variable {ref : TypeRef} {new old expanded : RtsType}

theorem mkValueTransformation_derefType
    : mkValueTransformation new.derefType old = mkValueTransformation new old := by
  cases new with
  | namedType ref expanded => rw [mkValueTransformation, RtsType.derefType]
  | byte | nat | string | array _ | record _ | sum _ | predicate _ | maybe _ | enumerated _
  | boolean => rfl

theorem mkValueTransformation_newNamed
    : mkValueTransformation (.namedType ref expanded) old = mkValueTransformation expanded old := by
  rw [mkValueTransformation, mkValueTransformation_derefType]

theorem derefType_ne_namedType (type : RtsType) (ref : TypeRef) (expanded : RtsType)
    : type.derefType ≠ .namedType ref expanded := by
  cases type with
  | namedType ref' expanded' => exact derefType_ne_namedType expanded' ref expanded
  | byte | nat | string | array _ | record _ | sum _ | predicate _ | maybe _ | enumerated _
  | boolean => nofun

theorem mkValueTransformation_oldNamed
    : mkValueTransformation new (.namedType ref expanded) = mkValueTransformation new expanded := by
  rw [← mkValueTransformation_derefType, ← @mkValueTransformation_derefType new expanded]
  have notNamed := derefType_ne_namedType new
  generalize new.derefType = new at notNamed
  have toDeref (ref : TypeRef) (expanded : RtsType)
      : mkValueTransformation new (.namedType ref expanded)
        = mkValueTransformation new expanded.derefType := by
    rw [mkValueTransformation]
    exact notNamed
  rw [toDeref]
  cases expanded with
  | namedType ref' expanded' => rw [toDeref, RtsType.derefType]
  | byte | nat | string | array _ | record _ | sum _ | predicate _ | maybe _ | enumerated _
  | boolean => rfl

end Named

-- The transformations of fields

section Fields

variable {new old : List FieldDef} {transforms : List (Name × (Term → Outcome Term))}
  {name : Name} {change : Term → Outcome Term}

theorem transformsForField_ok {type : RtsType}
    (convertible
      : ∀ oldField ∈ old, name = oldField.name →
          ∃ transformation, mkValueTransformation type oldField.type = .ok transformation)
    : ∃ transforms, transformsForField name type old = .ok transforms
        ∧ ∀ name' change, (name', change) ∈ transforms
            ↔ name' = name ∧ ∃ oldField ∈ old, name = oldField.name
                ∧ mkValueTransformation type oldField.type = .ok (some change) := by
  induction old with
  | nil =>
      refine ⟨[], by rw [transformsForField], ?_⟩
      simp
  | cons oldField old ih =>
      obtain ⟨nameTo, typeTo⟩ := oldField
      rw [List.forall_mem_cons] at convertible
      obtain ⟨others, areOthers, mem_others⟩ := ih convertible.2
      rw [transformsForField, areOthers, Outcome.ok_bind]
      split
      next same =>
        obtain ⟨transformation, isTransformation⟩ := convertible.1 same
        have isHere : mkValueTransformation type typeTo = .ok transformation := isTransformation
        rw [isHere, Outcome.ok_bind]
        cases transformation with
        | none =>
            refine ⟨others, rfl, fun name' change => ?_⟩
            rw [mem_others, List.exists_mem_cons_iff]
            refine and_congr_right fun _ => (or_iff_right ?_).symm
            rintro ⟨-, isSome⟩
            rw [isTransformation] at isSome
            cases isSome
        | some here =>
            refine ⟨(name, here) :: others, rfl, fun name' change => ?_⟩
            rw [List.mem_cons, mem_others, List.exists_mem_cons_iff, isTransformation]
            constructor
            · rintro (⟨rfl, rfl⟩ | ⟨isName, later⟩)
              · exact ⟨rfl, .inl ⟨same, rfl⟩⟩
              · exact ⟨isName, .inr later⟩
            · rintro ⟨rfl, ⟨-, isChange⟩ | later⟩
              · cases isChange
                exact .inl rfl
              · exact .inr ⟨rfl, later⟩
      next different =>
        refine ⟨others, rfl, fun name' change => ?_⟩
        rw [mem_others, List.exists_mem_cons_iff]
        exact and_congr_right fun _ => (or_iff_right fun here => different here.1).symm

/-- The list has the transformations of all pairs of fields with the same name that have one. -/
def AreTransforms (new old : List FieldDef) (transforms : List (Name × (Term → Outcome Term)))
    : Prop :=
  ∀ name change, (name, change) ∈ transforms
    ↔ ∃ field ∈ new, ∃ oldField ∈ old, field.name = name ∧ oldField.name = name
        ∧ mkValueTransformation field.type oldField.type = .ok (some change)

theorem transformsFor_ok
    (convertible
      : ∀ field ∈ new, ∀ oldField ∈ old, field.name = oldField.name →
          ∃ transformation, mkValueTransformation field.type oldField.type = .ok transformation)
    : ∃ transforms, transformsFor new old = .ok transforms ∧ AreTransforms new old transforms := by
  induction new with
  | nil =>
      refine ⟨[], by rw [transformsFor], fun name change => ?_⟩
      simp
  | cons field new ih =>
      obtain ⟨name, type⟩ := field
      rw [List.forall_mem_cons] at convertible
      obtain ⟨others, areOthers, mem_others⟩ := ih convertible.2
      obtain ⟨firsts, areFirsts, mem_firsts⟩ := transformsForField_ok convertible.1
      refine ⟨firsts ++ others, ?_, fun name' change => ?_⟩
      · have isFirsts : transformsForField name type old = .ok firsts := areFirsts
        rw [transformsFor, isFirsts, areOthers]
        rfl
      · rw [List.mem_append, mem_others, mem_firsts, List.exists_mem_cons_iff]
        refine or_congr_left ?_
        constructor
        · rintro ⟨rfl, oldField, member, isName, isChange⟩
          exact ⟨oldField, member, rfl, isName.symm, isChange⟩
        · rintro ⟨oldField, member, rfl, isName, isChange⟩
          exact ⟨rfl, oldField, member, isName.symm, isChange⟩

/-- The field of a name is the only one. -/
theorem eq_of_name_eq {fields : List FieldDef} (different : (fields.map FieldDef.name).Nodup)
    {field other : FieldDef} (member : field ∈ fields) (isOther : other ∈ fields)
    (sameName : field.name = other.name)
    : field = other :=
  List.inj_on_of_nodup_map different member isOther sameName

theorem changeOf_eq (newDifferent : (new.map FieldDef.name).Nodup)
    (oldDifferent : (old.map FieldDef.name).Nodup) (areTransforms : AreTransforms new old transforms)
    {field oldField : FieldDef} (inNew : field ∈ new) (inOld : oldField ∈ old)
    (sameName : field.name = oldField.name) {transformation : Transformation}
    (isTransformation : mkValueTransformation field.type oldField.type = .ok transformation)
    : changeOf (.fromList transforms) oldField.name = transformation.getD .ok := by
  have unique {change : Term → Outcome Term} (member : (oldField.name, change) ∈ transforms)
      : transformation = some change := by
    obtain ⟨field', inNew', oldField', inOld', isName, isName', isChange⟩ :=
      (areTransforms _ _).mp member
    obtain rfl := eq_of_name_eq newDifferent inNew' inNew (isName.trans sameName.symm)
    obtain rfl := eq_of_name_eq oldDifferent inOld' inOld isName'
    rw [isTransformation] at isChange
    exact Outcome.ok.inj isChange
  unfold changeOf
  cases found : (AssocMap.fromList transforms).lookup oldField.name with
  | some change => rw [unique (AssocMap.mem_of_lookup_fromList found)]
  | none =>
      cases transformation with
      | none => rfl
      | some change =>
          have member : (oldField.name, change) ∈ transforms :=
            (areTransforms _ _).mpr
              ⟨field, inNew, oldField, inOld, sameName, rfl, isTransformation⟩
          obtain ⟨other, isOther⟩ :=
            AssocMap.lookup_fromList_of_mem (List.mem_map.mpr ⟨_, member, rfl⟩)
          rw [found] at isOther
          cases isOther

theorem changeOf_empty {name : Name} : changeOf (.fromList []) name = .ok := rfl

theorem fromList_isEmpty_iff
    : ((AssocMap.fromList transforms).entries.isEmpty = true) ↔ transforms = [] := by
  constructor
  · intro isEmpty
    cases transforms with
    | nil => rfl
    | cons first others =>
        obtain ⟨change, found⟩ :=
          AssocMap.lookup_fromList_of_mem (List.mem_map.mpr ⟨first, List.mem_cons_self, rfl⟩)
        have member := AssocMap.mem_of_lookup found
        rw [List.isEmpty_iff.mp isEmpty] at member
        cases member
  · rintro rfl
    rfl

/-- No field has a transformation. -/
theorem areTransforms_eq_nil_iff (areTransforms : AreTransforms new old transforms)
    (convertible
      : ∀ field ∈ new, ∀ oldField ∈ old, field.name = oldField.name →
          ∃ transformation, mkValueTransformation field.type oldField.type = .ok transformation)
    : transforms = []
      ↔ ∀ field ∈ new, ∀ oldField ∈ old, field.name = oldField.name →
          mkValueTransformation field.type oldField.type = .ok none := by
  constructor
  · rintro rfl field inNew oldField inOld sameName
    obtain ⟨transformation, isTransformation⟩ := convertible field inNew oldField inOld sameName
    cases transformation with
    | none => exact isTransformation
    | some change =>
        have member := (areTransforms oldField.name change).mpr
          ⟨field, inNew, oldField, inOld, sameName, rfl, isTransformation⟩
        cases member
  · intro none
    refine List.eq_nil_iff_forall_not_mem.mpr fun (name, change) member => ?_
    obtain ⟨field, inNew, oldField, inOld, isName, isName', isChange⟩ :=
      (areTransforms name change).mp member
    rw [none field inNew oldField inOld (isName.trans isName'.symm)] at isChange
    cases isChange

end Fields

-- Records

theorem wellTypeds_iff {reps : List Rep} {terms : List Term}
    : WellTypeds reps terms
      ↔ terms.length = reps.length
        ∧ ∀ (index : Nat) (rep : Rep) (term : Term), reps[index]? = some rep →
            terms[index]? = some term → WellTyped rep term := by
  constructor
  · intro typed
    induction reps generalizing terms with
    | nil =>
        cases typed
        simp
    | cons rep reps ih =>
        obtain _ | ⟨first, others⟩ := typed
        obtain ⟨length, all⟩ := ih others
        refine ⟨by rw [List.length_cons, List.length_cons, length], ?_⟩
        rintro (_ | index) rep' term' isRep isTerm
        · cases isRep
          cases isTerm
          exact first
        · exact all index rep' term' isRep isTerm
  · rintro ⟨length, all⟩
    induction reps generalizing terms with
    | nil =>
        cases List.length_eq_zero_iff.mp length
        exact .nil
    | cons rep reps ih =>
        cases terms with
        | nil => cases length
        | cons term terms =>
            refine .cons (all 0 rep term rfl rfl) (ih (Nat.succ.inj length) ?_)
            exact fun index rep' term' => all (index + 1) rep' term'

theorem changeFields_ok {change : Name → Term → Outcome Term} {names : List Name}
    {contents : List Term} (enough : names.length ≤ contents.length)
    (changes
      : ∀ (index : Nat) (name : Name) (content : Term), names[index]? = some name →
          contents[index]? = some content → ∃ oldContent, change name content = .ok oldContent)
    : ∃ oldContents, changeFields change names contents = .ok oldContents
        ∧ oldContents.length = names.length := by
  induction names generalizing contents with
  | nil => exact ⟨[], by cases contents <;> rfl, rfl⟩
  | cons name names ih =>
      cases contents with
      | nil => cases enough
      | cons content contents =>
          obtain ⟨first, isFirst⟩ := changes 0 name content rfl rfl
          obtain ⟨others, areOthers, length⟩ :=
            ih (Nat.le_of_succ_le_succ enough) fun index => changes (index + 1)
          refine ⟨first :: others, ?_, by rw [List.length_cons, length, List.length_cons]⟩
          rw [changeFields, isFirst, areOthers]
          rfl

/-- Every content is changed as the field at its place. -/
theorem changeFields_getElem? {change : Name → Term → Outcome Term} {names : List Name}
    {contents oldContents : List Term}
    (changed : changeFields change names contents = .ok oldContents) {index : Nat} {name : Name}
    {content oldContent : Term} (isName : names[index]? = some name)
    (isContent : contents[index]? = some content)
    (isOldContent : oldContents[index]? = some oldContent)
    : change name content = .ok oldContent := by
  induction names generalizing contents oldContents index with
  | nil => cases isName
  | cons first names ih =>
      cases contents with
      | nil => cases isContent
      | cons firstContent contents =>
          obtain ⟨firstOld, isFirst, changed⟩ := Outcome.bind_eq_ok.mp changed
          obtain ⟨others, areOthers, changed⟩ := Outcome.bind_eq_ok.mp changed
          cases changed
          cases index with
          | zero =>
              cases isName
              cases isContent
              cases isOldContent
              exact isFirst
          | succ index => exact ih areOthers isName isContent isOldContent

theorem changeFields_same {names : List Name} {contents : List Term}
    (length : contents.length = names.length)
    : changeFields (fun _ => .ok) names contents = .ok contents := by
  induction names generalizing contents with
  | nil =>
      cases List.length_eq_zero_iff.mp length
      rfl
  | cons name names ih =>
      cases contents with
      | nil => cases length
      | cons content contents =>
          rw [changeFields, ih (Nat.succ.inj length)]
          rfl

section Pairs

variable {new old : List FieldDef} {transforms : List (Name × (Term → Outcome Term))}

theorem getElem?_fieldReps {fields : List FieldDef} {index : Nat} {rep : Rep}
    : (RtsType.fieldReps fields)[index]? = some rep
      ↔ ∃ field, fields[index]? = some field ∧ field.type.repType = rep := by
  rw [RtsType.fieldReps_eq_map, List.getElem?_map, Option.map_eq_some_iff]

theorem length_fieldReps (fields : List FieldDef)
    : (RtsType.fieldReps fields).length = fields.length := by
  rw [RtsType.fieldReps_eq_map, List.length_map]

theorem getElem?_names {fields : List FieldDef} {index : Nat} {name : Name}
    : (fields.map FieldDef.name)[index]? = some name
      ↔ ∃ field, fields[index]? = some field ∧ field.name = name := by
  rw [List.getElem?_map, Option.map_eq_some_iff]

/-- The field at the place of an old one. -/
theorem getElem?_of_prefix (inPlace : old.map FieldDef.name <+: new.map FieldDef.name) {index : Nat}
    {oldField : FieldDef} (isOld : old[index]? = some oldField)
    : ∃ field, new[index]? = some field ∧ field.name = oldField.name := by
  obtain ⟨added, isNew⟩ := inPlace
  rw [← getElem?_names, ← isNew]
  have isName := getElem?_names.mpr ⟨oldField, isOld, rfl⟩
  have inside := (List.getElem?_eq_some_iff.mp isName).1
  rw [List.getElem?_append_left inside, isName]

/-- The result of a transformation of records, whether there is one or not. -/
theorem transformRecord_apply {contents oldContents : List Term}
    (length : contents.length = new.length)
    (changed
      : changeFields (changeOf (.fromList transforms)) (old.map FieldDef.name) contents
        = .ok oldContents)
    : (transformRecord (new.map FieldDef.name) (old.map FieldDef.name)
          (.fromList transforms)).getD .ok (.tuple contents)
      = .ok (.tuple oldContents) := by
  unfold transformRecord
  split
  next unchanged =>
    obtain ⟨sameNames, noTransforms⟩ := unchanged
    rw [fromList_isEmpty_iff] at noTransforms
    have same : changeFields (fun _ => .ok) (old.map FieldDef.name) contents = .ok contents := by
      refine changeFields_same ?_
      rw [← sameNames, List.length_map, length]
    subst noTransforms
    have changed : changeFields (fun _ => .ok) (old.map FieldDef.name) contents = .ok oldContents :=
      changed
    rw [same] at changed
    cases changed
    rfl
  next =>
    simp only [Option.getD_some, changed]
    rfl

theorem converts_record (inPlace : old.map FieldDef.name <+: new.map FieldDef.name)
    (each
      : ∀ field ∈ new, ∀ oldField ∈ old, field.name = oldField.name →
          Converts (changeOf (.fromList transforms) oldField.name) field.type oldField.type)
    : Converts
        ((transformRecord (new.map FieldDef.name) (old.map FieldDef.name)
          (.fromList transforms)).getD .ok)
        (.record new) (.record old) := by
  intro term typed
  obtain ⟨⟩ | ⟨⟩ | ⟨⟩ | ⟨⟩ | @⟨_, contents, all⟩ := typed
  obtain ⟨length, contentsTyped⟩ := wellTypeds_iff.mp all
  rw [length_fieldReps] at length
  have convertsAt {index : Nat} {oldField : FieldDef} {content : Term}
      (isOld : old[index]? = some oldField) (isContent : contents[index]? = some content)
      : ∃ field oldContent, new[index]? = some field ∧ field.name = oldField.name
        ∧ changeOf (.fromList transforms) oldField.name content = .ok oldContent
        ∧ View field.type oldField.type content oldContent
        ∧ WellTyped oldField.type.repType oldContent := by
    obtain ⟨field, isField, sameName⟩ := getElem?_of_prefix inPlace isOld
    have typed := contentsTyped index _ content (getElem?_fieldReps.mpr ⟨field, isField, rfl⟩)
      isContent
    obtain ⟨oldContent, changed, view, oldTyped⟩ := each field (List.mem_of_getElem? isField)
      oldField (List.mem_of_getElem? isOld) sameName content typed
    exact ⟨field, oldContent, isField, sameName, changed, view, oldTyped⟩
  have enough : (old.map FieldDef.name).length ≤ contents.length := by
    have shorter := inPlace.length_le
    rw [List.length_map, List.length_map] at shorter
    rw [List.length_map, length]
    exact shorter
  have changes (index : Nat) (name : Name) (content : Term)
      (isName : (old.map FieldDef.name)[index]? = some name)
      (isContent : contents[index]? = some content)
      : ∃ oldContent, changeOf (.fromList transforms) name content = .ok oldContent := by
    obtain ⟨oldField, isOld, rfl⟩ := getElem?_names.mp isName
    obtain ⟨_, oldContent, _, _, changed, _⟩ := convertsAt isOld isContent
    exact ⟨oldContent, changed⟩
  obtain ⟨oldContents, changed, oldLength⟩ := changeFields_ok enough changes
  rw [List.length_map] at oldLength
  have viewAt {index : Nat} {oldField : FieldDef} {content oldContent : Term}
      (isOld : old[index]? = some oldField) (isContent : contents[index]? = some content)
      (isOldContent : oldContents[index]? = some oldContent)
      : ∃ field, new[index]? = some field ∧ View field.type oldField.type content oldContent
        ∧ WellTyped oldField.type.repType oldContent := by
    obtain ⟨field, oldContent', isField, _, isChange, view, typed⟩ := convertsAt isOld isContent
    have isResult := changeFields_getElem? changed (getElem?_names.mpr ⟨oldField, isOld, rfl⟩)
      isContent isOldContent
    rw [isChange] at isResult
    cases isResult
    exact ⟨field, isField, view, typed⟩
  refine ⟨.tuple oldContents, transformRecord_apply length changed, ?_, ?_⟩
  · refine .record id oldLength (fun index oldField isOld => getElem?_of_prefix inPlace isOld) ?_
    intro index field oldField content oldContent isField isOld isContent isOldContent
    obtain ⟨field', isField', view, _⟩ := viewAt isOld isContent isOldContent
    rw [id, isField'] at isField
    cases isField
    exact view
  · refine .tuple (wellTypeds_iff.mpr ⟨by rw [oldLength, length_fieldReps], ?_⟩)
    intro index rep oldContent isRep isOldContent
    obtain ⟨oldField, isOld, rfl⟩ := getElem?_fieldReps.mp isRep
    have inside : index < contents.length := by
      have inOld := (List.getElem?_eq_some_iff.mp isOld).1
      rw [List.length_map] at enough
      omega
    obtain ⟨_, _, _, typed⟩ := viewAt isOld (List.getElem?_eq_getElem inside) isOldContent
    exact typed

-- Sums

theorem altMap_lookup {fromNames toNames : List Name} (change : Name → Term → Outcome Term)
    {selector : Nat} {name : Name} (isName : fromNames[selector]? = some name)
    (member : name ∈ toNames)
    : ∃ oldSelector, toNames[oldSelector]? = some name
        ∧ (altMap fromNames toNames change).lookup selector = some (oldSelector, change name) := by
  obtain ⟨oldSelector, isOld⟩ := List.mem_iff_getElem?.mp member
  have isEntry : ∃ found, (altMap fromNames toNames change).lookup selector = some found := by
    apply AssocMap.lookup_fromList_of_mem
    refine List.mem_map.mpr ⟨(selector, oldSelector, change name), List.mem_flatMap.mpr
      ⟨(name, selector), List.mem_zipIdx_iff_getElem?.mpr isName, ?_⟩, rfl⟩
    exact List.mem_filterMap.mpr
      ⟨(name, oldSelector), List.mem_zipIdx_iff_getElem?.mpr isOld, if_pos rfl⟩
  obtain ⟨found, isFound⟩ := isEntry
  obtain ⟨⟨nameFrom, fromAlt⟩, isFrom, isPair⟩ :=
    List.mem_flatMap.mp (AssocMap.mem_of_lookup_fromList isFound)
  obtain ⟨⟨nameTo, toAlt⟩, isTo, isPair⟩ := List.mem_filterMap.mp isPair
  dsimp only at isPair
  split at isPair
  next sameName =>
    cases isPair
    rw [List.mem_zipIdx_iff_getElem?] at isFrom isTo
    dsimp only at isFrom isTo
    rw [isName] at isFrom
    cases isFrom
    exact ⟨toAlt, sameName ▸ isTo, isFound⟩
  next => cases isPair

theorem converts_sum (sameNames : SameNames (new.map FieldDef.name) (old.map FieldDef.name))
    (small : old.length < 2 ^ 63)
    (each
      : ∀ field ∈ new, ∀ oldField ∈ old, field.name = oldField.name →
          Converts (changeOf (.fromList transforms) oldField.name) field.type oldField.type)
    : Converts
        ((transformSum (new.map FieldDef.name) (old.map FieldDef.name)
          (.fromList transforms)).getD .ok)
        (.sum new) (.sum old) := by
  intro term typed
  obtain ⟨⟩ | ⟨⟩ | ⟨⟩ | ⟨⟩ | ⟨⟩ | @⟨_, selector, rep, content, _, isRep, inside⟩ := typed
  obtain ⟨field, isField, rfl⟩ := getElem?_fieldReps.mp isRep
  have isName := getElem?_names.mpr ⟨field, isField, rfl⟩
  obtain ⟨oldSelector, isOldName, found⟩ :=
    altMap_lookup (changeOf (.fromList transforms)) isName
      ((sameNames field.name).mp (List.mem_of_getElem? isName))
  have convertsTo {oldSelector : Nat} (isOldName : (old.map FieldDef.name)[oldSelector]? = some field.name)
      : ∃ oldContent, changeOf (.fromList transforms) field.name content = .ok oldContent
        ∧ View (.sum new) (.sum old) (.alt selector content) (.alt oldSelector oldContent)
        ∧ WellTyped (RtsType.sum old).repType (.alt oldSelector oldContent) := by
    obtain ⟨oldField, isOld, sameName⟩ := getElem?_names.mp isOldName
    obtain ⟨oldContent, changed, view, typed⟩ := each field (List.mem_of_getElem? isField)
      oldField (List.mem_of_getElem? isOld) sameName.symm content inside
    refine ⟨oldContent, sameName ▸ changed, .sum isField isOld sameName.symm view, ?_⟩
    have inOld := (List.getElem?_eq_some_iff.mp isOld).1
    exact .alt (by omega) (getElem?_fieldReps.mpr ⟨oldField, isOld, rfl⟩) typed
  unfold transformSum
  split
  next unchanged =>
    obtain ⟨same, noTransforms⟩ := unchanged
    rw [fromList_isEmpty_iff] at noTransforms
    subst noTransforms
    rw [same] at isName
    obtain ⟨oldContent, changed, view, typed⟩ := convertsTo isName
    rw [changeOf_empty] at changed
    cases changed
    exact ⟨_, rfl, view, typed⟩
  next =>
    obtain ⟨oldContent, changed, view, typed⟩ := convertsTo isOldName
    refine ⟨.alt oldSelector oldContent, ?_, view, typed⟩
    simp only [Option.getD_some, found, changed]
    rfl

end Pairs

-- Arrays

section Arrays

variable {new old : RtsType} {records sums : List Name → List Name → Prop}

theorem isByteRep_iff {rep : Rep} : isByteRep rep = true ↔ rep = .byte := by
  cases rep with
  | byte => exact ⟨fun _ => rfl, fun _ => rfl⟩
  | nat | string | array _ | tuple _ | sum _ | predicate _ => exact ⟨nofun, nofun⟩

/-- Bytes correspond to bytes only, and are not changed. -/
theorem Matches.byte_iff (matching : Matches records sums new old)
    : new.repType = .byte ↔ old.repType = .byte := by
  induction matching with
  | byte => exact Iff.rfl
  | nat | string | boolean | predicate | array | maybe | enumerated | record | sum =>
      exact ⟨nofun, nofun⟩
  | newNamed _ ih => exact ih
  | oldNamed _ ih => exact ih

theorem Matches.mkValueTransformation_of_byte (matching : Matches records sums new old)
    (isByte : new.repType = .byte)
    : mkValueTransformation new old = .ok none := by
  induction matching with
  | byte => rw [mkValueTransformation]
  | nat | string | boolean | predicate | array | maybe | enumerated | record | sum => cases isByte
  | newNamed _ ih => exact mkValueTransformation_newNamed.trans (ih isByte)
  | oldNamed _ ih => exact mkValueTransformation_oldNamed.trans (ih isByte)

theorem mapM_ok (terms : List Term) : terms.mapM Outcome.ok = .ok terms := by
  induction terms with
  | nil => rfl
  | cons term terms ih =>
      rw [List.mapM_cons, ih]
      rfl

theorem mapM_converts {change : Term → Outcome Term} (converts : Converts change new old)
    {terms : List Term} (typed : ∀ term ∈ terms, WellTyped new.repType term)
    : ∃ oldTerms, terms.mapM change = .ok oldTerms ∧ oldTerms.length = terms.length
        ∧ (∀ (index : Nat) (term oldTerm : Term), terms[index]? = some term →
            oldTerms[index]? = some oldTerm → View new old term oldTerm)
        ∧ ∀ oldTerm ∈ oldTerms, WellTyped old.repType oldTerm := by
  induction terms with
  | nil => exact ⟨[], rfl, rfl, nofun, nofun⟩
  | cons term terms ih =>
      rw [List.forall_mem_cons] at typed
      obtain ⟨oldTerm, changed, view, oldTyped⟩ := converts term typed.1
      obtain ⟨oldTerms, changedAll, length, views, allTyped⟩ := ih typed.2
      refine ⟨oldTerm :: oldTerms, ?_, by rw [List.length_cons, length, List.length_cons], ?_,
        List.forall_mem_cons.mpr ⟨oldTyped, allTyped⟩⟩
      · rw [List.mapM_cons, changed, changedAll]
        rfl
      · rintro (_ | index) term' oldTerm' isTerm isOldTerm
        · cases isTerm
          cases isOldTerm
          exact view
        · exact views index term' oldTerm' isTerm isOldTerm

theorem mem_wellTyped_replicate {rep : Rep} {terms : List Term}
    : WellTypeds (List.replicate terms.length rep) terms ↔ ∀ term ∈ terms, WellTyped rep term := by
  rw [wellTypeds_iff]
  constructor
  · rintro ⟨-, all⟩ term member
    obtain ⟨index, isTerm⟩ := List.mem_iff_getElem?.mp member
    have inside := (List.getElem?_eq_some_iff.mp isTerm).1
    exact all index rep term (List.getElem?_replicate_of_lt inside) isTerm
  · intro all
    refine ⟨List.length_replicate.symm, fun index rep' term isRep isTerm => ?_⟩
    obtain rfl := List.eq_of_mem_replicate (List.mem_of_getElem? isRep)
    exact all term (List.mem_of_getElem? isTerm)

theorem converts_array (matching : Matches records sums new old) {transformation : Transformation}
    (isTransformation : mkValueTransformation new old = .ok transformation)
    (converts : Converts (transformation.getD .ok) new old)
    : Converts ((transformArray transformation).getD .ok) (.array new) (.array old) := by
  intro term typed
  generalize isRep : (RtsType.array new).repType = rep at typed
  cases typed with
  | byte | nat _ | tuple _ | alt _ _ _ | string _ | ref _ => cases isRep
  | @array _ elements notByte small all =>
      cases isRep
      obtain ⟨oldElements, changed, length, views, oldTyped⟩ :=
        mapM_converts converts (mem_wellTyped_replicate.mp all)
      have oldNotByte : isByteRep old.repType = false := by
        rw [← Bool.not_eq_true, isByteRep_iff, ← matching.byte_iff, ← isByteRep_iff, notByte]
        exact Bool.false_ne_true
      refine ⟨.array oldElements, ?_, .array length views,
        .array oldNotByte (length ▸ small) (mem_wellTyped_replicate.mpr oldTyped)⟩
      cases transformation with
      | none =>
          have same : Outcome.ok elements = .ok oldElements := (mapM_ok elements).symm.trans changed
          cases same
          rfl
      | some change =>
          have changedAll : elements.mapM change = .ok oldElements := changed
          simp only [transformArray, Option.map_some, Option.getD_some, changedAll]
          rfl
  | @byteArray bytes small =>
      have isByte : new.repType = .byte := Rep.array.inj isRep
      rw [matching.mkValueTransformation_of_byte isByte] at isTransformation
      cases isTransformation
      refine ⟨.byteArray bytes, rfl, .byteArray isByte, ?_⟩
      rw [RtsType.repType, matching.byte_iff.mp isByte]
      exact .byteArray small

end Arrays

-- All types

section Types

variable {new old : RtsType}

/-- There is a transformation, it converts every value, and there is nothing to do for types of the
same shape only.
-/
structure Transforms (new old : RtsType) (transformation : Transformation) : Prop where
  isTransformation : mkValueTransformation new old = .ok transformation
  converts : Converts (transformation.getD .ok) new old
  none_iff : transformation = none ↔ SameShape new old

theorem transforms_none (isNone : mkValueTransformation new old = .ok none)
    (sameRep : ∀ term, WellTyped new.repType term → WellTyped old.repType term)
    (view : ∀ term, View new old term term) (sameShape : SameShape new old)
    : ∃ transformation, Transforms new old transformation := by
  refine ⟨none, isNone, fun term typed => ⟨term, rfl, view term, sameRep term typed⟩, ?_⟩
  exact ⟨fun _ => sameShape, fun _ => rfl⟩

section Pairs

variable {new old : List FieldDef}
  (fields
    : ∀ field ∈ new, ∀ oldField ∈ old, field.name = oldField.name →
        ∃ transformation, Transforms field.type oldField.type transformation)

include fields

/-- The transformations of the fields of two lists with different names. -/
theorem transforms_fields (newDifferent : (new.map FieldDef.name).Nodup)
    (oldDifferent : (old.map FieldDef.name).Nodup)
    : ∃ transforms, transformsFor new old = .ok transforms
        ∧ (∀ field ∈ new, ∀ oldField ∈ old, field.name = oldField.name →
            Converts (changeOf (.fromList transforms) oldField.name) field.type oldField.type)
        ∧ (transforms = [] ↔ ∀ field ∈ new, ∀ oldField ∈ old, field.name = oldField.name →
            SameShape field.type oldField.type) := by
  have convertible (field : FieldDef) (inNew : field ∈ new) (oldField : FieldDef)
      (inOld : oldField ∈ old) (sameName : field.name = oldField.name)
      : ∃ transformation, mkValueTransformation field.type oldField.type = .ok transformation := by
    obtain ⟨transformation, transforms⟩ := fields field inNew oldField inOld sameName
    exact ⟨transformation, transforms.isTransformation⟩
  obtain ⟨transforms, isTransforms, areTransforms⟩ := transformsFor_ok convertible
  refine ⟨transforms, isTransforms, ?_, ?_⟩
  · intro field inNew oldField inOld sameName
    obtain ⟨transformation, transformsField⟩ := fields field inNew oldField inOld sameName
    rw [changeOf_eq newDifferent oldDifferent areTransforms inNew inOld sameName
      transformsField.isTransformation]
    exact transformsField.converts
  · rw [areTransforms_eq_nil_iff areTransforms convertible]
    refine forall₂_congr fun field inNew => forall₂_congr fun oldField inOld => forall_congr'
      fun sameName => ?_
    obtain ⟨transformation, transformsField⟩ := fields field inNew oldField inOld sameName
    rw [transformsField.isTransformation, Outcome.ok.injEq, transformsField.none_iff]

omit fields in
theorem sameShape_record_iff
    : SameShape (.record new) (.record old)
      ↔ new.map FieldDef.name = old.map FieldDef.name
        ∧ ∀ field ∈ new, ∀ oldField ∈ old, field.name = oldField.name →
            SameShape field.type oldField.type := by
  constructor
  · rintro (_ | _ | _ | _ | _ | _ | _ | _ | ⟨names, fields⟩)
    exact ⟨names, fields⟩
  · exact fun ⟨names, fields⟩ => .record names fields

omit fields in
theorem sameShape_sum_iff
    : SameShape (.sum new) (.sum old)
      ↔ new.map FieldDef.name = old.map FieldDef.name
        ∧ ∀ field ∈ new, ∀ oldField ∈ old, field.name = oldField.name →
            SameShape field.type oldField.type := by
  constructor
  · rintro (_ | _ | _ | _ | _ | _ | _ | _ | _ | ⟨names, fields⟩)
    exact ⟨names, fields⟩
  · exact fun ⟨names, fields⟩ => .sum names fields

omit fields in
theorem transformRecord_eq_none_iff {transforms : List (Name × (Term → Outcome Term))}
    {fromNames toNames : List Name}
    : transformRecord fromNames toNames (.fromList transforms) = none
      ↔ fromNames = toNames ∧ transforms = [] := by
  rw [← fromList_isEmpty_iff, transformRecord, ite_eq_left_iff]
  exact ⟨fun all => by_contra fun changed => Option.some_ne_none _ (all changed),
    fun unchanged changed => absurd unchanged changed⟩

omit fields in
theorem transformSum_eq_none_iff {transforms : List (Name × (Term → Outcome Term))}
    {fromNames toNames : List Name}
    : transformSum fromNames toNames (.fromList transforms) = none
      ↔ fromNames = toNames ∧ transforms = [] := by
  rw [← fromList_isEmpty_iff, transformSum, ite_eq_left_iff]
  exact ⟨fun all => by_contra fun changed => Option.some_ne_none _ (all changed),
    fun unchanged changed => absurd unchanged changed⟩

theorem transforms_record (inPlace : old.map FieldDef.name <+: new.map FieldDef.name)
    (newDifferent : (new.map FieldDef.name).Nodup) (oldDifferent : (old.map FieldDef.name).Nodup)
    : ∃ transformation, Transforms (.record new) (.record old) transformation := by
  obtain ⟨transforms, isTransforms, each, nil_iff⟩ :=
    transforms_fields fields newDifferent oldDifferent
  refine ⟨_, ?_, converts_record inPlace each, ?_⟩
  · rw [mkValueTransformation, isTransforms]
    rfl
  · rw [transformRecord_eq_none_iff, sameShape_record_iff, nil_iff]

omit fields in
theorem transforms_sum {transforms : List (Name × (Term → Outcome Term))}
    (isTransforms : transformsFor new old = .ok transforms)
    (each
      : ∀ field ∈ new, ∀ oldField ∈ old, field.name = oldField.name →
          Converts (changeOf (.fromList transforms) oldField.name) field.type oldField.type)
    (nil_iff
      : transforms = [] ↔ ∀ field ∈ new, ∀ oldField ∈ old, field.name = oldField.name →
          SameShape field.type oldField.type)
    (sameNames : SameNames (new.map FieldDef.name) (old.map FieldDef.name))
    (small : old.length < 2 ^ 63)
    : ∃ transformation, Transforms (.sum new) (.sum old) transformation := by
  refine ⟨_, ?_, converts_sum sameNames small each, ?_⟩
  · rw [mkValueTransformation, isTransforms]
    rfl
  · rw [transformSum_eq_none_iff, sameShape_sum_iff, nil_iff]

end Pairs

theorem transforms_unit : Transforms RtsType.unit RtsType.unit none := by
  obtain ⟨transformation, transforms⟩
      : ∃ transformation, Transforms (.record []) (.record []) transformation :=
    transforms_record nofun List.prefix_rfl List.nodup_nil List.nodup_nil
  have isNone : mkValueTransformation RtsType.unit RtsType.unit = .ok none := by
    rw [RtsType.unit, mkValueTransformation, transformsFor]
    rfl
  have same := transforms.isTransformation.symm.trans isNone
  cases same
  exact transforms

/-- A type has the transformation of the sum that it stands for. -/
theorem Transforms.lowered {newSum oldSum : RtsType} {transformation : Transformation}
    (transforms : Transforms newSum oldSum transformation)
    (same : mkValueTransformation new old = mkValueTransformation newSum oldSum)
    (newRep : newSum.repType = new.repType) (oldRep : oldSum.repType = old.repType)
    (view : ∀ term oldTerm, View newSum oldSum term oldTerm → View new old term oldTerm)
    (sameShape : SameShape newSum oldSum ↔ SameShape new old)
    : Transforms new old transformation where
  isTransformation := same.trans transforms.isTransformation
  converts := by
    intro term typed
    obtain ⟨oldTerm, changed, isView, oldTyped⟩ := transforms.converts term (newRep ▸ typed)
    exact ⟨oldTerm, changed, view term oldTerm isView, oldRep ▸ oldTyped⟩
  none_iff := transforms.none_iff.trans sameShape

theorem nothing_ne_just : ("nothing" : Name) ≠ "just" := by decide

theorem transforms_maybe {transformation : Transformation}
    (transforms : Transforms new old transformation)
    : ∃ transformation, Transforms (.maybe new) (.maybe old) transformation := by
  have fields (field : FieldDef) (inNew : field ∈ RtsType.maybeFields new) (oldField : FieldDef)
      (inOld : oldField ∈ RtsType.maybeFields old) (sameName : field.name = oldField.name)
      : ∃ transformation, Transforms field.type oldField.type transformation := by
    simp only [RtsType.maybeFields, List.mem_cons, List.not_mem_nil, or_false] at inNew inOld
    rcases inNew with rfl | rfl <;> rcases inOld with rfl | rfl
    · exact ⟨none, transforms_unit⟩
    · exact absurd sameName nothing_ne_just
    · exact absurd sameName.symm nothing_ne_just
    · exact ⟨transformation, transforms⟩
  have different (type : RtsType) : ((RtsType.maybeFields type).map FieldDef.name).Nodup := by
    change ["nothing", "just"].Nodup
    decide
  obtain ⟨list, isList, each, nil_iff⟩ := transforms_fields fields (different new) (different old)
  obtain ⟨transformation', transforms'⟩ :=
    transforms_sum isList each nil_iff (fun _ => Iff.rfl) (by change 2 < 2 ^ 63; omega)
  refine ⟨transformation', transforms'.lowered (by rw [mkValueTransformation]; rfl) rfl rfl
    (fun _ _ => .maybe) ?_⟩
  rw [sameShape_sum_iff]
  constructor
  · rintro ⟨-, shapes⟩
    exact .maybe (shapes (.mk "just" new) (by simp [RtsType.maybeFields]) (.mk "just" old)
      (by simp [RtsType.maybeFields]) rfl)
  · rintro (_ | _ | _ | _ | _ | _ | shape)
    refine ⟨rfl, fun field inNew oldField inOld sameName => ?_⟩
    obtain ⟨_, transformsField⟩ := fields field inNew oldField inOld sameName
    simp only [RtsType.maybeFields, List.mem_cons, List.not_mem_nil, or_false] at inNew inOld
    rcases inNew with rfl | rfl <;> rcases inOld with rfl | rfl
    · exact transforms_unit.none_iff.mp rfl
    · exact absurd sameName nothing_ne_just
    · exact absurd sameName.symm nothing_ne_just
    · exact shape

theorem names_enumFields (names : List Name)
    : (RtsType.enumFields names).map FieldDef.name = names := by
  rw [RtsType.enumFields, List.map_map]
  exact List.map_id names

/-- The alternatives of an enumeration have nothing to transform, even where names are repeated. -/
theorem transforms_enumerated {new old : List Name} (sameNames : SameNames new old)
    (small : old.length < 2 ^ 63)
    : ∃ transformation, Transforms (.enumerated new) (.enumerated old) transformation := by
  have isUnit {names : List Name} {field : FieldDef} (member : field ∈ RtsType.enumFields names)
      : field.type = .unit := by
    obtain ⟨name, -, rfl⟩ := List.mem_map.mp member
    rfl
  have isNone (field : FieldDef) (inNew : field ∈ RtsType.enumFields new) (oldField : FieldDef)
      (inOld : oldField ∈ RtsType.enumFields old)
      : mkValueTransformation field.type oldField.type = .ok none := by
    rw [isUnit inNew, isUnit inOld]
    exact transforms_unit.isTransformation
  obtain ⟨list, isList, areTransforms⟩ :=
    transformsFor_ok fun field inNew oldField inOld _ =>
      ⟨none, isNone field inNew oldField inOld⟩
  have noTransforms : list = [] := by
    refine List.eq_nil_iff_forall_not_mem.mpr fun (name, change) member => ?_
    obtain ⟨field, inNew, oldField, inOld, -, -, isChange⟩ := (areTransforms name change).mp member
    rw [isNone field inNew oldField inOld] at isChange
    cases isChange
  subst noTransforms
  have shapes (field : FieldDef) (inNew : field ∈ RtsType.enumFields new) (oldField : FieldDef)
      (inOld : oldField ∈ RtsType.enumFields old)
      : SameShape field.type oldField.type := by
    rw [isUnit inNew, isUnit inOld]
    exact transforms_unit.none_iff.mp rfl
  obtain ⟨transformation, transforms⟩
      : ∃ transformation,
          Transforms (RtsType.lowerEnum new) (RtsType.lowerEnum old) transformation := by
    refine transforms_sum isList ?_ ?_ ?_ ?_
    · intro field inNew oldField inOld _
      rw [isUnit inNew, isUnit inOld]
      exact transforms_unit.converts
    · exact ⟨fun _ field inNew oldField inOld _ => shapes field inNew oldField inOld, fun _ => rfl⟩
    · rw [names_enumFields, names_enumFields]
      exact sameNames
    · rw [RtsType.enumFields, List.length_map]
      exact small
  refine ⟨transformation, transforms.lowered (by rw [mkValueTransformation])
    (RtsType.repType_lowerEnum new) (RtsType.repType_lowerEnum old) (fun _ _ => .enumerated) ?_⟩
  rw [RtsType.lowerEnum, RtsType.lowerEnum, sameShape_sum_iff, names_enumFields, names_enumFields]
  constructor
  · rintro ⟨rfl, -⟩
    exact .enumerated rfl
  · rintro (_ | _ | _ | _ | _ | _ | _ | ⟨⟨⟩⟩)
    exact ⟨rfl, fun field inNew oldField inOld _ => shapes field inNew oldField inOld⟩

/-- Where the old fields come first in every record, values are converted as they should be. -/
theorem transforms_of_inPlace (inPlace : InPlace new old) (newWellFormed : new.WellFormed)
    (oldWellFormed : old.WellFormed)
    : ∃ transformation, Transforms new old transformation := by
  unfold InPlace at inPlace
  induction inPlace with
  | byte =>
      exact transforms_none (by rw [mkValueTransformation]) (fun _ => id) (fun _ => .byte) .byte
  | nat => exact transforms_none (by rw [mkValueTransformation]) (fun _ => id) (fun _ => .nat) .nat
  | string =>
      exact transforms_none (by rw [mkValueTransformation]) (fun _ => id) (fun _ => .string) .string
  | boolean =>
      exact transforms_none (by rw [mkValueTransformation]) (fun _ => id) (fun _ => .boolean)
        .boolean
  | predicate =>
      refine transforms_none (by rw [mkValueTransformation]) ?_ (fun _ => .predicate) .predicate
      rintro _ (_ | _ | _ | _ | _ | _ | _ | small)
      exact .ref small
  | @array new old element ih =>
      obtain ⟨transformation, transforms⟩ := ih newWellFormed oldWellFormed
      refine ⟨transformArray transformation, ?_, ?_, ?_⟩
      · rw [mkValueTransformation, transforms.isTransformation]
        rfl
      · exact converts_array element transforms.isTransformation transforms.converts
      · rw [transformArray, Option.map_eq_none_iff, transforms.none_iff]
        constructor
        · exact .array
        · rintro (_ | _ | _ | _ | _ | shape)
          exact shape
  | maybe _ ih =>
      obtain ⟨transformation, transforms⟩ := ih newWellFormed oldWellFormed
      exact transforms_maybe transforms
  | enumerated names => exact transforms_enumerated names oldWellFormed
  | @record new old names _ ih =>
      obtain ⟨newDifferent, newFields⟩ := newWellFormed
      obtain ⟨oldDifferent, oldFields⟩ := oldWellFormed
      rw [RtsType.fieldsWellFormed_iff] at newFields oldFields
      refine transforms_record ?_ names newDifferent oldDifferent
      exact fun field inNew oldField inOld sameName =>
        ih field inNew oldField inOld sameName (newFields field inNew) (oldFields oldField inOld)
  | @sum new old names _ ih =>
      obtain ⟨newDifferent, -, newFields⟩ := newWellFormed
      obtain ⟨oldDifferent, small, oldFields⟩ := oldWellFormed
      rw [RtsType.fieldsWellFormed_iff] at newFields oldFields
      have fields (field : FieldDef) (inNew : field ∈ new) (oldField : FieldDef)
          (inOld : oldField ∈ old) (sameName : field.name = oldField.name)
          : ∃ transformation, Transforms field.type oldField.type transformation :=
        ih field inNew oldField inOld sameName (newFields field inNew) (oldFields oldField inOld)
      obtain ⟨list, isList, each, nil_iff⟩ := transforms_fields fields newDifferent oldDifferent
      exact transforms_sum isList each nil_iff names small
  | newNamed _ ih =>
      obtain ⟨transformation, transforms⟩ := ih newWellFormed oldWellFormed
      exact ⟨transformation, transforms.lowered mkValueTransformation_newNamed rfl rfl
        (fun _ _ => .newNamed) ⟨.newNamed, Matches.of_newNamed⟩⟩
  | oldNamed _ ih =>
      obtain ⟨transformation, transforms⟩ := ih newWellFormed oldWellFormed
      exact ⟨transformation, transforms.lowered mkValueTransformation_oldNamed rfl rfl
        (fun _ _ => .oldNamed) ⟨.oldNamed, Matches.of_oldNamed⟩⟩

end Types

end Glean.Schema
