import Glean.Query.EvolveValues
import Glean.Schema.StoredTypes
import Mathlib.Data.List.Forall2

/-! When the facts of an evolved predicate become the facts of the old predicate that they stand
for. Records are converted field by field, in the order of the new type but under the names of the
old one, and facts that have nothing to convert keep the id of the new predicate.
-/

namespace Glean.Schema

open Glean.RTS ValueCodec

/-- The check of the schema takes the new type as an evolution of the old one. -/
def Accepted (new old : RtsType) : Prop :=
  ∃ evolvedBy newTypes oldTypes lookupNew lookupOld lookupPid newSource oldSource fuel,
    Expands newTypes lookupNew lookupPid ∧ Expands oldTypes lookupOld lookupPid
    ∧ mkRtsType lookupNew lookupPid newSource = some new
    ∧ mkRtsType lookupOld lookupPid oldSource = some old
    ∧ backCompatible evolvedBy newTypes oldTypes fuel newSource oldSource = .ok ()

theorem Accepted.compatible {new old : RtsType} (accepted : Accepted new old)
    (wellFormed : old.WellFormed)
    : Compatible new old := by
  obtain ⟨_, _, _, _, _, _, _, _, _, expandsNew, expandsOld, isNew, isOld, passes⟩ := accepted
  exact compatible_of_backCompatible expandsNew expandsOld isNew isOld wellFormed passes

/-- Values of the new type are converted to their old views, and where nothing is done to them
they are their own.
-/
def ConvertsBack (new old : RtsType) : Prop :=
  ∃ transformation, mkValueTransformation new old = .ok transformation
    ∧ Converts (transformation.getD .ok) new old
    ∧ (transformation = none → ∀ term, WellTyped new.repType term → View new old term term)

theorem Transforms.convertsBack {new old : RtsType} {transformation : Transformation}
    (transforms : Transforms new old transformation)
    : ConvertsBack new old := by
  refine ⟨transformation, transforms.isTransformation, transforms.converts, ?_⟩
  rintro rfl term typed
  obtain ⟨_, same, view, -⟩ := transforms.converts term typed
  cases same
  exact view

/-- At the place of an old field the new record has another one, the record has values, and there
are two contents of the field that the old type can tell apart.
-/
structure Misplaced (new old : List FieldDef) : Prop where
  exists_apart
    : ∃ (index position : Nat) (field oldField named : FieldDef) (contents : List Term)
        (content other : Term),
        new[index]? = some field ∧ old[index]? = some oldField ∧ field.name ≠ oldField.name
        ∧ new[position]? = some named ∧ named.name = oldField.name
        ∧ WellTypeds (RtsType.fieldReps new) contents
        ∧ WellTyped named.type.repType content ∧ WellTyped named.type.repType other
        ∧ ∀ oldContent, View named.type oldField.type content oldContent →
            ¬ View named.type oldField.type other oldContent

section Misplaced

variable {new old : List FieldDef}

theorem wellTypeds_set {reps : List Rep} {terms : List Term} (typed : WellTypeds reps terms)
    {position : Nat} {rep : Rep} {term : Term} (isRep : reps[position]? = some rep)
    (termTyped : WellTyped rep term)
    : WellTypeds reps (terms.set position term) := by
  obtain ⟨length, all⟩ := wellTypeds_iff.mp typed
  refine wellTypeds_iff.mpr ⟨by rw [List.length_set, length], ?_⟩
  intro index rep' term' isRep' isTerm'
  rw [List.getElem?_set] at isTerm'
  split at isTerm'
  next same =>
    subst same
    rw [isRep] at isRep'
    cases isRep'
    split at isTerm'
    next =>
      cases isTerm'
      exact termTyped
    next => cases isTerm'
  next => exact all index rep' term' isRep' isTerm'

/-- The old view of a record has the view of the content at the place of the field's name. -/
theorem View.record_content (different : (new.map FieldDef.name).Nodup) {contents : List Term}
    {oldTerm : Term} (view : View (.record new) (.record old) (.tuple contents) oldTerm)
    {index position : Nat} {oldField named : FieldDef} {content : Term}
    (isOld : old[index]? = some oldField) (isNamed : new[position]? = some named)
    (sameName : named.name = oldField.name) (isContent : contents[position]? = some content)
    : ∃ oldContents oldContent, oldTerm = .tuple oldContents
        ∧ oldContents[index]? = some oldContent
        ∧ View named.type oldField.type content oldContent := by
  cases view with
  | @record _ _ _ oldContents place length names views =>
      obtain ⟨field, isField, isName⟩ := names index oldField isOld
      have samePlace : place index = position := by
        have isName' := getElem?_names.mpr ⟨field, isField, isName⟩
        have isName'' := getElem?_names.mpr ⟨named, isNamed, sameName⟩
        exact (List.getElem?_inj (List.getElem?_eq_some_iff.mp isName').1 different).mp
          (isName'.trans isName''.symm)
      have inside : index < oldContents.length := by
        have inOld := (List.getElem?_eq_some_iff.mp isOld).1
        omega
      refine ⟨oldContents, oldContents[index], rfl, List.getElem?_eq_getElem inside, ?_⟩
      exact views index named oldField content _ (samePlace ▸ isNamed) isOld
        (samePlace ▸ isContent) (List.getElem?_eq_getElem inside)

/-- A misplaced field is not converted: the result has what stands at its place. -/
theorem Misplaced.not_convertsBack (misplaced : Misplaced new old)
    (different : (new.map FieldDef.name).Nodup)
    : ¬ ConvertsBack (.record new) (.record old) := by
  rintro ⟨transformation, isTransformation, converts, -⟩
  obtain ⟨index, position, field, oldField, named, contents, content, other, isField, isOld, differs,
    isNamed, sameName, typed, contentTyped, otherTyped, apart⟩ := misplaced.exists_apart
  rw [mkValueTransformation] at isTransformation
  obtain ⟨list, -, isTransformation⟩ := Outcome.bind_eq_ok.mp isTransformation
  cases isTransformation
  have notInPlace : position ≠ index := by
    rintro rfl
    rw [isField] at isNamed
    cases isNamed
    exact differs sameName
  have changed : new.map FieldDef.name ≠ old.map FieldDef.name := by
    intro same
    have isName := getElem?_names.mpr ⟨field, isField, rfl⟩
    have isOldName := getElem?_names.mpr ⟨oldField, isOld, rfl⟩
    rw [same, isOldName] at isName
    exact differs (Option.some.inj isName).symm
  -- whatever the content of the field is, the result has the same at its place
  have resultOf {content : Term} (contentTyped : WellTyped named.type.repType content)
      : ∃ oldContent, View named.type oldField.type content oldContent
          ∧ ∃ here, contents[index]? = some here
            ∧ changeOf (.fromList list) oldField.name here = .ok oldContent := by
    have allTyped := wellTypeds_set typed (getElem?_fieldReps.mpr ⟨named, isNamed, rfl⟩) contentTyped
    obtain ⟨oldTerm, isResult, view, -⟩ := converts _ (.tuple allTyped)
    rw [transformRecord, if_neg fun same => changed same.1, Option.getD_some] at isResult
    obtain ⟨oldContents, isChanged, isTuple⟩ := Outcome.bind_eq_ok.mp isResult
    cases isTuple
    have length := (wellTypeds_iff.mp typed).1
    rw [length_fieldReps] at length
    have inside : position < contents.length := by
      have inNew := (List.getElem?_eq_some_iff.mp isNamed).1
      omega
    have isContent : (contents.set position content)[position]? = some content :=
      List.getElem?_set_self inside
    obtain ⟨_, oldContent, ⟨⟩, isOldContent, contentView⟩ :=
      view.record_content different isOld isNamed sameName isContent
    have inHere : index < contents.length := by
      have inNew := (List.getElem?_eq_some_iff.mp isField).1
      omega
    have isHere : (contents.set position content)[index]? = some contents[index] := by
      rw [List.getElem?_set_ne notInPlace, List.getElem?_eq_getElem inHere]
    exact ⟨oldContent, contentView, contents[index], List.getElem?_eq_getElem inHere,
      changeFields_getElem? isChanged (getElem?_names.mpr ⟨oldField, isOld, rfl⟩) isHere
        isOldContent⟩
  obtain ⟨oldContent, view, here, isHere, change⟩ := resultOf contentTyped
  obtain ⟨oldContent', view', here', isHere', change'⟩ := resultOf otherTyped
  rw [isHere] at isHere'
  cases isHere'
  rw [change] at change'
  cases change'
  exact apart oldContent view view'

end Misplaced

/-- A predicate as an accepted evolution of another one. -/
structure Evolution (detailsFrom detailsTo : PredicateDetails) : Prop where
  key : Accepted detailsFrom.keyType detailsTo.keyType
  value : Accepted detailsFrom.valueType detailsTo.valueType
  fromKey : detailsFrom.keyType.WellFormed
  fromValue : detailsFrom.valueType.WellFormed
  toKey : detailsTo.keyType.WellFormed
  toValue : detailsTo.valueType.WellFormed

/-- The old fields come first in all records, and there is something to convert. -/
structure ConvertedInPlace (detailsFrom detailsTo : PredicateDetails) : Prop where
  key : InPlace detailsFrom.keyType detailsTo.keyType
  value : InPlace detailsFrom.valueType detailsTo.valueType
  changed
    : ¬ (SameShape detailsFrom.keyType detailsTo.keyType
      ∧ SameShape detailsFrom.valueType detailsTo.valueType)

/-- The facts of one predicate are seen as those of another one. -/
structure Mapped (lookupPid : Pid → Option PredicateDetails) (mappings : AssocMap Pid Pid)
    (pid : Pid) (detailsFrom detailsTo : PredicateDetails)
    : Prop where
  mapping : mappings.lookup pid = some detailsTo.pid
  isFrom : lookupPid pid = some detailsFrom
  isTo : lookupPid detailsTo.pid = some detailsTo

section Facts

variable {varint : Varint} {u8 : U8Next} {lookupPid : Pid → Option PredicateDetails}
  {mappings : AssocMap Pid Pid} {detailsFrom detailsTo : PredicateDetails} {fact : ResultFact}

/-- Bytes that are read as a value of a type. -/
def Encodes (varint : Varint) (u8 : U8Next) (type : RtsType) (bytes : Bytes) (term : Term)
    : Prop :=
  ValueCodec.toValue varint u8 type.repType bytes = .ok term ∧ WellTyped type.repType term

/-- Bytes that are the encoding of the old view of a value. -/
def EncodesView (varint : Varint) (new old : RtsType) (term : Term) (bytes : Bytes) : Prop :=
  ∃ oldTerm, bytes = ValueCodec.fromValue varint oldTerm ∧ View new old term oldTerm
    ∧ WellTyped old.repType oldTerm

/-- A fact of the new predicate and the fact of the old one that it stands for. -/
structure FactView (varint : Varint) (u8 : U8Next) (detailsFrom detailsTo : PredicateDetails)
    (fact oldFact : ResultFact)
    : Prop where
  pid : oldFact.pid = detailsTo.pid
  key
    : ∀ term, Encodes varint u8 detailsFrom.keyType fact.key term →
        EncodesView varint detailsFrom.keyType detailsTo.keyType term oldFact.key
  value
    : ∀ term, Encodes varint u8 detailsFrom.valueType fact.value term →
        EncodesView varint detailsFrom.valueType detailsTo.valueType term oldFact.value

/-- Facts of evolved predicates are read as values of the types of these. -/
def WellTypedFact (varint : Varint) (u8 : U8Next) (lookupPid : Pid → Option PredicateDetails)
    (mappings : AssocMap Pid Pid) (fact : ResultFact)
    : Prop :=
  ∀ detailsFrom detailsTo, Mapped lookupPid mappings fact.pid detailsFrom detailsTo →
    (∃ term, Encodes varint u8 detailsFrom.keyType fact.key term)
    ∧ ∃ term, Encodes varint u8 detailsFrom.valueType fact.value term

theorem transformationOf_mapped {pid : Pid}
    (mapped : Mapped lookupPid mappings pid detailsFrom detailsTo)
    : transformationOf varint u8 lookupPid mappings pid
      = mkFactTransformation varint u8 detailsFrom detailsTo := by
  unfold transformationOf
  simp only [mapped.mapping, mapped.isFrom, mapped.isTo]

theorem transformBytes_ok {new old : RtsType} {transformation : Transformation}
    (transforms : Transforms new old transformation) {bytes : Bytes}
    (encodes : ∃ term, Encodes varint u8 new bytes term)
    : ∃ oldBytes, transformBytes varint u8 new.repType transformation bytes = .ok oldBytes
        ∧ ∀ term, Encodes varint u8 new bytes term →
            EncodesView varint new old term oldBytes := by
  obtain ⟨term, isTerm, typed⟩ := encodes
  obtain ⟨oldTerm, changed, view, oldTyped⟩ := transforms.converts term typed
  refine ⟨ValueCodec.fromValue varint oldTerm, ?_, ?_⟩
  · rw [transformBytes, isTerm, Outcome.ok_bind, changed]
    rfl
  · rintro other ⟨isOther, -⟩
    rw [isTerm] at isOther
    cases isOther
    exact ⟨oldTerm, rfl, view, oldTyped⟩

/-- A fact of an evolved predicate becomes the fact that it stands for. -/
theorem unEvolveFact_mapped (mapped : Mapped lookupPid mappings fact.pid detailsFrom detailsTo)
    (evolution : Evolution detailsFrom detailsTo)
    (inPlace : ConvertedInPlace detailsFrom detailsTo)
    (typed : WellTypedFact varint u8 lookupPid mappings fact)
    : ∃ oldFact, unEvolveFact varint u8 lookupPid mappings fact = .ok oldFact
        ∧ FactView varint u8 detailsFrom detailsTo fact oldFact := by
  obtain ⟨transformKey, keyTransforms⟩ :=
    transforms_of_inPlace inPlace.key evolution.fromKey evolution.toKey
  obtain ⟨transformValue, valueTransforms⟩ :=
    transforms_of_inPlace inPlace.value evolution.fromValue evolution.toValue
  have changed : ¬ (transformKey.isNone && transformValue.isNone) = true := by
    rw [Bool.and_eq_true, Option.isNone_iff_eq_none, Option.isNone_iff_eq_none,
      keyTransforms.none_iff, valueTransforms.none_iff]
    exact inPlace.changed
  obtain ⟨keyTyped, valueTyped⟩ := typed detailsFrom detailsTo mapped
  obtain ⟨oldKey, isKey, keyView⟩ := transformBytes_ok keyTransforms keyTyped
  obtain ⟨oldValue, isValue, valueView⟩ := transformBytes_ok valueTransforms valueTyped
  refine ⟨⟨detailsTo.pid, oldKey, oldValue⟩, ?_, ⟨rfl, keyView, valueView⟩⟩
  rw [unEvolveFact, transformationOf_mapped mapped, mkFactTransformation,
    keyTransforms.isTransformation, Outcome.ok_bind, valueTransforms.isTransformation,
    Outcome.ok_bind, if_neg changed]
  simp only [Outcome.pure_eq, Outcome.ok_bind, isKey, isValue]

theorem unEvolveFact_unmapped (unmapped : mappings.lookup fact.pid = none)
    : unEvolveFact varint u8 lookupPid mappings fact = .ok fact := by
  rw [unEvolveFact, transformationOf, unmapped]
  rfl

/-- A fact keeps its predicate when its key and value have the same shape as the old ones. -/
theorem unEvolveFact_sameShape (mapped : Mapped lookupPid mappings fact.pid detailsFrom detailsTo)
    (evolution : Evolution detailsFrom detailsTo)
    (keyShape : SameShape detailsFrom.keyType detailsTo.keyType)
    (valueShape : SameShape detailsFrom.valueType detailsTo.valueType)
    : unEvolveFact varint u8 lookupPid mappings fact = .ok fact := by
  have inPlace {new old : RtsType} (shape : SameShape new old) : InPlace new old :=
    shape.mono (fun _ _ same => same ▸ List.prefix_rfl) (fun _ _ same _ => same ▸ Iff.rfl)
  obtain ⟨transformKey, keyTransforms⟩ :=
    transforms_of_inPlace (inPlace keyShape) evolution.fromKey evolution.toKey
  obtain ⟨transformValue, valueTransforms⟩ :=
    transforms_of_inPlace (inPlace valueShape) evolution.fromValue evolution.toValue
  obtain rfl := keyTransforms.none_iff.mpr keyShape
  obtain rfl := valueTransforms.none_iff.mpr valueShape
  rw [unEvolveFact, transformationOf_mapped mapped, mkFactTransformation,
    keyTransforms.isTransformation, Outcome.ok_bind, valueTransforms.isTransformation,
    Outcome.ok_bind]
  rfl

/-- The facts of a result and what they stand for: those of evolved predicates are seen as facts of
the old ones, others are the same, and all have their ids.
-/
def FactViews (varint : Varint) (u8 : U8Next) (lookupPid : Pid → Option PredicateDetails)
    (mappings : AssocMap Pid Pid)
    : List (Id × ResultFact) → List (Id × ResultFact) → Prop :=
  List.Forall₂ fun entry oldEntry =>
    oldEntry.1 = entry.1
    ∧ (mappings.lookup entry.2.pid = none → oldEntry.2 = entry.2)
    ∧ ∀ detailsFrom detailsTo, Mapped lookupPid mappings entry.2.pid detailsFrom detailsTo →
        FactView varint u8 detailsFrom detailsTo entry.2 oldEntry.2

theorem unEvolveFacts_ok {facts : List (Id × ResultFact)}
    (each
      : ∀ entry ∈ facts, ∃ oldFact,
          unEvolveFact varint u8 lookupPid mappings entry.2 = .ok oldFact
          ∧ (mappings.lookup entry.2.pid = none → oldFact = entry.2)
          ∧ ∀ detailsFrom detailsTo, Mapped lookupPid mappings entry.2.pid detailsFrom detailsTo →
              FactView varint u8 detailsFrom detailsTo entry.2 oldFact)
    : ∃ oldFacts, unEvolveFacts varint u8 lookupPid mappings facts = .ok oldFacts
        ∧ FactViews varint u8 lookupPid mappings facts oldFacts := by
  induction facts with
  | nil => exact ⟨[], rfl, .nil⟩
  | cons entry facts ih =>
      obtain ⟨id, fact⟩ := entry
      rw [List.forall_mem_cons] at each
      obtain ⟨oldFact, isOld, same, view⟩ := each.1
      obtain ⟨oldFacts, areOld, views⟩ := ih each.2
      refine ⟨(id, oldFact) :: oldFacts, ?_, .cons ⟨rfl, same, view⟩ views⟩
      rw [unEvolveFacts] at areOld ⊢
      dsimp only at isOld
      rw [List.mapM_cons, areOld]
      dsimp only
      rw [isOld]
      rfl

/-- Every mapping is from a predicate to one that it evolves. -/
def AllEvolutions (lookupPid : Pid → Option PredicateDetails) (mappings : AssocMap Pid Pid)
    : Prop :=
  ∀ pid pidTo, mappings.lookup pid = some pidTo →
    ∃ detailsFrom detailsTo, Mapped lookupPid mappings pid detailsFrom detailsTo
      ∧ Evolution detailsFrom detailsTo

theorem Mapped.unique {pid : Pid} {detailsFrom' detailsTo' : PredicateDetails}
    (mapped : Mapped lookupPid mappings pid detailsFrom detailsTo)
    (mapped' : Mapped lookupPid mappings pid detailsFrom' detailsTo')
    : detailsFrom = detailsFrom' ∧ detailsTo = detailsTo' := by
  have samePid := Option.some.inj (mapped.mapping.symm.trans mapped'.mapping)
  have sameTo := mapped.isTo
  rw [samePid, mapped'.isTo] at sameTo
  exact ⟨Option.some.inj (mapped.isFrom.symm.trans mapped'.isFrom), (Option.some.inj sameTo).symm⟩

/-- All facts of a result become the facts that they stand for. -/
theorem unEvolveResults_ok (evolutions : AllEvolutions lookupPid mappings)
    (inPlace
      : ∀ pid detailsFrom detailsTo, Mapped lookupPid mappings pid detailsFrom detailsTo →
          ConvertedInPlace detailsFrom detailsTo)
    {results : QueryResults}
    (typed
      : ∀ entry ∈ results.facts ++ results.nestedFacts,
          WellTypedFact varint u8 lookupPid mappings entry.2)
    : ∃ oldResults, unEvolveResults varint u8 lookupPid mappings results = .ok oldResults
        ∧ FactViews varint u8 lookupPid mappings results.facts oldResults.facts
        ∧ FactViews varint u8 lookupPid mappings results.nestedFacts oldResults.nestedFacts := by
  have each (entry : Id × ResultFact) (member : entry ∈ results.facts ++ results.nestedFacts)
      : ∃ oldFact, unEvolveFact varint u8 lookupPid mappings entry.2 = .ok oldFact
          ∧ (mappings.lookup entry.2.pid = none → oldFact = entry.2)
          ∧ ∀ detailsFrom detailsTo, Mapped lookupPid mappings entry.2.pid detailsFrom detailsTo →
              FactView varint u8 detailsFrom detailsTo entry.2 oldFact := by
    cases isMapped : mappings.lookup entry.2.pid with
    | none =>
        refine ⟨entry.2, unEvolveFact_unmapped isMapped, fun _ => rfl, ?_⟩
        intro detailsFrom detailsTo mapped
        have isMapping := mapped.mapping
        rw [isMapped] at isMapping
        cases isMapping
    | some pidTo =>
        obtain ⟨detailsFrom, detailsTo, mapped, evolution⟩ := evolutions _ _ isMapped
        obtain ⟨oldFact, isOld, view⟩ := unEvolveFact_mapped mapped evolution
          (inPlace _ _ _ mapped) (typed entry member)
        refine ⟨oldFact, isOld, nofun, ?_⟩
        intro detailsFrom' detailsTo' mapped'
        obtain ⟨rfl, rfl⟩ := mapped.unique mapped'
        exact view
  obtain ⟨oldFacts, areFacts, views⟩ :=
    unEvolveFacts_ok fun entry member => each entry (List.mem_append_left _ member)
  obtain ⟨oldNested, areNested, nestedViews⟩ :=
    unEvolveFacts_ok fun entry member => each entry (List.mem_append_right _ member)
  unfold unEvolveResults
  split
  next isEmpty =>
    -- without mappings the facts are the same, which is what the conversion gives as well
    have noMapping (pid : Pid) : mappings.lookup pid = none := by
      rw [AssocMap.lookup, List.isEmpty_iff.mp isEmpty]
      rfl
    have viewsSame (facts : List (Id × ResultFact))
        : FactViews varint u8 lookupPid mappings facts facts := by
      refine List.forall₂_same.mpr fun entry _ => ⟨rfl, fun _ => rfl, fun _ _ mapped => ?_⟩
      have isMapping := mapped.mapping
      rw [noMapping] at isMapping
      cases isMapping
    exact ⟨results, rfl, viewsSame _, viewsSame _⟩
  next =>
    refine ⟨⟨oldFacts, oldNested⟩, ?_, views, nestedViews⟩
    rw [areFacts, Outcome.ok_bind, areNested]
    rfl

end Facts

/-- Values and facts of evolved predicates are converted back when the old fields come first in all
records and there is something to convert. Facts of the same shape keep the id of the new
predicate, and misplaced fields are not converted.
-/
theorem unEvolveResults_correct (varint : Varint) (u8 : U8Next)
    (lookupPid : Pid → Option PredicateDetails) (mappings : AssocMap Pid Pid)
    (evolutions : AllEvolutions lookupPid mappings)
    : (∀ new old, Accepted new old → new.WellFormed → old.WellFormed → InPlace new old →
        ConvertsBack new old)
      ∧ (∀ new old, Accepted (.record new) (.record old) → (RtsType.record new).WellFormed →
          Misplaced new old → ¬ ConvertsBack (.record new) (.record old))
      ∧ ((∀ pid detailsFrom detailsTo, Mapped lookupPid mappings pid detailsFrom detailsTo →
            ConvertedInPlace detailsFrom detailsTo) →
          ∀ results : QueryResults,
            (∀ entry ∈ results.facts ++ results.nestedFacts,
              WellTypedFact varint u8 lookupPid mappings entry.2) →
            ∃ oldResults, unEvolveResults varint u8 lookupPid mappings results = .ok oldResults
              ∧ FactViews varint u8 lookupPid mappings results.facts oldResults.facts
              ∧ FactViews varint u8 lookupPid mappings results.nestedFacts oldResults.nestedFacts)
      ∧ ∀ detailsFrom detailsTo fact, Mapped lookupPid mappings fact.pid detailsFrom detailsTo →
          SameShape detailsFrom.keyType detailsTo.keyType →
          SameShape detailsFrom.valueType detailsTo.valueType →
          unEvolveFact varint u8 lookupPid mappings fact = .ok fact := by
  refine ⟨?_, ?_, fun inPlace _ typed => unEvolveResults_ok evolutions inPlace typed, ?_⟩
  · intro new old _ newWellFormed oldWellFormed inPlace
    obtain ⟨transformation, transforms⟩ :=
      transforms_of_inPlace inPlace newWellFormed oldWellFormed
    exact transforms.convertsBack
  · intro new old _ wellFormed misplaced
    exact misplaced.not_convertsBack wellFormed.1
  · intro detailsFrom detailsTo fact mapped keyShape valueShape
    obtain ⟨detailsFrom', detailsTo', mapped', evolution⟩ := evolutions _ _ mapped.mapping
    obtain ⟨rfl, rfl⟩ := mapped.unique mapped'
    exact unEvolveFact_sameShape mapped evolution keyShape valueShape

namespace EvolvedRecords

def numbers (names : List Name) : List FieldDef := names.map fun name => .mk name .nat

/-- The check accepts one record of numbers for another one. -/
def Accepts (new old : List Name) : Prop :=
  backCompatible .empty .empty .empty 2 (.record (new.map fun name => .mk name .nat))
      (.record (old.map fun name => .mk name .nat))
    = .ok ()

theorem accepted_of_accepts (new old : List Name) (accepts : Accepts new old)
    : Accepted (.record (numbers new)) (.record (numbers old)) := by
  have expands (names : List Name)
      : mkRtsType (fun _ => none) (fun _ => none)
          (.record (names.map fun name => .mk name .nat))
        = some (.record (numbers names)) := by
    have fields
        : mkFieldDefs (fun _ => none) (fun _ => none)
            (names.map fun name => SourceFieldDef.mk name .nat)
          = some (numbers names) := by
      induction names with
      | nil => rfl
      | cons name names ih =>
          rw [List.map_cons, mkFieldDefs, ih]
          rfl
    rw [mkRtsType, fields]
    rfl
  exact ⟨.empty, .empty, .empty, fun _ => none, fun _ => none, fun _ => none, _, _, 2, nofun, nofun,
    expands new, expands old, accepts⟩

theorem names_numbers (names : List Name) : (numbers names).map FieldDef.name = names := by
  rw [numbers, List.map_map]
  exact List.map_id names

theorem type_of_mem_numbers {names : List Name} {field : FieldDef} (member : field ∈ numbers names)
    : field.type = .nat := by
  obtain ⟨name, -, rfl⟩ := List.mem_map.mp member
  rfl

theorem wellFormed_numbers {names : List Name} (different : names.Nodup)
    : (RtsType.record (numbers names)).WellFormed := by
  refine ⟨?_, RtsType.fieldsWellFormed_iff.mpr fun field member => ?_⟩
  · rw [names_numbers]
    exact different
  · rw [type_of_mem_numbers member]
    trivial

theorem inPlace_numbers {new old : List Name} (inPlace : old <+: new)
    : InPlace (.record (numbers new)) (.record (numbers old)) := by
  refine .record ?_ fun field inNew oldField inOld _ => ?_
  · rw [names_numbers, names_numbers]
    exact inPlace
  · rw [type_of_mem_numbers inNew, type_of_mem_numbers inOld]
    exact .nat

theorem swapped_misplaced : Misplaced (numbers ["b", "a"]) (numbers ["a", "b"]) where
  exists_apart := by
    have typed (number : Nat) (small : number < 2 ^ 64) : WellTyped .nat (.nat number) := .nat small
    refine ⟨0, 1, .mk "b" .nat, .mk "a" .nat, .mk "a" .nat, [.nat 0, .nat 0], .nat 1, .nat 2, rfl,
      rfl, by decide, rfl, rfl, .cons (typed 0 (by decide)) (.cons (typed 0 (by decide)) .nil),
      typed 1 (by decide), typed 2 (by decide), ?_⟩
    rintro _ ⟨⟩ view
    cases view

def details (pid : Pid) (names : List Name) : PredicateDetails :=
  ⟨pid, ⟨"P", pid⟩, .record (numbers names), .record (numbers []), .noDeriving, true⟩

/-- Version 2 of a predicate has one field more than version 1. -/
def lookupPid : Pid → Option PredicateDetails
  | 1 => some (details 1 ["a"])
  | 2 => some (details 2 ["a", "b"])
  | _ => none

def mappings : AssocMap Pid Pid := AssocMap.empty.insert 2 1

theorem mapped : Mapped lookupPid mappings 2 (details 2 ["a", "b"]) (details 1 ["a"]) :=
  ⟨rfl, rfl, rfl⟩

theorem pid_of_mapping {pid pidTo : Pid} (mapping : mappings.lookup pid = some pidTo) : pid = 2 := by
  rw [mappings, AssocMap.lookup_insert] at mapping
  split at mapping
  next isTwo => exact isTwo
  next => cases mapping

theorem evolutions : AllEvolutions lookupPid mappings := by
  intro pid pidTo mapping
  obtain rfl := pid_of_mapping mapping
  refine ⟨_, _, mapped, ?_⟩
  exact {
    key := accepted_of_accepts ["a", "b"] ["a"] rfl
    value := accepted_of_accepts [] [] rfl
    fromKey := wellFormed_numbers (by decide)
    fromValue := wellFormed_numbers List.nodup_nil
    toKey := wellFormed_numbers (by decide)
    toValue := wellFormed_numbers List.nodup_nil
  }

theorem convertedInPlace (pid : Pid) (detailsFrom detailsTo : PredicateDetails)
    (isMapped : Mapped lookupPid mappings pid detailsFrom detailsTo)
    : ConvertedInPlace detailsFrom detailsTo := by
  obtain rfl := pid_of_mapping isMapped.mapping
  obtain ⟨rfl, rfl⟩ := isMapped.unique mapped
  refine ⟨inPlace_numbers ⟨["b"], rfl⟩, inPlace_numbers List.prefix_rfl, ?_⟩
  rintro ⟨sameShape, -⟩
  have sameNames := (sameShape_record_iff.mp sameShape).1
  rw [names_numbers, names_numbers] at sameNames
  cases sameNames

end EvolvedRecords

/-- Fields can change places, and are not converted then. -/
theorem mkValueTransformation_misplaced
    : ¬ ∀ new old, Accepted new old → new.WellFormed → old.WellFormed → ConvertsBack new old := by
  intro claimed
  refine EvolvedRecords.swapped_misplaced.not_convertsBack (by decide) (claimed _ _ ?_ ?_ ?_)
  · exact EvolvedRecords.accepted_of_accepts _ _ rfl
  · exact EvolvedRecords.wellFormed_numbers (by decide)
  · exact EvolvedRecords.wellFormed_numbers (by decide)

theorem unEvolveResults_correct_added
    : ∃ oldResults,
        unEvolveResults .folly .icu EvolvedRecords.lookupPid EvolvedRecords.mappings
            ⟨[(9, ⟨2, [7, 5], []⟩)], []⟩
          = .ok oldResults
        ∧ FactViews .folly .icu EvolvedRecords.lookupPid EvolvedRecords.mappings
            [(9, ⟨2, [7, 5], []⟩)] oldResults.facts := by
  have typed
      : ∀ entry ∈ [((9 : Id), (⟨2, [7, 5], []⟩ : ResultFact))] ++ [],
          WellTypedFact .folly .icu EvolvedRecords.lookupPid EvolvedRecords.mappings entry.2 := by
    intro entry member detailsFrom detailsTo mapped
    obtain rfl := List.mem_singleton.mp member
    obtain ⟨rfl, rfl⟩ := mapped.unique EvolvedRecords.mapped
    have small (number : Nat) (isSmall : number < 2 ^ 64) : WellTyped .nat (.nat number) :=
      .nat isSmall
    exact ⟨⟨.tuple [.nat 7, .nat 5], rfl,
        .tuple (.cons (small 7 (by decide)) (.cons (small 5 (by decide)) .nil))⟩,
      ⟨.tuple [], rfl, .tuple .nil⟩⟩
  obtain ⟨-, -, convert, -⟩ := unEvolveResults_correct .folly .icu EvolvedRecords.lookupPid
    EvolvedRecords.mappings EvolvedRecords.evolutions
  obtain ⟨oldResults, isResult, views, -⟩ :=
    convert EvolvedRecords.convertedInPlace ⟨[(9, ⟨2, [7, 5], []⟩)], []⟩ typed
  exact ⟨oldResults, isResult, views⟩

end Glean.Schema
