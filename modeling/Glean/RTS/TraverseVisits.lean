import Glean.RTS.TraverseRun

/-! The code of a traversal visits the references of a value, for every type. -/

namespace Glean.RTS.Traverse

open Bytecode
open Validate (OfType AllOfType)

namespace Setting

variable {setting : Setting} {machine after : Machine Calls Label} {rest : Bytes} {leaves : Bool}
  {state : CodeS} {index : Nat}

theorem execute_callFun {fact type : Nat} {pid : Register} (ready : setting.Ready machine)
    (isWord : machine.frame[setting.slot index]? = some (.word fact))
    (isPid : machine.frame[setting.reg pid]? = some (.word type))
    : execute setting.env machine
        ((Insn.callFun_2_0 setting.regs.callback (.local index) pid).map setting.reg id)
      = .next { machine with renamer := machine.renamer ++ [(fact, type)] } := by
  simp only [Insn.map, execute, reg_callback, reg_local, Machine.pointsTo, ready.callback,
    Machine.word, isWord, isPid, Outcome.ok_bind, setting.records, record]
  rfl

theorem visits_predicate (setting : Setting) {fact : Id} (small : fact < 2 ^ 64) (pid : Pid)
    (refs : Bool)
    : setting.Visits (go setting.regs refs (.predicate pid)) true true
        (setting.env.varint.encodeVarint fact) [(fact, pid)] := by
  refine ⟨fun {state machine rest} ready isAt => ?_⟩
  have isSlot := setting.slot_eq state.csLocals
  have isInput := setting.isInput
  refine .withLocal (.bind (.issue _) (fun _ => .bind (.constant pid) (fun _ => .issue _)))
    (fun inside => ?_)
  refine .step (.issue _) (fun _ => .bind (.constant pid) (fun _ => .issue _))
    (performs_inputNat small ready (isAt rfl) inside) ?_
  rintro read ⟨done, isAfter, isWord⟩
  have readReady := ready.next done (by omega)
  refine .step (.constant pid) (fun _ => .issue _) (.constant pid) ?_
  rintro _ ⟨rfl, index, isRegister, isConstant⟩
  rw [isRegister]
  refine .issue_next rfl (execute_callFun readReady isWord (readReady.constants isConstant)) ?_
  refine ⟨⟨done.length, done.kept, done.output, ?_, done.keySize⟩, fun _ => isAfter.of_eq rfl⟩
  rw [done.renamer, List.append_nil]

theorem length_encodeValues_bytes (varint : Varint) {ref : Pid → Id → Prop} {elements : List Value}
    (all : AllOfType ref (List.replicate elements.length .byte) elements)
    : (encodeValues varint elements).length = elements.length := by
  induction elements with
  | nil => simp [encodeValues]
  | cons value values ih =>
      cases all with
      | cons first others =>
          cases first
          rw [encodeValues, encodeValue, List.length_append, ih others]
          simp [Nat.add_comm]

/-- The elements of an array of bytes are skipped together. -/
theorem visits_bytes (setting : Setting) {size : Nat} {bytes : Bytes} (isSize : bytes.length = size)
    (small : size < 2 ^ 64)
    : setting.Visits (withLocal fun size => do
          issue (.inputNat setting.regs.input setting.regs.inputend size)
          issue (.add size setting.regs.input)) true leaves
        (setting.env.varint.encodeVarint size ++ bytes) [] := by
  subst isSize
  refine ⟨fun {state machine rest} ready isAt => ?_⟩
  have isSlot := setting.slot_eq state.csLocals
  refine .withLocal (.bind (.issue _) (fun _ => .issue _)) (fun inside => ?_)
  have isBegin := isAt rfl
  rw [List.append_assoc] at isBegin
  refine .step (.issue _) (fun _ => .issue _) (performs_inputNat small ready isBegin inside) ?_
  rintro read ⟨done, isAfter, isWord⟩
  have readReady := ready.next done (by omega)
  have executes : execute setting.env read
      ((Insn.add (.local state.csLocals) setting.regs.input).map setting.reg id)
      = .next (setting.moved read rest) := by
    simp only [Insn.map, execute, reg_local, reg_input, Machine.word, isWord, Outcome.ok_bind,
      increase_eq readReady isAfter]
    rfl
  exact .issue_next rfl executes
    ⟨done.set (.inr rfl) _, fun _ => at_moved readReady.input_lt isAfter.suffix⟩

theorem grows_go (setting : Setting) (refs : Bool) (rep : Rep) {state : CodeS} (wf : state.WF)
    : (go setting.regs refs rep).Grows state :=
  (steady_go refs rep).grows state wf

/-- Every element of a list of values is visited by the code for the element type. -/
def VisitsEach (setting : Setting) (element : Rep) (values : List Value) : Prop :=
  ∀ value ∈ values, setting.Visits (go setting.regs true element) true true
    (encodeValue setting.env.varint value) (value.typedRefs element)

/-- The rounds of the loop, from the label of the loop to the code behind it. By induction on the
elements.
-/
theorem computes_loop {element : Rep} {value : Value} {values : List Value}
    (visits : setting.VisitsEach element (value :: values))
    (finished : setting.final.csInsns = []) (wf : state.WF) {loop : Label}
    (isLoop : state.position = (loop, 0)) (isLocal : index < state.csLocals)
    (isExtended : setting.final.Extends
      (issue (.decrAndJumpIfNot0 (.local index) loop) (go setting.regs true element state).2).2)
    (ready : setting.Ready machine)
    (isAt : setting.At machine (encodeValues setting.env.varint (value :: values) ++ rest))
    (isWord : machine.frame[setting.slot index]? = some (.word (values.length + 1)))
    (small : values.length + 1 < 2 ^ 64)
    : Computes setting.final setting.env setting.reg (loop, 0) machine (.ok ())
        (fun _ next done =>
          next = (issue (.decrAndJumpIfNot0 (.local index) loop)
            (go setting.regs true element state).2).2.position
          ∧ setting.After (setting.slot index) machine
              (typedRefsAll (value :: values) (List.replicate (values.length + 1) element)) done
          ∧ setting.At done rest) := by
  have growsElement := setting.grows_go true element wf
  have elementExtended : setting.final.Extends (go setting.regs true element state).2 :=
    isExtended.trans (Code.Grows.issue _ growsElement.wf).extends_
  have isSlot := setting.slot_eq index
  have isInput := setting.isInput
  have isSmaller : setting.slot index < setting.slot state.csLocals := by
    rw [slot_eq, slot_eq]
    omega
  induction values generalizing value machine with
  | nil =>
      rw [encodeValues, List.append_assoc] at isAt
      have first := (visits value List.mem_cons_self).performs ready (fun _ => isAt) finished wf
        elementExtended
      rw [isLoop] at first
      obtain ⟨_, after, ⟨rfl, done, isNext⟩, leads⟩ := first
      have isOne := (done.kept isSmaller (by omega)).trans isWord
      have executes := execute_decrAndJumpIfNot0 setting.env setting.reg (.local index) loop isOne
        small
      have same : typedRefsAll [value] (List.replicate 1 element) = value.typedRefs element :=
        List.append_nil _
      refine .of_leads (leads.trans (leads_condJump finished growsElement.wf isExtended rfl executes))
        (.ok ⟨rfl, ?_, (isNext rfl).set (by rw [reg_local]; omega) _⟩)
      rw [List.length_nil, same]
      exact (done.mono isSmaller.le).set (.inl (Nat.le_refl _)) _
  | cons second values ih =>
      rw [encodeValues, List.append_assoc] at isAt
      have first := (visits value List.mem_cons_self).performs ready (fun _ => isAt) finished wf
        elementExtended
      rw [isLoop] at first
      obtain ⟨_, after, ⟨rfl, done, isNext⟩, leads⟩ := first
      have isCounter := (done.kept isSmaller (by omega)).trans isWord
      have executes := execute_decrAndJumpIfNot0 setting.env setting.reg (.local index) loop
        isCounter small
      have decremented : setting.After (setting.slot index) machine (value.typedRefs element)
          { after with frame := after.frame.set (setting.slot index) (.word (values.length + 1)) } :=
        (done.mono isSmaller.le).set (.inl (Nat.le_refl _)) _
      have inside := (List.getElem?_eq_some_iff.mp isCounter).1
      have others := ih (fun other member => visits other (List.mem_cons_of_mem _ member))
        (ready.next decremented (by omega)) ((isNext rfl).set (by omega) _)
        (List.getElem?_set_self inside) (by rw [List.length_cons] at small; omega)
      refine .of_leads (leads.trans (leads_goto finished growsElement.wf isExtended executes)) ?_
      obtain ⟨next, last, ⟨isBehind, more, isLast⟩, leadsOn⟩ := others
      exact ⟨next, last, ⟨isBehind, decremented.trans more, isLast⟩, leadsOn⟩

theorem performs_loopBody {element : Rep} {finish : Label} {elements : List Value}
    (visits : setting.VisitsEach element elements)
    (isFixed : (loopBody setting.regs element (.local index) finish state).1 = finish)
    (isLocal : index < state.csLocals) (ready : setting.Ready machine)
    (isAt : setting.At machine (encodeValues setting.env.varint elements ++ rest))
    (isWord : machine.frame[setting.slot index]? = some (.word elements.length))
    (small : elements.length < 2 ^ 64)
    : Performs setting.final setting.env setting.reg
        (loopBody setting.regs element (.local index) finish) state machine (.ok ())
        (fun _ after => setting.After (setting.slot index) machine
            (typedRefsAll elements (List.replicate elements.length element)) after
          ∧ setting.At after rest) := by
  have growsRest (loop : Label) : Code.AlwaysGrows (do
      go setting.regs true element
      issue (.decrAndJumpIfNot0 (.local index) loop)
      label) :=
    .bind (steady_go true element).grows (fun _ => .bind (.issue _) (fun _ => .label))
  have executes := execute_jumpIf0 setting.env setting.reg (.local index) finish isWord
  cases elements with
  | nil =>
      rw [encodeValues] at isAt
      refine .left (.issue _) (fun _ => .bind .label growsRest)
        (.of_goto executes (.ok ⟨?_, .refl, isAt⟩))
      exact eq_position_label isFixed
  | cons value values =>
      refine Goes.step (.issue _) (fun _ => .bind .label growsRest) (.notTaken rfl executes) ?_
      rintro after rfl
      refine Goes.step .label growsRest .label ?_
      rintro after rfl finished wf isExtended
      have afterElement := (setting.grows_go true element wf).wf
      have afterDecrement := (Code.Grows.issue
        (.decrAndJumpIfNot0 (.local index) (label (issue (.jumpIf0 (.local index) finish) state).2).1)
        afterElement).wf
      have isLabel := position_label (issue (.jumpIf0 (.local index) finish) state).2
      have loopExtended := isExtended.trans (Code.Grows.label afterDecrement).extends_
      have stillLocal : index < (label (issue (.jumpIf0 (.local index) finish) state).2).2.csLocals := by
        rw [csLocals_label, csLocals_issue]
        exact isLocal
      rw [isLabel]
      refine (computes_loop visits finished wf isLabel stillLocal loopExtended ready isAt isWord
        small).trans ?_
      rintro _ _ last - ⟨rfl, done⟩
      refine ⟨_, last, ⟨?_, done⟩, leads_label afterDecrement isExtended last⟩
      exact (position_label _).symm

theorem visits_loop {element : Rep} {elements : List Value}
    (visits : setting.VisitsEach element elements) (small : elements.length < 2 ^ 64)
    : setting.Visits (withLocal fun size => do
          issue (.inputNat setting.regs.input setting.regs.inputend size)
          loopCode setting.regs element size) true true
        (setting.env.varint.encodeVarint elements.length
          ++ encodeValues setting.env.varint elements)
        (typedRefsAll elements (List.replicate elements.length element)) := by
  refine ⟨fun {state machine rest} ready isAt => ?_⟩
  have isSlot := setting.slot_eq state.csLocals
  have growsLoop (size : Register) : (loopCode setting.regs element size).AlwaysGrows :=
    (steady_loopCode (steady_go true element) size).grows
  refine .withLocal (.bind (.issue _) (fun _ => growsLoop _)) (fun inside => ?_)
  have isBegin := isAt rfl
  rw [List.append_assoc] at isBegin
  refine .step (.issue _) (fun _ => growsLoop _) (performs_inputNat small ready isBegin inside) ?_
  rintro read ⟨done, isAfter, isWord⟩
  have isLocal : state.csLocals < (issue (.inputNat setting.regs.input setting.regs.inputend
      (.local state.csLocals)) state.withLocal).2.csLocals := by
    rw [csLocals_issue]
    exact Nat.lt_succ_self _
  refine .mfix (similar_loopBody (similar_go true element) _) (fun finish isFixed => ?_)
  refine .of_ok (performs_loopBody visits isFixed isLocal (ready.next done (by omega)) isAfter
    isWord small) (fun last ⟨more, isLast⟩ => ⟨done.trans more, fun _ => isLast⟩)

/-- A selector is skipped, as one byte where all selectors are small. -/
theorem visits_skipSelector (setting : Setting) {arity selector : Nat} (inside : selector < arity)
    (small : selector < 2 ^ 64)
    : setting.Visits (skipSelector setting.regs arity) true leaves
        (setting.env.varint.encodeVarint selector) [] := by
  unfold skipSelector
  split
  next isByte =>
    obtain ⟨byte, isSelector⟩ := List.length_eq_one_iff.mp (setting.short selector (by omega))
    rw [isSelector]
    exact visits_addConst setting byte
  next => exact visits_inputSkipNat setting small

/-- The alternatives of a sum: a label for each field, and the code there. -/
structure ComputesAlts (setting : Setting) (refs : Bool) (finish : Label) (fields : List Rep)
    (values : Nat → Value → Prop) (state : CodeS)
    : Prop where
  length : (goAlts setting.regs refs finish fields state).1.length = fields.length
  computes
    : ∀ {selector : Nat} {field : Rep} {target : Label} {value : Value}
        {machine : Machine Calls Label} {rest : Bytes},
        (goAlts setting.regs refs finish fields state).1[selector]? = some target →
        fields[selector]? = some field → values selector value → setting.Ready machine →
        setting.At machine (encodeValue setting.env.varint value ++ rest) →
        Computes setting.final setting.env setting.reg (target, 0) machine (.ok ())
          (fun _ next after => next = (finish, 0)
            ∧ setting.After (setting.slot state.csLocals) machine (value.typedRefs field) after
            ∧ (refs = true → setting.At after rest))

theorem computesAlts_cons {refs : Bool} {finish : Label} {field : Rep} {fields : List Rep}
    {values : Nat → Value → Prop}
    (visits : ∀ value, values 0 value → setting.Visits (go setting.regs refs field)
      (refs || field.hasRefs) refs (encodeValue setting.env.varint value) (value.typedRefs field))
    (finished : setting.final.csInsns = []) (wf : state.WF)
    (isExtended : setting.final.Extends (goAlts setting.regs refs finish (field :: fields) state).2)
    (others : setting.ComputesAlts refs finish fields (fun selector => values (selector + 1))
      (issue (.jump finish) (go setting.regs refs field (label state).2).2).2)
    : setting.ComputesAlts refs finish (field :: fields) values state := by
  have afterLabel := Code.Grows.label wf
  have afterField := setting.grows_go refs field afterLabel.wf
  have afterJump := Code.Grows.issue (.jump finish) afterField.wf
  have afterOthers : (goAlts setting.regs refs finish fields).Grows _ :=
    grows_goAlts refs finish fields _ afterJump.wf
  have sameLocals
      : (issue (.jump finish) (go setting.regs refs field (label state).2).2).2.csLocals
        = state.csLocals :=
    afterJump.csLocals.trans (afterField.csLocals.trans afterLabel.csLocals)
  have jumpExtended : setting.final.Extends
      (issue (.jump finish) (go setting.regs refs field (label state).2).2).2 :=
    isExtended.trans afterOthers.extends_
  refine ⟨congrArg (· + 1) others.length, ?_⟩
  intro selector chosen target value machine rest isTarget isField isValue ready isAt
  cases selector with
  | zero =>
      cases isTarget
      cases isField
      have computes := (visits value isValue).performs ready (fun _ => isAt) finished afterLabel.wf
        (jumpExtended.trans afterJump.extends_)
      rw [position_label, csLocals_label] at computes
      refine computes.trans ?_
      rintro _ _ after - ⟨rfl, done⟩
      exact ⟨(finish, 0), after, ⟨rfl, done⟩, leads_goto finished afterField.wf jumpExtended rfl⟩
  | succ selector =>
      have computes := others.computes isTarget isField isValue ready isAt
      rw [sameLocals] at computes
      exact computes

theorem visits_sum {refs : Bool} {fields : List Rep} {selector : Nat} {field : Rep} {value : Value}
    {values : Nat → Value → Prop}
    (alts : ∀ {finish state}, setting.final.csInsns = [] → state.WF →
      setting.final.Extends (goAlts setting.regs refs finish fields state).2 →
      setting.ComputesAlts refs finish fields values state)
    (small : selector < 2 ^ 64) (isField : fields[selector]? = some field)
    (isValue : values selector value)
    : setting.Visits (sumCode setting.regs refs fields) true refs
        (setting.env.varint.encodeVarint selector ++ encodeValue setting.env.varint value)
        (value.typedRefs field) := by
  refine ⟨fun {state machine rest} ready isAt => ?_⟩
  refine .mfix (similar_sumBody refs fields) (fun labels isFixed => ?_)
  have growsAlts : Code.AlwaysGrows (do
      let alts ← goAlts setting.regs refs labels.2 fields
      let finish ← label
      return (alts, finish)) :=
    .bind (grows_goAlts _ _ fields) (fun _ => .bind .label (fun _ => .pure _))
  have growsRest : Code.AlwaysGrows (do
      raise "selector out of range"
      let alts ← goAlts setting.regs refs labels.2 fields
      let finish ← label
      return (alts, finish)) :=
    .bind (.raise _) (fun _ => growsAlts)
  intro finished wf isExtended
  let raised := (raise "selector out of range" (readSelect setting.regs labels.1 state).2).2
  let alternatives := goAlts setting.regs refs labels.2 fields raised
  have isFixed : (alternatives.1, (label alternatives.2).1) = labels := isFixed
  have afterSelect : (readSelect setting.regs labels.1).Grows state :=
    (steady_readSelect _).grows state wf
  have afterRaise : raised.WF := (Code.Grows.raise afterSelect.wf _).wf
  have afterAlts : alternatives.2.WF := (grows_goAlts refs labels.2 fields _ afterRaise).wf
  have inside := alts finished afterRaise (isExtended.trans (Code.Grows.label afterAlts).extends_)
  have isLabels : alternatives.1 = labels.1 := congrArg Prod.fst isFixed
  have isSlot := setting.slot_eq state.csLocals
  have isBegin := isAt rfl
  rw [List.append_assoc] at isBegin
  have selects : Goes setting.final setting.env setting.reg (readSelect setting.regs labels.1) state
      machine (.ok ()) (fun _ next after =>
        next = (sumBody setting.regs refs fields labels state).2.position
          ∧ setting.After (setting.slot state.csLocals) machine (value.typedRefs field) after
          ∧ (refs = true → setting.At after rest)) := by
    refine .withLocal (.bind (.issue _) (fun _ => .issue _)) (fun isLocal => ?_)
    refine .step (.issue _) (fun _ => .issue _) (performs_inputNat small ready isBegin isLocal) ?_
    rintro read ⟨done, isRead, isWord⟩
    have chosen := (List.getElem?_eq_some_iff.mp isField).1
    rw [← inside.length, isLabels] at chosen
    have isTarget := List.getElem?_eq_getElem chosen
    generalize labels.1[selector] = target at isTarget
    have executes := execute_select setting.env setting.reg (.local state.csLocals) labels.1 isWord
    rw [isTarget] at executes
    rw [← isLabels] at isTarget
    refine .of_goto executes ((inside.computes isTarget isField isValue (ready.next done (by omega))
      isRead).trans ?_)
    rintro _ _ last - ⟨rfl, more, isLast⟩
    have sameLocals : raised.csLocals = state.csLocals := rfl
    rw [sameLocals] at more
    exact ⟨_, last, ⟨eq_position_label (congrArg Prod.snd isFixed), done.trans more, isLast⟩,
      .refl _ _⟩
  exact Goes.left (steady_readSelect _).grows (fun _ => growsRest) selects finished wf isExtended

theorem computesAlts {refs : Bool} {finish : Label} {fields : List Rep}
    {values : Nat → Value → Prop}
    (visits : ∀ selector field value, fields[selector]? = some field → values selector value →
      setting.Visits (go setting.regs refs field) (refs || field.hasRefs) refs
        (encodeValue setting.env.varint value) (value.typedRefs field))
    (finished : setting.final.csInsns = []) (wf : state.WF)
    (isExtended : setting.final.Extends (goAlts setting.regs refs finish fields state).2)
    : setting.ComputesAlts refs finish fields values state := by
  induction fields generalizing state values with
  | nil => exact ⟨rfl, fun isTarget => by cases isTarget⟩
  | cons field fields ih =>
      have afterLabel := Code.Grows.label wf
      have afterField := setting.grows_go refs field afterLabel.wf
      have afterJump := Code.Grows.issue (.jump finish) afterField.wf
      exact computesAlts_cons (fun value => visits 0 field value rfl) finished wf isExtended
        (ih (fun selector => visits (selector + 1)) afterJump.wf isExtended)

theorem foldr_hasRefs (refs : Bool) (fields : List Rep)
    : fields.foldr (fun ty refs => ty.hasRefs || refs) refs = (refs || anyHasRefs fields) := by
  induction fields with
  | nil => simp [anyHasRefs]
  | cons field fields ih =>
      rw [List.foldr_cons, ih, anyHasRefs]
      cases refs <;> cases field.hasRefs <;> rfl

variable {ref : Pid → Id → Prop}

mutual

/-- The code for a type visits the references of a value of the type. It needs the input in step
where the type has references or the input is needed behind the value.
-/
theorem visits_go (setting : Setting) (refs : Bool)
    : (value : Value) → {rep : Rep} → OfType ref rep value →
        setting.Visits (go setting.regs refs rep) (refs || rep.hasRefs) refs
          (encodeValue setting.env.varint value) (value.typedRefs rep)
  | .byte byte, _, .byte => by
      rw [go, encodeValue, Rep.hasRefs, Bool.or_false]
      exact (visits_addConst setting byte).when (fun notNeeded => ⟨rfl, notNeeded⟩)
  | .nat _, _, .nat small => by
      rw [go, encodeValue, Rep.hasRefs, Bool.or_false]
      exact (visits_inputSkipNat setting small).when (fun notNeeded => ⟨rfl, notNeeded⟩)
  | .string _, _, .string _ => by
      rw [go, encodeValue, Rep.hasRefs, Bool.or_false]
      exact (visits_inputSkipTrustedString setting _).when (fun notNeeded => ⟨rfl, notNeeded⟩)
  | .array elements, .array element, .array small all => by
      rw [encodeValue, Rep.hasRefs, Value.typedRefs]
      have noRefs (notNeeded : (refs || element.hasRefs) = false)
          : typedRefsAll elements (List.replicate elements.length element) = [] ∧ refs = false := by
        obtain ⟨notRefs, notElement⟩ := (Bool.or_eq_false_iff).mp notNeeded
        refine ⟨typedRefsAll_eq_nil elements all (fun rep member => ?_), notRefs⟩
        rw [List.eq_of_mem_replicate member]
        exact notElement
      by_cases isByte : element = .byte
      · subst isByte
        have noCalls : typedRefsAll elements (List.replicate elements.length .byte) = [] :=
          typedRefsAll_eq_nil elements all (fun rep member => by
            rw [List.eq_of_mem_replicate member]
            rfl)
        have isSize := length_encodeValues_bytes setting.env.varint all
        rw [go_array_byte]
        refine Visits.when ?_ noRefs
        rw [noCalls]
        exact visits_bytes setting isSize small
      · rw [go_array_loop isByte]
        exact (visits_loop (visits_each setting elements all) small).weaken.when noRefs
  | .tuple values, .tuple fields, .tuple all => by
      rw [go, encodeValue, Rep.hasRefs, Value.typedRefs]
      exact visits_goFields setting refs values all
  | .alt selector value, .sum fields, @OfType.alt _ _ _ field _ small isField inside => by
      have calls : (Value.alt selector value).typedRefs (.sum fields) = value.typedRefs field := by
        rw [Value.typedRefs, isField]
      have member := List.mem_of_getElem? isField
      rw [encodeValue, Rep.hasRefs, calls]
      by_cases unit : allUnit fields = true
      · have isUnit := allUnit_iff.mp unit _ member
        have chosen := (List.getElem?_eq_some_iff.mp isField).1
        rw [go_sum_unit unit, anyHasRefs_of_allUnit fields unit, Bool.or_false,
          encodeValue_unit _ value inside isUnit, List.append_nil,
          typedRefs_eq_nil value inside (hasRefs_of_isUnit _ isUnit)]
        exact (visits_skipSelector setting chosen small).when (fun notNeeded => ⟨rfl, notNeeded⟩)
      · have isAlternative := visits_go setting refs value inside
        have visits (index : Nat) (other : Rep) (content : Value) (isOther : fields[index]? = some other)
            (isValue : index = selector ∧ content = value)
            : setting.Visits (go setting.regs refs other) (refs || other.hasRefs) refs
                (encodeValue setting.env.varint content) (content.typedRefs other) := by
          obtain ⟨rfl, rfl⟩ := isValue
          rw [isField] at isOther
          cases isOther
          exact isAlternative
        rw [go_sum unit]
        refine Visits.when (visits_sum (computesAlts visits) small isField ⟨rfl, rfl⟩) ?_
        intro notNeeded
        obtain ⟨notRefs, noField⟩ := (Bool.or_eq_false_iff).mp notNeeded
        exact ⟨typedRefs_eq_nil value inside (anyHasRefs_eq_false.mp noField _ member), notRefs⟩
  | .ref _, .predicate pid, .ref small _ => by
      rw [encodeValue, Rep.hasRefs, Bool.or_true, Value.typedRefs]
      exact (visits_predicate setting small pid refs).weaken

theorem visits_goFields (setting : Setting) (refs : Bool)
    : (values : List Value) → {fields : List Rep} → AllOfType ref fields values →
        setting.Visits (goFields setting.regs refs fields) (refs || anyHasRefs fields) refs
          (encodeValues setting.env.varint values) (typedRefsAll values fields)
  | [], _, .nil => by
      rw [goFields, anyHasRefs, Bool.or_false, encodeValues]
      exact .pure
  | value :: values, field :: fields, .cons first others => by
      have isFirst := visits_go setting (refs || anyHasRefs fields) value first
      have isOthers := visits_goFields setting refs values others
      have needs : (refs || (field.hasRefs || anyHasRefs fields))
          = (refs || anyHasRefs fields || field.hasRefs) := by
        cases refs <;> cases field.hasRefs <;> simp
      rw [goFields, foldr_hasRefs, anyHasRefs, needs, encodeValues, typedRefsAll]
      exact isFirst.bind (steady_go _ field).grows (steady_goFields refs fields).grows isOthers

theorem visits_each (setting : Setting)
    : (values : List Value) → {element : Rep} →
        AllOfType ref (List.replicate values.length element) values →
        setting.VisitsEach element values
  | [], _, _ => by
      intro value member
      cases member
  | value :: values, element, .cons first others => by
      have isFirst := visits_go setting true value first
      have isOthers := visits_each setting values others
      intro other member
      rcases List.mem_cons.mp member with rfl | later
      · exact isFirst
      · exact isOthers other later

end

end Setting

end Glean.RTS.Traverse
