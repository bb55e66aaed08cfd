import Glean.Bytecode.Emission

/-! Rules for the execution of generated code, one for each way to put code together.
-/

namespace Glean.Bytecode

open RTS Halting

variable {σ α β γ δ : Type}

section Execute

variable (env : Env σ) (reg : Register → Nat) {machine : Machine σ Label} (register : Register)
  {word : Nat}

theorem execute_jumpIf0 (finish : Label) (isWord : machine.frame[reg register]? = some (.word word))
    : execute env machine ((Insn.jumpIf0 register finish).map reg id)
      = if word = 0 then .goto finish machine else .next machine := by
  simp only [Insn.map, execute, Machine.word, isWord, Outcome.ok_bind]
  split <;> rfl

/-- A counter is decremented, and the loop goes on unless it is zero. -/
theorem execute_decrAndJumpIfNot0 (loop : Label) {times : Nat}
    (isWord : machine.frame[reg register]? = some (.word (times + 1))) (small : times + 1 < 2 ^ 64)
    : let decremented : Machine σ Label :=
        { machine with frame := machine.frame.set (reg register) (.word times) }
      execute env machine ((Insn.decrAndJumpIfNot0 register loop).map reg id)
        = if times = 0 then .next decremented else .goto loop decremented := by
  have inside := (List.getElem?_eq_some_iff.mp isWord).1
  have wraps : (times + 1 + 2 ^ 64 - 1) % 2 ^ 64 = times := by omega
  simp only [Insn.map, execute, Machine.word, isWord, Outcome.ok_bind, wraps, Machine.set,
    if_pos inside]
  by_cases isLast : times = 0
  · simp [isLast, Effect.branch]
  · simp [isLast, Effect.branch]

theorem execute_select (targets : List Label)
    (isWord : machine.frame[reg register]? = some (.word word))
    : execute env machine ((Insn.select register targets).map reg id)
      = match targets[word]? with
        | some target => .goto target machine
        | none => .next machine := by
  simp only [Insn.map, execute, Machine.word, isWord, Outcome.ok_bind, List.map_id]
  cases targets[word]? <;> rfl

end Execute

section Performs

variable (final : CodeS) (env : Env σ) (reg : Register → Nat)

/-- In the final graph, the code that is generated from a state computes the outcome, and leads
to a position and a machine that satisfy the postcondition.
-/
def Goes (code : Code α) (state : CodeS) (machine : Machine σ Label) (outcome : Outcome β)
    (post : β → Label × Nat → Machine σ Label → Prop) : Prop :=
  final.csInsns = [] → state.WF → final.Extends (code state).2 →
    Computes final env reg state.position machine outcome post

/-- The code computes the outcome, and then goes on with the code behind it. -/
def Performs (code : Code α) (state : CodeS) (machine : Machine σ Label) (outcome : Outcome β)
    (post : β → Machine σ Label → Prop) : Prop :=
  Goes final env reg code state machine outcome
    (fun result next after => next = (code state).2.position ∧ post result after)

variable {final env reg} {state : CodeS} {machine : Machine σ Label} {code : Code α}
  {next : α → Code γ} {outcome : Outcome β} {rest : β → Outcome δ}

namespace Goes

theorem bind {post : β → Machine σ Label → Prop}
    {last : δ → Label × Nat → Machine σ Label → Prop}
    (grows : code.AlwaysGrows) (growsNext : ∀ value, (next value).AlwaysGrows)
    (first : Performs final env reg code state machine outcome post)
    (second : ∀ result after, post result after →
      Goes final env reg (next (code state).1) (code state).2 after (rest result) last)
    : Goes final env reg (code >>= next) state machine (outcome >>= rest) last := by
  intro finished wf isExtended
  have growsFirst := grows state wf
  have growsSecond := growsNext (code state).1 _ growsFirst.wf
  have firstExtended : final.Extends (code state).2 := isExtended.trans growsSecond.extends_
  refine (first finished wf firstExtended).bind (fun result position after reached => ?_)
  obtain ⟨rfl, isPost⟩ := reached
  exact second result after isPost finished growsFirst.wf isExtended

/-- Code that cannot fail, followed by other code. -/
theorem step {result : β} {outcome : Outcome δ} {post : β → Machine σ Label → Prop}
    {last : δ → Label × Nat → Machine σ Label → Prop}
    (grows : code.AlwaysGrows) (growsNext : ∀ value, (next value).AlwaysGrows)
    (first : Performs final env reg code state machine (.ok result) post)
    (second : ∀ after, post result after →
      Goes final env reg (next (code state).1) (code state).2 after outcome last)
    : Goes final env reg (code >>= next) state machine outcome last := by
  have unit : Performs final env reg code state machine (.ok ())
      (fun _ after => post result after) := by
    intro finished wf isExtended
    obtain ⟨position, after, isPost, leads⟩ := first finished wf isExtended
    exact ⟨position, after, isPost, leads⟩
  have both : Goes final env reg (code >>= next) state machine
      (Outcome.ok () >>= fun _ => outcome) last :=
    bind grows growsNext unit (fun _ after isPost => second after isPost)
  exact both

/-- Code that does not reach what is behind it. -/
theorem left {post : β → Label × Nat → Machine σ Label → Prop}
    (grows : code.AlwaysGrows) (growsNext : ∀ value, (next value).AlwaysGrows)
    (goes : Goes final env reg code state machine outcome post)
    : Goes final env reg (code >>= next) state machine outcome post := by
  intro finished wf isExtended
  have growsSecond := growsNext (code state).1 _ (grows state wf).wf
  exact goes finished wf (isExtended.trans growsSecond.extends_)

/-- An instruction that jumps away. -/
theorem of_goto {post : β → Label × Nat → Machine σ Label → Prop} {insn : Instruction}
    {target : Label} {after : Machine σ Label}
    (executes : execute env machine (insn.map reg id) = .goto target after)
    (computes : Computes final env reg (target, 0) after outcome post)
    : Goes final env reg (issue insn) state machine outcome post :=
  fun finished wf isExtended => .of_leads (leads_goto finished wf isExtended executes) computes

theorem withLocal {body : Register → Code α}
    {post : β → Label × Nat → Machine σ Label → Prop}
    (grows : (body (.local state.csLocals)).AlwaysGrows)
    (inside : state.csLocals < final.csMaxLocal →
      Goes final env reg (body (.local state.csLocals)) state.withLocal machine outcome post)
    : Goes final env reg (withLocal body) state machine outcome post := by
  intro finished wf isExtended
  have insideExtended : final.Extends (body (.local state.csLocals) state.withLocal).2 :=
    ⟨isExtended.csInsns, isExtended.csConstants, isExtended.csLiterals, isExtended.csMaxLocal⟩
  have more := (insideExtended.trans (grows _ wf.withLocal).extends_).csMaxLocal
  have own : state.csLocals + 1 ≤ state.withLocal.csMaxLocal := Nat.le_max_right _ _
  exact inside (by omega) finished wf.withLocal insideExtended

theorem raise {msg : String} {post : β → Label × Nat → Machine σ Label → Prop}
    (literals : env.literals = final.csLiterals)
    : Goes final env reg (raise msg) state machine (.error msg) post := by
  intro finished wf isExtended
  have grows := Code.Grows.literal wf msg
  have isLiteral : env.literals[(literal msg state).1]? = some msg := by
    have same := (Code.Grows.issue (.raise (literal msg state).1) grows.wf).extends_
    obtain ⟨later, isFinal⟩ := (isExtended.trans same).csLiterals
    have inside := intern_get msg state.csLiterals
    rw [literals, ← isFinal]
    exact List.getElem?_append_left (List.getElem?_eq_some_iff.mp inside).1 ▸ inside
  have stops : execute env machine ((Insn.raise (literal msg state).1).map reg id)
      = .stop (.error msg) := by
    simp only [Insn.map, execute, isLiteral]
  have ends : Ends final env reg (literal msg state).2.position machine (.error msg) :=
    ends_of_stop finished grows.wf isExtended stops
  exact ends

end Goes

namespace Performs

theorem pure {result : β} {post : β → Machine σ Label → Prop} (value : α)
    (isPost : post result machine)
    : Performs final env reg (Pure.pure value : Code α) state machine (.ok result) post :=
  fun _ _ _ => .ok ⟨rfl, isPost⟩

theorem bind {post : β → Machine σ Label → Prop} {last : δ → Machine σ Label → Prop}
    (grows : code.AlwaysGrows) (growsNext : ∀ value, (next value).AlwaysGrows)
    (first : Performs final env reg code state machine outcome post)
    (second : ∀ result after, post result after →
      Performs final env reg (next (code state).1) (code state).2 after (rest result) last)
    : Performs final env reg (code >>= next) state machine (outcome >>= rest) last :=
  Goes.bind grows growsNext first second

theorem step {result : β} {outcome : Outcome δ} {post : β → Machine σ Label → Prop}
    {last : δ → Machine σ Label → Prop}
    (grows : code.AlwaysGrows) (growsNext : ∀ value, (next value).AlwaysGrows)
    (first : Performs final env reg code state machine (.ok result) post)
    (second : ∀ after, post result after →
      Performs final env reg (next (code state).1) (code state).2 after outcome last)
    : Performs final env reg (code >>= next) state machine outcome last :=
  Goes.step grows growsNext first second

theorem withLocal {body : Register → Code α} {post : β → Machine σ Label → Prop}
    (grows : (body (.local state.csLocals)).AlwaysGrows)
    (inside : state.csLocals < final.csMaxLocal →
      Performs final env reg (body (.local state.csLocals)) state.withLocal machine outcome post)
    : Performs final env reg (withLocal body) state machine outcome post :=
  Goes.withLocal grows inside

/-- Change the result and weaken what is known about it. -/
theorem map {post : β → Machine σ Label → Prop} {last : δ → Machine σ Label → Prop}
    (change : β → δ) (performs : Performs final env reg code state machine outcome post)
    (weaker : ∀ result after, post result after → last (change result) after)
    : Performs final env reg code state machine
        (outcome >>= fun result => .ok (change result)) last := by
  intro finished wf isExtended
  refine (performs finished wf isExtended).bind (fun result position after reached => ?_)
  exact .ok ⟨reached.1, weaker result after reached.2⟩

theorem of_ok {result : β} {value : δ} {post : β → Machine σ Label → Prop}
    {last : δ → Machine σ Label → Prop}
    (performs : Performs final env reg code state machine (.ok result) post)
    (weaker : ∀ after, post result after → last value after)
    : Performs final env reg code state machine (.ok value) last := by
  intro finished wf isExtended
  obtain ⟨position, after, ⟨isNext, isPost⟩, leads⟩ := performs finished wf isExtended
  exact ⟨position, after, ⟨isNext, weaker after isPost⟩, leads⟩

theorem issue {insn : Instruction} {does : β → Machine σ Label}
    (isFall : insn.insnControl = .fallThrough)
    (executes : execute env machine (insn.map reg id)
      = .ofOutcome (outcome >>= fun result => .ok (does result)))
    : Performs final env reg (issue insn) state machine outcome
        (fun result after => outcome = .ok result ∧ after = does result) := by
  intro finished wf isExtended
  have computes := computes_fallThrough finished wf isExtended isFall executes
  cases outcome with
  | ok result =>
      obtain ⟨position, after, ⟨isNext, isAfter⟩, leads⟩ := computes
      exact ⟨position, after, ⟨isNext, rfl, isAfter⟩, leads⟩
  | error message => exact computes
  | undefined => exact computes

/-- An instruction that cannot fail. -/
theorem issue_next {insn : Instruction} {result : β} {after : Machine σ Label}
    {post : β → Machine σ Label → Prop} (isFall : insn.insnControl = .fallThrough)
    (executes : execute env machine (insn.map reg id) = .next after) (isPost : post result after)
    : Performs final env reg (Bytecode.issue insn) state machine (.ok result) post :=
  fun finished wf isExtended => ⟨_, after, ⟨rfl, isPost⟩,
    leads_fallThrough finished wf isExtended isFall executes⟩

/-- The register of a constant. -/
theorem constant (word : Nat)
    : Performs final env reg (constant word) state machine (.ok ())
        (fun _ after => after = machine ∧ ∃ index, (constant word state).1 = .constant index
          ∧ final.csConstants[index]? = some word) := by
  intro _ _ isExtended
  refine .ok ⟨rfl, rfl, _, rfl, ?_⟩
  obtain ⟨later, isFinal⟩ := isExtended.csConstants
  have inside := intern_get word state.csConstants
  rw [← isFinal]
  exact List.getElem?_append_left (List.getElem?_eq_some_iff.mp inside).1 ▸ inside

theorem label
    : Performs final env reg label state machine (.ok ()) (fun _ after => after = machine) := by
  intro _ wf isExtended
  exact ⟨((Bytecode.label state).1, 0), machine, ⟨(position_label state).symm, rfl⟩,
    leads_label wf isExtended machine⟩

/-- A conditional jump that is not taken. -/
theorem notTaken {insn : Instruction} {after : Machine σ Label}
    (isCond : insn.insnControl = .condJump)
    (goes : execute env machine (insn.map reg id) = .next after)
    : Performs final env reg (Bytecode.issue insn) state machine (.ok ())
        (fun _ machineAfter => machineAfter = after) :=
  fun finished wf isExtended => ⟨_, after, ⟨rfl, rfl⟩,
    leads_condJump finished wf isExtended isCond goes⟩

/-- A recursive definition of labels. -/
theorem mfix [Inhabited α] {body : α → Code α} {post : β → Machine σ Label → Prop}
    (similar : ∀ guess other, Code.Similar (body guess) (body other))
    (inside : ∀ result, (body result state).1 = result →
      Performs final env reg (body result) state machine outcome post)
    : Performs final env reg (do let _ ← Code.mfix body; return ()) state machine outcome
        post := by
  obtain ⟨result, isFixed, same⟩ := Code.mfix_apply similar state
  have performs := inside result isFixed
  unfold Performs Goes at performs ⊢
  rw [same]
  exact performs

/-- Code that leads to the label behind it. -/
theorem label_of_goes {post : β → Machine σ Label → Prop}
    (goes : Goes final env reg code state machine outcome
      (fun result next after => next = ((Bytecode.label (code state).2).1, 0) ∧ post result after))
    (grows : code.AlwaysGrows)
    : Performs final env reg (code >>= fun _ => Bytecode.label) state machine outcome post := by
  intro finished wf isExtended
  have behind := (Code.Grows.label (grows state wf).wf).extends_
  have position := position_label (code state).2
  have computes := goes finished wf (isExtended.trans behind)
  rw [← position] at computes
  exact computes

end Performs

end Performs

/-- The subroutine of generated code. -/
def CodeS.subroutine (inputs : Nat) (final : CodeS) : Subroutine where
  code := final.cfg.shortcut.code (getReg inputs final.csConstants.length)
  inputs := inputs
  locals := final.csMaxLocal + final.csConstants.length
  constants := final.csConstants
  literals := final.csLiterals

theorem generate_eq {code : Code Unit} (finished : (code .start).2.csInsns = []) (inputs : Nat)
    : generate inputs code = .ok ((code .start).2.subroutine inputs) := by
  rw [generate, if_neg (not_not.mpr finished)]
  rfl

/-- The machine on which generated code starts. -/
def CodeS.machine (final : CodeS) (args : List (Contents Label)) (state : σ) : Machine σ Label where
  frame := args ++ final.csConstants.map .word ++ List.replicate final.csMaxLocal .uninitialized
  output := []
  keySize := 0
  renamer := state

/-- The subroutine of code whose graph stops is executed to the same end. Its arguments are not
labels.
-/
theorem CodeS.executes {final : CodeS} (isForward : final.Forward) {inputs : Nat}
    {varint : Varint} {u8 : U8Next} {rename : Nat → Nat → σ → Outcome (Nat × σ)} {clause : Bytes}
    {args : List (Contents Label)} {others : List (Contents Nat)} {state : σ}
    {outcome : Outcome (Result σ)}
    (noLabels : ∀ label : Label → Nat, args.map (Contents.map label) = others)
    (ends : Ends final ⟨varint, u8, rename, clause, final.csLiterals⟩
      (getReg inputs final.csConstants.length) (0, 0) (final.machine args state) outcome)
    : (final.subroutine inputs).Executes varint u8 rename state clause others outcome := by
  have halts := CFG.code_halts isForward.ranked _ _ _ ends
  have sameMachine : ((final.machine args state).map final.cfg.relabel).map
        (offsetOf final.cfg.shortcut.layout)
      = ⟨(final.subroutine inputs).frame others, [], 0, state⟩ := by
    let label := offsetOf final.cfg.shortcut.layout ∘ final.cfg.relabel
    have isWord : Contents.map label ∘ Contents.word = (Contents.word : Nat → Contents Nat) := rfl
    have isFree : Contents.map label .uninitialized = .uninitialized := rfl
    rw [Machine.map_map, ← noLabels label]
    simp [Machine.map, CodeS.machine, Subroutine.frame, CodeS.subroutine, label, isWord, isFree]
  rw [sameMachine] at halts
  exact halts

/-- A computation that returns stops. -/
theorem ends_of_ret {final before : CodeS} {env : Env σ} {reg : Register → Nat}
    {position : Label × Nat} {machine : Machine σ Label} {outcome : Outcome (Result σ)}
    (finished : final.csInsns = []) (wf : before.WF)
    (returns : final.Extends (issue .ret before).2)
    (computes : Computes final env reg position machine outcome (fun result next after =>
      next = before.position ∧ result = ⟨after.output, after.keySize, after.renamer⟩))
    : Ends final env reg position machine outcome := by
  cases outcome with
  | ok result =>
      obtain ⟨_, after, ⟨rfl, rfl⟩, leads⟩ := computes
      exact leads _ (ends_of_stop finished wf returns rfl)
  | error message => exact computes
  | undefined => exact computes

end Glean.Bytecode
