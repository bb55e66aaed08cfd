import Glean.Bytecode.Code

/-! Shortcuts and layout keep the executions of a control flow graph. -/

namespace Glean.Bytecode

open RTS Halting

variable {σ R : Type}

namespace CFG

/-- The instruction at a position of a block. -/
def fetch (cfg : CFG R) (label : Label) (index : Nat) : Option (Insn R Label) :=
  match cfg.blocks[label]? with
  | some insns => insns.reverse[index]?
  | none => none

/-- Execute the instruction at a position. -/
def step (env : Env σ) (reg : R → Nat) (cfg : CFG R)
    (state : (Label × Nat) × Machine σ Label)
    : Option (((Label × Nat) × Machine σ Label) ⊕ Outcome (Result σ)) :=
  match cfg.fetch state.1.1 state.1.2 with
  | none => none
  | some insn =>
      match execute env state.2 (insn.map reg id) with
      | .next machine => some (.inl ((state.1.1, state.1.2 + 1), machine))
      | .goto target machine => some (.inl ((target, 0), machine))
      | .stop outcome => some (.inr outcome)

theorem fetch_eq_some {cfg : CFG R} {label : Label} {index : Nat} {insn : Insn R Label}
    (fetched : cfg.fetch label index = some insn)
    : ∃ insns, cfg.blocks[label]? = some insns ∧ insns.reverse[index]? = some insn := by
  unfold fetch at fetched
  split at fetched
  next insns isBlock => exact ⟨insns, isBlock, fetched⟩
  next => cases fetched

theorem fetch_of_block {cfg : CFG R} {label : Label} {insns : List (Insn R Label)}
    (isBlock : cfg.blocks[label]? = some insns) (index : Nat)
    : cfg.fetch label index = insns.reverse[index]? := by
  rw [fetch, isBlock]

end CFG

/-- The labels of an instruction and of the frame are changed together. -/
theorem execute_relabel (env : Env σ) (machine : Machine σ Label) {L : Type} (reg : R → Nat)
    (label : Label → L) (insn : Insn R Label)
    : execute env (machine.map label) (insn.map reg label)
      = (execute env machine (insn.map reg id)).map label := by
  rw [← execute_map, Insn.map_map]
  rfl

/-- Blocks that consist of a single jump do not form a cycle: a rank of the labels, at most the
number of blocks, decreases along them.
-/
structure CFG.Ranked (cfg : CFG R) (rank : Label → Nat) : Prop where
  positive : ∀ label < cfg.blocks.length, 0 < rank label ∧ rank label ≤ cfg.blocks.length
  decreases
    : ∀ label target, cfg.blocks[label]? = some [.jump target] → rank target < rank label

theorem chase_outside {blocks : List (List (Insn R Label))} {label : Label}
    (outside : blocks.length ≤ label) (fuel : Nat)
    : chase blocks fuel label = none := by
  cases fuel with
  | zero => rfl
  | succ fuel => rw [chase, List.getElem?_eq_none outside]

/-- As much fuel as the rank of a label is enough, by induction on the fuel. -/
theorem chase_eq_of_rank {cfg : CFG R} {rank : Label → Nat} (ranked : cfg.Ranked rank)
    {label : Label} {fuel other : Nat} (enough : rank label ≤ fuel)
    (enoughOther : rank label ≤ other)
    : chase cfg.blocks fuel label = chase cfg.blocks other label := by
  by_cases inside : label < cfg.blocks.length
  · induction fuel generalizing label other with
    | zero =>
        have positive := (ranked.positive label inside).1
        omega
    | succ fuel ih =>
        have positive := (ranked.positive label inside).1
        obtain ⟨less, rfl⟩ : ∃ less, other = less + 1 := ⟨other - 1, by omega⟩
        rw [chase, chase]
        split
        next target isJump =>
          have below := ranked.decreases label target isJump
          have same : chase cfg.blocks fuel target = chase cfg.blocks less target := by
            by_cases targetInside : target < cfg.blocks.length
            · exact ih (by omega) (by omega) targetInside
            · rw [chase_outside (Nat.le_of_not_lt targetInside),
                chase_outside (Nat.le_of_not_lt targetInside)]
          rw [same]
        next => rfl
        next => rfl
  · rw [chase_outside (Nat.le_of_not_lt inside), chase_outside (Nat.le_of_not_lt inside)]

namespace CFG

/-- The instruction that a block with a label leads to. -/
theorem shortcuts_eq {cfg : CFG R} {rank : Label → Nat} (ranked : cfg.Ranked rank)
    (label : Label)
    : cfg.shortcuts label =
        match cfg.blocks[label]? with
        | some [.jump target] => some ((cfg.shortcuts target).getD (.jump target))
        | some [insn] => some insn
        | _ => none := by
  unfold shortcuts
  cases isLength : cfg.blocks.length with
  | zero =>
      rw [List.length_eq_zero_iff.mp isLength]
      rfl
  | succ fuel =>
      rw [chase]
      rcases isBlock : cfg.blocks[label]? with - | insns
      · rfl
      rcases insns with - | ⟨insn, - | rest⟩
      · rfl
      · cases insn with
        | jump target =>
            have below := ranked.decreases label target isBlock
            have bound := (ranked.positive label (List.getElem?_eq_some_iff.mp isBlock).1).2
            have same : chase cfg.blocks fuel target = chase cfg.blocks (fuel + 1) target :=
              chase_eq_of_rank ranked (by omega) (by omega)
            dsimp only
            rw [same]
            cases chase cfg.blocks (fuel + 1) target <;> rfl
        | _ => rfl
      · cases insn <;> rfl

/-- A label with a shortcut has a block with one instruction, which is the shortcut unless it
is a jump.
-/
theorem block_of_shortcuts {cfg : CFG R} {rank : Label → Nat} (ranked : cfg.Ranked rank)
    {label : Label} {insn : Insn R Label} (isShortcut : cfg.shortcuts label = some insn)
    : cfg.blocks[label]? = some [insn] ∧ (∀ target, insn ≠ .jump target)
      ∨ ∃ target, cfg.blocks[label]? = some [.jump target]
          ∧ insn = (cfg.shortcuts target).getD (.jump target) := by
  rw [shortcuts_eq ranked] at isShortcut
  split at isShortcut
  next target isJump => exact .inr ⟨target, isJump, (Option.some.inj isShortcut).symm⟩
  next other notJump isBlock =>
    obtain rfl := Option.some.inj isShortcut
    refine .inl ⟨isBlock, ?_⟩
    rintro target rfl
    exact notJump target rfl
  next => cases isShortcut

theorem lt_of_shortcuts {cfg : CFG R} {rank : Label → Nat} (ranked : cfg.Ranked rank)
    {label : Label} {insn : Insn R Label} (isShortcut : cfg.shortcuts label = some insn)
    : label < cfg.blocks.length := by
  rcases block_of_shortcuts ranked isShortcut with ⟨isBlock, -⟩ | ⟨_, isBlock, -⟩
  · exact (List.getElem?_eq_some_iff.mp isBlock).1
  · exact (List.getElem?_eq_some_iff.mp isBlock).1

/-- Positions of a graph and of its shortcut graph: the same position of a block that stays, or
the start of a block with one instruction, while the other graph is about to execute the
instruction that it leads to or has jumped there already. The number bounds how often the graph
jumps before the other one has to move.
-/
inductive Follows (cfg : CFG R) (rank : Label → Nat) : Nat → Label × Nat → Label × Nat → Prop where
  | same {label : Label} (index : Nat) (stays : cfg.shortcuts label = none)
      : Follows cfg rank (cfg.blocks.length + 1) (label, index) (label, index)
  | before {label : Label} {insn : Insn R Label} {position : Label × Nat}
      (isShortcut : cfg.shortcuts label = some insn)
      (isNext : cfg.shortcut.fetch position.1 position.2 = some (insn.map id cfg.relabel))
      : Follows cfg rank (rank label) (label, 0) position
  | after {label target : Label} (isShortcut : cfg.shortcuts label = some (.jump target))
      : Follows cfg rank (cfg.blocks.length + 2 + rank label) (label, 0) (target, 0)
  | stuck {label : Label} {index : Nat} (position : Label × Nat)
      (isStuck : cfg.fetch label index = none)
      : Follows cfg rank 0 (label, index) position

/-- The blocks of the shortcut graph, if there is a shortcut. -/
theorem shortcut_blocks {cfg : CFG R} {label : Label} {insn : Insn R Label}
    (isShortcut : cfg.shortcuts label = some insn) (inside : label < cfg.blocks.length)
    : cfg.shortcut.blocks = cfg.blocks.mapIdx (fun label insns =>
        (cfg.inline label insns).map (Insn.map id cfg.relabel)) := by
  unfold shortcut
  rw [if_neg]
  intro allNone
  rw [allNone label inside] at isShortcut
  cases isShortcut

/-- After a jump to a label the shortcut graph is at the label that replaces it. -/
theorem follows_relabel {cfg : CFG R} {rank : Label → Nat} (ranked : cfg.Ranked rank)
    (label : Label)
    : ∃ lead, Follows cfg rank lead (label, 0) (cfg.relabel label, 0) := by
  unfold relabel
  split
  next target isShortcut => exact ⟨_, .after isShortcut⟩
  next notJump =>
    cases isShortcut : cfg.shortcuts label with
    | none => exact ⟨_, .same 0 isShortcut⟩
    | some insn =>
        refine ⟨_, .before isShortcut ?_⟩
        rcases block_of_shortcuts ranked isShortcut with ⟨isBlock, -⟩ | ⟨target, isBlock, isInsn⟩
        all_goals
          have inside := (List.getElem?_eq_some_iff.mp isBlock).1
          simp [fetch, shortcut_blocks isShortcut inside, List.getElem?_mapIdx, isBlock, inline,
            isShortcut]

/-- Without shortcuts nothing changes. -/
theorem relabel_eq_id {cfg : CFG R} {rank : Label → Nat} (ranked : cfg.Ranked rank)
    (noShortcut : ∀ label < cfg.blocks.length, cfg.shortcuts label = none)
    : cfg.relabel = id := by
  funext label
  have isNone : cfg.shortcuts label = none := by
    by_cases inside : label < cfg.blocks.length
    · exact noShortcut label inside
    · rw [shortcuts_eq ranked, List.getElem?_eq_none (Nat.le_of_not_lt inside)]
  rw [relabel, isNone]
  rfl

/-- The instructions of a block that stays: the same ones, except that a jump at the end may be
replaced by the instruction it leads to.
-/
theorem shortcut_fetch {cfg : CFG R} {rank : Label → Nat} (ranked : cfg.Ranked rank)
    {label : Label} {index : Nat} {insn : Insn R Label} (stays : cfg.shortcuts label = none)
    (fetched : cfg.fetch label index = some insn)
    : cfg.shortcut.fetch label index = some (insn.map id cfg.relabel)
      ∨ ∃ target other, insn = .jump target ∧ cfg.shortcuts target = some other
          ∧ cfg.shortcut.fetch label index = some (other.map id cfg.relabel) := by
  by_cases noShortcut : ∀ label < cfg.blocks.length, cfg.shortcuts label = none
  · left
    rw [relabel_eq_id ranked noShortcut, Insn.map_id, shortcut, if_pos noShortcut]
    exact fetched
  · obtain ⟨insns, isBlock, isInsn⟩ := fetch_eq_some fetched
    have blocks : cfg.shortcut.blocks[label]?
        = some ((cfg.inline label insns).map (Insn.map id cfg.relabel)) := by
      rw [shortcut, if_neg noShortcut]
      simp [List.getElem?_mapIdx, isBlock]
    rw [fetch_of_block blocks, ← List.map_reverse, List.getElem?_map]
    unfold inline
    split
    next isSome =>
      rw [stays] at isSome
      cases isSome
    next _ target rest isNone =>
      split
      next other isShortcut =>
        rw [List.reverse_cons] at isInsn ⊢
        by_cases last : index = rest.length
        · right
          subst last
          have isJump : insn = .jump target := by
            simpa [List.getElem?_append_right] using isInsn.symm
          exact ⟨target, other, isJump, isShortcut, by simp⟩
        · left
          have inside : index < rest.reverse.length := by
            have bound := (List.getElem?_eq_some_iff.mp isInsn).1
            simp only [List.length_append, List.length_reverse, List.length_singleton] at bound ⊢
            omega
          rw [List.getElem?_append_left inside] at isInsn ⊢
          rw [isInsn]
          rfl
      next =>
        left
        rw [isInsn]
        rfl
    next =>
      left
      rw [isInsn]
      rfl

/-- The two graphs are at corresponding positions, with corresponding labels in the frames. -/
def ShortcutRelated (cfg : CFG R) (rank : Label → Nat) (lead : Nat)
    (state other : (Label × Nat) × Machine σ Label)
    : Prop :=
  Follows cfg rank lead state.1 other.1 ∧ other.2 = state.2.map cfg.relabel

/-- An instruction that both graphs execute. -/
theorem shortcutRelated_goes {cfg : CFG R} {rank : Label → Nat} (ranked : cfg.Ranked rank)
    {env : Env σ} {reg : R → Nat} {label : Label} {index : Nat} {position : Label × Nat}
    {machine : Machine σ Label} {insn : Insn R Label}
    {next : (Label × Nat) × Machine σ Label}
    (fetched : cfg.fetch label index = some insn)
    (isNext : cfg.shortcut.fetch position.1 position.2 = some (insn.map id cfg.relabel))
    (falls : ∃ lead, Follows cfg rank lead (label, index + 1) (position.1, position.2 + 1))
    (goes : cfg.step env reg ((label, index), machine) = some (.inl next))
    : ∃ after more, cfg.shortcut.step env reg (position, machine.map cfg.relabel)
          = some (.inl after)
        ∧ ShortcutRelated cfg rank more next after := by
  simp only [step, fetched] at goes
  simp only [step, isNext, Insn.map_map]
  rw [Function.comp_id, Function.id_comp, execute_relabel]
  cases effect : execute env machine (insn.map reg id) with
  | next after =>
      rw [effect] at goes
      obtain rfl := Sum.inl.inj (Option.some.inj goes)
      obtain ⟨lead, follows⟩ := falls
      exact ⟨_, lead, rfl, follows, rfl⟩
  | goto target after =>
      rw [effect] at goes
      obtain rfl := Sum.inl.inj (Option.some.inj goes)
      obtain ⟨lead, follows⟩ := follows_relabel ranked target
      exact ⟨_, lead, rfl, follows, rfl⟩
  | stop outcome =>
      rw [effect] at goes
      cases goes

/-- The graph jumps from a block that consists of a jump. -/
theorem step_of_jump {cfg : CFG R} {env : Env σ} {reg : R → Nat} {label target : Label}
    (isBlock : cfg.blocks[label]? = some [.jump target]) (machine : Machine σ Label)
    : cfg.step env reg ((label, 0), machine) = some (.inl ((target, 0), machine)) := by
  have fetched : cfg.fetch label 0 = some (.jump target) := fetch_of_block isBlock 0
  simp only [step, fetched, execute, Insn.map, id]

theorem shortcut_goes {cfg : CFG R} {rank : Label → Nat} (ranked : cfg.Ranked rank)
    (env : Env σ) (reg : R → Nat) {lead : Nat} {state next other : (Label × Nat) × Machine σ Label}
    (related : ShortcutRelated cfg rank lead state other)
    (goes : cfg.step env reg state = some (.inl next))
    : (∃ less < lead, ShortcutRelated cfg rank less next other)
      ∨ ∃ after more, cfg.shortcut.step env reg other = some (.inl after)
          ∧ ShortcutRelated cfg rank more next after := by
  obtain ⟨⟨label, index⟩, machine⟩ := state
  obtain ⟨position, otherMachine⟩ := other
  obtain ⟨follows, sameMachine⟩ := related
  simp only at sameMachine follows
  subst sameMachine
  obtain ⟨insn, fetched⟩ : ∃ insn, cfg.fetch label index = some insn := by
    cases isFetched : cfg.fetch label index with
    | none => simp [step, isFetched] at goes
    | some insn => exact ⟨insn, rfl⟩
  cases follows with
  | same index stays =>
      rcases shortcut_fetch ranked stays fetched with
        isNext | ⟨target, leadsTo, rfl, isShortcut, isNext⟩
      · exact .inr (shortcutRelated_goes ranked fetched isNext
          ⟨_, .same (index + 1) stays⟩ goes)
      · -- the graph jumps; the other one is about to do what the jump leads to
        left
        simp only [step, fetched, execute, Insn.map] at goes
        obtain rfl := Sum.inl.inj (Option.some.inj goes)
        have inside := lt_of_shortcuts ranked isShortcut
        have bound := (ranked.positive target inside).2
        exact ⟨rank target, by omega, .before isShortcut isNext, rfl⟩
  | @before _ leadsTo _ isShortcut isNext =>
      rcases block_of_shortcuts ranked isShortcut with ⟨isBlock, -⟩ | ⟨target, isBlock, isInsn⟩
      · right
        have only : insn = leadsTo := by
          rw [fetch_of_block isBlock] at fetched
          exact (Option.some.inj fetched).symm
        subst only
        exact shortcutRelated_goes ranked fetched isNext
          ⟨_, .stuck _ (by simp [fetch_of_block isBlock])⟩ goes
      · rw [step_of_jump isBlock] at goes
        obtain rfl := Sum.inl.inj (Option.some.inj goes)
        cases more : cfg.shortcuts target with
        | some further =>
            left
            rw [more, Option.getD_some] at isInsn
            subst isInsn
            exact ⟨rank target, ranked.decreases label target isBlock, .before more isNext, rfl⟩
        | none =>
            right
            rw [more, Option.getD_none] at isInsn
            subst isInsn
            have stays : cfg.relabel target = target := by rw [relabel, more]
            refine ⟨((target, 0), machine.map cfg.relabel), _, ?_, .same 0 more, rfl⟩
            simp only [step, isNext, execute, Insn.map, id, stays]
  | @after _ target isShortcut =>
      left
      rcases block_of_shortcuts ranked isShortcut with ⟨-, notJump⟩ | ⟨next', isBlock, isInsn⟩
      · exact absurd rfl (notJump target)
      · rw [step_of_jump isBlock] at goes
        obtain rfl := Sum.inl.inj (Option.some.inj goes)
        have below := ranked.decreases label next' isBlock
        cases more : cfg.shortcuts next' with
        | some further =>
            rw [more, Option.getD_some] at isInsn
            subst isInsn
            exact ⟨_, Nat.add_lt_add_left below _, .after more, rfl⟩
        | none =>
            rw [more, Option.getD_none] at isInsn
            obtain rfl := Insn.jump.inj isInsn
            exact ⟨_, by omega, .same 0 more, rfl⟩
  | stuck _ isStuck =>
      rw [isStuck] at fetched
      cases fetched

theorem shortcut_stops {cfg : CFG R} {rank : Label → Nat} (ranked : cfg.Ranked rank)
    (env : Env σ) (reg : R → Nat) {lead : Nat} {state other : (Label × Nat) × Machine σ Label}
    {outcome : Outcome (Result σ)} (related : ShortcutRelated cfg rank lead state other)
    (stops : cfg.step env reg state = some (.inr outcome))
    : cfg.shortcut.step env reg other = some (.inr outcome) := by
  obtain ⟨⟨label, index⟩, machine⟩ := state
  obtain ⟨position, otherMachine⟩ := other
  obtain ⟨follows, sameMachine⟩ := related
  simp only at sameMachine follows
  subst sameMachine
  obtain ⟨insn, fetched⟩ : ∃ insn, cfg.fetch label index = some insn := by
    cases isFetched : cfg.fetch label index with
    | none => simp [step, isFetched] at stops
    | some insn => exact ⟨insn, rfl⟩
  have same (isNext : cfg.shortcut.fetch position.1 position.2 = some (insn.map id cfg.relabel))
      : cfg.shortcut.step env reg (position, machine.map cfg.relabel) = some (.inr outcome) := by
    simp only [step, fetched] at stops
    simp only [step, isNext, Insn.map_map]
    rw [Function.comp_id, Function.id_comp, execute_relabel]
    cases effect : execute env machine (insn.map reg id) with
    | next => simp [effect] at stops
    | goto => simp [effect] at stops
    | stop other =>
        simp only [effect] at stops
        exact stops
  cases follows with
  | same index stays =>
      rcases shortcut_fetch ranked stays fetched with isNext | ⟨target, -, rfl, -, -⟩
      · exact same isNext
      · simp [step, fetched, execute, Insn.map] at stops
  | @before _ leadsTo _ isShortcut isNext =>
      rcases block_of_shortcuts ranked isShortcut with ⟨isBlock, -⟩ | ⟨target, isBlock, -⟩
      · rw [fetch_of_block isBlock] at fetched
        obtain rfl := Option.some.inj fetched
        exact same isNext
      · rw [step_of_jump isBlock] at stops
        cases stops
  | @after _ target isShortcut =>
      rcases block_of_shortcuts ranked isShortcut with ⟨-, notJump⟩ | ⟨_, isBlock, -⟩
      · exact absurd rfl (notJump target)
      · rw [step_of_jump isBlock] at stops
        cases stops
  | stuck _ isStuck =>
      rw [isStuck] at fetched
      cases fetched

/-- The shortcut graph is ahead of the graph, but not forever. -/
theorem shortcut_catchesUp {cfg : CFG R} {rank : Label → Nat} (ranked : cfg.Ranked rank)
    (env : Env σ) (reg : R → Nat)
    : CatchesUp (cfg.step env reg) (cfg.shortcut.step env reg) (ShortcutRelated cfg rank) where
  goes := shortcut_goes ranked env reg
  stops := shortcut_stops ranked env reg

/-- It starts at the label that replaces the entry. -/
theorem shortcut_entry {cfg : CFG R} {rank : Label → Nat} (ranked : cfg.Ranked rank)
    : cfg.shortcut.entry = cfg.relabel cfg.entry := by
  unfold shortcut
  split
  next noShortcut => rw [relabel_eq_id ranked noShortcut, id]
  next => rfl

end CFG

end Glean.Bytecode
