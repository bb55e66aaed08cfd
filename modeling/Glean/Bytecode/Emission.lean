import Glean.Bytecode.Layout

/-! Reasoning about generated code: which labels it gets, where it ends up in the final control
flow graph, and how executing it goes on to the code behind it.
-/

namespace Glean.Bytecode

open RTS Halting

variable {σ α β : Type}

/-- The states agree except for the operands of instructions and for the finished blocks. -/
structure CodeS.Similar (left right : CodeS) : Prop where
  csLabel : left.csLabel = right.csLabel
  csInsns : left.csInsns.map Insn.insnControl = right.csInsns.map Insn.insnControl
  csConstants : left.csConstants = right.csConstants
  csLiterals : left.csLiterals = right.csLiterals
  csLocals : left.csLocals = right.csLocals
  csMaxLocal : left.csMaxLocal = right.csMaxLocal

theorem CodeS.Similar.refl (state : CodeS) : state.Similar state :=
  ⟨rfl, rfl, rfl, rfl, rfl, rfl⟩

theorem Code.bind_apply (code : Code α) (next : α → Code β) (state : CodeS)
    : (code >>= next) state = next (code state).1 (code state).2 :=
  rfl

/-- Codes that give the same result and similar states. -/
def Code.Similar (left right : Code α) : Prop :=
  ∀ state other : CodeS, state.Similar other →
    (left state).1 = (right other).1 ∧ (left state).2.Similar (right other).2

namespace Code.Similar

theorem bind {left right : Code α} {leftNext rightNext : α → Code β}
    (first : Code.Similar left right) (next : ∀ result, Code.Similar (leftNext result) (rightNext result))
    : Code.Similar (left >>= leftNext) (right >>= rightNext) := by
  intro state other similar
  obtain ⟨sameResult, afterFirst⟩ := first state other similar
  have afterNext := next (left state).1 _ _ afterFirst
  rw [Code.bind_apply, Code.bind_apply, ← sameResult]
  exact afterNext

theorem pure (result : α) : Code.Similar (Pure.pure result : Code α) (Pure.pure result) :=
  fun _ _ similar => ⟨rfl, similar⟩

theorem newBlock : Code.Similar newBlock newBlock := by
  intro state other similar
  refine ⟨congrArg (· + 1) similar.csLabel, ?_⟩
  exact ⟨congrArg (· + 1) similar.csLabel, rfl, similar.csConstants, similar.csLiterals,
    similar.csLocals, similar.csMaxLocal⟩

theorem label : Code.Similar label label := by
  intro state other similar
  have sameEmpty : state.csInsns = [] ↔ other.csInsns = [] := by
    rw [← List.map_eq_nil_iff (f := Insn.insnControl), similar.csInsns, List.map_eq_nil_iff]
  unfold Bytecode.label
  by_cases isEmpty : state.csInsns = []
  · rw [if_pos isEmpty, if_pos (sameEmpty.mp isEmpty)]
    exact ⟨similar.csLabel, similar⟩
  · rw [if_neg isEmpty, if_neg (fun otherEmpty => isEmpty (sameEmpty.mpr otherEmpty))]
    exact newBlock state other similar

theorem issue {left right : Instruction} (sameControl : left.insnControl = right.insnControl)
    : Code.Similar (issue left) (issue right) := by
  intro state other similar
  have pushed : CodeS.Similar { state with csInsns := left :: state.csInsns }
      { other with csInsns := right :: other.csInsns } :=
    { similar with csInsns := by simp [sameControl, similar.csInsns] }
  unfold Bytecode.issue
  rw [← sameControl]
  cases left.insnControl with
  | fallThrough => exact ⟨rfl, pushed⟩
  | condJump | uncondJump | uncondReturn => exact ⟨rfl, (newBlock _ _ pushed).2⟩

theorem constant (word : Nat) : Code.Similar (constant word) (constant word) := by
  intro state other similar
  unfold Bytecode.constant
  rw [similar.csConstants]
  exact ⟨rfl, { similar with csConstants := rfl }⟩

theorem literal (lit : String) : Code.Similar (literal lit) (literal lit) := by
  intro state other similar
  unfold Bytecode.literal
  rw [similar.csLiterals]
  exact ⟨rfl, { similar with csLiterals := rfl }⟩

theorem withLocal {left right : Register → Code α}
    (body : ∀ register, Code.Similar (left register) (right register))
    : Code.Similar (withLocal left) (withLocal right) := by
  intro state other similar
  unfold Bytecode.withLocal
  have inside : CodeS.Similar
      { state with
          csLocals := state.csLocals + 1
          csMaxLocal := max state.csMaxLocal (state.csLocals + 1) }
      { other with
          csLocals := other.csLocals + 1
          csMaxLocal := max other.csMaxLocal (other.csLocals + 1) } :=
    { similar with
      csLocals := by simp [similar.csLocals]
      csMaxLocal := by simp [similar.csLocals, similar.csMaxLocal] }
  have after := body (.local state.csLocals) _ _ inside
  dsimp only
  rw [← similar.csLocals] at after ⊢
  exact ⟨after.1, { after.2 with csLocals := rfl }⟩

theorem mfix [Inhabited α] {left right : α → Code α}
    (body : ∀ guess other, Code.Similar (left guess) (right other))
    : Code.Similar (Code.mfix left) (Code.mfix right) :=
  fun state other similar => body _ _ state other similar

theorem raise (msg : String) : Code.Similar (raise msg) (raise msg) :=
  bind (literal msg) (fun _ => issue rfl)

end Code.Similar

/-- The result of a recursive definition is its fixed point. -/
theorem Code.mfix_eq [Inhabited α] {body : α → Code α}
    (similar : ∀ guess other, Code.Similar (body guess) (body other)) (state : CodeS)
    : ∃ result, (body result state).1 = result ∧ Code.mfix body state = body result state :=
  ⟨(body default state).1, (similar _ default state state (.refl state)).1, rfl⟩

/-- Code that is generated for the labels alone. -/
theorem Code.mfix_apply [Inhabited α] {body : α → Code α}
    (similar : ∀ guess other, Code.Similar (body guess) (body other)) (state : CodeS)
    : ∃ result, (body result state).1 = result
        ∧ (do let _ ← Code.mfix body; return ()) state = ((), (body result state).2) := by
  obtain ⟨result, isFixed, same⟩ := Code.mfix_eq similar state
  refine ⟨result, isFixed, ?_⟩
  rw [Code.bind_apply, same]
  rfl

namespace CodeS

/-- The later state has the instructions, constants and literals of the earlier one: its open
block is still open, or finished.
-/
structure Extends (later earlier : CodeS) : Prop where
  csInsns
    : (later.csLabel = earlier.csLabel ∧ later.csBlocks = earlier.csBlocks
        ∧ earlier.csInsns <:+ later.csInsns)
      ∨ ∃ insns, earlier.csInsns <:+ insns ∧ insns :: earlier.csBlocks <:+ later.csBlocks
  csConstants : earlier.csConstants <+: later.csConstants
  csLiterals : earlier.csLiterals <+: later.csLiterals
  csMaxLocal : earlier.csMaxLocal ≤ later.csMaxLocal

theorem Extends.refl (state : CodeS) : state.Extends state :=
  ⟨.inl ⟨rfl, rfl, List.suffix_rfl⟩, List.prefix_rfl, List.prefix_rfl, Nat.le_refl _⟩

theorem Extends.trans {last middle first : CodeS} (upper : last.Extends middle)
    (lower : middle.Extends first)
    : last.Extends first where
  csInsns := by
    rcases lower.csInsns with ⟨sameLabel, sameBlocks, isSuffix⟩ | ⟨insns, isSuffix, finished⟩
    · rcases upper.csInsns with ⟨upperLabel, upperBlocks, more⟩ | ⟨insns, more, finished⟩
      · exact .inl ⟨upperLabel.trans sameLabel, upperBlocks.trans sameBlocks, isSuffix.trans more⟩
      · rw [sameBlocks] at finished
        exact .inr ⟨insns, isSuffix.trans more, finished⟩
    · refine .inr ⟨insns, isSuffix, finished.trans ?_⟩
      rcases upper.csInsns with ⟨-, upperBlocks, -⟩ | ⟨others, -, upperFinished⟩
      · exact upperBlocks ▸ List.suffix_rfl
      · exact (List.suffix_cons others middle.csBlocks).trans upperFinished
  csConstants := lower.csConstants.trans upper.csConstants
  csLiterals := lower.csLiterals.trans upper.csLiterals
  csMaxLocal := lower.csMaxLocal.trans upper.csMaxLocal

/-- Well-formed states: labels number the blocks, and the open block has no jumps. -/
structure WF (state : CodeS) : Prop where
  csBlocks : state.csBlocks.length = state.csLabel
  csInsns : ∀ insn ∈ state.csInsns, insn.insnControl = .fallThrough
  csLocals : state.csLocals ≤ state.csMaxLocal

/-- A block that consists of a jump jumps forward. -/
def Forward (state : CodeS) : Prop :=
  ∀ (label target : Label), state.csBlocks.reverse[label]? = some [.jump target] →
    label < target

theorem WF.start : WF .start where
  csBlocks := rfl
  csInsns := by simp [CodeS.start]
  csLocals := Nat.le_refl _

end CodeS

/-- Generating the code from a well-formed state keeps what is there and the local registers in
use.
-/
structure Code.Grows (code : Code α) (state : CodeS) : Prop where
  wf : (code state).2.WF
  extends_ : (code state).2.Extends state
  csLocals : (code state).2.csLocals = state.csLocals
  csLabel : state.csLabel ≤ (code state).2.csLabel

namespace Code.Grows

variable {state : CodeS}

theorem bind {code : Code α} {next : α → Code β} (first : Grows code state)
    (rest : Grows (next (code state).1) (code state).2)
    : Grows (code >>= next) state where
  wf := rest.wf
  extends_ := rest.extends_.trans first.extends_
  csLocals := rest.csLocals.trans first.csLocals
  csLabel := first.csLabel.trans rest.csLabel

theorem pure (wf : state.WF) (result : α) : Grows (Pure.pure result : Code α) state :=
  ⟨wf, .refl state, rfl, Nat.le_refl _⟩

end Code.Grows

theorem jumpTo_eq {insns : List Instruction} (label : Label)
    (straight : ∀ insn ∈ insns, insn.insnControl = .fallThrough)
    : jumpTo label insns = .jump label :: insns := by
  cases insns with
  | nil => rfl
  | cons insn rest =>
      have control := straight insn List.mem_cons_self
      simp [jumpTo, control]

/-- A block is finished: its instructions are those of the open block and perhaps a jump. -/
theorem grows_newBlock {state : CodeS} {block : List Instruction} (wf : state.WF)
    (isSuffix : state.csInsns <:+ block)
    : CodeS.WF { state with
          csLabel := state.csLabel + 1
          csInsns := []
          csBlocks := block :: state.csBlocks }
      ∧ CodeS.Extends { state with
          csLabel := state.csLabel + 1
          csInsns := []
          csBlocks := block :: state.csBlocks } state := by
  refine ⟨⟨?_, by simp, wf.csLocals⟩,
    .inr ⟨block, isSuffix, List.suffix_rfl⟩, List.prefix_rfl, List.prefix_rfl, Nat.le_refl _⟩
  simp [wf.csBlocks]

theorem CodeS.Forward.newBlock {state : CodeS} {block : List Instruction} (wf : state.WF)
    (isForward : state.Forward)
    (jumps : ∀ target, block = [.jump target] → state.csLabel < target)
    : CodeS.Forward { state with
        csLabel := state.csLabel + 1
        csInsns := []
        csBlocks := block :: state.csBlocks } := by
  intro label target isBlock
  simp only [List.reverse_cons, List.getElem?_append, List.length_reverse] at isBlock
  split at isBlock
  next => exact isForward label target isBlock
  next notBefore =>
    have isLast : [.jump target] = block := by
      simpa using List.mem_of_getElem? isBlock
    have position := (List.getElem?_eq_some_iff.mp isBlock).1
    simp only [List.length_singleton] at position
    have beyond := jumps target isLast.symm
    have length := wf.csBlocks
    lia

/-- The state in the body of `local`. -/
def CodeS.withLocal (state : CodeS) : CodeS :=
  { state with
      csLocals := state.csLocals + 1
      csMaxLocal := max state.csMaxLocal (state.csLocals + 1) }

theorem CodeS.WF.withLocal {state : CodeS} (wf : state.WF) : state.withLocal.WF :=
  { wf with csLocals := Nat.le_max_right _ _ }

theorem CodeS.extends_withLocal (state : CodeS) : state.withLocal.Extends state :=
  ⟨.inl ⟨rfl, rfl, List.suffix_rfl⟩, List.prefix_rfl, List.prefix_rfl, Nat.le_max_left _ _⟩

theorem intern_prefix {α : Type} [DecidableEq α] (element : α) (known : List α)
    : known <+: (intern element known).2 := by
  unfold intern
  split
  · exact List.prefix_rfl
  · exact List.prefix_append _ _

/-- The element is at its index. -/
theorem intern_get {α : Type} [DecidableEq α] (element : α) (known : List α)
    : (intern element known).2[(intern element known).1]? = some element := by
  unfold intern
  split
  next index isIndex =>
    obtain ⟨inside, isElement, -⟩ := List.idxOf?_eq_some_iff.mp isIndex
    exact List.getElem?_eq_some_iff.mpr ⟨inside, by simpa using isElement⟩
  next => simp

theorem issue_fallThrough {insn : Instruction} (isFall : insn.insnControl = .fallThrough)
    (state : CodeS)
    : issue insn state = ((), { state with csInsns := insn :: state.csInsns }) := by
  unfold issue
  rw [isFall]

theorem issue_jump {insn : Instruction} (notFall : insn.insnControl ≠ .fallThrough)
    (state : CodeS)
    : issue insn state
      = ((), { state with
          csLabel := state.csLabel + 1
          csInsns := []
          csBlocks := jumpTo (state.csLabel + 1) (insn :: state.csInsns) :: state.csBlocks }) := by
  unfold issue
  cases control : insn.insnControl with
  | fallThrough => exact absurd control notFall
  | condJump | uncondJump | uncondReturn => rfl

theorem suffix_jumpTo (label : Label) (insns : List Instruction) : insns <:+ jumpTo label insns := by
  unfold jumpTo
  split
  · split
    · exact List.suffix_rfl
    · exact List.suffix_cons _ _
  · exact List.nil_suffix

theorem label_eq {state : CodeS} (wf : state.WF) (notEmpty : state.csInsns ≠ [])
    : label state
      = (state.csLabel + 1,
        { state with
          csLabel := state.csLabel + 1
          csInsns := []
          csBlocks := (.jump (state.csLabel + 1) :: state.csInsns) :: state.csBlocks }) := by
  rw [label, if_neg notEmpty, newBlock, jumpTo_eq _ wf.csInsns]

namespace Code.Grows

variable {state : CodeS}

theorem issue (insn : Instruction) (wf : state.WF) : Grows (issue insn) state := by
  by_cases isFall : insn.insnControl = .fallThrough
  · have isNew := issue_fallThrough isFall state
    have straight : ∀ other ∈ insn :: state.csInsns, other.insnControl = .fallThrough := by
      intro other member
      rcases List.mem_cons.mp member with rfl | old
      · exact isFall
      · exact wf.csInsns other old
    refine ⟨?_, ?_, by rw [isNew], by rw [isNew]⟩
    · rw [isNew]
      exact { wf with csInsns := straight }
    · rw [isNew]
      exact ⟨.inl ⟨rfl, rfl, List.suffix_cons _ _⟩, List.prefix_rfl, List.prefix_rfl,
        Nat.le_refl _⟩
  · have isNew := issue_jump isFall state
    have both := grows_newBlock wf
      ((List.suffix_cons insn state.csInsns).trans (suffix_jumpTo (state.csLabel + 1) _))
    exact ⟨by rw [isNew]; exact both.1, by rw [isNew]; exact both.2, by rw [isNew],
      by rw [isNew]; exact Nat.le_succ _⟩

theorem label (wf : state.WF) : Grows label state := by
  by_cases isEmpty : state.csInsns = []
  · have same : Bytecode.label state = (state.csLabel, state) := by
      rw [Bytecode.label, if_pos isEmpty]
    exact ⟨by rw [same]; exact wf, by rw [same]; exact .refl state, by rw [same], by rw [same]⟩
  · have isNew := label_eq wf isEmpty
    have both := grows_newBlock wf (List.suffix_cons (.jump (state.csLabel + 1)) state.csInsns)
    exact ⟨by rw [isNew]; exact both.1, by rw [isNew]; exact both.2, by rw [isNew],
      by rw [isNew]; exact Nat.le_succ _⟩

theorem constant (wf : state.WF) (word : Nat) : Grows (constant word) state :=
  ⟨{ wf with }, ⟨.inl ⟨rfl, rfl, List.suffix_rfl⟩, intern_prefix word state.csConstants,
    List.prefix_rfl, Nat.le_refl _⟩, rfl, Nat.le_refl _⟩

theorem literal (wf : state.WF) (lit : String) : Grows (literal lit) state :=
  ⟨{ wf with }, ⟨.inl ⟨rfl, rfl, List.suffix_rfl⟩, List.prefix_rfl,
    intern_prefix lit state.csLiterals, Nat.le_refl _⟩, rfl, Nat.le_refl _⟩

theorem raise (wf : state.WF) (msg : String) : Grows (raise msg) state :=
  bind (literal wf msg) (issue _ (literal wf msg).wf)

theorem withLocal {body : Register → Code α} (wf : state.WF)
    (inside : state.withLocal.WF → Grows (body (.local state.csLocals)) state.withLocal)
    : Grows (withLocal body) state := by
  have grows := inside (wf.withLocal)
  have bound : state.csLocals + 1 ≤ (body (.local state.csLocals) state.withLocal).2.csMaxLocal := by
    have more := grows.extends_.csMaxLocal
    have own : state.csLocals + 1 ≤ state.withLocal.csMaxLocal := Nat.le_max_right _ _
    omega
  have extends_ := grows.extends_.trans state.extends_withLocal
  have csLocals : (Bytecode.withLocal body state).2.csLocals
      ≤ (Bytecode.withLocal body state).2.csMaxLocal := by
    exact (Nat.le_succ state.csLocals).trans bound
  exact ⟨{ grows.wf with csLocals },
    ⟨extends_.csInsns, extends_.csConstants, extends_.csLiterals, extends_.csMaxLocal⟩, rfl,
    grows.csLabel⟩

end Code.Grows

/-- The code can be generated from every well-formed state. -/
def Code.AlwaysGrows (code : Code α) : Prop :=
  ∀ state : CodeS, state.WF → Code.Grows code state

namespace Code.AlwaysGrows

theorem bind {code : Code α} {next : α → Code β} (first : AlwaysGrows code)
    (rest : ∀ result, AlwaysGrows (next result))
    : AlwaysGrows (code >>= next) :=
  fun state wf => .bind (first state wf) (rest _ _ (first state wf).wf)

theorem pure (result : α) : AlwaysGrows (Pure.pure result : Code α) :=
  fun _ wf => .pure wf result

theorem issue (insn : Instruction) : AlwaysGrows (issue insn) :=
  fun _ wf => .issue insn wf

theorem label : AlwaysGrows label :=
  fun _ wf => .label wf

theorem constant (word : Nat) : AlwaysGrows (constant word) :=
  fun _ wf => .constant wf word

theorem raise (msg : String) : AlwaysGrows (raise msg) :=
  fun _ wf => .raise wf msg

theorem withLocal {body : Register → Code α} (inside : ∀ register, AlwaysGrows (body register))
    : AlwaysGrows (withLocal body) :=
  fun _ wf => .withLocal wf (fun insideWf => inside _ _ insideWf)

theorem mfix [Inhabited α] {body : α → Code α} (grows : ∀ guess, AlwaysGrows (body guess))
    : AlwaysGrows (Code.mfix body) := by
  intro state wf
  have inside := grows (body default state).1 state wf
  exact ⟨inside.wf, inside.extends_, inside.csLocals, inside.csLabel⟩

end Code.AlwaysGrows

/-- The code finishes no block that consists of a jump backwards. -/
def Code.Forward (code : Code α) (state : CodeS) : Prop :=
  state.Forward → (code state).2.Forward

namespace Code.Forward

variable {state : CodeS}

theorem bind {code : Code α} {next : α → Code β} (first : Forward code state)
    (rest : Forward (next (code state).1) (code state).2)
    : Forward (code >>= next) state :=
  fun isForward => rest (first isForward)

theorem issue (insn : Instruction) (wf : state.WF)
    (jumps : ∀ target, insn = .jump target → state.csInsns = [] → state.csLabel < target)
    : Forward (issue insn) state := by
  intro isForward
  by_cases isFall : insn.insnControl = .fallThrough
  · rw [issue_fallThrough isFall]
    exact isForward
  · rw [issue_jump isFall]
    refine isForward.newBlock wf (fun target isSingle => ?_)
    rw [jumpTo] at isSingle
    split at isSingle
    · obtain ⟨isJump, isEmpty⟩ := List.cons.inj isSingle
      exact jumps target isJump isEmpty
    · cases isSingle

theorem label (wf : state.WF) : Forward label state := by
  intro isForward
  by_cases isEmpty : state.csInsns = []
  · rw [Bytecode.label, if_pos isEmpty]
    exact isForward
  · rw [label_eq wf isEmpty]
    exact isForward.newBlock wf (fun target isSingle =>
      absurd (List.cons.inj isSingle).2 isEmpty)

theorem raise (wf : state.WF) (msg : String) : Forward (raise msg) state := by
  have first : Forward (literal msg) state := fun isForward => isForward
  exact bind first (issue _ (Grows.literal wf msg).wf (fun _ isJump => by cases isJump))

/-- A jump goes behind the code that follows. -/
theorem jump {rest : Code α} {finish : Label} (wf : state.WF) (grows : rest.AlwaysGrows)
    (bound : (rest (Bytecode.issue (.jump finish) state).2).2.csLabel ≤ finish)
    : Forward (Bytecode.issue (.jump finish)) state := by
  refine issue _ wf (fun target isJump _ => ?_)
  cases isJump
  have more := (grows _ (Grows.issue (.jump finish) wf).wf).csLabel
  rw [issue_jump (by simp [Insn.insnControl])] at more bound
  dsimp only at more
  lia

theorem withLocal {body : Register → Code α}
    (inside : Forward (body (.local state.csLocals)) state.withLocal)
    : Forward (withLocal body) state :=
  fun isForward => inside isForward

end Code.Forward

theorem csLabel_label (state : CodeS) : (label state).2.csLabel = (label state).1 := by
  unfold label newBlock
  split <;> rfl

theorem csLocals_label (state : CodeS) : (label state).2.csLocals = state.csLocals := by
  unfold label newBlock
  split <;> rfl

theorem csLocals_issue (insn : Instruction) (state : CodeS)
    : (issue insn state).2.csLocals = state.csLocals := by
  unfold issue
  split <;> rfl

/-- The code can be generated from every well-formed state, and jumps forward from there. -/
structure Code.Steady (code : Code α) : Prop where
  grows : Code.AlwaysGrows code
  forward : ∀ state : CodeS, state.WF → Code.Forward code state

namespace Code.Steady

theorem bind {code : Code α} {next : α → Code β} (first : Steady code)
    (rest : ∀ result, Steady (next result))
    : Steady (code >>= next) where
  grows := .bind first.grows (fun result => (rest result).grows)
  forward state wf :=
    .bind (first.forward state wf) ((rest _).forward _ (first.grows state wf).wf)

theorem pure (result : α) : Steady (Pure.pure result : Code α) :=
  ⟨.pure result, fun _ _ isForward => isForward⟩

theorem issue {insn : Instruction} (notJump : ∀ target, insn ≠ .jump target)
    : Steady (issue insn) :=
  ⟨.issue insn, fun _ wf => .issue insn wf
    (fun target isJump => absurd isJump (notJump target))⟩

theorem label : Steady label :=
  ⟨.label, fun _ wf => .label wf⟩

theorem constant (word : Nat) : Steady (constant word) :=
  ⟨.constant word, fun _ _ isForward => isForward⟩

theorem raise (msg : String) : Steady (raise msg) :=
  ⟨.raise msg, fun _ wf => .raise wf msg⟩

theorem withLocal {body : Register → Code α} (inside : ∀ register, Steady (body register))
    : Steady (withLocal body) where
  grows := .withLocal (fun register => (inside register).grows)
  forward _ wf := .withLocal ((inside _).forward _ wf.withLocal)

theorem mfix [Inhabited α] {body : α → Code α} (steady : ∀ guess, Steady (body guess))
    : Steady (Code.mfix body) where
  grows := .mfix (fun guess => (steady guess).grows)
  forward state wf := (steady (body default state).1).forward state wf

end Code.Steady

/-- In a finished graph whose jumps go forward, jumps are not cyclic. -/
theorem CodeS.Forward.ranked {state : CodeS} (isForward : state.Forward)
    : state.cfg.Ranked (fun label => state.csBlocks.length - label) where
  positive := by
    intro label inside
    simp only [CodeS.cfg, List.length_reverse] at inside ⊢
    omega
  decreases := by
    intro label target isJump
    have ahead := isForward label target isJump
    have inside := (List.getElem?_eq_some_iff.mp isJump).1
    simp only [CodeS.cfg, List.length_reverse] at inside
    lia

/-- Where the next instruction goes. -/
def CodeS.position (state : CodeS) : Label × Nat :=
  (state.csLabel, state.csInsns.length)

section Execution

variable {final state : CodeS} {env : Env σ} {reg : Register → Nat} {insn : Instruction}
  {machine after : Machine σ Label}

theorem fetch_block {block : List Instruction} {blocks : List (List Instruction)}
    (isSuffix : block :: blocks <:+ final.csBlocks) (index : Nat)
    : final.cfg.fetch blocks.length index = block.reverse[index]? := by
  obtain ⟨later, isFinal⟩ := isSuffix
  have isBlock : final.cfg.blocks[blocks.length]? = some block := by
    rw [CodeS.cfg, ← isFinal]
    simp
  exact CFG.fetch_of_block isBlock index

theorem csBlocks_suffix {later earlier : CodeS} (isExtended : later.Extends earlier)
    : earlier.csBlocks <:+ later.csBlocks := by
  rcases isExtended.csInsns with ⟨-, same, -⟩ | ⟨block, -, more⟩
  · exact same ▸ List.suffix_rfl
  · exact (List.suffix_cons block _).trans more

/-- An instruction is in the final graph where it was issued. -/
theorem fetch_issue (finished : final.csInsns = []) (wf : state.WF)
    (isExtended : final.Extends (issue insn state).2)
    : final.cfg.fetch state.csLabel state.csInsns.length = some insn := by
  have inBlock {block : List Instruction} (isSuffix : insn :: state.csInsns <:+ block)
      (isFinal : block :: state.csBlocks <:+ final.csBlocks)
      : final.cfg.fetch state.csLabel state.csInsns.length = some insn := by
    obtain ⟨later, rfl⟩ := isSuffix
    rw [← wf.csBlocks, fetch_block isFinal]
    simp
  by_cases isFall : insn.insnControl = .fallThrough
  · rw [issue_fallThrough isFall] at isExtended
    rcases isExtended.csInsns with ⟨-, -, isSuffix⟩ | ⟨block, isSuffix, isFinal⟩
    · rw [finished] at isSuffix
      cases List.suffix_nil.mp isSuffix
    · exact inBlock isSuffix isFinal
  · have isFinal := csBlocks_suffix isExtended
    rw [issue_jump isFall] at isFinal
    exact inBlock (suffix_jumpTo (state.csLabel + 1) _) isFinal

variable (final env reg)

/-- The final graph stops with the outcome. -/
def Ends (position : Label × Nat) (machine : Machine σ Label) (outcome : Outcome (Result σ))
    : Prop :=
  Halts (final.cfg.step env reg) (position, machine) outcome

/-- Executing the final graph leads from one position to another. -/
def Leads (position : Label × Nat) (machine : Machine σ Label) (next : Label × Nat)
    (after : Machine σ Label) : Prop :=
  ∀ outcome, Ends final env reg next after outcome → Ends final env reg position machine outcome

variable {final env reg}

theorem Leads.refl (position : Label × Nat) (machine : Machine σ Label)
    : Leads final env reg position machine position machine :=
  fun _ ends => ends

theorem Leads.trans {first second third : Label × Nat} {left middle right : Machine σ Label}
    (lower : Leads final env reg first left second middle)
    (upper : Leads final env reg second middle third right)
    : Leads final env reg first left third right :=
  fun outcome ends => lower outcome (upper outcome ends)

theorem leads_goto {target : Label} (finished : final.csInsns = []) (wf : state.WF)
    (isExtended : final.Extends (issue insn state).2)
    (goes : execute env machine (insn.map reg id) = .goto target after)
    : Leads final env reg state.position machine (target, 0) after := by
  intro outcome ends
  refine .step ?_ ends
  simp only [CFG.step, CodeS.position, fetch_issue finished wf isExtended, goes]

theorem ends_of_stop {outcome : Outcome (Result σ)} (finished : final.csInsns = [])
    (wf : state.WF) (isExtended : final.Extends (issue insn state).2)
    (stops : execute env machine (insn.map reg id) = .stop outcome)
    : Ends final env reg state.position machine outcome := by
  refine .stop ?_
  simp only [CFG.step, CodeS.position, fetch_issue finished wf isExtended, stops]

/-- A step to the position behind an instruction. -/
theorem leads_next (finished : final.csInsns = []) (wf : state.WF)
    (isExtended : final.Extends (issue insn state).2)
    (goes : execute env machine (insn.map reg id) = .next after)
    : Leads final env reg state.position machine (state.csLabel, state.csInsns.length + 1)
        after := by
  intro outcome ends
  refine .step ?_ ends
  simp only [CFG.step, CodeS.position, fetch_issue finished wf isExtended, goes]

theorem leads_fallThrough (finished : final.csInsns = []) (wf : state.WF)
    (isExtended : final.Extends (issue insn state).2) (isFall : insn.insnControl = .fallThrough)
    (goes : execute env machine (insn.map reg id) = .next after)
    : Leads final env reg state.position machine (issue insn state).2.position after := by
  rw [issue_fallThrough isFall]
  exact leads_next finished wf isExtended goes

/-- A jump at the end of a block. -/
theorem leads_jump (env : Env σ) (reg : Register → Nat) {target : Label}
    {blocks : List (List Instruction)} {insns : List Instruction}
    (isFinal : (.jump target :: insns) :: blocks <:+ final.csBlocks)
    (machine : Machine σ Label)
    : Leads final env reg (blocks.length, insns.length) machine (target, 0) machine := by
  intro outcome ends
  refine .step ?_ ends
  have fetched : final.cfg.fetch blocks.length insns.length = some (.jump target) := by
    rw [fetch_block isFinal]
    simp
  simp only [CFG.step, fetched, execute, Insn.map, id]

/-- A conditional jump that is not taken. -/
theorem leads_condJump (finished : final.csInsns = []) (wf : state.WF)
    (isExtended : final.Extends (issue insn state).2) (isCond : insn.insnControl = .condJump)
    (goes : execute env machine (insn.map reg id) = .next after)
    : Leads final env reg state.position machine (issue insn state).2.position after := by
  have withJump : jumpTo (state.csLabel + 1) (insn :: state.csInsns)
      = .jump (state.csLabel + 1) :: insn :: state.csInsns := by
    simp [jumpTo, isCond]
  have isFinal := csBlocks_suffix isExtended
  rw [issue_jump (by simp [isCond]), withJump] at isFinal ⊢
  have jumps := leads_jump env reg isFinal after
  rw [wf.csBlocks] at jumps
  exact (leads_next finished wf isExtended goes).trans jumps

theorem position_label (state : CodeS) : (label state).2.position = ((label state).1, 0) := by
  unfold label
  by_cases isEmpty : state.csInsns = []
  · rw [if_pos isEmpty, CodeS.position, isEmpty]
    rfl
  · rw [if_neg isEmpty]
    rfl

theorem eq_position_label {target : Label} (isLabel : (label state).1 = target)
    : (target, 0) = (label state).2.position := by
  rw [position_label, isLabel]

theorem leads_label (wf : state.WF) (isExtended : final.Extends (label state).2)
    (machine : Machine σ Label)
    : Leads final env reg state.position machine ((label state).1, 0) machine := by
  by_cases isEmpty : state.csInsns = []
  · have same : ((label state).1, 0) = state.position := by
      rw [label, if_pos isEmpty, CodeS.position, isEmpty]
      rfl
    rw [same]
    exact .refl _ _
  · have isFinal := csBlocks_suffix isExtended
    rw [label_eq wf isEmpty] at isFinal ⊢
    have jumps := leads_jump env reg isFinal machine
    rw [wf.csBlocks] at jumps
    exact jumps

variable (final env reg)

/-- The code from a position on computes the outcome: it leads to where the result is
available, or stops with the error.
-/
def Computes (position : Label × Nat) (machine : Machine σ Label) (outcome : Outcome α)
    (post : α → Label × Nat → Machine σ Label → Prop) : Prop :=
  match outcome with
  | .ok result => ∃ next after, post result next after
      ∧ Leads final env reg position machine next after
  | .error message => Ends final env reg position machine (.error message)
  | .undefined => Ends final env reg position machine .undefined

variable {final env reg} {position next : Label × Nat}

theorem Computes.ok {result : α} {post : α → Label × Nat → Machine σ Label → Prop}
    (isPost : post result position machine)
    : Computes final env reg position machine (.ok result) post :=
  ⟨position, machine, isPost, .refl _ _⟩

theorem Computes.of_leads {outcome : Outcome α}
    {post : α → Label × Nat → Machine σ Label → Prop}
    (leads : Leads final env reg position machine next after)
    (computes : Computes final env reg next after outcome post)
    : Computes final env reg position machine outcome post := by
  cases outcome with
  | ok result =>
      obtain ⟨last, machineAfter, isPost, more⟩ := computes
      exact ⟨last, machineAfter, isPost, leads.trans more⟩
  | error message => exact leads _ computes
  | undefined => exact leads _ computes

/-- The code of a sequence computes the outcome of the sequence. -/
theorem Computes.bind {outcome : Outcome α} {rest : α → Outcome β}
    {post : α → Label × Nat → Machine σ Label → Prop}
    {last : β → Label × Nat → Machine σ Label → Prop}
    (computes : Computes final env reg position machine outcome post)
    (continues : ∀ result next after, post result next after →
      Computes final env reg next after (rest result) last)
    : Computes final env reg position machine (outcome >>= rest) last := by
  cases outcome with
  | ok result =>
      obtain ⟨next, after, isPost, leads⟩ := computes
      exact .of_leads leads (continues result next after isPost)
  | error message => exact computes
  | undefined => exact computes

/-- Go on from where the result is available. -/
theorem Computes.trans {outcome : Outcome α}
    {post last : α → Label × Nat → Machine σ Label → Prop}
    (computes : Computes final env reg position machine outcome post)
    (continues : ∀ result next after, outcome = .ok result → post result next after →
      ∃ end_ machineAfter, last result end_ machineAfter
        ∧ Leads final env reg next after end_ machineAfter)
    : Computes final env reg position machine outcome last := by
  cases outcome with
  | ok result =>
      obtain ⟨next, after, isPost, leads⟩ := computes
      obtain ⟨end_, machineAfter, isLast, more⟩ := continues result next after rfl isPost
      exact ⟨end_, machineAfter, isLast, leads.trans more⟩
  | error message => exact computes
  | undefined => exact computes

/-- An instruction that falls through computes what it does to the machine. -/
theorem computes_fallThrough {outcome : Outcome (Machine σ Label)}
    (finished : final.csInsns = []) (wf : state.WF)
    (isExtended : final.Extends (issue insn state).2) (isFall : insn.insnControl = .fallThrough)
    (does : execute env machine (insn.map reg id) = .ofOutcome outcome)
    : Computes final env reg state.position machine outcome
        (fun result next after => next = (issue insn state).2.position ∧ after = result) := by
  cases outcome with
  | ok result =>
      exact ⟨_, _, ⟨rfl, rfl⟩, leads_fallThrough finished wf isExtended isFall does⟩
  | error message => exact ends_of_stop finished wf isExtended does
  | undefined => exact ends_of_stop finished wf isExtended does

end Execution

end Glean.Bytecode
