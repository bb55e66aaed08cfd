import Mathlib.Data.List.Nodup
import Glean.Bytecode.Assembly

/-! The laid out code executes as the control flow graph does. -/

namespace Glean.Bytecode

open RTS Halting

variable {σ R : Type}

/-- The instructions of a block, reversed. -/
def blockOf (blocks : List (List (Insn R Label))) (label : Label) : List (Insn R Label) :=
  (blocks[label]?).getD []

/-- A chunk has the instructions of its block, perhaps without a jump to the chunk that
follows.
-/
def Chunk.Fits (blocks : List (List (Insn R Label))) (chunk : Chunk R) (rest : List (Chunk R))
    : Prop :=
  chunk.insns = (blockOf blocks chunk.label).reverse
    ∨ ∃ target front following, blockOf blocks chunk.label = .jump target :: front
        ∧ chunk.insns = front.reverse ∧ rest.head? = some following ∧ following.label = target

/-- Chunks that follow each other from an offset. -/
def Laid (blocks : List (List (Insn R Label))) : Nat → List (Chunk R) → Prop
  | _, [] => True
  | offset, chunk :: rest =>
      chunk.offset = offset ∧ chunk.Fits blocks rest
        ∧ Laid blocks (offset + sizes chunk.insns) rest

theorem sizes_append {L : Type} (left right : List (Insn R L))
    : sizes (left ++ right) = sizes left + sizes right := by
  simp [sizes]

theorem sizes_reverse {L : Type} (insns : List (Insn R L)) : sizes insns.reverse = sizes insns := by
  simp [sizes, List.sum_reverse]

theorem emit_head (blocks : List (List (Insn R Label))) (fuel : Nat) (label : Label)
    (offset : Nat) (todo : List Label)
    : ∃ chunk rest, emit blocks fuel label offset todo = chunk :: rest ∧ chunk.label = label := by
  unfold emit
  dsimp only
  split
  next => exact ⟨_, _, rfl, rfl⟩
  next => exact ⟨_, _, rfl, rfl⟩

/-- What `pick` chooses: a label to do, and the instructions of the chunk. -/
theorem pick_spec (todo : List Label) (insns : List (Insn R Label))
    : (pick todo insns).2 = insns ∧ (pick todo insns).1 = (match todo with
          | [] => none
          | label :: rest => some (label, rest))
      ∨ ∃ target front, insns = .jump target :: front ∧ target ∈ todo
          ∧ pick todo insns = (some (target, todo.erase target), front) := by
  unfold pick
  dsimp only
  split
  next target front =>
    split
    next isTodo => exact .inr ⟨target, front, rfl, isTodo, rfl⟩
    next => exact .inl ⟨rfl, rfl⟩
  next => exact .inl ⟨rfl, rfl⟩

theorem emit_zero (blocks : List (List (Insn R Label))) (label : Label) (offset : Nat)
    : emit blocks 0 label offset [] = [⟨label, offset, (blockOf blocks label).reverse⟩] := by
  unfold emit
  rcases pick_spec [] (blockOf blocks label) with ⟨same, -⟩ | ⟨_, _, _, isTodo, _⟩
  · simp only [blockOf] at same ⊢
    simp [same]
  · cases isTodo

/-- One round of `emit`: the next label is one that was to do. -/
theorem emit_succ (blocks : List (List (Insn R Label))) {fuel : Nat} (label : Label)
    (offset : Nat) {todo : List Label} (enough : fuel + 1 = todo.length)
    : ∃ target rest insns, todo.Perm (target :: rest) ∧ fuel = rest.length
        ∧ emit blocks (fuel + 1) label offset todo
          = ⟨label, offset, insns.reverse⟩ :: emit blocks fuel target (offset + sizes insns) rest
        ∧ (insns = blockOf blocks label
            ∨ blockOf blocks label = .jump target :: insns) := by
  rcases pick_spec todo (blockOf blocks label) with ⟨same, first⟩ | ⟨target, front, isBlock, isTodo, picked⟩
  · cases todo with
    | nil => cases enough
    | cons target rest =>
        refine ⟨target, rest, blockOf blocks label, .rfl, by simpa using enough, ?_, .inl rfl⟩
        rw [emit]
        simp only [blockOf] at same first ⊢
        simp [same, first]
  · refine ⟨target, todo.erase target, front, List.perm_cons_erase isTodo, ?_, ?_, .inr isBlock⟩
    · rw [List.length_erase_of_mem isTodo]
      omega
    · rw [emit]
      simp only [blockOf] at picked ⊢
      simp [picked]

theorem emit_laid (blocks : List (List (Insn R Label))) {fuel : Nat} (label : Label)
    (offset : Nat) {todo : List Label} (enough : fuel = todo.length)
    : Laid blocks offset (emit blocks fuel label offset todo) := by
  induction fuel generalizing label offset todo with
  | zero =>
      obtain rfl := List.length_eq_zero_iff.mp enough.symm
      rw [emit_zero]
      exact ⟨rfl, .inl rfl, trivial⟩
  | succ fuel ih =>
      obtain ⟨target, rest, insns, -, restEnough, emitted, isBlock⟩ :=
        emit_succ blocks label offset enough
      rw [emitted]
      refine ⟨rfl, ?_, ?_⟩
      · rcases isBlock with rfl | isJump
        · exact .inl rfl
        · obtain ⟨following, others, isHead, isTarget⟩ :=
            emit_head blocks fuel target (offset + sizes insns) rest
          exact .inr ⟨target, insns, following, isJump, rfl, by rw [isHead]; rfl, isTarget⟩
      · dsimp only
        rw [sizes_reverse]
        exact ih target (offset + sizes insns) restEnough

/-- Every label is emitted once. -/
theorem emit_labels (blocks : List (List (Insn R Label))) {fuel : Nat} (label : Label)
    (offset : Nat) {todo : List Label} (enough : fuel = todo.length)
    : ((emit blocks fuel label offset todo).map Chunk.label).Perm (label :: todo) := by
  induction fuel generalizing label offset todo with
  | zero =>
      obtain rfl := List.length_eq_zero_iff.mp enough.symm
      rw [emit_zero]
      exact .rfl
  | succ fuel ih =>
      obtain ⟨target, rest, insns, sameTodo, restEnough, emitted, -⟩ :=
        emit_succ blocks label offset enough
      rw [emitted, List.map_cons]
      exact ((ih target (offset + sizes insns) restEnough).trans sameTodo.symm).cons label

/-- The instruction behind a prefix of the code. -/
theorem fetch_assemble (reg : R → Nat) (offsets : Label → Nat) (offset : Nat)
    (front : List (Insn R Label)) (insn : Insn R Label) (rest : List (Insn R Label))
    : fetch (assemble reg offsets offset (front ++ insn :: rest)) (sizes front)
      = some (insn.map reg
          (fun label => (offsets label : Int) - (offset + sizes front + insn.insnSize))) := by
  induction front generalizing offset with
  | nil =>
      simp [assemble, fetch, sizes]
  | cons first front ih =>
      have positive := first.insnSize_pos
      have size : sizes (first :: front) = first.insnSize + sizes front := by simp [sizes]
      rw [List.cons_append, assemble, fetch, Insn.insnSize_map, size, if_neg (by omega),
        if_neg (by omega), Nat.add_sub_cancel_left, ih]
      congr 2
      funext label
      push_cast
      omega

/-- A chunk starts after the words of the chunks before it. -/
theorem Laid.split {blocks : List (List (Insn R Label))} {offset : Nat} {chunks : List (Chunk R)}
    (laid : Laid blocks offset chunks) {chunk : Chunk R} (member : chunk ∈ chunks)
    : ∃ before after, chunks = before ++ chunk :: after ∧ chunk.Fits blocks after
        ∧ chunk.offset = offset + sizes (before.flatMap Chunk.insns)
        ∧ Laid blocks (chunk.offset + sizes chunk.insns) after := by
  induction chunks generalizing offset with
  | nil => cases member
  | cons first rest ih =>
      obtain ⟨atOffset, fits, restLaid⟩ := laid
      rcases List.mem_cons.mp member with rfl | later
      · refine ⟨[], rest, rfl, fits, ?_, ?_⟩
        · simp [sizes, atOffset]
        · rw [atOffset]
          exact restLaid
      · obtain ⟨before, after, rfl, isFit, start, afterLaid⟩ := ih restLaid later
        refine ⟨first :: before, after, rfl, isFit, ?_, afterLaid⟩
        rw [List.flatMap_cons, sizes_append]
        omega

namespace CFG

theorem layout_laid (cfg : CFG R) : Laid cfg.blocks 0 cfg.layout :=
  emit_laid cfg.blocks cfg.entry 0 rfl

theorem layout_labels (cfg : CFG R)
    : (cfg.layout.map Chunk.label).Perm
        (cfg.entry :: (List.range cfg.blocks.length).erase cfg.entry) :=
  emit_labels cfg.blocks cfg.entry 0 rfl

theorem layout_nodup (cfg : CFG R) : (cfg.layout.map Chunk.label).Nodup := by
  refine cfg.layout_labels.nodup_iff.mpr (List.nodup_cons.mpr ⟨?_, ?_⟩)
  · exact List.nodup_range.not_mem_erase
  · exact List.nodup_range.erase cfg.entry

theorem exists_chunk (cfg : CFG R) {label : Label} (inside : label < cfg.blocks.length)
    : ∃ chunk ∈ cfg.layout, chunk.label = label := by
  have emitted : label ∈ cfg.layout.map Chunk.label := by
    rw [cfg.layout_labels.mem_iff, List.mem_cons]
    by_cases isEntry : label = cfg.entry
    · exact .inl isEntry
    · exact .inr ((List.mem_erase_of_ne isEntry).mpr (List.mem_range.mpr inside))
  simpa using emitted

theorem offsetOf_eq (cfg : CFG R) {chunk : Chunk R} (member : chunk ∈ cfg.layout)
    : offsetOf cfg.layout chunk.label = chunk.offset := by
  unfold offsetOf
  split
  next found isFound =>
    have sameLabel : found.label = chunk.label := by simpa using List.find?_some isFound
    have same := List.inj_on_of_nodup_map cfg.layout_nodup (List.mem_of_find?_eq_some isFound) member
      sameLabel
    rw [same]
  next notFound =>
    have absent := List.find?_eq_none.mp notFound chunk member
    simp at absent

/-- The program counter of a position. -/
def At (cfg : CFG R) (label : Label) (index pc : Nat) : Prop :=
  ∃ chunk ∈ cfg.layout, chunk.label = label ∧ index ≤ chunk.insns.length
    ∧ pc = chunk.offset + sizes (chunk.insns.take index)

/-- The number of chunks from that of a label on. -/
def behind (cfg : CFG R) (label : Label) : Nat :=
  cfg.layout.length - (cfg.layout.map Chunk.label).idxOf label

/-- A chunk that follows another one has fewer chunks behind it. -/
theorem behind_lt (cfg : CFG R) {before after : List (Chunk R)} {chunk following : Chunk R}
    (isSplit : cfg.layout = before ++ chunk :: after) (isHead : after.head? = some following)
    : cfg.behind following.label < cfg.behind chunk.label := by
  obtain ⟨rest, rfl⟩ : ∃ rest, after = following :: rest := by
    cases after with
    | nil => cases isHead
    | cons first rest =>
        obtain rfl := Option.some.inj isHead
        exact ⟨rest, rfl⟩
  have distinct := cfg.layout_nodup
  have indexOf {front back : List (Chunk R)} {here : Chunk R} (isHere : cfg.layout = front ++ here :: back)
      : (cfg.layout.map Chunk.label).idxOf here.label = front.length := by
    rw [isHere, List.map_append, List.map_cons] at distinct ⊢
    have absent := (List.nodup_middle.mp distinct).notMem
    rw [List.mem_append, not_or] at absent
    rw [List.idxOf_append_of_notMem absent.1, List.idxOf_cons_self, List.length_map, Nat.add_zero]
  have isNext : cfg.layout = (before ++ [chunk]) ++ following :: rest := by
    rw [isSplit, List.append_assoc]
    rfl
  have total := congrArg List.length isNext
  unfold behind
  rw [indexOf isSplit, indexOf isNext]
  simp only [List.length_append, List.length_cons, List.length_nil] at total ⊢
  omega

/-- The code is at the position of the graph, unless the graph is stuck. Jumps to the chunk that
follows are left out, at most one for each chunk behind.
-/
def LayoutRelated (cfg : CFG R) (lead : Nat) (state : (Label × Nat) × Machine σ Label)
    (other : Nat × Machine σ Nat)
    : Prop :=
  lead = cfg.behind state.1.1
    ∧ (cfg.At state.1.1 state.1.2 other.1 ∨ cfg.fetch state.1.1 state.1.2 = none)
    ∧ other.2 = state.2.map (offsetOf cfg.layout)

theorem at_label (cfg : CFG R) (label : Label)
    : cfg.At label 0 (offsetOf cfg.layout label) ∨ cfg.fetch label 0 = none := by
  by_cases inside : label < cfg.blocks.length
  · left
    obtain ⟨chunk, member, rfl⟩ := cfg.exists_chunk inside
    exact ⟨chunk, member, rfl, Nat.zero_le _, by simp [cfg.offsetOf_eq member, sizes]⟩
  · right
    rw [fetch, List.getElem?_eq_none (Nat.le_of_not_lt inside)]

/-- The code of the graph, as a subroutine has it. -/
def code (cfg : CFG R) (reg : R → Nat) : List (Insn Nat Int) :=
  assemble reg (offsetOf cfg.layout) 0 (cfg.layout.flatMap Chunk.insns)

/-- The code has the instruction of the graph at its position, or the graph jumps to the code
that comes next.
-/
theorem code_fetch (cfg : CFG R) (reg : R → Nat) {label : Label} {index pc : Nat}
    {insn : Insn R Label} (isAt : cfg.At label index pc)
    (fetched : cfg.fetch label index = some insn)
    : (Bytecode.fetch (cfg.code reg) pc
          = some (insn.map reg
              (fun label => (offsetOf cfg.layout label : Int) - (pc + insn.insnSize)))
        ∧ cfg.At label (index + 1) (pc + insn.insnSize))
      ∨ ∃ target, insn = .jump target ∧ cfg.At target 0 pc
          ∧ cfg.behind target < cfg.behind label := by
  obtain ⟨chunk, member, rfl, bound, rfl⟩ := isAt
  obtain ⟨insns, isBlock, isInsn⟩ := fetch_eq_some fetched
  obtain ⟨before, after, isSplit, fits, start, afterLaid⟩ := cfg.layout_laid.split member
  have inChunk (isHere : chunk.insns[index]? = some insn)
      : Bytecode.fetch (cfg.code reg) (chunk.offset + sizes (chunk.insns.take index))
          = some (insn.map reg (fun label => (offsetOf cfg.layout label : Int)
              - ((chunk.offset + sizes (chunk.insns.take index) : Nat) + insn.insnSize)))
        ∧ cfg.At chunk.label (index + 1)
            (chunk.offset + sizes (chunk.insns.take index) + insn.insnSize) := by
    obtain ⟨inside, isThere⟩ := List.getElem?_eq_some_iff.mp isHere
    have next : chunk.insns.take (index + 1) = chunk.insns.take index ++ [insn] := by
      rw [List.take_add_one, isHere]
      rfl
    have around : cfg.layout.flatMap Chunk.insns
        = (before.flatMap Chunk.insns ++ chunk.insns.take index)
          ++ insn :: (chunk.insns.drop (index + 1) ++ after.flatMap Chunk.insns) := by
      have cut : chunk.insns
          = chunk.insns.take index ++ insn :: chunk.insns.drop (index + 1) := by
        rw [← isThere, List.getElem_cons_drop, List.take_append_drop]
      rw [isSplit, List.flatMap_append, List.flatMap_cons]
      conv_lhs => rw [cut]
      simp
    refine ⟨?_, chunk, member, rfl, inside, ?_⟩
    · have words : chunk.offset + sizes (chunk.insns.take index)
          = sizes (before.flatMap Chunk.insns ++ chunk.insns.take index) := by
        rw [sizes_append, start, Nat.zero_add]
      rw [words, code, around, fetch_assemble]
      simp
    · rw [next, sizes_append]
      simp [sizes]
      omega
  have isBlockOf : blockOf cfg.blocks chunk.label = insns := by rw [blockOf, isBlock]; rfl
  rcases fits with same | ⟨target, front, following, isJump, isFront, isHead, isTarget⟩
  · left
    rw [isBlockOf] at same
    exact inChunk (by rw [same, isInsn])
  · rw [isBlockOf] at isJump
    subst isJump
    rw [List.reverse_cons] at isInsn
    by_cases last : index = front.length
    · right
      have fewer := cfg.behind_lt isSplit isHead
      rw [isTarget] at fewer
      refine ⟨target, ?_, ⟨following, ?_, isTarget, Nat.zero_le _, ?_⟩, fewer⟩
      · subst last
        simpa [List.getElem?_append_right] using isInsn.symm
      · rw [isSplit]
        have isAfter := List.mem_of_head? isHead
        simp [isAfter]
      · cases after with
        | nil => cases isHead
        | cons first rest =>
            obtain rfl := Option.some.inj isHead
            have whole : front.reverse.take index = front.reverse := by
              rw [last, ← List.length_reverse, List.take_length]
            rw [afterLaid.1, isFront, whole]
            simp [sizes]
    · left
      have inside : index < front.reverse.length := by
        have inBlock := (List.getElem?_eq_some_iff.mp isInsn).1
        simp only [List.length_append, List.length_reverse, List.length_singleton] at inBlock ⊢
        omega
      rw [List.getElem?_append_left inside] at isInsn
      exact inChunk (by rw [isFront, isInsn])

/-- The operands of an instruction in the code are its labels' offsets. -/
theorem evalStep_code (cfg : CFG R) (env : Env σ) (reg : R → Nat) {pc : Nat}
    {insn : Insn R Label} (machine : Machine σ Label)
    (fetched : Bytecode.fetch (cfg.code reg) pc
      = some (insn.map reg
          (fun label => (offsetOf cfg.layout label : Int) - (pc + insn.insnSize))))
    : evalStep env (cfg.code reg) (pc, machine.map (offsetOf cfg.layout))
      = match (execute env machine (insn.map reg id)).map (offsetOf cfg.layout) with
        | .next after => some (.inl (pc + insn.insnSize, after))
        | .goto target after => some (.inl (target, after))
        | .stop outcome => some (.inr outcome) := by
  unfold evalStep
  rw [fetched]
  dsimp only
  rw [Insn.map_map, Insn.insnSize_map, ← execute_relabel]
  have absolute : ((fun offset : Int => ((pc + insn.insnSize : Nat) + offset).toNat)
      ∘ fun label => (offsetOf cfg.layout label : Int) - (pc + insn.insnSize))
      = offsetOf cfg.layout := by
    funext label
    simp only [Function.comp_apply]
    omega
  rw [absolute]
  rfl

theorem layout_catchesUp (cfg : CFG R) (env : Env σ) (reg : R → Nat)
    : CatchesUp (cfg.step env reg) (evalStep env (cfg.code reg)) cfg.LayoutRelated where
  goes := by
    rintro lead ⟨⟨label, index⟩, machine⟩ next ⟨pc, other⟩ ⟨rfl, isAt, sameMachine⟩ goes
    simp only at sameMachine isAt
    subst sameMachine
    rcases isAt with isAt | isStuck
    · cases fetched : cfg.fetch label index with
      | none => simp [step, fetched] at goes
      | some insn =>
          simp only [step, fetched] at goes
          rcases cfg.code_fetch reg isAt fetched with
            ⟨inCode, isNext⟩ | ⟨target, rfl, isTarget, fewer⟩
          · right
            rw [evalStep_code cfg env reg machine inCode]
            cases effect : execute env machine (insn.map reg id) with
            | next after =>
                rw [effect] at goes
                obtain rfl := Sum.inl.inj (Option.some.inj goes)
                exact ⟨_, _, rfl, rfl, .inl isNext, rfl⟩
            | goto target after =>
                rw [effect] at goes
                obtain rfl := Sum.inl.inj (Option.some.inj goes)
                exact ⟨_, _, rfl, rfl, cfg.at_label target, rfl⟩
            | stop outcome =>
                rw [effect] at goes
                cases goes
          · left
            obtain rfl := Sum.inl.inj (Option.some.inj goes)
            exact ⟨_, fewer, rfl, .inl isTarget, rfl⟩
    · simp [step, isStuck] at goes
  stops := by
    rintro lead ⟨⟨label, index⟩, machine⟩ ⟨pc, other⟩ outcome ⟨-, isAt, sameMachine⟩ stops
    simp only at sameMachine isAt
    subst sameMachine
    rcases isAt with isAt | isStuck
    · cases fetched : cfg.fetch label index with
      | none => simp [step, fetched] at stops
      | some insn =>
          simp only [step, fetched] at stops
          rcases cfg.code_fetch reg isAt fetched with ⟨inCode, -⟩ | ⟨target, rfl, -⟩
          · rw [evalStep_code cfg env reg machine inCode]
            cases effect : execute env machine (insn.map reg id) with
            | next => simp [effect] at stops
            | goto => simp [effect] at stops
            | stop result =>
                rw [effect] at stops
                obtain rfl := Sum.inr.inj (Option.some.inj stops)
                rfl
          · cases stops
    · simp [step, isStuck] at stops

/-- The entry of the graph is the start of the code. -/
theorem at_entry (cfg : CFG R) : cfg.At cfg.entry 0 0 := by
  obtain ⟨chunk, rest, isLayout, isEntry⟩ :=
    emit_head cfg.blocks _ cfg.entry 0 ((List.range cfg.blocks.length).erase cfg.entry)
  have laid := cfg.layout_laid
  rw [layout, isLayout] at laid
  refine ⟨chunk, ?_, isEntry, Nat.zero_le _, ?_⟩
  · rw [layout, isLayout]
    exact List.mem_cons_self
  · simp [sizes, laid.1]

/-- At the start the shortcut graph follows the graph. -/
theorem shortcutRelated_entry {cfg : CFG R} {rank : Label → Nat} (ranked : cfg.Ranked rank)
    (machine : Machine σ Label)
    : ∃ lead, ShortcutRelated cfg rank lead ((cfg.entry, 0), machine)
        ((cfg.shortcut.entry, 0), machine.map cfg.relabel) := by
  obtain ⟨lead, follows⟩ := follows_relabel ranked cfg.entry
  rw [← shortcut_entry ranked] at follows
  exact ⟨lead, follows, rfl⟩

/-- At the start the code is at the entry. -/
theorem layoutRelated_entry (cfg : CFG R) (machine : Machine σ Label)
    : cfg.LayoutRelated (cfg.behind cfg.entry) ((cfg.entry, 0), machine)
        (0, machine.map (offsetOf cfg.layout)) :=
  ⟨rfl, .inl cfg.at_entry, rfl⟩

/-- The optimised and laid out code stops as the graph does. -/
theorem code_halts {cfg : CFG R} {rank : Label → Nat} (ranked : cfg.Ranked rank) (env : Env σ)
    (reg : R → Nat) (machine : Machine σ Label) {outcome : Outcome (Result σ)}
    (halts : Halts (cfg.step env reg) ((cfg.entry, 0), machine) outcome)
    : Halts (evalStep env (cfg.shortcut.code reg))
        (0, (machine.map cfg.relabel).map (offsetOf cfg.shortcut.layout)) outcome := by
  have shortcut : Halts (cfg.shortcut.step env reg)
      ((cfg.shortcut.entry, 0), machine.map cfg.relabel) outcome :=
    (shortcut_catchesUp ranked env reg).simulates.halts (shortcutRelated_entry ranked machine) halts
  exact (cfg.shortcut.layout_catchesUp env reg).simulates.halts
    ⟨_, cfg.shortcut.layoutRelated_entry (machine.map cfg.relabel)⟩ shortcut

end CFG

end Glean.Bytecode
