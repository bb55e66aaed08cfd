import Mathlib.Data.Finset.Card
import Mathlib.Logic.Relation
import Glean.Bytecode.Layout

/-! Generating code for a control flow graph. Where no jumps form a cycle, the shortcuts of the
graph are found, its blocks are laid out once each, and the code runs like the graph, also where it
runs forever.
-/

namespace Glean.Bytecode

open RTS Halting

variable {σ R L : Type}

/-- The labels among the operands of an instruction. -/
def Insn.labels : Insn R L → List L
  | .loadLabel lbl _ => [lbl]
  | .jump tgt => [tgt]
  | .jumpIf0 _ tgt | .jumpIfNot0 _ tgt => [tgt]
  | .jumpIfEq _ _ tgt | .jumpIfNe _ _ tgt | .jumpIfGt _ _ tgt | .jumpIfGe _ _ tgt => [tgt]
  | .jumpIfLt _ _ tgt | .jumpIfLe _ _ tgt => [tgt]
  | .decrAndJumpIfNot0 _ tgt | .decrAndJumpIf0 _ tgt => [tgt]
  | .select _ tgts => tgts
  | _ => []

/-- The labels that registers hold have a property. -/
def Machine.Labelled (property : L → Prop) (machine : Machine σ L) : Prop :=
  ∀ target, Contents.label target ∈ machine.frame → property target

section Labelled

variable {M : Type} {property : L → Prop}

theorem Insn.map_congr {left right : L → M} {insn : Insn Nat L}
    (same : ∀ label ∈ insn.labels, left label = right label)
    : insn.map id left = insn.map id right := by
  cases insn
  case select sel tgts => exact congrArg (Insn.select sel) (List.map_congr_left same)
  all_goals simp_all [map, labels]

theorem Machine.map_congr {left right : L → M} {machine : Machine σ L}
    (same : machine.Labelled (fun target => left target = right target))
    : machine.map left = machine.map right := by
  have sameFrame : machine.frame.map (Contents.map left) = machine.frame.map (Contents.map right) := by
    refine List.map_congr_left (fun contents member => ?_)
    cases contents with
    | label target => exact congrArg Contents.label (same target member)
    | _ => rfl
  rw [Machine.map, Machine.map, sameFrame]

/-- Labels that become true have the property. -/
theorem Machine.labelled_of_map {machine : Machine σ L} {other : Machine σ Unit}
    (same : machine.map property = other.map (fun _ => True))
    : machine.Labelled property := by
  intro target member
  have isLabel : Contents.label (property target) ∈ (other.map (fun _ => True)).frame := by
    rw [← same]
    exact List.mem_map_of_mem (f := Contents.map property) member
  obtain ⟨contents, -, isTrue⟩ := List.mem_map.mp isLabel
  cases contents with
  | label nothing => exact of_eq_true (Contents.label.inj isTrue).symm
  | _ => cases isTrue

/-- The labels in the frame and those that are jumped to come from the frame and the operands.
Where all of these have a property, the instruction does the same as without labels.
-/
theorem execute_labelled (env : Env σ) {machine : Machine σ L} {insn : Insn Nat L}
    (labelled : machine.Labelled property) (all : ∀ label ∈ insn.labels, property label)
    : match execute env machine insn with
      | .next after => after.Labelled property
      | .goto target after => property target ∧ after.Labelled property
      | .stop _ => True := by
  have sameMachine : machine.map property
      = (machine.map (fun _ => ())).map (fun _ => True) := by
    rw [Machine.map_map]
    exact Machine.map_congr (fun target member => eq_true (labelled target member))
  have sameInsn : insn.map id property = (insn.map id (fun _ => ())).map id (fun _ => True) := by
    rw [Insn.map_map]
    exact Insn.map_congr (fun label member => eq_true (all label member))
  have same := execute_map property env machine insn
  rw [sameMachine, sameInsn, execute_map] at same
  cases isEffect : execute env machine insn with
  | next after =>
      rw [isEffect] at same
      cases isOther : execute env (machine.map (fun _ => ())) (insn.map id (fun _ => ())) with
      | next other =>
          rw [isOther] at same
          exact Machine.labelled_of_map (Effect.next.inj same).symm
      | goto | stop => rw [isOther] at same; cases same
  | goto target after =>
      rw [isEffect] at same
      cases isOther : execute env (machine.map (fun _ => ())) (insn.map id (fun _ => ())) with
      | goto nothing other =>
          rw [isOther] at same
          obtain ⟨sameTarget, sameAfter⟩ := Effect.goto.inj same
          exact ⟨of_eq_true sameTarget.symm, Machine.labelled_of_map sameAfter.symm⟩
      | next | stop => rw [isOther] at same; cases same
  | stop => trivial

end Labelled

/-- An instruction that ends a block does not fall through. -/
theorem execute_ne_next (env : Env σ) (machine after : Machine σ L) {insn : Insn Nat L}
    (ends : insn.insnControl = .uncondJump ∨ insn.insnControl = .uncondReturn)
    : execute env machine insn ≠ .next after := by
  cases insn <;> simp [Insn.insnControl] at ends
  case jump => simp [execute]
  case jumpReg reg =>
    simp only [execute]
    cases machine.label reg <;> simp [Effect.branch]
  case raise msg =>
    simp only [execute]
    cases env.literals[msg]? <;> simp
  case ret => simp [execute]

theorem Insn.labels_map {S : Type} (reg : R → S) (insn : Insn R L)
    : (insn.map reg id).labels = insn.labels := by
  cases insn <;> simp [map, labels]

namespace CFG

/-- Blocks are terminated, and labels are those of blocks. Instructions are reversed. -/
structure WellFormed (cfg : CFG R) : Prop where
  entry : cfg.entry < cfg.blocks.length
  terminated
    : ∀ block ∈ cfg.blocks, ∃ last rest, block = last :: rest
        ∧ (last.insnControl = .uncondJump ∨ last.insnControl = .uncondReturn)
  targets
    : ∀ block ∈ cfg.blocks, ∀ insn ∈ block, ∀ label ∈ insn.labels, label < cfg.blocks.length

/-- A position of the graph, and a frame with labels of the graph. -/
def Inside (cfg : CFG R) (state : (Label × Nat) × Machine σ Label) : Prop :=
  (∃ block, cfg.blocks[state.1.1]? = some block ∧ state.1.2 < block.length)
    ∧ state.2.Labelled (· < cfg.blocks.length)

variable {cfg : CFG R}

theorem WellFormed.start (wellFormed : cfg.WellFormed) {label : Label}
    (inside : label < cfg.blocks.length)
    : ∃ block, cfg.blocks[label]? = some block ∧ 0 < block.length := by
  obtain ⟨last, rest, isBlock, -⟩ := wellFormed.terminated _ (List.getElem_mem inside)
  exact ⟨_, List.getElem?_eq_getElem inside, by rw [isBlock]; exact Nat.succ_pos _⟩

theorem WellFormed.inside_next (wellFormed : cfg.WellFormed) {env : Env σ} {reg : R → Nat}
    {state next : (Label × Nat) × Machine σ Label} (inside : cfg.Inside state)
    (goes : cfg.step env reg state = some (.inl next))
    : cfg.Inside next := by
  obtain ⟨⟨label, index⟩, machine⟩ := state
  obtain ⟨⟨block, isBlock, inBlock⟩, labelled⟩ := inside
  simp only at isBlock inBlock labelled
  have member := List.mem_of_getElem? isBlock
  have inReverse : index < block.reverse.length := by rwa [List.length_reverse]
  have fetched : cfg.fetch label index = some block.reverse[index] := by
    rw [fetch_of_block isBlock, List.getElem?_eq_getElem inReverse]
  have inBlockInsn : block.reverse[index] ∈ block := List.mem_reverse.mp (List.getElem_mem inReverse)
  have operands : ∀ target ∈ (block.reverse[index].map reg id).labels, target < cfg.blocks.length := by
    rw [Insn.labels_map]
    exact wellFormed.targets block member _ inBlockInsn
  have effects := execute_labelled env labelled operands
  simp only [step, fetched] at goes
  cases effect : execute env machine (block.reverse[index].map reg id) with
  | next after =>
      rw [effect] at goes effects
      obtain rfl := Sum.inl.inj (Option.some.inj goes)
      refine ⟨⟨block, isBlock, ?_⟩, effects⟩
      -- the last instruction does not fall through
      obtain ⟨last, rest, rfl, ends⟩ := wellFormed.terminated block member
      by_cases isLast : index = rest.length
      · have same : (last :: rest).reverse[index] = last := by simp [isLast]
        rw [same] at effect
        rw [← Insn.insnControl_map reg id last] at ends
        exact absurd effect (execute_ne_next env machine after ends)
      · simp only [List.length_cons] at inBlock ⊢
        omega
  | goto target after =>
      rw [effect] at goes effects
      obtain rfl := Sum.inl.inj (Option.some.inj goes)
      exact ⟨wellFormed.start effects.1, effects.2⟩
  | stop outcome =>
      rw [effect] at goes
      cases goes

theorem Inside.step_ne_none {env : Env σ} {reg : R → Nat}
    {state : (Label × Nat) × Machine σ Label} (inside : cfg.Inside state)
    : cfg.step env reg state ≠ none := by
  obtain ⟨⟨block, isBlock, inBlock⟩, -⟩ := inside
  have inReverse : state.1.2 < block.reverse.length := by rwa [List.length_reverse]
  have fetched : cfg.fetch state.1.1 state.1.2 = some block.reverse[state.1.2] := by
    rw [fetch_of_block isBlock, List.getElem?_eq_getElem inReverse]
  simp only [step, fetched]
  cases execute env state.2 (block.reverse[state.1.2].map reg id) <;> simp

/-- A well-formed graph does not get stuck. -/
theorem WellFormed.live (wellFormed : cfg.WellFormed) (env : Env σ) (reg : R → Nat)
    {machine : Machine σ Label} (labelled : machine.Labelled (· < cfg.blocks.length))
    : Live (cfg.step env reg) ((cfg.entry, 0), machine) :=
  .of_invariant wellFormed.inside_next Inside.step_ne_none
    ⟨wellFormed.start wellFormed.entry, labelled⟩

/-- A block that consists of a jump. -/
def JumpsTo (cfg : CFG R) (label target : Label) : Prop :=
  cfg.blocks[label]? = some [.jump target]

/-- No cycle is made only of blocks that consist of a jump. -/
def NoJumpCycle (cfg : CFG R) : Prop :=
  ∀ label, ¬ Relation.TransGen cfg.JumpsTo label label

open Classical in
/-- Where jumps do not form a cycle, the number of blocks that they reach decreases. -/
theorem NoJumpCycle.exists_ranked (noCycle : cfg.NoJumpCycle) : ∃ rank, cfg.Ranked rank := by
  let reached (label : Label) : Finset Label :=
    (Finset.range cfg.blocks.length).filter (Relation.ReflTransGen cfg.JumpsTo label)
  refine ⟨fun label => (reached label).card, ?_, ?_⟩
  · intro label inside
    refine ⟨Finset.card_pos.mpr ⟨label, ?_⟩, ?_⟩
    · exact Finset.mem_filter.mpr ⟨Finset.mem_range.mpr inside, .refl⟩
    · exact (Finset.card_filter_le _ _).trans_eq (Finset.card_range _)
  · intro label target isJump
    have inside := (List.getElem?_eq_some_iff.mp isJump).1
    refine Finset.card_lt_card (Finset.ssubset_iff_of_subset ?_ |>.mpr ⟨label, ?_, ?_⟩)
    · intro other member
      obtain ⟨inRange, reaches⟩ := Finset.mem_filter.mp member
      exact Finset.mem_filter.mpr ⟨inRange, .head isJump reaches⟩
    · exact Finset.mem_filter.mpr ⟨Finset.mem_range.mpr inside, .refl⟩
    · intro member
      exact noCycle label (.head' isJump (Finset.mem_filter.mp member).2)

/-- The elements of the table of `shortcut` that are defined, and their values: an element may
refer to others, and has no value if it refers to itself.
-/
inductive Resolves (blocks : List (List (Insn R Label))) : Label → Option (Insn R Label) → Prop where
  | many {label : Label} {insns : List (Insn R Label)} (isBlock : blocks[label]? = some insns)
      (notSingle : insns.length ≠ 1)
      : Resolves blocks label none
  | single {label : Label} {insn : Insn R Label} (isBlock : blocks[label]? = some [insn])
      (notJump : ∀ target, insn ≠ .jump target)
      : Resolves blocks label (some insn)
  | through {label target : Label} {insn : Insn R Label}
      (isBlock : blocks[label]? = some [.jump target]) (more : Resolves blocks target (some insn))
      : Resolves blocks label (some insn)
  | last {label target : Label} (isBlock : blocks[label]? = some [.jump target])
      (noMore : Resolves blocks target none)
      : Resolves blocks label (some (.jump target))

/-- The table has at most the values that the model computes. -/
theorem Resolves.eq {rank : Label → Nat} (ranked : cfg.Ranked rank) {label : Label}
    {result : Option (Insn R Label)} (resolves : Resolves cfg.blocks label result)
    : result = cfg.shortcuts label := by
  induction resolves with
  | @many label insns isBlock notSingle =>
      rw [shortcuts_eq ranked, isBlock]
      rcases insns with - | ⟨first, - | ⟨second, rest⟩⟩
      · rfl
      · exact absurd rfl notSingle
      · cases first <;> rfl
  | @single label insn isBlock notJump =>
      rw [shortcuts_eq ranked, isBlock]
      cases insn with
      | jump target => exact absurd rfl (notJump target)
      | _ => rfl
  | through isBlock _ ih =>
      rw [shortcuts_eq ranked, isBlock]
      dsimp only
      rw [← ih, Option.getD_some]
  | last isBlock _ ih =>
      rw [shortcuts_eq ranked, isBlock]
      dsimp only
      rw [← ih, Option.getD_none]

/-- Every element of the table is defined. By induction on the rank. -/
theorem WellFormed.exists_resolves (wellFormed : cfg.WellFormed) {rank : Label → Nat}
    (ranked : cfg.Ranked rank) {label : Label} (inside : label < cfg.blocks.length)
    : ∃ result, Resolves cfg.blocks label result := by
  induction isRank : rank label using Nat.strongRecOn generalizing label with
  | ind size ih =>
      have isBlock := List.getElem?_eq_getElem inside
      rcases isInsns : cfg.blocks[label] with - | ⟨insn, - | ⟨second, rest⟩⟩
      · exact ⟨none, .many isBlock (by simp [isInsns])⟩
      · rw [isInsns] at isBlock
        by_cases isJump : ∃ target, insn = .jump target
        · obtain ⟨target, rfl⟩ := isJump
          have targetInside : target < cfg.blocks.length :=
            wellFormed.targets _ (List.mem_of_getElem? isBlock) _ List.mem_cons_self _
              List.mem_cons_self
          have below := ranked.decreases label target isBlock
          obtain ⟨result, resolves⟩ := ih (rank target) (isRank ▸ below) targetInside rfl
          cases result with
          | none => exact ⟨_, .last isBlock resolves⟩
          | some other => exact ⟨_, .through isBlock resolves⟩
        · exact ⟨_, .single isBlock (not_exists.mp isJump)⟩
      · exact ⟨none, .many isBlock (by simp [isInsns])⟩

/-- A block of a cycle of jumps has no value in the table. By induction on the evaluation, which
goes round the cycle.
-/
theorem Resolves.not_cycle {label : Label} {result : Option (Insn R Label)}
    (resolves : Resolves cfg.blocks label result)
    : ¬ Relation.TransGen cfg.JumpsTo label label := by
  have unique {label target other : Label} (isBlock : cfg.blocks[label]? = some [.jump target])
      (jumps : cfg.JumpsTo label other) : other = target := by
    rw [JumpsTo, isBlock] at jumps
    exact (Insn.jump.inj (List.cons.inj (Option.some.inj jumps)).1).symm
  have around {label target : Label} (isBlock : cfg.blocks[label]? = some [.jump target])
      (cycle : Relation.TransGen cfg.JumpsTo label label)
      : Relation.TransGen cfg.JumpsTo target target := by
    obtain ⟨other, jumps, rest⟩ := Relation.TransGen.head'_iff.mp cycle
    obtain rfl := unique isBlock jumps
    exact .tail' rest jumps
  induction resolves with
  | @many label insns isBlock notSingle =>
      intro cycle
      obtain ⟨other, jumps, -⟩ := Relation.TransGen.head'_iff.mp cycle
      rw [JumpsTo, isBlock] at jumps
      exact notSingle (by rw [Option.some.inj jumps]; rfl)
  | @single label insn isBlock notJump =>
      intro cycle
      obtain ⟨other, jumps, -⟩ := Relation.TransGen.head'_iff.mp cycle
      rw [JumpsTo, isBlock] at jumps
      exact notJump other (List.cons.inj (Option.some.inj jumps)).1
  | through isBlock _ ih => exact fun cycle => ih (around isBlock cycle)
  | last isBlock _ ih => exact fun cycle => ih (around isBlock cycle)

/-- `shortcut` terminates just where blocks that consist of a jump do not form a cycle. -/
theorem WellFormed.resolves_iff (wellFormed : cfg.WellFormed)
    : (∀ label < cfg.blocks.length, ∃ result, Resolves cfg.blocks label result) ↔ cfg.NoJumpCycle := by
  constructor
  · intro defined label cycle
    obtain ⟨target, jumps, -⟩ := Relation.TransGen.head'_iff.mp cycle
    obtain ⟨result, resolves⟩ := defined label (List.getElem?_eq_some_iff.mp jumps).1
    exact resolves.not_cycle cycle
  · intro noCycle label inside
    obtain ⟨rank, ranked⟩ := noCycle.exists_ranked
    exact wellFormed.exists_resolves ranked inside

/-- Jumps forward do not form a cycle. -/
theorem noJumpCycle_of_forward
    (forward : ∀ label target, cfg.JumpsTo label target → label < target)
    : cfg.NoJumpCycle := by
  have ahead {label target : Label} (reaches : Relation.TransGen cfg.JumpsTo label target)
      : label < target := by
    induction reaches with
    | single jumps => exact forward _ _ jumps
    | tail _ jumps ih => exact ih.trans (forward _ _ jumps)
  exact fun label cycle => Nat.lt_irrefl label (ahead cycle)

/-- The labels of an element of the table are those of blocks. -/
theorem WellFormed.labels_of_resolves (wellFormed : cfg.WellFormed) {label : Label}
    {insn : Insn R Label} (resolves : Resolves cfg.blocks label (some insn))
    : ∀ target ∈ insn.labels, target < cfg.blocks.length := by
  generalize isResult : some insn = result at resolves
  induction resolves with
  | many => cases isResult
  | single isBlock _ =>
      obtain rfl := Option.some.inj isResult
      exact wellFormed.targets _ (List.mem_of_getElem? isBlock) _ List.mem_cons_self
  | through _ _ ih => exact ih isResult
  | last isBlock _ _ =>
      obtain rfl := Option.some.inj isResult
      exact wellFormed.targets _ (List.mem_of_getElem? isBlock) _ List.mem_cons_self

theorem WellFormed.relabel_lt (wellFormed : cfg.WellFormed) {rank : Label → Nat}
    (ranked : cfg.Ranked rank) {label : Label} (inside : label < cfg.blocks.length)
    : cfg.relabel label < cfg.blocks.length := by
  unfold relabel
  split
  next target isShortcut =>
    obtain ⟨result, resolves⟩ := wellFormed.exists_resolves ranked inside
    rw [resolves.eq ranked, isShortcut] at resolves
    exact wellFormed.labels_of_resolves resolves target List.mem_cons_self
  next => exact inside

theorem length_shortcut (cfg : CFG R) : cfg.shortcut.blocks.length = cfg.blocks.length := by
  unfold shortcut
  split
  · rfl
  · exact List.length_mapIdx

/-- A label resolves to the first instruction of its block, which is laid out whole, except that a
jump to the block that comes next is dropped.
-/
def Placed (cfg : CFG R) (label : Label) : Prop :=
  ∃ before chunk after, cfg.layout = before ++ chunk :: after ∧ chunk.label = label
    ∧ chunk.Fits cfg.blocks after
    ∧ offsetOf cfg.layout label = sizes (before.flatMap Chunk.insns)

theorem placed (cfg : CFG R) {label : Label} (inside : label < cfg.blocks.length)
    : cfg.Placed label := by
  obtain ⟨chunk, member, rfl⟩ := cfg.exists_chunk inside
  obtain ⟨before, after, isSplit, fits, start, -⟩ := cfg.layout_laid.split member
  refine ⟨before, chunk, after, isSplit, rfl, fits, ?_⟩
  rw [cfg.offsetOf_eq member, start, Nat.zero_add]

theorem layout_perm (cfg : CFG R) (entry : cfg.entry < cfg.blocks.length)
    : (cfg.layout.map Chunk.label).Perm (List.range cfg.blocks.length) :=
  cfg.layout_labels.trans (List.perm_cons_erase (List.mem_range.mpr entry)).symm

/-- What the code of a graph keeps of the graph: the table of shortcuts is defined, every block is
laid out once and every label leads to its block, and from the entry the code runs like the graph,
through the same machines with offsets for labels.
-/
structure Assembled (cfg : CFG R) (reg : R → Nat) : Prop where
  shortcuts
    : ∀ label < cfg.blocks.length, ∀ result,
        Resolves cfg.blocks label result ↔ result = cfg.shortcuts label
  once : (cfg.shortcut.layout.map Chunk.label).Perm (List.range cfg.blocks.length)
  placed : ∀ label < cfg.blocks.length, cfg.shortcut.Placed label
  runs
    : ∀ {σ : Type} (env : Env σ) (machine : Machine σ Label),
        machine.Labelled (· < cfg.blocks.length) →
        ∃ related, RunsAlike (cfg.step env reg) (evalStep env (cfg.shortcut.code reg)) related
          ∧ related ((cfg.entry, 0), machine)
              (0, machine.map (offsetOf cfg.shortcut.layout ∘ cfg.relabel))
          ∧ ∀ state other, related state other →
              other.2 = state.2.map (offsetOf cfg.shortcut.layout ∘ cfg.relabel)

/-- The code of a graph runs like the graph. -/
theorem WellFormed.runs (wellFormed : cfg.WellFormed) {rank : Label → Nat}
    (ranked : cfg.Ranked rank) (env : Env σ) (reg : R → Nat) {machine : Machine σ Label}
    (labelled : machine.Labelled (· < cfg.blocks.length))
    : ∃ related, RunsAlike (cfg.step env reg) (evalStep env (cfg.shortcut.code reg)) related
        ∧ related ((cfg.entry, 0), machine)
            (0, machine.map (offsetOf cfg.shortcut.layout ∘ cfg.relabel))
        ∧ ∀ state other, related state other →
            other.2 = state.2.map (offsetOf cfg.shortcut.layout ∘ cfg.relabel) := by
  have live := wellFormed.live env reg labelled
  have first := shortcut_catchesUp ranked env reg
  have second := cfg.shortcut.layout_catchesUp env reg
  obtain ⟨lead, isRelated⟩ := shortcutRelated_entry ranked machine
  have isNext := cfg.shortcut.layoutRelated_entry (machine.map cfg.relabel)
  refine ⟨_, first.runsAlike.trans second.runsAlike, ?_, ?_⟩
  · rw [← Machine.map_map]
    exact ⟨_, ⟨⟨lead, isRelated⟩, live⟩, ⟨_, isNext⟩, first.live isRelated live⟩
  · rintro state other ⟨middle, ⟨⟨_, -, isMiddle⟩, -⟩, ⟨_, -, -, isOther⟩, -⟩
    rw [isOther, isMiddle, Machine.map_map]

/-- A loop that counts a register down, entered through a jump. -/
def countdown : CFG Nat where
  blocks := [[.jump 1], [.jump 2, .decrAndJumpIfNot0 0 0], [.ret]]
  entry := 0

theorem resolves_iff_countdown
    : (∀ label < countdown.blocks.length, ∃ result, Resolves countdown.blocks label result)
      ↔ countdown.NoJumpCycle := by
  refine WellFormed.resolves_iff ⟨by decide, ?_, ?_⟩
  · simp [countdown, Insn.insnControl]
  · simp [countdown, Insn.labels]

end CFG

end Glean.Bytecode
