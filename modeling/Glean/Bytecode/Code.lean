import Glean.Bytecode.Instruction

/-! Generating code (`Code.hs`): a monad that collects basic blocks, the optimisation of the
control flow graph, and its layout as a subroutine.
-/

namespace Glean.Bytecode

open RTS

abbrev Label := Nat

/-- `Register`: a segment of the frame and a position in it. -/
inductive Register where
  | input (index : Nat)
  | constant (index : Nat)
  | local (index : Nat)
  deriving DecidableEq

abbrev Instruction := Insn Register Label

/-- `CodeS`. Instructions and blocks are reversed; constants and literals are in the order of
their offsets.
-/
structure CodeS where
  csLabel : Label
  csInsns : List Instruction
  csBlocks : List (List Instruction)
  csConstants : List Nat
  csLiterals : List String
  csLocals : Nat
  csMaxLocal : Nat

def Code (α : Type) : Type :=
  CodeS → α × CodeS

namespace Code

variable {α β : Type}

instance : Monad Code where
  pure result := fun state => (result, state)
  bind code next := fun state => next (code state).1 (code state).2

/-- `mfix`. Labels do not depend on the instructions, so the result for any argument is the
fixed point.
-/
def mfix [Inhabited α] (body : α → Code α) : Code α :=
  fun state => body (body default state).1 state

end Code

/-- The index of an element of a list, which is added if it is new. -/
def intern {α : Type} [DecidableEq α] (element : α) (known : List α) : Nat × List α :=
  match known.idxOf? element with
  | some index => (index, known)
  | none => (known.length, known ++ [element])

def constant (word : Nat) : Code Register :=
  fun state =>
    let (index, constants) := intern word state.csConstants
    (.constant index, { state with csConstants := constants })

def literal (lit : String) : Code Nat :=
  fun state =>
    let (index, literals) := intern lit state.csLiterals
    (index, { state with csLiterals := literals })

/-- `local`: the register can be used again afterwards. -/
def withLocal {α : Type} (body : Register → Code α) : Code α :=
  fun state =>
    let (result, after) := body (.local state.csLocals)
      { state with
          csLocals := state.csLocals + 1
          csMaxLocal := max state.csMaxLocal (state.csLocals + 1) }
    (result, { after with csLocals := state.csLocals })

/-- The instructions of a block that is followed by a label. -/
def jumpTo (label : Label) (insns : List Instruction) : List Instruction :=
  match insns with
  | insn :: _ =>
      if insn.insnControl = .uncondJump ∨ insn.insnControl = .uncondReturn then
        insns
      else
        .jump label :: insns
  | [] => [.jump label]

def newBlock : Code Label :=
  fun state =>
    let label := state.csLabel + 1
    (label,
      { state with
          csLabel := label
          csInsns := []
          csBlocks := jumpTo label state.csInsns :: state.csBlocks })

def label : Code Label :=
  fun state => if state.csInsns = [] then (state.csLabel, state) else newBlock state

def issue (insn : Instruction) : Code Unit :=
  fun state =>
    let pushed := { state with csInsns := insn :: state.csInsns }
    match insn.insnControl with
    | .fallThrough => ((), pushed)
    | .condJump | .uncondJump | .uncondReturn => ((), (newBlock pushed).2)

/-- Add a message to the literals and raise it. -/
def raise (msg : String) : Code Unit := do
  let index ← literal msg
  issue (.raise index)

/-- `CFG`. A block is a list of instructions in reversed order. -/
structure CFG (R : Type) where
  blocks : List (List (Insn R Label))
  entry : Label

variable {R : Type}

/-- The single instruction that a label leads to, if there is one. The source follows jumps
without a bound; as many jumps as there are blocks are enough unless they form a cycle.
-/
def chase (blocks : List (List (Insn R Label))) : Nat → Label → Option (Insn R Label)
  | 0, _ => none
  | fuel + 1, label =>
      match blocks[label]? with
      | some [.jump target] =>
          match chase blocks fuel target with
          | some insn => some insn
          | none => some (.jump target)
      | some [insn] => some insn
      | _ => none

namespace CFG

def shortcuts (cfg : CFG R) (label : Label) : Option (Insn R Label) :=
  chase cfg.blocks cfg.blocks.length label

def relabel (cfg : CFG R) (label : Label) : Label :=
  match cfg.shortcuts label with
  | some (.jump target) => target
  | _ => label

def inline (cfg : CFG R) (label : Label) (insns : List (Insn R Label)) : List (Insn R Label) :=
  match cfg.shortcuts label, insns with
  | some insn, _ => [insn]
  | none, .jump target :: rest =>
      match cfg.shortcuts target with
      | some insn => insn :: rest
      | none => insns
  | none, insns => insns

/-- `shortcut` -/
def shortcut (cfg : CFG R) : CFG R :=
  if ∀ label < cfg.blocks.length, cfg.shortcuts label = none then
    cfg
  else
    { blocks := cfg.blocks.mapIdx (fun label insns =>
        (cfg.inline label insns).map (Insn.map id cfg.relabel))
      entry := cfg.relabel cfg.entry }

end CFG

/-- The words that instructions take. -/
def sizes {L : Type} (insns : List (Insn R L)) : Nat :=
  (insns.map Insn.insnSize).sum

/-- A block that has been laid out: its label, its offset and its instructions, in order and
without a jump to the block that follows.
-/
structure Chunk (R : Type) where
  label : Label
  offset : Nat
  insns : List (Insn R Label)

/-- The block to emit next, the labels that remain, and the instructions of the current block
(reversed).
-/
def pick (todo : List Label) (insns : List (Insn R Label))
    : Option (Label × List Label) × List (Insn R Label) :=
  let first := match todo with
    | [] => none
    | label :: rest => some (label, rest)
  match insns with
  | .jump target :: rest =>
      if target ∈ todo then (some (target, todo.erase target), rest) else (first, insns)
  | _ => (first, insns)

/-- `emit`, with as much fuel as there are labels to do; `todo` is in ascending order. -/
def emit (blocks : List (List (Insn R Label))) : Nat → Label → Nat → List Label → List (Chunk R)
  | fuel, label, offset, todo =>
      let (next, insns) := pick todo ((blocks[label]?).getD [])
      let chunk := ⟨label, offset, insns.reverse⟩
      match fuel, next with
      | fuel + 1, some (target, rest) =>
          chunk :: emit blocks fuel target (offset + sizes insns) rest
      | _, _ => [chunk]

/-- `layout`: the blocks in the order in which they are emitted. -/
def CFG.layout (cfg : CFG R) : List (Chunk R) :=
  let todo := (List.range cfg.blocks.length).erase cfg.entry
  emit cfg.blocks todo.length cfg.entry 0 todo

/-- The offset of a label. -/
def offsetOf (chunks : List (Chunk R)) (label : Label) : Nat :=
  match chunks.find? (fun chunk => chunk.label = label) with
  | some chunk => chunk.offset
  | none => 0

/-- Replace labels by their distance from the end of the instruction. -/
def assemble (reg : R → Nat) (offsets : Label → Nat) : Nat → List (Insn R Label) → List (Insn Nat Int)
  | _, [] => []
  | offset, insn :: rest =>
      let next := offset + insn.insnSize
      insn.map reg (fun label => (offsets label : Int) - next) :: assemble reg offsets next rest

/-- `get_reg` -/
def getReg (inputs constants : Nat) : Register → Nat
  | .input index => index
  | .constant index => index + inputs
  | .local index => index + inputs + constants

def CodeS.start : CodeS where
  csLabel := 0
  csInsns := []
  csBlocks := []
  csConstants := []
  csLiterals := []
  csLocals := 0
  csMaxLocal := 0

/-- The control flow graph of generated code. -/
def CodeS.cfg (state : CodeS) : CFG Register :=
  ⟨state.csBlocks.reverse, 0⟩

/-- `generate Optimised`, for code with a number of inputs that uses no outputs. -/
def generate (inputs : Nat) (code : Code Unit) : Outcome Subroutine :=
  let state := (code .start).2
  if state.csInsns ≠ [] then
    .error "unterminated basic block"
  else
    let chunks := state.cfg.shortcut.layout
    .ok
      { code := assemble (getReg inputs state.csConstants.length) (offsetOf chunks) 0
          (chunks.flatMap Chunk.insns)
        inputs := inputs
        locals := state.csMaxLocal + state.csConstants.length
        constants := state.csConstants
        literals := state.csLiterals }

end Glean.Bytecode
