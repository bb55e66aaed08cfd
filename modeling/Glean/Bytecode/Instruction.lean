import Glean.Library.Halting
import Glean.RTS.TrustedString

/-! The instructions of the register machine that typecheckers and traversals use, all jumps
among them, and their execution (`Instruction.hs`, `subroutine.cpp`). The arguments of a
subroutine are pointers to a function, to a clause, to an output and to the size of the key.
-/

namespace Glean.Bytecode

open RTS Halting

inductive Control where
  | fallThrough
  | condJump
  | uncondJump
  | uncondReturn
  deriving DecidableEq

/-- `Insn`, with registers of type `R` and labels of type `L`. Literals are given by their
index.
-/
inductive Insn (R L : Type) where
  | inputNat (begin «end» dst : R)
  | inputBytes (begin «end» size : R)
  | inputSkipUntrustedString (begin «end» : R)
  | inputSkipNat (begin «end» : R)
  | inputSkipTrustedString (begin «end» : R)
  | outputNat (src output : R)
  | outputBytes (ptr «end» output : R)
  | getOutputSize (output dst : R)
  | loadConst (imm : Nat) (dst : R)
  | loadReg (src dst : R)
  | addConst (imm : Nat) (dst : R)
  | add (src dst : R)
  | loadLabel (lbl : L) (dst : R)
  | jump (tgt : L)
  | jumpReg (tgt : R)
  | jumpIf0 (reg : R) (tgt : L)
  | jumpIfNot0 (reg : R) (tgt : L)
  | jumpIfEq (reg1 reg2 : R) (tgt : L)
  | jumpIfNe (reg1 reg2 : R) (tgt : L)
  | jumpIfGt (reg1 reg2 : R) (tgt : L)
  | jumpIfGe (reg1 reg2 : R) (tgt : L)
  | jumpIfLt (reg1 reg2 : R) (tgt : L)
  | jumpIfLe (reg1 reg2 : R) (tgt : L)
  | decrAndJumpIfNot0 (reg : R) (tgt : L)
  | decrAndJumpIf0 (reg : R) (tgt : L)
  | callFun_2_1 (function src1 src2 dst : R)
  | callFun_2_0 (function src1 src2 : R)
  | select (sel : R) (tgts : List L)
  | raise (msg : Nat)
  | ret
  | storeWord (src dst : R)
  deriving DecidableEq

namespace Insn

variable {R S L M : Type}

/-- `insnControl` -/
def insnControl : Insn R L → Control
  | .jump _ | .jumpReg _ | .raise _ => .uncondJump
  | .jumpIf0 .. | .jumpIfNot0 .. | .jumpIfEq .. | .jumpIfNe .. | .jumpIfGt .. | .jumpIfGe ..
  | .jumpIfLt .. | .jumpIfLe .. | .decrAndJumpIfNot0 .. | .decrAndJumpIf0 .. | .select .. =>
      .condJump
  | .ret => .uncondReturn
  | _ => .fallThrough

/-- `insnSize`: one word for the opcode and one for each argument. -/
def insnSize : Insn R L → Nat
  | .inputNat .. => 4
  | .inputBytes .. => 4
  | .inputSkipUntrustedString .. => 3
  | .inputSkipNat .. => 3
  | .inputSkipTrustedString .. => 3
  | .outputNat .. => 3
  | .outputBytes .. => 4
  | .getOutputSize .. => 3
  | .loadConst .. => 3
  | .loadReg .. => 3
  | .addConst .. => 3
  | .add .. => 3
  | .loadLabel .. => 3
  | .jump .. => 2
  | .jumpReg .. => 2
  | .jumpIf0 .. => 3
  | .jumpIfNot0 .. => 3
  | .jumpIfEq .. => 4
  | .jumpIfNe .. => 4
  | .jumpIfGt .. => 4
  | .jumpIfGe .. => 4
  | .jumpIfLt .. => 4
  | .jumpIfLe .. => 4
  | .decrAndJumpIfNot0 .. => 3
  | .decrAndJumpIf0 .. => 3
  | .callFun_2_1 .. => 5
  | .callFun_2_0 .. => 4
  | .select _ tgts => 1 + 1 + tgts.length + 1
  | .raise _ => 2
  | .ret => 1
  | .storeWord .. => 3

/-- Change the registers and the labels. -/
def map (reg : R → S) (label : L → M) : Insn R L → Insn S M
  | .inputNat begin finish dst => .inputNat (reg begin) (reg finish) (reg dst)
  | .inputBytes begin finish size => .inputBytes (reg begin) (reg finish) (reg size)
  | .inputSkipUntrustedString begin finish => .inputSkipUntrustedString (reg begin) (reg finish)
  | .inputSkipNat begin finish => .inputSkipNat (reg begin) (reg finish)
  | .inputSkipTrustedString begin finish => .inputSkipTrustedString (reg begin) (reg finish)
  | .outputNat src output => .outputNat (reg src) (reg output)
  | .outputBytes ptr finish output => .outputBytes (reg ptr) (reg finish) (reg output)
  | .getOutputSize output dst => .getOutputSize (reg output) (reg dst)
  | .loadConst imm dst => .loadConst imm (reg dst)
  | .loadReg src dst => .loadReg (reg src) (reg dst)
  | .addConst imm dst => .addConst imm (reg dst)
  | .add src dst => .add (reg src) (reg dst)
  | .loadLabel lbl dst => .loadLabel (label lbl) (reg dst)
  | .jump tgt => .jump (label tgt)
  | .jumpReg tgt => .jumpReg (reg tgt)
  | .jumpIf0 r tgt => .jumpIf0 (reg r) (label tgt)
  | .jumpIfNot0 r tgt => .jumpIfNot0 (reg r) (label tgt)
  | .jumpIfEq reg1 reg2 tgt => .jumpIfEq (reg reg1) (reg reg2) (label tgt)
  | .jumpIfNe reg1 reg2 tgt => .jumpIfNe (reg reg1) (reg reg2) (label tgt)
  | .jumpIfGt reg1 reg2 tgt => .jumpIfGt (reg reg1) (reg reg2) (label tgt)
  | .jumpIfGe reg1 reg2 tgt => .jumpIfGe (reg reg1) (reg reg2) (label tgt)
  | .jumpIfLt reg1 reg2 tgt => .jumpIfLt (reg reg1) (reg reg2) (label tgt)
  | .jumpIfLe reg1 reg2 tgt => .jumpIfLe (reg reg1) (reg reg2) (label tgt)
  | .decrAndJumpIfNot0 r tgt => .decrAndJumpIfNot0 (reg r) (label tgt)
  | .decrAndJumpIf0 r tgt => .decrAndJumpIf0 (reg r) (label tgt)
  | .callFun_2_1 function src1 src2 dst =>
      .callFun_2_1 (reg function) (reg src1) (reg src2) (reg dst)
  | .callFun_2_0 function src1 src2 => .callFun_2_0 (reg function) (reg src1) (reg src2)
  | .select sel tgts => .select (reg sel) (tgts.map label)
  | .raise msg => .raise msg
  | .ret => .ret
  | .storeWord src dst => .storeWord (reg src) (reg dst)

@[simp]
theorem insnSize_map (reg : R → S) (label : L → M) (insn : Insn R L)
    : (insn.map reg label).insnSize = insn.insnSize := by
  cases insn <;> simp [map, insnSize]

@[simp]
theorem insnControl_map (reg : R → S) (label : L → M) (insn : Insn R L)
    : (insn.map reg label).insnControl = insn.insnControl := by
  cases insn <;> rfl

theorem insnSize_pos (insn : Insn R L) : 0 < insn.insnSize := by
  cases insn <;> simp [insnSize]

@[simp]
theorem map_map {T N : Type} (reg : R → S) (label : L → M) (more : S → T) (next : M → N)
    (insn : Insn R L)
    : (insn.map reg label).map more next = insn.map (more ∘ reg) (next ∘ label) := by
  cases insn <;> simp [map]

@[simp]
theorem map_id (insn : Insn R L) : insn.map id id = insn := by
  cases insn <;> simp [map]

end Insn

/-- What a register of the frame holds. A pointer into the clause is an offset. -/
inductive Contents (L : Type) where
  | uninitialized
  | word (value : Nat)
  | dataPtr (offset : Nat)
  | function
  | output
  | wordPtr
  | label (target : L)
  deriving DecidableEq

/-- The function that is passed to the subroutine (for a typechecker the renamer), the clause,
the literals, and the libraries that instructions call. The result of a function without one is
arbitrary.
-/
structure Env (σ : Type) where
  varint : Varint
  u8 : U8Next
  rename : Nat → Nat → σ → Outcome (Nat × σ)
  clause : Bytes
  literals : List String

/-- The frame, and what the pointers point to: the output, the size of the key and the state of
the renamer.
-/
structure Machine (σ L : Type) where
  frame : List (Contents L)
  output : Bytes
  keySize : Nat
  renamer : σ

/-- What a subroutine leaves behind. -/
structure Result (σ : Type) where
  output : Bytes
  keySize : Nat
  renamer : σ

/-- What an instruction does. -/
inductive Effect (σ L : Type) where
  | next (machine : Machine σ L)
  | goto (target : L) (machine : Machine σ L)
  | stop (outcome : Outcome (Result σ))

/-- An instruction that falls through, if it succeeds. -/
def Effect.ofOutcome {σ L : Type} : Outcome (Machine σ L) → Effect σ L
  | .ok machine => .next machine
  | .error message => .stop (.error message)
  | .undefined => .stop .undefined

/-- A jump to the target, if any. -/
def Effect.branch {σ L : Type} : Outcome (Option L × Machine σ L) → Effect σ L
  | .ok (some target, machine) => .goto target machine
  | .ok (none, machine) => .next machine
  | .error message => .stop (.error message)
  | .undefined => .stop .undefined

namespace Machine

variable {σ L : Type}

def word (machine : Machine σ L) (reg : Nat) : Outcome Nat :=
  match machine.frame[reg]? with
  | some (.word value) => .ok value
  | _ => .undefined

def dataPtr (machine : Machine σ L) (reg : Nat) : Outcome Nat :=
  match machine.frame[reg]? with
  | some (.dataPtr offset) => .ok offset
  | _ => .undefined

/-- A number that can be compared: a word or a pointer. -/
def comparable (machine : Machine σ L) (reg : Nat) : Outcome Nat :=
  match machine.frame[reg]? with
  | some (.word value) => .ok value
  | some (.dataPtr offset) => .ok offset
  | _ => .undefined

def label (machine : Machine σ L) (reg : Nat) : Outcome L :=
  match machine.frame[reg]? with
  | some (.label target) => .ok target
  | _ => .undefined

/-- A register holds the pointer to the renamer, the output or the size of the key. -/
def pointsTo (machine : Machine σ L) (reg : Nat) (pointer : Contents Empty) : Outcome Unit :=
  match machine.frame[reg]?, pointer with
  | some .function, .function => .ok ()
  | some .output, .output => .ok ()
  | some .wordPtr, .wordPtr => .ok ()
  | _, _ => .undefined

def set (machine : Machine σ L) (reg : Nat) (contents : Contents L) : Outcome (Machine σ L) :=
  if reg < machine.frame.length then
    .ok { machine with frame := machine.frame.set reg contents }
  else
    .undefined

/-- `*a.dst += amount`, for a number or a pointer into the clause. -/
def increase (machine : Machine σ L) (reg amount : Nat) : Outcome (Machine σ L) :=
  match machine.frame[reg]? with
  | some (.word value) => machine.set reg (.word ((value + amount) % 2 ^ 64))
  | some (.dataPtr offset) => machine.set reg (.dataPtr (offset + amount))
  | _ => .undefined

/-- The bytes of the clause between two registers. -/
def input (env : Env σ) (machine : Machine σ L) (begin finish : Nat) : Outcome Bytes := do
  let start ← machine.dataPtr begin
  let stop ← machine.dataPtr finish
  if start ≤ stop ∧ stop ≤ env.clause.length then
    .ok ((env.clause.take stop).drop start)
  else
    .undefined

/-- `*a.begin = input.data()` -/
def advance (machine : Machine σ L) (begin finish : Nat) (rest : Bytes)
    : Outcome (Machine σ L) := do
  let stop ← machine.dataPtr finish
  machine.set begin (.dataPtr (stop - rest.length))

end Machine

variable {σ L : Type}

open Machine in
/-- `Eval::execute` -/
def execute (env : Env σ) (machine : Machine σ L) : Insn Nat L → Effect σ L
  | .inputNat begin finish dst => .ofOutcome do
      let input ← machine.input env begin finish
      let (value, rest) ← Input.packed env.varint input
      let machine ← machine.set dst (.word value)
      machine.advance begin finish rest
  | .inputBytes begin finish size => .ofOutcome do
      let input ← machine.input env begin finish
      let rest ← Input.bytes input (← machine.word size)
      machine.advance begin finish rest
  | .inputSkipUntrustedString begin finish => .ofOutcome do
      let input ← machine.input env begin finish
      let rest ← Input.skipUntrustedString env.u8 input
      machine.advance begin finish rest
  | .inputSkipNat begin finish => .ofOutcome do
      let input ← machine.input env begin finish
      let (_, rest) ← Input.packed env.varint input
      machine.advance begin finish rest
  | .inputSkipTrustedString begin finish => .ofOutcome do
      let input ← machine.input env begin finish
      let (size, _) ← Input.skipTrustedString input
      machine.advance begin finish (input.drop size)
  | .outputNat src output => .ofOutcome do
      machine.pointsTo output .output
      let value ← machine.word src
      return { machine with output := machine.output ++ env.varint.encodeVarint value }
  | .outputBytes ptr finish output => .ofOutcome do
      machine.pointsTo output .output
      let bytes ← machine.input env ptr finish
      return { machine with output := machine.output ++ bytes }
  | .getOutputSize output dst => .ofOutcome do
      machine.pointsTo output .output
      machine.set dst (.word machine.output.length)
  | .loadConst imm dst => .ofOutcome (machine.set dst (.word imm))
  | .loadReg src dst => .ofOutcome do
      match machine.frame[src]? with
      | some contents => machine.set dst contents
      | none => .undefined
  | .addConst imm dst => .ofOutcome (machine.increase dst imm)
  | .add src dst => .ofOutcome do
      let value ← machine.word src
      machine.increase dst value
  | .loadLabel lbl dst => .ofOutcome (machine.set dst (.label lbl))
  | .jump tgt => .goto tgt machine
  | .jumpReg reg => .branch do
      let target ← machine.label reg
      return (some target, machine)
  | .jumpIf0 reg tgt => .branch do
      let value ← machine.word reg
      return (if value = 0 then some tgt else none, machine)
  | .jumpIfNot0 reg tgt => .branch do
      let value ← machine.word reg
      return (if value ≠ 0 then some tgt else none, machine)
  | .jumpIfEq reg1 reg2 tgt => .branch do
      let left ← machine.comparable reg1
      let right ← machine.comparable reg2
      return (if left = right then some tgt else none, machine)
  | .jumpIfNe reg1 reg2 tgt => .branch do
      let left ← machine.comparable reg1
      let right ← machine.comparable reg2
      return (if left ≠ right then some tgt else none, machine)
  | .jumpIfGt reg1 reg2 tgt => .branch do
      let left ← machine.comparable reg1
      let right ← machine.comparable reg2
      return (if left > right then some tgt else none, machine)
  | .jumpIfGe reg1 reg2 tgt => .branch do
      let left ← machine.comparable reg1
      let right ← machine.comparable reg2
      return (if left ≥ right then some tgt else none, machine)
  | .jumpIfLt reg1 reg2 tgt => .branch do
      let left ← machine.comparable reg1
      let right ← machine.comparable reg2
      return (if left < right then some tgt else none, machine)
  | .jumpIfLe reg1 reg2 tgt => .branch do
      let left ← machine.comparable reg1
      let right ← machine.comparable reg2
      return (if left ≤ right then some tgt else none, machine)
  | .decrAndJumpIfNot0 reg tgt => .branch do
      let value ← machine.word reg
      let decremented := (value + 2 ^ 64 - 1) % 2 ^ 64
      let machine ← machine.set reg (.word decremented)
      return (if decremented ≠ 0 then some tgt else none, machine)
  | .decrAndJumpIf0 reg tgt => .branch do
      let value ← machine.word reg
      let decremented := (value + 2 ^ 64 - 1) % 2 ^ 64
      let machine ← machine.set reg (.word decremented)
      return (if decremented = 0 then some tgt else none, machine)
  | .callFun_2_1 function src1 src2 dst => .ofOutcome do
      machine.pointsTo function .function
      let left ← machine.word src1
      let right ← machine.word src2
      let (value, renamer) ← env.rename left right machine.renamer
      let machine ← machine.set dst (.word value)
      return { machine with renamer }
  | .callFun_2_0 function src1 src2 => .ofOutcome do
      machine.pointsTo function .function
      let left ← machine.word src1
      let right ← machine.word src2
      let (_, renamer) ← env.rename left right machine.renamer
      return { machine with renamer }
  | .select sel tgts => .branch do
      let value ← machine.word sel
      return (tgts[value]?, machine)
  | .raise msg =>
      match env.literals[msg]? with
      | some message => .stop (.error message)
      | none => .stop .undefined
  | .ret => .stop (.ok ⟨machine.output, machine.keySize, machine.renamer⟩)
  | .storeWord src dst => .ofOutcome do
      machine.pointsTo dst .wordPtr
      let value ← machine.word src
      return { machine with keySize := value }

section Relabel

variable {M : Type}

def Contents.map (label : L → M) : Contents L → Contents M
  | .uninitialized => .uninitialized
  | .word value => .word value
  | .dataPtr offset => .dataPtr offset
  | .function => .function
  | .output => .output
  | .wordPtr => .wordPtr
  | .label target => .label (label target)

def Machine.map (label : L → M) (machine : Machine σ L) : Machine σ M :=
  { machine with frame := machine.frame.map (Contents.map label) }

theorem Machine.map_map {N : Type} (label : L → M) (next : M → N) (machine : Machine σ L)
    : (machine.map label).map next = machine.map (next ∘ label) := by
  have same : Contents.map next ∘ Contents.map label = Contents.map (next ∘ label) := by
    funext contents
    cases contents <;> rfl
  simp [Machine.map, same]

def Effect.map (label : L → M) : Effect σ L → Effect σ M
  | .next machine => .next (machine.map label)
  | .goto target machine => .goto (label target) (machine.map label)
  | .stop outcome => .stop outcome

namespace Machine

variable (label : L → M) (machine : Machine σ L)

@[simp]
theorem word_map (reg : Nat) : (machine.map label).word reg = machine.word reg := by
  simp only [word, Machine.map, List.getElem?_map]
  rcases machine.frame[reg]? with - | contents
  · rfl
  · cases contents <;> rfl

@[simp]
theorem dataPtr_map (reg : Nat) : (machine.map label).dataPtr reg = machine.dataPtr reg := by
  simp only [dataPtr, Machine.map, List.getElem?_map]
  rcases machine.frame[reg]? with - | contents
  · rfl
  · cases contents <;> rfl

@[simp]
theorem comparable_map (reg : Nat)
    : (machine.map label).comparable reg = machine.comparable reg := by
  simp only [comparable, Machine.map, List.getElem?_map]
  rcases machine.frame[reg]? with - | contents
  · rfl
  · cases contents <;> rfl

@[simp]
theorem pointsTo_map (reg : Nat) (pointer : Contents Empty)
    : (machine.map label).pointsTo reg pointer = machine.pointsTo reg pointer := by
  simp only [pointsTo, Machine.map, List.getElem?_map]
  rcases machine.frame[reg]? with - | contents
  · rfl
  · cases contents <;> cases pointer <;> rfl

@[simp]
theorem input_map (env : Env σ) (begin finish : Nat)
    : (machine.map label).input env begin finish = machine.input env begin finish := by
  simp [input]

/-- What a fallible operation on the machine does, under a change of labels. -/
def mapOutcome (label : L → M) : Outcome (Machine σ L) → Outcome (Machine σ M)
  | .ok machine => .ok (machine.map label)
  | .error message => .error message
  | .undefined => .undefined

@[simp]
theorem set_map (reg : Nat) (contents : Contents L)
    : (machine.map label).set reg (contents.map label) = mapOutcome label (machine.set reg contents) := by
  unfold set mapOutcome
  by_cases inside : reg < machine.frame.length
  · simp [Machine.map, inside]
  · simp [Machine.map, inside]

@[simp]
theorem set_map_word (reg value : Nat)
    : (machine.map label).set reg (.word value) = mapOutcome label (machine.set reg (.word value)) :=
  set_map label machine reg (.word value)

@[simp]
theorem set_map_dataPtr (reg offset : Nat)
    : (machine.map label).set reg (.dataPtr offset)
      = mapOutcome label (machine.set reg (.dataPtr offset)) :=
  set_map label machine reg (.dataPtr offset)

@[simp]
theorem increase_map (reg amount : Nat)
    : (machine.map label).increase reg amount
      = mapOutcome label (machine.increase reg amount) := by
  have same : (machine.map label).frame[reg]? = machine.frame[reg]?.map (Contents.map label) := by
    rw [Machine.map, List.getElem?_map]
  unfold increase
  rw [same]
  rcases machine.frame[reg]? with - | contents
  · rfl
  · cases contents with
    | word value => exact set_map_word label machine reg _
    | dataPtr offset => exact set_map_dataPtr label machine reg _
    | _ => rfl

@[simp]
theorem advance_map (begin finish : Nat) (rest : Bytes)
    : (machine.map label).advance begin finish rest
      = mapOutcome label (machine.advance begin finish rest) := by
  simp only [advance, dataPtr_map, set_map_dataPtr]
  cases machine.dataPtr finish <;> rfl

theorem mapOutcome_bind {α : Type} (outcome : Outcome α) (next : α → Outcome (Machine σ L))
    : mapOutcome label (outcome >>= next) = outcome >>= fun result => mapOutcome label (next result) := by
  cases outcome <;> rfl

theorem bind_mapOutcome {α : Type} (outcome : Outcome (Machine σ L))
    (next : Machine σ M → Outcome α)
    : (mapOutcome label outcome >>= next) = outcome >>= fun machine => next (machine.map label) := by
  cases outcome <;> rfl

end Machine

theorem Effect.map_ofOutcome (label : L → M) (outcome : Outcome (Machine σ L))
    : (Effect.ofOutcome outcome).map label = .ofOutcome (Machine.mapOutcome label outcome) := by
  cases outcome <;> rfl

/-- What a jump does, under a change of labels. -/
def Effect.mapBranch (label : L → M)
    : Outcome (Option L × Machine σ L) → Outcome (Option M × Machine σ M)
  | .ok (target, machine) => .ok (target.map label, machine.map label)
  | .error message => .error message
  | .undefined => .undefined

theorem Effect.map_branch (label : L → M) (outcome : Outcome (Option L × Machine σ L))
    : (Effect.branch outcome).map label = .branch (mapBranch label outcome) := by
  rcases outcome with ⟨- | target, machine⟩ | message | - <;> rfl

theorem Effect.mapBranch_bind (label : L → M) {α : Type} (outcome : Outcome α)
    (next : α → Outcome (Option L × Machine σ L))
    : mapBranch label (outcome >>= next) = outcome >>= fun result => mapBranch label (next result) := by
  cases outcome <;> rfl

theorem Effect.mapBranch_ite (label : L → M) (taken : Prop) [Decidable taken] (target : L)
    (machine : Machine σ L)
    : mapBranch label (pure (if taken then some target else none, machine))
      = pure (if taken then some (label target) else none, machine.map label) := by
  by_cases isTaken : taken <;> simp [mapBranch, isTaken]

theorem Machine.label_map (label : L → M) (machine : Machine σ L) (reg : Nat)
    : (machine.map label).label reg = machine.label reg >>= fun target => .ok (label target) := by
  simp only [Machine.label, Machine.map, List.getElem?_map]
  rcases machine.frame[reg]? with - | contents
  · rfl
  · cases contents <;> rfl

/-- An instruction does the same when the labels in it and in the frame are changed. -/
theorem execute_map (label : L → M) (env : Env σ) (machine : Machine σ L) (insn : Insn Nat L)
    : execute env (machine.map label) (insn.map id label) = (execute env machine insn).map label := by
  have same : (machine.map label).output = machine.output := rfl
  cases insn
  case loadReg src dst =>
    simp only [execute, Insn.map, id, Effect.map_ofOutcome, Machine.map, List.getElem?_map]
    cases machine.frame[src]? with
    | none => rfl
    | some contents => exact congrArg Effect.ofOutcome (machine.set_map label dst contents)
  case loadLabel lbl dst =>
    simp only [execute, Insn.map, id, Effect.map_ofOutcome]
    exact congrArg Effect.ofOutcome (machine.set_map label dst (.label lbl))
  case jumpReg reg =>
    simp only [execute, Insn.map, id, Machine.label_map]
    cases machine.label reg <;> rfl
  case select sel tgts =>
    simp only [execute, Insn.map, id, Machine.word_map, Effect.map_branch, Effect.mapBranch_bind,
      List.getElem?_map]
    rfl
  case raise msg =>
    simp only [execute, Insn.map]
    cases env.literals[msg]? <;> rfl
  case jump => rfl
  case ret => rfl
  all_goals
    simp only [execute, Insn.map, id, Effect.map_ofOutcome, Effect.map_branch,
      Machine.mapOutcome_bind, Machine.bind_mapOutcome, Effect.mapBranch_bind,
      Machine.word_map, Machine.comparable_map, Machine.pointsTo_map, Machine.input_map,
      Machine.set_map_word, Machine.increase_map, Machine.advance_map, Effect.mapBranch_ite, same]
    try rfl

end Relabel

/-- `Subroutine`. Instructions refer to registers by their position in the frame and to labels
by their distance from the next instruction.
-/
structure Subroutine where
  code : List (Insn Nat Int)
  inputs : Nat
  locals : Nat
  constants : List Nat
  literals : List String

/-- The instruction whose words start at an offset of the code. -/
def fetch (code : List (Insn Nat Int)) (pc : Nat) : Option (Insn Nat Int) :=
  match code with
  | [] => none
  | insn :: rest =>
      if pc = 0 then
        some insn
      else if pc < insn.insnSize then
        none
      else
        fetch rest (pc - insn.insnSize)

/-- One round of `evalSwitch`: labels are turned into absolute offsets. -/
def evalStep (env : Env σ) (code : List (Insn Nat Int)) (state : Nat × Machine σ Nat)
    : Option ((Nat × Machine σ Nat) ⊕ Outcome (Result σ)) :=
  match fetch code state.1 with
  | none => none
  | some insn =>
      let next := state.1 + insn.insnSize
      match execute env state.2 (insn.map id (fun offset => (next + offset : Int).toNat)) with
      | .next machine => some (.inl (next, machine))
      | .goto target machine => some (.inl (target, machine))
      | .stop outcome => some (.inr outcome)

/-- The frame at the start of `Subroutine::execute`. -/
def Subroutine.frame {L : Type} (subroutine : Subroutine) (args : List (Contents L))
    : List (Contents L) :=
  args ++ subroutine.constants.map .word
    ++ List.replicate (subroutine.locals - subroutine.constants.length) .uninitialized

/-- `Subroutine::execute` ends with the outcome. -/
def Subroutine.Executes (subroutine : Subroutine) (varint : Varint) (u8 : U8Next)
    (rename : Nat → Nat → σ → Outcome (Nat × σ)) (renamer : σ) (clause : Bytes)
    (args : List (Contents Nat)) (outcome : Outcome (Result σ)) : Prop :=
  Halts (evalStep ⟨varint, u8, rename, clause, subroutine.literals⟩ subroutine.code)
    (0, ⟨subroutine.frame args, [], 0, renamer⟩) outcome

end Glean.Bytecode
