import Glean.Bytecode.Emission

/-! Scopes of registers (`Code.hs`: `local`, `output`, `constant` and `calledFrom`).

Instructions, labels and literals are left out: issuing them neither reads nor changes the fields
that registers are taken from.
-/

namespace Glean.Bytecode.Scopes

/-- The fields of `CodeS` for registers -/
structure Alloc where
  csConstants : List Nat
  csLocals : Nat
  csMaxLocal : Nat
  csOutputs : Nat
  csMaxOutputs : Nat

/-- Code that takes registers. There is no result for the maximum of no call sites. -/
def Gen (α : Type) : Type :=
  Alloc → Option (α × Alloc)

namespace Gen

variable {α β : Type}

instance : Monad Gen where
  pure result := fun state => some (result, state)
  bind gen next := fun state => (gen state).bind fun outcome => next outcome.1 outcome.2

theorem bind_eq {gen : Gen α} {next : α → Gen β} {state after : Alloc} {result : α}
    (runs : gen state = some (result, after))
    : (gen >>= next) state = next result after := by
  change (gen state).bind _ = _
  rw [runs]
  rfl

end Gen

structure CallSite where
  callSiteLocals : Nat
  callSiteOutputs : Nat
  deriving DecidableEq

section Allocators

variable {α : Type}

def constant (word : Nat) : Gen Register :=
  fun state =>
    some (.constant (intern word state.csConstants).1,
      { state with csConstants := (intern word state.csConstants).2 })

/-- `local` -/
def withLocal (body : Register → Gen α) : Gen α :=
  fun state =>
    (body (.local state.csLocals)
      { state with
          csLocals := state.csLocals + 1
          csMaxLocal := max state.csMaxLocal (state.csLocals + 1) }).map
      fun outcome => (outcome.1, { outcome.2 with csLocals := state.csLocals })

/-- `locals` -/
def withLocals : Nat → (List Register → Gen α) → Gen α
  | 0, body => body []
  | count + 1, body =>
      fun state =>
        (body ((List.range' state.csLocals (count + 1)).map .local)
          { state with
              csLocals := state.csLocals + (count + 1)
              csMaxLocal := max state.csMaxLocal (state.csLocals + (count + 1)) }).map
          fun outcome => (outcome.1, { outcome.2 with csLocals := state.csLocals })

/-- `outputs` -/
def withOutputs : Nat → (List Register → Gen α) → Gen α
  | 0, body => body []
  | count + 1, body =>
      fun state =>
        (body ((List.range' state.csOutputs (count + 1)).map .input)
          { state with
              csOutputs := state.csOutputs + (count + 1)
              csMaxOutputs := max state.csMaxOutputs (state.csOutputs + (count + 1)) }).map
          fun outcome => (outcome.1, { outcome.2 with csOutputs := state.csOutputs })

def callSite : Gen CallSite :=
  fun state => some (⟨state.csLocals, state.csOutputs⟩, state)

/-- `calledFrom`: registers are taken above those of all call sites. -/
def calledFrom (frames : List CallSite) (inner : Gen α) : Gen α :=
  fun state =>
    match (frames.map CallSite.callSiteLocals).max?, (frames.map CallSite.callSiteOutputs).max? with
    | some locals, some outputs =>
        (inner { state with csLocals := locals, csOutputs := outputs }).map
          fun outcome =>
            (outcome.1,
              { outcome.2 with csLocals := state.csLocals, csOutputs := state.csOutputs })
    | _, _ => none

end Allocators

/-- The state in which `generate` starts with some inputs -/
def Alloc.start (inputSize : Nat) : Alloc := ⟨[], 0, 0, inputSize, inputSize⟩

/-- The input registers that `generate` passes to the code -/
def inputs (inputSize : Nat) : List Register := (List.range inputSize).map .input

namespace Alloc

variable (state : Alloc)

/-- `get_reg`, with the final numbers of inputs and constants -/
def number (register : Register) : Nat :=
  getReg state.csMaxOutputs state.csConstants.length register

/-- The declared locals of the subroutine, among them its constants -/
def declaredLocals : Nat := state.csMaxLocal + state.csConstants.length

/-- The register is one of those that the subroutine declares. -/
def Declares : Register → Prop
  | .input index => index < state.csMaxOutputs
  | .constant index => index < state.csConstants.length
  | .local index => index < state.csMaxLocal

end Alloc

/-- A call site and the registers that are live there -/
structure Recorded where
  site : CallSite
  live : List Register

inductive Event where
  | allocation (registers live : List Register)
  | constant (word index : Nat)

/-- The registers that are live at call sites -/
def liveAt (known : List Recorded) (frames : List CallSite) : List Register :=
  (known.filter fun recorded => recorded.site ∈ frames).flatMap Recorded.live

/-- The runs of code that is made of the functions above. A scope has live registers and knows the
call sites that were recorded in it, also in scopes inside of it that have ended. Code is called
from sites that its scope knows, and registers that are live there are live in the code. The last
two arguments are the sites that the code records and the registers that it takes.
-/
inductive Runs
    : {α : Type} → Gen α → List Register → List Recorded → Alloc → α → Alloc → List Recorded →
      List Event → Prop where
  | pure {α : Type} {live : List Register} {known : List Recorded} {state : Alloc} (result : α)
      : Runs (Pure.pure result) live known state result state [] []
  | bind {α β : Type} {gen : Gen α} {next : α → Gen β} {live : List Register}
      {known recorded more : List Recorded} {state after last : Alloc} {result : α} {final : β}
      {events others : List Event}
      (first : Runs gen live known state result after recorded events)
      (second : Runs (next result) live (known ++ recorded) after final last more others)
      : Runs (gen >>= next) live known state final last (recorded ++ more) (events ++ others)
  | constant {live : List Register} {known : List Recorded} {state : Alloc} (word : Nat)
      : Runs (constant word) live known state (.constant (intern word state.csConstants).1)
          { state with csConstants := (intern word state.csConstants).2 } []
          [.constant word (intern word state.csConstants).1]
  | withLocal {α : Type} {body : Register → Gen α} {live : List Register}
      {known recorded : List Recorded} {state after : Alloc} {result : α} {events : List Event}
      (inner
        : Runs (body (.local state.csLocals)) (.local state.csLocals :: live) []
            { state with
                csLocals := state.csLocals + 1
                csMaxLocal := max state.csMaxLocal (state.csLocals + 1) }
            result after recorded events)
      : Runs (withLocal body) live known state result { after with csLocals := state.csLocals }
          recorded (.allocation [.local state.csLocals] live :: events)
  | noLocals {α : Type} {body : List Register → Gen α} {live : List Register}
      {known recorded : List Recorded} {state after : Alloc} {result : α} {events : List Event}
      (inner : Runs (body []) live known state result after recorded events)
      : Runs (withLocals 0 body) live known state result after recorded events
  | withLocals {α : Type} {count : Nat} {body : List Register → Gen α} {live : List Register}
      {known recorded : List Recorded} {state after : Alloc} {result : α} {events : List Event}
      (inner
        : Runs (body ((List.range' state.csLocals (count + 1)).map .local))
            ((List.range' state.csLocals (count + 1)).map .local ++ live) []
            { state with
                csLocals := state.csLocals + (count + 1)
                csMaxLocal := max state.csMaxLocal (state.csLocals + (count + 1)) }
            result after recorded events)
      : Runs (withLocals (count + 1) body) live known state result
          { after with csLocals := state.csLocals } recorded
          (.allocation ((List.range' state.csLocals (count + 1)).map .local) live :: events)
  | noOutputs {α : Type} {body : List Register → Gen α} {live : List Register}
      {known recorded : List Recorded} {state after : Alloc} {result : α} {events : List Event}
      (inner : Runs (body []) live known state result after recorded events)
      : Runs (withOutputs 0 body) live known state result after recorded events
  | withOutputs {α : Type} {count : Nat} {body : List Register → Gen α} {live : List Register}
      {known recorded : List Recorded} {state after : Alloc} {result : α} {events : List Event}
      (inner
        : Runs (body ((List.range' state.csOutputs (count + 1)).map .input))
            ((List.range' state.csOutputs (count + 1)).map .input ++ live) []
            { state with
                csOutputs := state.csOutputs + (count + 1)
                csMaxOutputs := max state.csMaxOutputs (state.csOutputs + (count + 1)) }
            result after recorded events)
      : Runs (withOutputs (count + 1) body) live known state result
          { after with csOutputs := state.csOutputs } recorded
          (.allocation ((List.range' state.csOutputs (count + 1)).map .input) live :: events)
  | callSite {live : List Register} {known : List Recorded} {state : Alloc}
      : Runs callSite live known state ⟨state.csLocals, state.csOutputs⟩ state
          [⟨⟨state.csLocals, state.csOutputs⟩, live⟩] []
  | calledFrom {α : Type} {frames : List CallSite} {gen : Gen α} {live : List Register}
      {known recorded : List Recorded} {state after : Alloc} {locals outputs : Nat} {result : α}
      {events : List Event}
      (isKnown : ∀ site ∈ frames, ∃ recorded ∈ known, recorded.site = site)
      (isLocals : (frames.map CallSite.callSiteLocals).max? = some locals)
      (isOutputs : (frames.map CallSite.callSiteOutputs).max? = some outputs)
      (inner
        : Runs gen (live ++ liveAt known frames) []
            { state with csLocals := locals, csOutputs := outputs } result after recorded events)
      : Runs (calledFrom frames gen) live known state result
          { after with csLocals := state.csLocals, csOutputs := state.csOutputs } recorded events

variable {α : Type} {gen : Gen α} {live : List Register} {known recorded : List Recorded}
variable {state after last : Alloc} {result : α} {events : List Event}

/-- The runs are those of the code. -/
theorem Runs.eval (runs : Runs gen live known state result after recorded events)
    : gen state = some (result, after) := by
  induction runs with
  | pure result => rfl
  | bind _ _ ihFirst ihSecond => rw [Gen.bind_eq ihFirst, ihSecond]
  | constant word => rfl
  | withLocal _ ih => rw [Scopes.withLocal, ih, Option.map_some]
  | noLocals _ ih => exact ih
  | withLocals _ ih => simp only [Scopes.withLocals, ih, Option.map_some]
  | noOutputs _ ih => exact ih
  | withOutputs _ ih => simp only [Scopes.withOutputs, ih, Option.map_some]
  | callSite => rfl
  | calledFrom _ isLocals isOutputs _ ih =>
      rw [Scopes.calledFrom, isLocals, isOutputs]
      simp only [ih, Option.map_some]

/-- The register is one of the first locals or outputs. -/
def Below (locals outputs : Nat) : Register → Prop
  | .input index => index < outputs
  | .constant _ => False
  | .local index => index < locals

/-- A call site is above the registers of its scope and the registers that are live there, and
within the numbers used so far.
-/
structure Recorded.Fits (recorded : Recorded) (state : Alloc) : Prop where
  locals : state.csLocals ≤ recorded.site.callSiteLocals
  outputs : state.csOutputs ≤ recorded.site.callSiteOutputs
  maxLocal : recorded.site.callSiteLocals ≤ state.csMaxLocal
  maxOutputs : recorded.site.callSiteOutputs ≤ state.csMaxOutputs
  live
    : ∀ register ∈ recorded.live,
        Below recorded.site.callSiteLocals recorded.site.callSiteOutputs register

/-- What holds of a scope -/
structure Fits (live : List Register) (known : List Recorded) (state : Alloc) : Prop where
  live : ∀ register ∈ live, Below state.csLocals state.csOutputs register
  known : ∀ recorded ∈ known, recorded.Fits state
  locals : state.csLocals ≤ state.csMaxLocal
  outputs : state.csOutputs ≤ state.csMaxOutputs

/-- More registers may have been used. -/
structure Alloc.Grows (state after : Alloc) : Prop where
  maxLocal : state.csMaxLocal ≤ after.csMaxLocal
  maxOutputs : state.csMaxOutputs ≤ after.csMaxOutputs
  constants : state.csConstants <+: after.csConstants

/-- After some code a scope has its registers again. -/
structure Alloc.Returns (state after : Alloc) : Prop extends state.Grows after where
  locals : after.csLocals = state.csLocals
  outputs : after.csOutputs = state.csOutputs

/-- The registers are new, apart from those that are live, and declared. A constant is declared. -/
def Event.Holds (last : Alloc) : Event → Prop
  | .allocation registers live =>
      registers.Nodup ∧ (∀ register ∈ registers, register ∉ live)
        ∧ (∀ register ∈ registers, last.Declares register)
        ∧ ∀ register ∈ live, last.Declares register
  | .constant word index => last.csConstants[index]? = some word

/-- The registers of the scope are live. -/
def Event.Within (scope : List Register) : Event → Prop
  | .allocation _ live => scope ⊆ live
  | .constant _ _ => True

theorem Alloc.Grows.refl (state : Alloc) : state.Grows state :=
  ⟨le_rfl, le_rfl, List.prefix_rfl⟩

theorem Alloc.Grows.trans (first : state.Grows after) (second : after.Grows last)
    : state.Grows last where
  maxLocal := first.maxLocal.trans second.maxLocal
  maxOutputs := first.maxOutputs.trans second.maxOutputs
  constants := first.constants.trans second.constants

theorem Alloc.Returns.trans (first : state.Returns after) (second : after.Returns last)
    : state.Returns last where
  toGrows := first.toGrows.trans second.toGrows
  locals := second.locals.trans first.locals
  outputs := second.outputs.trans first.outputs

theorem Below.mono {locals outputs moreLocals moreOutputs : Nat} {register : Register}
    (below : Below locals outputs register) (isLocals : locals ≤ moreLocals)
    (isOutputs : outputs ≤ moreOutputs)
    : Below moreLocals moreOutputs register := by
  cases register with
  | input index => exact Nat.lt_of_lt_of_le below isOutputs
  | constant index => exact below
  | «local» index => exact Nat.lt_of_lt_of_le below isLocals

theorem Alloc.Declares.mono {register : Register} (declares : state.Declares register)
    (grows : state.Grows after)
    : after.Declares register := by
  cases register with
  | input index => exact Nat.lt_of_lt_of_le declares grows.maxOutputs
  | constant index => exact Nat.lt_of_lt_of_le declares grows.constants.length_le
  | «local» index => exact Nat.lt_of_lt_of_le declares grows.maxLocal

theorem Fits.declares {register : Register} (fits : Fits live known state)
    (below : Below state.csLocals state.csOutputs register)
    : state.Declares register := by
  cases register with
  | input index => exact Nat.lt_of_lt_of_le below fits.outputs
  | constant index => exact below.elim
  | «local» index => exact Nat.lt_of_lt_of_le below fits.locals

theorem Event.Holds.mono {event : Event} (holds : event.Holds after) (grows : after.Grows last)
    : event.Holds last := by
  cases event with
  | allocation registers live =>
      obtain ⟨nodup, isNew, declared, isLive⟩ := holds
      exact ⟨nodup, isNew, fun register member => (declared register member).mono grows,
        fun register member => (isLive register member).mono grows⟩
  | constant word index =>
      obtain ⟨inside, -⟩ := List.getElem?_eq_some_iff.mp holds
      obtain ⟨more, isMore⟩ := grows.constants
      rw [Event.Holds, ← isMore, List.getElem?_append_left inside]
      exact holds

theorem Event.Within.mono {event : Event} {scope inner : List Register}
    (within : event.Within inner) (subset : scope ⊆ inner)
    : event.Within scope := by
  cases event with
  | allocation registers live => exact fun register member => within (subset member)
  | constant word index => trivial

theorem Recorded.Fits.mono {site : Recorded} (fits : site.Fits state)
    (locals : after.csLocals ≤ state.csLocals) (outputs : after.csOutputs ≤ state.csOutputs)
    (grows : state.Grows after)
    : site.Fits after where
  locals := locals.trans fits.locals
  outputs := outputs.trans fits.outputs
  maxLocal := fits.maxLocal.trans grows.maxLocal
  maxOutputs := fits.maxOutputs.trans grows.maxOutputs
  live := fits.live

/-- What is known of a run -/
structure Apart (live : List Register) (state after : Alloc) (recorded : List Recorded)
    (events : List Event) : Prop where
  returns : state.Returns after
  recorded : ∀ site ∈ recorded, site.Fits after
  events : ∀ event ∈ events, event.Holds after ∧ event.Within live

/-- The scope after some code -/
theorem Fits.next (fits : Fits live known state) (apart : Apart live state after recorded events)
    : Fits live (known ++ recorded) after where
  live := by
    rw [apart.returns.locals, apart.returns.outputs]
    exact fits.live
  known := by
    intro site member
    rcases List.mem_append.mp member with old | new
    · exact (fits.known site old).mono apart.returns.locals.le apart.returns.outputs.le
        apart.returns.toGrows
    · exact apart.recorded site new
  locals := apart.returns.locals.le.trans (fits.locals.trans apart.returns.maxLocal)
  outputs := apart.returns.outputs.le.trans (fits.outputs.trans apart.returns.maxOutputs)

/-- Code in a scope, seen from outside of it. -/
theorem Apart.leave {inner : List Register} {entered left : Alloc}
    (apart : Apart inner entered after recorded events) (subset : live ⊆ inner)
    (grows : state.Grows entered) (locals : state.csLocals ≤ entered.csLocals)
    (outputs : state.csOutputs ≤ entered.csOutputs) (sameLocals : left.csLocals = state.csLocals)
    (sameOutputs : left.csOutputs = state.csOutputs) (same : after.Grows left)
    : Apart live state left recorded events where
  returns :=
    { toGrows := grows.trans (apart.returns.toGrows.trans same)
      locals := sameLocals
      outputs := sameOutputs }
  recorded := fun site member =>
    (apart.recorded site member).mono
      (sameLocals.le.trans (locals.trans apart.returns.locals.ge))
      (sameOutputs.le.trans (outputs.trans apart.returns.outputs.ge)) same
  events := fun event member =>
    ⟨(apart.events event member).1.mono same, (apart.events event member).2.mono subset⟩

/-- A scope is entered: its registers are the next ones. -/
structure Enters (state entered : Alloc) (registers : List Register) : Prop where
  grows : state.Grows entered
  locals : state.csLocals ≤ entered.csLocals
  outputs : state.csOutputs ≤ entered.csOutputs
  maxLocal : entered.csLocals ≤ entered.csMaxLocal
  maxOutputs : entered.csOutputs ≤ entered.csMaxOutputs
  nodup : registers.Nodup
  isNew : ∀ register ∈ registers, ¬ Below state.csLocals state.csOutputs register
  below : ∀ register ∈ registers, Below entered.csLocals entered.csOutputs register

theorem Enters.fits {registers : List Register} {entered : Alloc}
    (enters : Enters state entered registers) (fits : Fits live known state)
    : Fits (registers ++ live) [] entered where
  live := by
    intro register member
    rcases List.mem_append.mp member with isNew | old
    · exact enters.below register isNew
    · exact (fits.live register old).mono enters.locals enters.outputs
  known := nofun
  locals := enters.maxLocal
  outputs := enters.maxOutputs

/-- A scope with new registers -/
theorem Enters.apart {registers : List Register} {entered left : Alloc}
    (enters : Enters state entered registers) (fits : Fits live known state)
    (apart : Apart (registers ++ live) entered after recorded events)
    (sameLocals : left.csLocals = state.csLocals) (sameOutputs : left.csOutputs = state.csOutputs)
    (same : after.Grows left)
    : Apart live state left recorded (.allocation registers live :: events) := by
  have leaves : Apart live state left recorded events :=
    apart.leave (List.subset_append_right _ _) enters.grows enters.locals enters.outputs
      sameLocals sameOutputs same
  refine { leaves with events := fun event member => ?_ }
  rcases List.mem_cons.mp member with rfl | later
  · refine ⟨⟨enters.nodup, ?_, ?_, ?_⟩, fun _ => id⟩
    · exact fun register isRegister isLive =>
        enters.isNew register isRegister (fits.live register isLive)
    · exact fun register isRegister =>
        ((enters.fits fits).declares (enters.below register isRegister)).mono
          (apart.returns.toGrows.trans same)
    · exact fun register isLive =>
        (fits.declares (fits.live register isLive)).mono leaves.returns.toGrows
  · exact leaves.events event later

theorem enters_locals (fits : Fits live known state) (count : Nat)
    : Enters state
        { state with
            csLocals := state.csLocals + count
            csMaxLocal := max state.csMaxLocal (state.csLocals + count) }
        ((List.range' state.csLocals count).map .local) where
  grows := ⟨le_max_left _ _, le_rfl, List.prefix_rfl⟩
  locals := Nat.le_add_right _ _
  outputs := le_rfl
  maxLocal := le_max_right _ _
  maxOutputs := fits.outputs
  nodup := List.Nodup.map (fun _ _ same => Register.local.inj same) List.nodup_range'
  isNew := by
    intro register member
    obtain ⟨index, isIndex, rfl⟩ := List.mem_map.mp member
    exact Nat.not_lt.mpr (List.mem_range'_1.mp isIndex).1
  below := by
    intro register member
    obtain ⟨index, isIndex, rfl⟩ := List.mem_map.mp member
    exact (List.mem_range'_1.mp isIndex).2

theorem enters_outputs (fits : Fits live known state) (count : Nat)
    : Enters state
        { state with
            csOutputs := state.csOutputs + count
            csMaxOutputs := max state.csMaxOutputs (state.csOutputs + count) }
        ((List.range' state.csOutputs count).map .input) where
  grows := ⟨le_rfl, le_max_left _ _, List.prefix_rfl⟩
  locals := le_rfl
  outputs := Nat.le_add_right _ _
  maxLocal := fits.locals
  maxOutputs := le_max_right _ _
  nodup := List.Nodup.map (fun _ _ same => Register.input.inj same) List.nodup_range'
  isNew := by
    intro register member
    obtain ⟨index, isIndex, rfl⟩ := List.mem_map.mp member
    exact Nat.not_lt.mpr (List.mem_range'_1.mp isIndex).1
  below := by
    intro register member
    obtain ⟨index, isIndex, rfl⟩ := List.mem_map.mp member
    exact (List.mem_range'_1.mp isIndex).2

/-- The numbers from which called code takes registers are above those of each call site. -/
structure Calls (known : List Recorded) (frames : List CallSite) (locals outputs : Nat) : Prop where
  isKnown : ∀ site ∈ frames, ∃ recorded ∈ known, recorded.site = site
  isLocals : (frames.map CallSite.callSiteLocals).max? = some locals
  isOutputs : (frames.map CallSite.callSiteOutputs).max? = some outputs

section Calls

variable {frames : List CallSite} {locals outputs : Nat}

theorem Calls.site_le (calls : Calls known frames locals outputs) {site : CallSite}
    (member : site ∈ frames)
    : site.callSiteLocals ≤ locals ∧ site.callSiteOutputs ≤ outputs :=
  ⟨(List.max?_eq_some_iff.mp calls.isLocals).2 _ (List.mem_map_of_mem member),
    (List.max?_eq_some_iff.mp calls.isOutputs).2 _ (List.mem_map_of_mem member)⟩

/-- The numbers are those of known call sites. -/
theorem Calls.exists_known (calls : Calls known frames locals outputs)
    : (∃ recorded ∈ known, recorded.site.callSiteLocals = locals)
      ∧ ∃ recorded ∈ known, recorded.site.callSiteOutputs = outputs := by
  constructor
  · obtain ⟨site, member, isLocals⟩ :=
      List.mem_map.mp (List.max?_eq_some_iff.mp calls.isLocals).1
    obtain ⟨recorded, isRecorded, rfl⟩ := calls.isKnown site member
    exact ⟨recorded, isRecorded, isLocals⟩
  · obtain ⟨site, member, isOutputs⟩ :=
      List.mem_map.mp (List.max?_eq_some_iff.mp calls.isOutputs).1
    obtain ⟨recorded, isRecorded, rfl⟩ := calls.isKnown site member
    exact ⟨recorded, isRecorded, isOutputs⟩

/-- Called code starts above the registers of its scope and those of all its call sites. -/
theorem Calls.fits (calls : Calls known frames locals outputs)
    (fits : Fits live known state)
    : Fits (live ++ liveAt known frames) []
        { state with csLocals := locals, csOutputs := outputs } := by
  obtain ⟨⟨first, isFirst, rfl⟩, second, isSecond, rfl⟩ := calls.exists_known
  refine
    { live := fun register member => ?_
      known := nofun
      locals := (fits.known first isFirst).maxLocal
      outputs := (fits.known second isSecond).maxOutputs }
  rcases List.mem_append.mp member with inScope | atSite
  · exact (fits.live register inScope).mono (fits.known first isFirst).locals
      (fits.known second isSecond).outputs
  · obtain ⟨recorded, isRecorded, isLive⟩ := List.mem_flatMap.mp atSite
    obtain ⟨isKnown, isFrame⟩ := List.mem_filter.mp isRecorded
    obtain ⟨isLocals, isOutputs⟩ := calls.site_le (of_decide_eq_true isFrame)
    exact ((fits.known recorded isKnown).live register isLive).mono isLocals isOutputs

end Calls

/-- Each step of code keeps registers apart. -/
theorem Runs.apart (runs : Runs gen live known state result after recorded events)
    (fits : Fits live known state)
    : Apart live state after recorded events := by
  induction runs with
  | pure result => exact ⟨⟨.refl _, rfl, rfl⟩, nofun, nofun⟩
  | bind _ _ ihFirst ihSecond =>
      have first := ihFirst fits
      have second := ihSecond (fits.next first)
      refine ⟨first.returns.trans second.returns, fun site member => ?_, fun event member => ?_⟩
      · rcases List.mem_append.mp member with old | new
        · exact (first.recorded site old).mono second.returns.locals.le
            second.returns.outputs.le second.returns.toGrows
        · exact second.recorded site new
      · rcases List.mem_append.mp member with old | new
        · obtain ⟨holds, within⟩ := first.events event old
          exact ⟨holds.mono second.returns.toGrows, within⟩
        · exact second.events event new
  | constant word =>
      refine ⟨⟨⟨le_rfl, le_rfl, intern_prefix word _⟩, rfl, rfl⟩, nofun, fun event member => ?_⟩
      obtain rfl := List.mem_singleton.mp member
      exact ⟨intern_get word _, trivial⟩
  | withLocal _ ih =>
      have enters := enters_locals fits 1
      have inner := ih (enters.fits fits)
      exact enters.apart fits inner rfl inner.returns.outputs ⟨le_rfl, le_rfl, List.prefix_rfl⟩
  | noLocals _ ih => exact ih fits
  | @withLocals _ count _ _ _ _ _ _ _ _ _ ih =>
      have enters := enters_locals fits (count + 1)
      have inner := ih (enters.fits fits)
      exact enters.apart fits inner rfl inner.returns.outputs ⟨le_rfl, le_rfl, List.prefix_rfl⟩
  | noOutputs _ ih => exact ih fits
  | @withOutputs _ count _ _ _ _ _ _ _ _ _ ih =>
      have enters := enters_outputs fits (count + 1)
      have inner := ih (enters.fits fits)
      exact enters.apart fits inner inner.returns.locals rfl ⟨le_rfl, le_rfl, List.prefix_rfl⟩
  | callSite =>
      refine ⟨⟨.refl _, rfl, rfl⟩, fun site member => ?_, nofun⟩
      obtain rfl := List.mem_singleton.mp member
      exact ⟨le_rfl, le_rfl, fits.locals, fits.outputs, fits.live⟩
  | calledFrom isKnown isLocals isOutputs _ ih =>
      have calls := Calls.mk isKnown isLocals isOutputs
      have inner := ih (calls.fits fits)
      obtain ⟨⟨first, isFirst, sameLocals⟩, second, isSecond, sameOutputs⟩ := calls.exists_known
      exact inner.leave (List.subset_append_left _ _) ⟨le_rfl, le_rfl, List.prefix_rfl⟩
        ((fits.known first isFirst).locals.trans sameLocals.le)
        ((fits.known second isSecond).outputs.trans sameOutputs.le) rfl rfl
        ⟨le_rfl, le_rfl, List.prefix_rfl⟩

/-- Nothing has been taken but the inputs. -/
theorem fits_start (inputSize : Nat) : Fits (inputs inputSize) [] (.start inputSize) where
  live := by
    intro register member
    obtain ⟨index, isIndex, rfl⟩ := List.mem_map.mp member
    exact List.mem_range.mp isIndex
  known := nofun
  locals := le_rfl
  outputs := le_rfl

@[simp]
theorem Alloc.number_input (index : Nat) : state.number (.input index) = index := rfl

@[simp]
theorem Alloc.number_constant (index : Nat)
    : state.number (.constant index) = index + state.csMaxOutputs := rfl

@[simp]
theorem Alloc.number_local (index : Nat)
    : state.number (.local index) = index + state.csMaxOutputs + state.csConstants.length := rfl

/-- Declared registers have numbers of their own, within what is declared. -/
theorem Alloc.number_inj {first second : Register} (isFirst : state.Declares first)
    (isSecond : state.Declares second) (same : state.number first = state.number second)
    : first = second := by
  cases first with
  | input index =>
      replace isFirst : index < state.csMaxOutputs := isFirst
      cases second with
      | input other => exact congrArg Register.input same
      | constant other =>
          simp only [number_input, number_constant] at same
          omega
      | «local» other =>
          simp only [number_input, number_local] at same
          omega
  | constant index =>
      replace isFirst : index < state.csConstants.length := isFirst
      cases second with
      | input other =>
          replace isSecond : other < state.csMaxOutputs := isSecond
          simp only [number_input, number_constant] at same
          omega
      | constant other => exact congrArg Register.constant (Nat.add_right_cancel same)
      | «local» other =>
          simp only [number_constant, number_local] at same
          omega
  | «local» index =>
      cases second with
      | input other =>
          replace isSecond : other < state.csMaxOutputs := isSecond
          simp only [number_input, number_local] at same
          omega
      | constant other =>
          replace isSecond : other < state.csConstants.length := isSecond
          simp only [number_constant, number_local] at same
          omega
      | «local» other =>
          exact congrArg Register.local (Nat.add_right_cancel (Nat.add_right_cancel same))

theorem Alloc.number_lt {register : Register} (declares : state.Declares register)
    : state.number register < state.csMaxOutputs + state.declaredLocals := by
  cases register with
  | input index => exact Nat.lt_add_right _ declares
  | constant index =>
      replace declares : index < state.csConstants.length := declares
      simp only [number_constant, declaredLocals]
      omega
  | «local» index =>
      replace declares : index < state.csMaxLocal := declares
      simp only [number_local, declaredLocals]
      omega

end Glean.Bytecode.Scopes
