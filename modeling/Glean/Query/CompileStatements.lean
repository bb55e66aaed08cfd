import Glean.Bytecode.Scopes
import Glean.Query.Flat

/-! The registers of the code for statements (`Query/Codegen.hs`, `compileStatements`).

The code of negations and disjunctions is that of the source without its instructions and labels.
-/

namespace Glean.Schema

open Bytecode Bytecode.Scopes

/-- `CgStatement` -/
inductive CgStatement where
  | cgStatement (pat : Pat) (gen : Generator)
  | cgNegation (stmts : List CgStatement)
  | cgDisjunction (alts : List (List CgStatement))

/-- Code that takes registers for its own use. -/
inductive Plain where
  | done
  | andThen (first second : Plain)
  | constant (word : Nat) (next : Register → Plain)
  | withLocal (body : Register → Plain)
  | withLocals (count : Nat) (body : List Register → Plain)
  | withOutputs (count : Nat) (body : List Register → Plain)

/-- Code that runs the code that follows a statement, within some scopes. -/
inductive Around where
  | inner
  | before (first : Plain) (next : Around)
  | after (first : Around) (next : Plain)
  | constant (word : Nat) (next : Register → Around)
  | withLocal (body : Register → Around)
  | withLocals (count : Nat) (body : List Register → Around)
  | withOutputs (count : Nat) (body : List Register → Around)

def Plain.gen : Plain → Gen Unit
  | .done => pure ()
  | .andThen first second => do
      first.gen
      second.gen
  | .constant word next => do
      let register ← Scopes.constant word
      (next register).gen
  | .withLocal body => Scopes.withLocal fun register => (body register).gen
  | .withLocals count body => Scopes.withLocals count fun registers => (body registers).gen
  | .withOutputs count body => Scopes.withOutputs count fun registers => (body registers).gen

def Around.fill {α : Type} (inner : Gen α) : Around → Gen α
  | .inner => inner
  | .before first next => do
      first.gen
      next.fill inner
  | .after first next => do
      let result ← first.fill inner
      next.gen
      return result
  | .constant word next => do
      let register ← Scopes.constant word
      (next register).fill inner
  | .withLocal body => Scopes.withLocal fun register => (body register).fill inner
  | .withLocals count body =>
      Scopes.withLocals count fun registers => (body registers).fill inner
  | .withOutputs count body =>
      Scopes.withOutputs count fun registers => (body registers).fill inner

/-- The code of some statements, for the code that follows them -/
abbrev Following : Type 1 := (α : Type) → Gen α → Gen α

/-- The code of alternatives, each of which ends with a call -/
def callSites : List Following → Gen (List CallSite)
  | [] => pure []
  | alt :: alts => do
      let site ← alt CallSite callSite
      let sites ← callSites alts
      return site :: sites

/-- `compile` of a disjunction. What follows is called from the end of each alternative, with the
address to return to in a register.
-/
def compileDisjunction (alts : List Following) : Following :=
  fun α rest =>
    match alts with
    | [] => rest
    | [one] => one α rest
    | _ =>
        withLocal fun _innerRet => do
          let sites ← callSites alts
          calledFrom sites rest

section Compile

variable (compileGen : Pat → Generator → Around)

mutual

def compileStatement : CgStatement → Following
  | .cgStatement pat gen => fun _ rest => (compileGen pat gen).fill rest
  | .cgNegation stmts => fun _ rest => do
      withLocal fun _seekLevel => compileStatements stmts Unit (pure ())
      rest
  | .cgDisjunction alts => compileDisjunction (compileAlts alts)

/-- `compileStatements` -/
def compileStatements : List CgStatement → Following
  | [] => fun _ andThen => andThen
  | stmt :: stmts => fun α andThen => compileStatement stmt α (compileStatements stmts α andThen)

def compileAlts : List (List CgStatement) → List Following
  | [] => []
  | stmts :: alts => compileStatements stmts :: compileAlts alts

end

end Compile

/-- In any scope the code has a run whose result is found among the call sites that it records. -/
def Gives {α : Type} (found : α → List Recorded → Prop) (gen : Gen α) : Prop :=
  ∀ live known state, ∃ result after recorded events,
    Runs gen live known state result after recorded events ∧ found result recorded

/-- More call sites do no harm. -/
def Monotone {α : Type} (found : α → List Recorded → Prop) : Prop :=
  ∀ result recorded more, recorded ⊆ more → found result recorded → found result more

section Gives

variable {α : Type} {found : α → List Recorded → Prop} {inner : Gen α}

theorem Gives.bind {β : Type} {first : Gen β} {next : β → Gen α} {foundFirst : β → List Recorded → Prop}
    (monotone : Monotone found) (gives : Gives foundFirst first)
    (givesNext : ∀ result, Gives found (next result))
    : Gives found (first >>= next) := by
  intro live known state
  obtain ⟨result, after, recorded, events, runs, -⟩ := gives live known state
  obtain ⟨final, last, more, others, runsNext, isFound⟩ :=
    givesNext result live (known ++ recorded) after
  exact ⟨final, last, _, _, .bind runs runsNext,
    monotone final more _ (List.subset_append_right _ _) isFound⟩

theorem gives_withLocal {body : Register → Gen α} (gives : ∀ register, Gives found (body register))
    : Gives found (withLocal body) := by
  intro live known state
  obtain ⟨result, after, recorded, events, runs, isFound⟩ := gives _ _ [] _
  exact ⟨result, _, recorded, _, .withLocal runs, isFound⟩

theorem gives_withLocals {body : List Register → Gen α} {count : Nat}
    (gives : ∀ registers, Gives found (body registers))
    : Gives found (withLocals count body) := by
  intro live known state
  cases count with
  | zero =>
      obtain ⟨result, after, recorded, events, runs, isFound⟩ := gives [] live known state
      exact ⟨result, after, recorded, events, .noLocals runs, isFound⟩
  | succ count =>
      obtain ⟨result, after, recorded, events, runs, isFound⟩ := gives _ _ [] _
      exact ⟨result, _, recorded, _, .withLocals runs, isFound⟩

theorem gives_withOutputs {body : List Register → Gen α} {count : Nat}
    (gives : ∀ registers, Gives found (body registers))
    : Gives found (withOutputs count body) := by
  intro live known state
  cases count with
  | zero =>
      obtain ⟨result, after, recorded, events, runs, isFound⟩ := gives [] live known state
      exact ⟨result, after, recorded, events, .noOutputs runs, isFound⟩
  | succ count =>
      obtain ⟨result, after, recorded, events, runs, isFound⟩ := gives _ _ [] _
      exact ⟨result, _, recorded, _, .withOutputs runs, isFound⟩

/-- Nothing is asked of the result. -/
def Anything {α : Type} (_ : α) (_ : List Recorded) : Prop := True

theorem monotone_anything {α : Type} : Monotone (Anything (α := α)) :=
  fun _ _ _ _ _ => trivial

theorem gives_pure (result : α) : Gives Anything (pure result : Gen α) :=
  fun _ _ state => ⟨result, state, [], [], .pure result, trivial⟩

theorem gives_constant (word : Nat) : Gives Anything (Scopes.constant word) :=
  fun _ _ _ => ⟨_, _, _, _, .constant word, trivial⟩

theorem Plain.gives (plain : Plain) : Gives Anything plain.gen := by
  induction plain with
  | done => exact gives_pure ()
  | andThen first second ihFirst ihSecond =>
      exact ihFirst.bind monotone_anything fun _ => ihSecond
  | constant word next ih => exact (gives_constant word).bind monotone_anything ih
  | withLocal body ih => exact gives_withLocal ih
  | withLocals count body ih => exact gives_withLocals ih
  | withOutputs count body ih => exact gives_withOutputs ih

/-- The result of the code inside is the result. -/
theorem Around.gives (monotone : Monotone found) (gives : Gives found inner) (around : Around)
    : Gives found (around.fill inner) := by
  induction around with
  | inner => exact gives
  | before first next ih => exact first.gives.bind monotone fun _ => ih
  | after first next ih =>
      intro live known state
      obtain ⟨result, after, recorded, events, runs, isFound⟩ := ih live known state
      obtain ⟨_, last, more, others, runsNext, -⟩ :=
        next.gives live (known ++ recorded) after
      refine ⟨result, last, _, _, .bind runs (.bind runsNext (.pure result)), ?_⟩
      exact monotone result recorded _ (List.subset_append_left _ _) isFound
  | constant word next ih => exact (gives_constant word).bind monotone ih
  | withLocal body ih => exact gives_withLocal ih
  | withLocals count body ih => exact gives_withLocals ih
  | withOutputs count body ih => exact gives_withOutputs ih

end Gives

/-- The call site is recorded. -/
def IsRecorded (site : CallSite) (recorded : List Recorded) : Prop :=
  ∃ entry ∈ recorded, entry.site = site

/-- There is a recorded call site for each alternative. -/
def AllRecorded (count : Nat) (sites : List CallSite) (recorded : List Recorded) : Prop :=
  sites.length = count ∧ ∀ site ∈ sites, IsRecorded site recorded

/-- The code of statements has a run when the code that follows has one. -/
def Wraps (code : Following) : Prop :=
  ∀ {α : Type} {found : α → List Recorded → Prop} {inner : Gen α}, Monotone found →
    Gives found inner → Gives found (code α inner)

theorem monotone_isRecorded : Monotone IsRecorded := by
  intro site recorded more subset isRecorded
  obtain ⟨entry, member, same⟩ := isRecorded
  exact ⟨entry, subset member, same⟩

theorem gives_callSite : Gives IsRecorded callSite :=
  fun _ _ _ => ⟨_, _, _, _, .callSite, _, List.mem_singleton.mpr rfl, rfl⟩

theorem callSites_gives {alts : List Following} (wraps : ∀ alt ∈ alts, Wraps alt)
    : Gives (AllRecorded alts.length) (callSites alts) := by
  induction alts with
  | nil => exact fun _ _ state => ⟨[], state, [], [], .pure [], rfl, nofun⟩
  | cons alt alts ih =>
      intro live known state
      obtain ⟨site, after, recorded, events, runs, isRecorded⟩ :=
        wraps alt List.mem_cons_self monotone_isRecorded gives_callSite live known state
      obtain ⟨sites, last, more, others, runsAlts, sameLength, allRecorded⟩ :=
        ih (fun other member => wraps other (List.mem_cons_of_mem _ member)) live
          (known ++ recorded) after
      refine ⟨site :: sites, last, _, _, .bind runs (.bind runsAlts (.pure (site :: sites))),
        congrArg (· + 1) sameLength, fun other member => ?_⟩
      rcases List.mem_cons.mp member with rfl | later
      · exact monotone_isRecorded _ _ _ (List.subset_append_left _ _) isRecorded
      · refine monotone_isRecorded _ _ _ (fun entry isEntry => ?_) (allRecorded other later)
        exact List.mem_append_right _ (List.mem_append_left _ isEntry)

/-- Code that is called from recorded sites -/
theorem gives_calledFrom {α : Type} {found : α → List Recorded → Prop} {count : Nat}
    {alts : Gen (List CallSite)} {rest : Gen α} (monotone : Monotone found)
    (givesAlts : Gives (AllRecorded (count + 1)) alts) (givesRest : Gives found rest)
    : Gives found (alts >>= fun sites => calledFrom sites rest) := by
  intro live known state
  obtain ⟨sites, after, recorded, events, runs, hasAll, allRecorded⟩ := givesAlts live known state
  have exists_max (field : CallSite → Nat) : ∃ largest, (sites.map field).max? = some largest := by
    cases sites with
    | nil => cases hasAll
    | cons site sites => exact ⟨_, rfl⟩
  obtain ⟨locals, isLocals⟩ := exists_max CallSite.callSiteLocals
  obtain ⟨outputs, isOutputs⟩ := exists_max CallSite.callSiteOutputs
  obtain ⟨result, last, more, others, runsRest, isFound⟩ :=
    givesRest (live ++ liveAt (known ++ recorded) sites) []
      { after with csLocals := locals, csOutputs := outputs }
  have isKnown : ∀ site ∈ sites, ∃ entry ∈ known ++ recorded, entry.site = site := by
    intro site member
    obtain ⟨entry, isEntry, same⟩ := allRecorded site member
    exact ⟨entry, List.mem_append_right _ isEntry, same⟩
  exact ⟨result, _, _, _, .bind runs (.calledFrom isKnown isLocals isOutputs runsRest),
    monotone result more _ (List.subset_append_right _ _) isFound⟩

theorem compileDisjunction_wraps {alts : List Following} (wraps : ∀ alt ∈ alts, Wraps alt)
    : Wraps (compileDisjunction alts) := by
  intro α found inner monotone gives
  cases alts with
  | nil => exact gives
  | cons one alts =>
      cases alts with
      | nil => exact wraps one List.mem_cons_self monotone gives
      | cons two alts =>
          exact gives_withLocal fun _ => gives_calledFrom monotone (callSites_gives wraps) gives

section Compile

variable (compileGen : Pat → Generator → Around)

mutual

theorem compileStatement_wraps (stmt : CgStatement)
    : Wraps (compileStatement compileGen stmt) := by
  intro α found rest monotone gives
  cases stmt with
  | cgStatement pat gen => exact Around.gives monotone gives (compileGen pat gen)
  | cgNegation stmts =>
      have inner := compileStatements_wraps stmts monotone_anything (gives_pure ())
      exact (gives_withLocal fun _ => inner).bind monotone fun _ => gives
  | cgDisjunction alts => exact compileDisjunction_wraps (compileAlts_wraps alts) monotone gives

theorem compileStatements_wraps (stmts : List CgStatement)
    : Wraps (compileStatements compileGen stmts) := by
  intro α found andThen monotone gives
  cases stmts with
  | nil => exact gives
  | cons stmt stmts =>
      exact compileStatement_wraps stmt monotone (compileStatements_wraps stmts monotone gives)

theorem compileAlts_wraps (alts : List (List CgStatement))
    : ∀ alt ∈ compileAlts compileGen alts, Wraps alt := by
  cases alts with
  | nil => exact fun alt member => absurd member List.not_mem_nil
  | cons stmts alts =>
      intro alt member
      rcases List.mem_cons.mp member with rfl | later
      · exact compileStatements_wraps stmts
      · exact compileAlts_wraps alts alt later

end

end Compile

end Glean.Schema
