import Mathlib.Logic.Function.Basic
import Glean.Database.Types
import Glean.Library.Machine

/-! Deriving a stored predicate (`Glean.Query.Derive`, `Glean.Database.Writes`): the workers
that query pages and enqueue the derived facts, the writer threads, and the checkpoint that
finishes the derivation. Each event is one transaction or one action of a thread.
-/

namespace Glean.Query

open Glean.Database

structure UserQueryStats where
  numFacts : Nat
  elapsedNs : Nat
  allocatedBytes : Nat
  factsSearched : Option (Nat → Option Nat)
  compileTimeNs : Option Nat
  bytecodeSize : Option Nat
  executeTimeNs : Option Nat
  resultCount : Nat

/-- `liftA2 (+) (f a) (f b) <|> f a <|> f b` -/
def addMaybe (left right : Option Nat) : Option Nat :=
  match left, right with
  | some x, some y => some (x + y)
  | some x, none => some x
  | none, right => right

/-- The size of the bytecode does not accumulate, the last one is taken. -/
def mergeStats (old new : UserQueryStats) : UserQueryStats :=
  { new with
      compileTimeNs := addMaybe old.compileTimeNs new.compileTimeNs
      numFacts := old.numFacts + new.numFacts
      allocatedBytes := old.allocatedBytes + new.allocatedBytes
      factsSearched :=
        match old.factsSearched, new.factsSearched with
        | some left, some right => some (fun id => (left id).or (right id))
        | some left, none => some left
        | none, right => right
      executeTimeNs := addMaybe old.executeTimeNs new.executeTimeNs
      resultCount := old.resultCount + new.resultCount }

structure Derivation where
  start : Nat
  queryingFinished : Bool
  stats : UserQueryStats
  pendingWrites : List Handle
  error : Option (Nat × SomeException)
  handle : Handle

def newDerivation (now : Nat) (handle : Handle) : Derivation where
  start := now
  queryingFinished := false
  stats := ⟨0, 0, 0, none, none, none, none, 0⟩
  pendingWrites := []
  error := none
  handle := handle

def isFinished (derivation : Derivation) : Bool :=
  derivation.error.isSome
    || (derivation.queryingFinished && derivation.pendingWrites.isEmpty)

def insertUnique (pred : PredicateRef) (preds : List PredicateRef) : List PredicateRef :=
  pred :: preds.filter (fun other => other ≠ pred)

def showError (error : Nat × SomeException) : String :=
  "(" ++ toString error.1 ++ "," ++ error.2.show ++ ")"

/-- What `save` does to the catalog. -/
def save (pred : PredicateRef) (derivation : Derivation) (metadata : Meta) : Meta :=
  match derivation.error with
  | some error =>
      { metadata with
          completeness := .broken ("derivation of " ++ showPredicateRef pred) (showError error) }
  | none =>
      if isFinished derivation then
        { metadata with
            completePredicates := insertUnique pred metadata.completePredicates }
      else
        metadata

/-- The update of `addProgress`: `more` is whether the page has a continuation. -/
def progress (stats : UserQueryStats) (more : Bool) (written : Option Handle)
    (derivation : Derivation) : Derivation :=
  { derivation with
      queryingFinished := !more
      stats := mergeStats derivation.stats stats
      pendingWrites := written.toList ++ derivation.pendingWrites }

/-- The content of a write's `MVar`; substitutions are left out. -/
abbrev WriteResult := Except SomeException Unit

/-- A remembered write. -/
structure Write where
  timeout : Nat

inductive FinishResponse where
  | subst
  | retry

/-- `pollBatch`: the response for a handle and the writes remembered afterwards. -/
def pollBatch (timeout : Nat) (writes : Handle → Option Write)
    (results : Handle → Option WriteResult) (handle : Handle)
    : Except SomeException FinishResponse × (Handle → Option Write) :=
  match writes handle with
  | none => (.error .unknownBatchHandle, writes)
  | some _ =>
      match results handle with
      | some result =>
          let forgotten := Function.update writes handle none
          match result with
          | .ok _ => (.ok .subst, forgotten)
          | .error (.retry _) => (.ok .retry, forgotten)
          | .error exception => (.error exception, forgotten)
      | none => (.ok .retry, Function.update writes handle (some ⟨timeout⟩))

/-- What `isWriteFinished` makes of the response; an unknown handle counts as finished. -/
def isWriteFinished : Except SomeException FinishResponse → Except SomeException Bool
  | .ok .subst => .ok true
  | .ok .retry => .ok false
  | .error .unknownBatchHandle => .ok true
  | .error exception => .error exception

/-- `map fst . filter snd <$> sequence results` -/
def finishedWrites (results : List (Handle × Except SomeException Bool))
    : Except SomeException (List Handle) :=
  (results.mapM (fun result : Handle × Except SomeException Bool =>
    result.2.map (fun finished => (result.1, finished)))).map
      (fun polled => (polled.filter Prod.snd).map Prod.fst)

/-- The update of `finishDerivation`. -/
def withProgress (now : Nat) (finished : Except SomeException (List Handle))
    (derivation : Derivation) : Derivation :=
  let pendingWrites :=
    derivation.pendingWrites.diff
      (match finished with
        | .ok handles => handles
        | .error _ => [])
  { derivation with
      pendingWrites := pendingWrites
      error :=
        derivation.error.or
          ((match finished with
              | .error exception => some (now, exception)
              | .ok _ => none).or
            (if pendingWrites.isEmpty then none else some (now, .finishedWithPendingWrites)))
      stats := { derivation.stats with elapsedNs := now - derivation.start } }

/-- `reapWrites` -/
def reapWrites (now : Nat) (writes : Handle → Option Write) : Handle → Option Write :=
  fun handle => (writes handle).filter (fun write => now < write.timeout)

/-- A worker of `runDerivation` on its batch. -/
inductive Worker where
  /-- About to execute the next page. -/
  | querying
  /-- `writeDerivedFacts` has enqueued the facts of a page and not yet remembered the write. -/
  | enqueued (stats : UserQueryStats) (more : Bool) (handle : Handle)
  /-- `userQueryWrites` has returned; `addProgress` is next. -/
  | answered (stats : UserQueryStats) (more : Bool) (written : Option Handle)
  | finished
  | failed

/-- The derivation itself: `runDerivation`, then the checkpoint with `finishDerivation`. -/
inductive Phase where
  | running
  /-- `runDerivation` has returned; `enqueueCheckpoint` is next. -/
  | returned
  /-- `onErr` has recorded an exception. -/
  | failed
  | waiting
  /-- A writer thread runs the checkpoint. -/
  | checkpoint
  | polling (todo : List Handle) (results : List (Handle × Except SomeException Bool))
  /-- All writes were polled; `finishOwnership` is next where there was no error. -/
  | polled (finished : Except SomeException (List Handle))
  /-- The second half of `finishDerivation`. -/
  | owned (finished : Except SomeException (List Handle))
  | ended
  /-- `finishOwnership` threw, which the writer thread logs. -/
  | abandoned

/-- The jobs of the write queue; a write is named by its handle. -/
inductive WriteJob where
  | write (handle : Handle)
  /-- The checkpoint of this derivation. -/
  | checkpoint
  | otherCheckpoint
  deriving DecidableEq

/-- A derivation with the part of the server it works with. `executing` are the writes that
`writeQueueActive` counts; `issued` are the writes the pages have enqueued so far.
-/
structure State where
  pred : PredicateRef
  now : Nat
  writesKeep : Nat
  metadata : Meta
  derivation : Derivation
  producing : Bool
  workers : List Worker
  phase : Phase
  queue : List WriteJob
  executing : List Handle
  results : Handle → Option WriteResult
  writes : Handle → Option Write
  issued : List Handle

namespace State

/-- `overDerivation` -/
def overDerivation (state : State) (update : Derivation → Derivation) : State :=
  { state with
      metadata := save state.pred (update state.derivation) state.metadata
      derivation := update state.derivation }

def setWorker (state : State) (index : Nat) (worker : Worker) : State :=
  { state with workers := state.workers.set index worker }

/-- A handle that `UUID.nextRandom` may return. -/
def Fresh (state : State) (handle : Handle) : Prop :=
  .write handle ∉ state.queue ∧ handle ∉ state.executing ∧ (state.results handle).isNone
    ∧ (state.writes handle).isNone ∧ handle ∉ state.issued

instance (state : State) (handle : Handle) : Decidable (state.Fresh handle) :=
  inferInstanceAs (Decidable (_ ∧ _))

def AllFinished (state : State) : Prop :=
  state.producing = false ∧ ∀ worker ∈ state.workers, worker = .finished

end State

def Worker.isFinished : Worker → Bool
  | .finished => true
  | _ => false

inductive Event where
  /-- The producer of a parallel derivation starts a worker on another batch. -/
  | startBatch
  | producerDone
  /-- A page that derives no facts. -/
  | page (worker : Nat) (stats : UserQueryStats) (more : Bool)
  | pageWrites (worker : Nat) (stats : UserQueryStats) (more : Bool) (handle : Handle)
  | rememberWrite (worker : Nat)
  | addProgress (worker : Nat)
  | workerFails (worker : Nat)
  /-- An exception reaches `onErr`. -/
  | onErr (exception : SomeException)
  | runDerivationReturns
  | enqueueCheckpoint
  | getDerivation
  | poll
  | finishOwnership (ok : Bool)
  | finishDerivation
  /-- A writer thread takes the first job. -/
  | dequeue
  | complete (handle : Handle) (result : WriteResult)
  | done (handle : Handle)
  | reap
  | tick
  /-- Another client's write, which may be remembered. -/
  | otherWrite (handle : Handle) (remember : Bool)
  | otherCheckpoint
  /-- Another thread changes the metadata, without a word on this predicate. -/
  | otherMeta (completeness : Completeness) (completed : List PredicateRef)

open State in
def step (state : State) : Event → Option State
  | .startBatch =>
      if state.producing then
        some { state with workers := state.workers ++ [.querying] }
      else
        none
  | .producerDone =>
      if state.producing then some { state with producing := false } else none
  | .page index stats more =>
      match state.workers[index]? with
      | some .querying => some (state.setWorker index (.answered stats more none))
      | _ => none
  | .pageWrites index stats more handle =>
      match state.workers[index]? with
      | some .querying =>
          if state.Fresh handle then
            some { state.setWorker index (.enqueued stats more handle) with
              queue := state.queue ++ [.write handle]
              issued := state.issued ++ [handle] }
          else
            none
      | _ => none
  | .rememberWrite index =>
      match state.workers[index]? with
      | some (.enqueued stats more handle) =>
          some { state.setWorker index (.answered stats more (some handle)) with
            writes :=
              Function.update state.writes handle (some ⟨state.now + state.writesKeep⟩) }
      | _ => none
  | .addProgress index =>
      match state.workers[index]? with
      | some (.answered stats more written) =>
          some ((state.setWorker index (if more then .querying else .finished)).overDerivation
            (progress stats more written))
      | _ => none
  | .workerFails index =>
      match state.workers[index]? with
      | some .finished => none
      | some _ => some (state.setWorker index .failed)
      | none => none
  | .onErr exception =>
      match state.phase with
      | .running | .returned =>
          some ({ state with phase := .failed }.overDerivation
            (fun derivation => { derivation with error := some (state.now, exception) }))
      | _ => none
  | .runDerivationReturns =>
      match state.phase with
      | .running =>
          if !state.producing && state.workers.all Worker.isFinished then
            some { state with phase := .returned }
          else
            none
      | _ => none
  | .enqueueCheckpoint =>
      match state.phase with
      | .returned =>
          some { state with phase := .waiting, queue := state.queue ++ [.checkpoint] }
      | _ => none
  | .getDerivation =>
      match state.phase with
      | .checkpoint => some { state with phase := .polling state.derivation.pendingWrites [] }
      | _ => none
  | .poll =>
      match state.phase with
      | .polling (handle :: todo) results =>
          let polled :=
            pollBatch (state.now + state.writesKeep) state.writes state.results handle
          some { state with
            phase := .polling todo (results ++ [(handle, isWriteFinished polled.1)])
            writes := polled.2 }
      | .polling [] results => some { state with phase := .polled (finishedWrites results) }
      | _ => none
  | .finishOwnership ok =>
      match state.phase with
      | .polled finished =>
          -- `finishOwnership` runs where no error was found
          if state.derivation.error.isNone && finished.isOk && !ok then
            some { state with phase := .abandoned }
          else
            some { state with phase := .owned finished }
      | _ => none
  | .finishDerivation =>
      match state.phase with
      | .owned finished =>
          some ({ state with phase := .ended }.overDerivation (withProgress state.now finished))
      | _ => none
  | .dequeue =>
      match state.queue with
      | [] => none
      | .write handle :: rest =>
          some { state with queue := rest, executing := handle :: state.executing }
      | .checkpoint :: rest =>
          if state.executing = [] then
            some { state with queue := rest, phase := .checkpoint }
          else
            none
      | .otherCheckpoint :: rest =>
          if state.executing = [] then some { state with queue := rest } else none
  | .complete handle result =>
      if handle ∈ state.executing ∧ (state.results handle).isNone then
        some { state with results := Function.update state.results handle (some result) }
      else
        none
  | .done handle =>
      if handle ∈ state.executing ∧ (state.results handle).isSome then
        some { state with executing := state.executing.erase handle }
      else
        none
  | .reap => some { state with writes := reapWrites state.now state.writes }
  | .tick => some { state with now := state.now + 1 }
  | .otherWrite handle remember =>
      if state.Fresh handle then
        some { state with
          queue := state.queue ++ [.write handle]
          writes :=
            if remember then
              Function.update state.writes handle (some ⟨state.now + state.writesKeep⟩)
            else
              state.writes }
      else
        none
  | .otherCheckpoint => some { state with queue := state.queue ++ [.otherCheckpoint] }
  | .otherMeta completeness completed =>
      if state.pred ∈ completed ↔ state.pred ∈ state.metadata.completePredicates then
        some { state with metadata := ⟨completeness, completed⟩ }
      else
        none

/-- The state in which `deriveStoredImpl` has just saved a new derivation of a predicate that
is not complete. A sequential derivation is one worker, a parallel one starts its workers.
-/
structure Starts (state : State) : Prop where
  derivation : ∃ now handle, state.derivation = newDerivation now handle
  workers
    : (state.producing = false ∧ state.workers = [.querying])
      ∨ (state.producing = true ∧ state.workers = [])
  phase : state.phase = .running
  queue : .checkpoint ∉ state.queue
  issued : state.issued = []
  incomplete : state.pred ∉ state.metadata.completePredicates

end Glean.Query
