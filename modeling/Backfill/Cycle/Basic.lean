import Backfill.ImportState.Store
import Backfill.Plan.Choice
import Backfill.Product.Basic
import Backfill.Settings
import Backfill.Sorting
import Backfill.Trace
import Backfill.Transfer

/-!
# Cycles

A cycle takes some products through fixed stages: collect them, find the head of the chain, decide
which ranges each product wants, plan queries, send them, load what they bring, and fold the
outcomes into the import states. It can be called off before any stage after the first, and then
folds nothing.

What runs concurrently may end in any order. The order is given from outside, so that a statement
about all cycles is one about all orders.
-/
namespace Backfill

/-- Mirrors `CycleStage`. -/
inductive CycleStage where
  | idle
  | collect
  | frontier
  | ranges
  | plan
  | dispatch
  | load
  | reconcile
  | done
  deriving DecidableEq, Repr

/-- What a runner remembers of its cycles: `Runner::stage`, `Runner::last_imported` and the gauge of
products. -/
structure Progress (α : Type) where
  stage : CycleStage := .idle
  /-- The highest position imported so far. -/
  lastImported : Option α := none
  /-- How many products the last cycle was about. -/
  products : Nat := 0

/-- What became of one range of one product. Mirrors `ImportRangeResult` and `SnapshotResult`. -/
structure ImportRangeResult (α : Type) where
  key : String
  range : Range α
  success : Bool
  /-- The block that the result is about: the head of the chain, or the block that was sampled. -/
  block : BlockNumber
  deriving DecidableEq

/-- Mirrors `ImportRangeResult::outcome`. -/
def ImportRangeResult.outcome {α : Type} (r : ImportRangeResult α) : RangeOutcome α :=
  ⟨r.range, r.success⟩

/-- An order in which things end that run concurrently. -/
structure Arrangement (β : Type) where
  order : List β → List β
  perm : ∀ xs, (order xs).Perm xs

def Arrangement.inOrder {β : Type} : Arrangement β := ⟨id, fun _ => .refl _⟩

/-- Tells from what has been done whether a cycle is called off. -/
abbrev Cancellation := Trace → Bool

/-- Mirrors `CancellationToken`: tells stage by stage whether a cycle is called off before it. The
six answers of one cycle need not have anything to do with one another, nor with what was done in
between: a cycle is called off from outside. -/
abbrev CancellationToken := CycleStage → Cancellation

/-! ## The state of a runner -/

/-- What the cycles of a runner work on: its own progress, an import-state store, a record sink, and
the trace of all that was done. -/
structure RunnerState (α σ ρ : Type) where
  progress : Progress α := {}
  states : σ
  records : ρ
  trace : Trace := []

/-- What `run_cycle` returns: results, or a fault. A cycle that is called off has no results. -/
abbrev Ending (α : Type) := Except ImportError (List (ImportRangeResult α))

namespace RunnerState

variable {α σ ρ : Type}

def reach (b : RunnerState α σ ρ) (stage : CycleStage) : RunnerState α σ ρ :=
  { b with progress := { b.progress with stage } }

def log (b : RunnerState α σ ρ) (events : Trace) : RunnerState α σ ρ :=
  { b with trace := b.trace ++ events }

def about (b : RunnerState α σ ρ) (products : Nat) : RunnerState α σ ρ :=
  { b with progress := { b.progress with products } }

/-- Mirrors `Runner::advance`: goes on with a stage unless the cycle is called off. -/
def enter (b : RunnerState α σ ρ) (cancelled : Cancellation) (stage : CycleStage)
    (go : RunnerState α σ ρ → Ending α × RunnerState α σ ρ) : Ending α × RunnerState α σ ρ :=
  if cancelled b.trace then (.ok [], b) else go (b.reach stage)

end RunnerState

/-! ## Collecting products -/

def Product.byKey (ps : List Product) : List Product :=
  sortBy (fun p q => decide (p.key ≤ q.key)) ps

/-- The keys that occur more than once in a list in which equal ones are neighbours, each once. -/
def repeatedNeighbours : List String → List String
  | a :: b :: rest =>
    let more := repeatedNeighbours (b :: rest)
    if a = b then if more.head? = some a then more else a :: more else more
  | _ => []

/-- The products on a chain, in the order of their keys, if no two have one key.
Mirrors `collect`. -/
def Product.collect (chain : Chain) (ps : List Product) : Except Plan.Fault (List Product) :=
  let ps := Product.byKey (ps.filter (·.chain = chain))
  match repeatedNeighbours (ps.map (·.key)) with
  | [] => .ok ps
  | keys => .error (.duplicateProducts keys)

/-! ## Folding results -/

namespace Cycle

variable {α σ ρ : Type} [Axis α] [ImportStateStore σ α]

def outcomesOf (key : String) (results : List (ImportRangeResult α)) : List (RangeOutcome α) :=
  (results.filter (·.key = key)).map ImportRangeResult.outcome

/-- The highest position imported when some more results are in. -/
def furthest (last : Option α) (results : List (ImportRangeResult α)) : Option α :=
  ((results.filter (·.success)).map (·.range.last)).foldl
    (fun last b => some (match last with
      | none => b
      | some a => Axis.greatest a b)) last

/-- The updates of the import-state store that `Runner::reconcile` makes, product by product. -/
def updateStates (now : UInt64) (stateKey : Product → String)
    (results : List (ImportRangeResult α)) :
    List Product → σ → σ × Trace
  | [], states => (states, [])
  | p :: ps, states =>
    match outcomesOf p.key results with
    | [] => updateStates now stateKey results ps states
    | outcomes =>
      let key := stateKey p
      match ImportStateStore.update states key (ImportState.applyResults now · outcomes) with
      | .ok (_, states) =>
        let (states, trace) := updateStates now stateKey results ps states
        (states, .call (.stateUpdate key) :: trace)
      | .error fault =>
        let (states, trace) := updateStates now stateKey results ps states
        (states,
          .call (.stateUpdate key) :: .report (.importState p.key) (.store fault) :: trace)

/-- Folds results into the progress and, when history is imported, into the import states. Mirrors
`Runner::reconcile`. -/
def reconcile (mode : ImportMode) (now : UInt64) (stateKey : Product → String)
    (products : List Product) (results : List (ImportRangeResult α)) (b : RunnerState α σ ρ) :
    RunnerState α σ ρ :=
  let b := b.log
    [.count .rangesCovered (results.countP (·.success)),
     .count .rangesRequeued (results.countP (!·.success))]
  let b := { b with
    progress := { b.progress with lastImported := furthest b.progress.lastImported results } }
  match mode with
  | .recent => b
  | .historical =>
    let (states, trace) := updateStates now stateKey results products b.states
    { b with states }.log trace

end Cycle
end Backfill
