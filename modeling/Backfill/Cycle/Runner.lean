import Backfill.Cycle.FetchedRange
import Backfill.RangeContext

/-!
# The runner for positions

One cycle imports the transfers of products over ranges of blocks.
-/
namespace Backfill

/-- A runner for the positions on a chain. Mirrors `Runner` and its `RunnerConfig`. -/
structure Runner where
  chain : Chain
  behaviour : Behaviour
  limits : RpcLimitations
  stream : StreamConfig := {}
  /-- Owners whose transfers are no investments. -/
  ignored : List Address := []

namespace Runner

def ofBehaviour (chain : Chain) (behaviour : Behaviour) : Runner :=
  { chain, behaviour, limits := RpcLimitations.ofChain chain }

/-- What a cycle finds outside. -/
structure Conditions where
  sources : Sources
  cancelled : Cancellation := fun _ => false
  /-- The numbers drawn for plans. -/
  draws : Plan.Draws := fun _ => 0
  /-- The clock that stamps import states, in milliseconds since the epoch. -/
  now : UInt64
  queryOrder : Arrangement (Plan.Query BlockNumber) := .inOrder
  loadOrder : Arrangement (Product × Transfer) := .inOrder

def loader (i : Runner) : Loader := ⟨i.chain, i.ignored⟩

/-- The `OptimizerOptions` of its cycles. -/
def optimizerOptions (i : Runner) : Plan.Limits :=
  { ignoreState := i.behaviour.ignoreState, maxProducts := i.limits.maxAddresses
    maxSpan := i.limits.maxSpan, maxQueries := i.behaviour.maxQueries }

/-- The `RangeContext` of a cycle. -/
def window (i : Runner) (latest : BlockNumber) (lastImported : Option BlockNumber) : RangeContext :=
  { behaviour := i.behaviour, latest, lastImported, maxSpan := i.limits.maxSpan
    blocksPerHour := i.chain.blocksPerHour }

variable {σ ρ : Type} [ImportStateStore σ BlockNumber] [RecordSink ρ]

/-- Makes the import state of a product that has none: it begins where its contract was created. The
second half of `Runner::import_state`. -/
def createImportState (sources : Sources) (p : Product) (states : σ) :
    Option (ImportState BlockNumber) × σ × Trace :=
  let key := p.positionsKey
  let asked : Trace := [.call (.creation p.contract)]
  match sources.creation p.contract with
  | .error fault => (none, states, asked ++ [.report (.importState p.key) (.fetch fault)])
  | .ok none => (none, states, asked)
  | .ok (some creation) =>
    let s := ImportState.fresh key p.id p.chain creation.block
      (some (Stamp.ofInstant creation.time))
    let saved := asked ++ [.call (.stateSave key)]
    match ImportStateStore.save states s with
    | .error fault => (none, states, saved ++ [.report (.importState p.key) (.store fault)])
    | .ok states => (some s, states, saved)

/-- What a product wants of a cycle, if it takes part in it: `Runner::import_state`, and what
`Runner::build_ranges` makes of it. -/
def productRanges? (i : Runner) (sources : Sources) (w : RangeContext) (p : Product) (states : σ) :
    Option (ProductRanges BlockNumber) × σ × Trace :=
  let loaded : Trace := [.call (.stateLoad p.positionsKey)]
  match ImportStateStore.load states p.positionsKey with
  | .error fault => (none, states, loaded ++ [.report (.importState p.key) (.store fault)])
  | .ok (some s) => (w.productRanges? p (some s), states, loaded)
  | .ok none =>
    match i.behaviour.mode with
    | .recent => (w.productRanges? p none, states, loaded)
    | .historical =>
      let (s, states, trace) := createImportState sources p states
      (s.bind fun s => w.productRanges? p (some s), states, loaded ++ trace)

/-- Mirrors `Runner::build_ranges`, one product after the other. -/
def buildRanges (i : Runner) (sources : Sources) (w : RangeContext) :
    List Product → σ → List (ProductRanges BlockNumber) × σ × Trace
  | [], states => ([], states, [])
  | p :: ps, states =>
    let (d, states, trace) := i.productRanges? sources w p states
    let (ds, states, more) := buildRanges i sources w ps states
    (d.toList ++ ds, states, trace ++ more)

/-- The second half of `Runner::run_cycle`: sends the queries of a plan, loads what they bring and
folds the results, unless the token calls it off. -/
def executeUnder (i : Runner) (token : CancellationToken) (c : Conditions) (products : List Product)
    (latest : BlockNumber) (plan : Plan BlockNumber) (b : RunnerState BlockNumber σ ρ) :
    Ending BlockNumber × RunnerState BlockNumber σ ρ :=
  let (fetched, sent) :=
    FetchedRange.ofQueries i.loader c.sources products (c.queryOrder.order plan.queries)
  (b.log sent).enter (token .load) .load fun b =>
  let (failures, records, loaded) :=
    FetchedRange.loadAll i.loader c.sources (c.loadOrder.order (FetchedRange.jobs fetched))
      b.records
  let b := { b with records }.log (loaded ++ failures.flatMap FetchedRange.Failure.trace)
  b.enter (token .reconcile) .reconcile fun b =>
  let results :=
    fetched.flatMap
      (FetchedRange.results i.behaviour.strict (failures.map FetchedRange.Failure.block) latest)
  let b := Cycle.reconcile i.behaviour.mode c.now Product.positionsKey products results b
  (.ok results, (b.reach .done).log [.count .cyclesCompleted 1])

/-- Mirrors `Runner::run_cycle`. -/
def runCycleUnder (i : Runner) (token : CancellationToken) (c : Conditions)
    (products : List Product) (b : RunnerState BlockNumber σ ρ) :
    Ending BlockNumber × RunnerState BlockNumber σ ρ :=
  let b := b.reach .collect
  match Product.collect i.chain products with
  | .error fault => (.error (.plan fault), b.reach .done)
  | .ok products =>
    let b := b.about products.length
    if products = [] then (.ok [], b.reach .done)
    else
      b.enter (token .frontier) .frontier fun b =>
      let b := b.log [.call .latest]
      match c.sources.latest with
      | .error fault => (.error (.frontier fault), b)
      | .ok latest =>
        b.enter (token .ranges) .ranges fun b =>
        let w := i.window latest b.progress.lastImported
        let (ds, states, trace) := i.buildRanges c.sources w products b.states
        ({ b with states }.log trace).enter (token .plan) .plan fun b =>
        match Plan.choose i.optimizerOptions c.draws ds with
        | .error fault => (.error (.plan fault), b)
        | .ok plan =>
          b.enter (token .dispatch) .dispatch (i.executeUnder token c products latest plan)

def execute (i : Runner) (c : Conditions) (products : List Product) (latest : BlockNumber)
    (plan : Plan BlockNumber) (b : RunnerState BlockNumber σ ρ) :
    Ending BlockNumber × RunnerState BlockNumber σ ρ :=
  i.executeUnder (fun _ => c.cancelled) c products latest plan b

/-- One cycle that is called off, if at all, by what has been done. -/
def runCycle (i : Runner) (c : Conditions) (products : List Product)
    (b : RunnerState BlockNumber σ ρ) : Ending BlockNumber × RunnerState BlockNumber σ ρ :=
  i.runCycleUnder (fun _ => c.cancelled) c products b

end Runner
end Backfill
