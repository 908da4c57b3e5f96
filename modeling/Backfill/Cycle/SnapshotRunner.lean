import Backfill.Cycle.Basic
import Backfill.Loading
import Backfill.Settings
import Backfill.TimeGrid

/-!
# The runner for share prices

One cycle samples the share prices of products over slots of time. Products with one price feed
share their import state, and the first of them by key stands for all. Each slot is sampled at the
block taken for the last one produced in it.
-/
namespace Backfill

/-- A runner for the share prices on a chain. Of its behaviour, the forced range and the strict mode
are about blocks and do not count. Mirrors `SnapshotRunner` and its `SnapshotConfig`. -/
structure SnapshotRunner where
  chain : Chain
  behaviour : Behaviour
  stream : StreamConfig := {}
  slots : TimeGrid

/-- Mirrors `Target`. -/
structure SampleTarget where
  product : Product
  rate : ShareRateParams

structure SampleJob where
  target : SampleTarget
  range : Range Instant

/-- What was read for a slot: when the block was produced and the price, or nothing if that failed.
Mirrors `Sample`. -/
structure Sample where
  product : Product
  range : Range Instant
  block : BlockNumber
  reading : Option (Instant × Decimal)

namespace SnapshotRunner

/-- What a cycle finds outside. -/
structure Conditions where
  sources : Sources
  cancelled : Cancellation := fun _ => false
  /-- The numbers drawn for plans. -/
  draws : Plan.Draws := fun _ => 0
  /-- The clock that stamps import states, in milliseconds since the epoch. -/
  now : UInt64
  sampleOrder : Arrangement SampleJob := .inOrder
  storeOrder : Arrangement Sample := .inOrder

/-- The first of the products with a share price for every feed. Mirrors `snapshot_targets`. -/
def targets (ps : List Product) : List SampleTarget :=
  go [] ps
where
  go (feeds : List Int64) : List Product → List SampleTarget
    | [] => []
    | p :: rest =>
      match p.shareRateParams with
      | none => go feeds rest
      | some rate =>
        if feeds.contains p.shareFeed then go feeds rest
        else ⟨p, rate⟩ :: go (p.shareFeed :: feeds) rest

/-! ## Ranges -/

/-- The head of the chain. There is none while the chain is shorter than what is not settled.
Mirrors `SnapshotRunner::frontier`. -/
def frontier (s : SnapshotRunner) (sources : Sources) :
    Except FetchError (Option Frontier) × Trace :=
  match sources.latest with
  | .error fault => (.error fault, [.call .latest])
  | .ok latest =>
    match latest.minus? s.behaviour.unsettled with
    | none => (.ok none, [.call .latest])
    | some block =>
      (match sources.blockTime block with
        | .error fault => .error fault
        | .ok time => .ok (some ⟨block, time⟩),
       [.call .latest, .call (.blockTime block)])

/-- The start of the slot in which the last hour begins. -/
def windowStart (s : SnapshotRunner) (f : Frontier) : Instant :=
  s.slots.floor (Axis.stepDown f.time 3600000)

/-- The slots that are over: from the origin, or within the last hour for a product without a state.
Mirrors `SnapshotRunner::full_range`. -/
def fullRange? (s : SnapshotRunner) (f : Frontier) (lastImported : Option Instant) (p : Product)
    (state : Option (ImportState Instant)) : Option (Range Instant) :=
  let last := s.slots.lastComplete f.time
  let start := s.windowStart f
  match state with
  | some state =>
    Range.between? (s.slots.floor state.origin)
      (if s.behaviour.skipRecent.appliesTo p.retired then Axis.least last
        (Axis.prev start) else last)
  | none =>
    Range.between?
      (match lastImported with
        | some t => Axis.greatest start (Axis.next t)
        | none => start) last

variable {σ τ ρ : Type} [ImportStateStore σ Instant] [ImportStateStore τ BlockNumber] [RecordSink ρ]

/-- When a product began: its state for positions knows, or else the chain. Mirrors
`SnapshotRunner::origin`. -/
def origin (sources : Sources) (positions : τ) (p : Product) :
    Except FetchError (Option Instant) × Trace :=
  let loaded : Trace := [.call (.positionsStateLoad p.positionsKey)]
  let created : Except FetchError (Option Instant) × Trace :=
    ((sources.creation p.contract).map (Option.map (·.time)),
      loaded ++ [.call (.creation p.contract)])
  match ImportStateStore.load positions p.positionsKey with
  | .ok (some state) =>
    match state.originTime with
    | some stamp => (.ok (some stamp.instant), loaded)
    | none => created
  | _ => created

/-- The import state of a product. One that has none gets one, if its origin is known. Mirrors
`SnapshotRunner::import_state`. -/
def importState (sources : Sources) (positions : τ) (p : Product) (states : σ) :
    Option (ImportState Instant) × σ × Trace :=
  let key := p.shareRateKey
  let loaded : Trace := [.call (.stateLoad key)]
  match ImportStateStore.load states key with
  | .error fault => (none, states, loaded ++ [.report (.importState p.key) (.store fault)])
  | .ok (some state) => (some state, states, loaded)
  | .ok none =>
    let (found, trace) := origin sources positions p
    let asked := loaded ++ trace
    match found with
    | .error fault => (none, states, asked ++ [.report (.importState p.key) (.fetch fault)])
    | .ok none => (none, states, asked)
    | .ok (some time) =>
      let state := ImportState.fresh key p.id p.chain time (some (Stamp.ofInstant time))
      let saved := asked ++ [.call (.stateSave key)]
      match ImportStateStore.save states state with
      | .error fault => (none, states, saved ++ [.report (.importState p.key) (.store fault)])
      | .ok states => (some state, states, saved)

def productRangesWith? (s : SnapshotRunner) (f : Frontier) (lastImported : Option Instant)
    (p : Product) (state : Option (ImportState Instant)) : Option (ProductRanges Instant) :=
  let coverage : ImportRanges Instant := match state with
    | some state => if s.behaviour.ignoreState then {} else state.coverage
    | none => {}
  (s.fullRange? f lastImported p state).map fun full =>
    ⟨p.key, full, coverage.covered, coverage.toRetry⟩

/-- What a product wants of a cycle, if it takes part in it. -/
def productRanges? (s : SnapshotRunner) (sources : Sources) (positions : τ) (f : Frontier)
    (lastImported : Option Instant) (p : Product) (states : σ) :
    Option (ProductRanges Instant) × σ × Trace :=
  match s.behaviour.mode with
  | .recent => (s.productRangesWith? f lastImported p none, states, [])
  | .historical =>
    let (state, states, trace) := importState sources positions p states
    (state.bind fun state => s.productRangesWith? f lastImported p (some state), states, trace)

/-- Mirrors `SnapshotRunner::build_ranges`, one product after the other. -/
def buildRanges (s : SnapshotRunner) (sources : Sources) (positions : τ) (f : Frontier)
    (lastImported : Option Instant) :
    List Product → σ → List (ProductRanges Instant) × σ × Trace
  | [], states => ([], states, [])
  | p :: ps, states =>
    let (d, states, trace) := s.productRanges? sources positions f lastImported p states
    let (ds, states, more) := buildRanges s sources positions f lastImported ps states
    (d.toList ++ ds, states, trace ++ more)

/-- The `OptimizerOptions` of its cycles: a slot at a time, for one product. -/
def optimizerOptions (s : SnapshotRunner) : Plan.Limits :=
  { ignoreState := s.behaviour.ignoreState, maxProducts := 1
    maxSpan := s.slots.interval.toNat, maxQueries := s.behaviour.maxQueries }

/-! ## Samples -/

def jobs (targets : List SampleTarget) (plan : Plan Instant) : List SampleJob :=
  plan.queries.flatMap fun q => q.targets.flatMap fun t =>
    match targets.find? (·.product.key = t.key) with
    | some target => t.ranges.map (⟨target, ·⟩)
    | none => []

/-- Samples a slot: when its block was produced, and then the price. Mirrors
`SnapshotRunner::sample`. -/
def sample (s : SnapshotRunner) (sources : Sources) (f : Frontier) (job : SampleJob) :
    Sample × Trace :=
  let p := job.target.product
  let block := f.blockAt job.range.last s.chain.blockMillis
  let failed (fault : FetchError) : Trace :=
    [.count .queriesFailed 1, .report (.snapshot p.key job.range) (.fetch fault)]
  let dispatched : Trace := [.count .queriesDispatched 1, .call (.blockTime block)]
  match sources.blockTime block with
  | .error fault => (⟨p, job.range, block, none⟩, dispatched ++ failed fault)
  | .ok time =>
    let dispatched := dispatched ++ [.call (.shareRate job.target.rate.vault block)]
    match sources.shareRate job.target.rate block with
    | .error fault => (⟨p, job.range, block, none⟩, dispatched ++ failed fault)
    | .ok price => (⟨p, job.range, block, some (time, price)⟩, dispatched)

/-- Mirrors `SnapshotRunner::store_price`. -/
def storePrice (s : SnapshotRunner) (p : Product) (block : BlockNumber) (time : Instant)
    (price : Decimal) (records : ρ) : Except StoreFault Unit × ρ :=
  match RecordSink.upsertBlock records ⟨s.chain, block, time⟩ with
  | .error fault => (.error fault, records)
  | .ok records =>
    match RecordSink.upsertPrice records ⟨p.shareFeed, block, time, price⟩ with
    | .error fault => (.error fault, records)
    | .ok records => (.ok (), records)

/-- Stores a sample. The slot is imported if there was something to store and it was stored. Mirrors
`SnapshotRunner::store`. -/
def store (s : SnapshotRunner) (x : Sample) (records : ρ) : ImportRangeResult Instant × ρ × Trace :=
  let result (success : Bool) : ImportRangeResult Instant :=
    ⟨x.product.key, x.range, success, x.block⟩
  match x.reading with
  | none => (result false, records, [])
  | some (time, price) =>
    match s.storePrice x.product x.block time price records with
    | (.ok (), records) => (result true, records, [.count .snapshotsStored 1])
    | (.error fault, records) =>
      (result false, records,
        [.count .recordsFailed 1,
         .report (.snapshot x.product.key x.range) (.load (.store fault))])

def storeAll (s : SnapshotRunner) : List Sample → ρ → List (ImportRangeResult Instant) × ρ × Trace
  | [], records => ([], records, [])
  | x :: rest, records =>
    let (result, records, trace) := s.store x records
    let (results, records, more) := storeAll s rest records
    (result :: results, records, trace ++ more)

/-! ## Cycles -/

def execute (s : SnapshotRunner) (c : Conditions) (targets : List SampleTarget) (f : Frontier)
    (plan : Plan Instant) (b : RunnerState Instant σ ρ) :
    Ending Instant × RunnerState Instant σ ρ :=
  let parts := (c.sampleOrder.order (jobs targets plan)).map (s.sample c.sources f)
  (b.log (parts.flatMap (·.2))).enter c.cancelled .load fun b =>
  let (results, records, stored) :=
    s.storeAll (c.storeOrder.order (parts.map (·.1))) b.records
  ({ b with records }.log stored).enter c.cancelled .reconcile fun b =>
  let b :=
    Cycle.reconcile s.behaviour.mode c.now Product.shareRateKey (targets.map SampleTarget.product)
      results b
  (.ok results, (b.reach .done).log [.count .cyclesCompleted 1])

/-- Mirrors `SnapshotRunner::run_cycle`. -/
def runCycle (s : SnapshotRunner) (c : Conditions) (positions : τ) (products : List Product)
    (b : RunnerState Instant σ ρ) : Ending Instant × RunnerState Instant σ ρ :=
  let b := b.reach .collect
  match Product.collect s.chain products with
  | .error fault => (.error (.plan fault), b.reach .done)
  | .ok products =>
    let targets := targets products
    let b := b.about targets.length
    match targets with
    | [] => (.ok [], b.reach .done)
    | targets =>
      b.enter c.cancelled .frontier fun b =>
      let (found, trace) := s.frontier c.sources
      let b := b.log trace
      match found with
      | .error fault => (.error (.frontier fault), b)
      | .ok none => (.ok [], b.reach .done)
      | .ok (some f) =>
        b.enter c.cancelled .ranges fun b =>
        let (ds, states, trace) :=
          s.buildRanges c.sources positions f b.progress.lastImported
            (targets.map SampleTarget.product) b.states
        ({ b with states }.log trace).enter c.cancelled .plan fun b =>
        match Plan.choose s.optimizerOptions c.draws ds with
        | .error fault => (.error (.plan fault), b)
        | .ok plan => b.enter c.cancelled .dispatch (s.execute c targets f plan)

end SnapshotRunner
end Backfill
