import Backfill.Clock.RpcLimiter
import Backfill.CommandLine.Values
import Backfill.Cycle.Runner
import Backfill.Cycle.SnapshotRunner

/-!
# Invocations

What a command line and its environment ask for. What comes before the subcommand is about the node,
the files and the pace, what follows it about the blocks to import.
-/
namespace Backfill.CommandLine

/-- Mirrors `Pipeline`. -/
inductive Pipeline where
  /-- The positions of investors. -/
  | investments
  /-- The prices of shares. -/
  | shareRates
  deriving DecidableEq, Repr

/-- What is asked for without any choice of blocks. Mirrors `Args` and `RpcArgs`. -/
structure Setup where
  dataDir : String := "."
  chain : Option Chain := none
  rpcUrl : Option String := none
  /-- The file of the product catalog. -/
  products : String := "products.json"
  /-- Where to get the catalog if there is no such file. -/
  productsUrl : Option String := none
  metricsPort : Nat := 9090
  pipeline : Pipeline := .investments
  /-- The time between two samples in milliseconds. -/
  snapshotInterval : Nat := 900000
  /-- In place of what suits public nodes. -/
  maxSpan : Option Nat := none
  maxAddresses : Nat := 1
  /-- The time between two calls in milliseconds. -/
  minDelay : Nat := 1000
  /-- How long a call may take in milliseconds. -/
  fetchTimeout : Nat := 60000
  stream : StreamConfig := {}
  ignored : List Address := []
  logSpanDurations : Bool := false
  faultSink : Option String := none
  tracesSampleRate : String := "0.001"

structure Invocation where
  setup : Setup
  chain : Chain
  rpcUrl : String
  behaviour : Behaviour

/-! ## Parameters -/

section Parameters
open Parameter

def Pipeline.ofName? : String → Option Pipeline
  | "investments" => some .investments
  | "share-rates" => some .shareRates
  | _ => none

def skipOfName? : String → Option SkipRecentWindow
  | "all" => some .all
  | "none" => some .none
  | "live" => some .live
  | "eol" => some .retired
  | _ => none

/-- The parameters before the subcommand. -/
def setupCommand : Command Setup where
  options :=
    [(reading "data-dir" some fun s d => { d with dataDir := s }).orEnv "DATA_DIR",
     (choosing "chain" Chain.ofName? fun c d => { d with chain := some c }).orEnv "CHAIN",
     (reading "rpc-url" some fun s d => { d with rpcUrl := some s }).orEnv "RPC_URL",
     (reading "products" some fun s d => { d with products := s }).orEnv "PRODUCTS",
     (reading "products-url" some fun s d => { d with productsUrl := some s }).orEnv "PRODUCTS_URL",
     (reading "prometheus-port" portValue fun n d =>
       { d with metricsPort := n }).orEnv "PROMETHEUS_PORT",
     (choosing "pipeline" Pipeline.ofName? fun p d => { d with pipeline := p }).orEnv "PIPELINE",
     (reading "snapshot-interval-min" minutesValue fun n d =>
       { d with snapshotInterval := n }).orEnv "SNAPSHOT_INTERVAL_MIN",
     (reading "max-block-span" (countValue 64) fun n d =>
       { d with maxSpan := some n }).orEnv "MAX_BLOCK_SPAN",
     (reading "max-address-batch-size" (countValue 64) fun n d =>
       { d with maxAddresses := n }).orEnv "MAX_ADDRESS_BATCH_SIZE",
     (reading "min-delay-between-calls-ms" (countValue 64) fun n d =>
       { d with minDelay := n }).orEnv "MIN_DELAY_BETWEEN_CALLS_MS",
     (reading "fetch-timeout-sec" secondsValue fun n d =>
       { d with fetchTimeout := n }).orEnv "FETCH_TIMEOUT_SEC",
     (reading "fetch-concurrency" (countValue 64) fun n d =>
       { d with stream := { d.stream with fetchConcurrency := n } }).orEnv "FETCH_CONCURRENCY",
     (reading "load-concurrency" (countValue 64) fun n d =>
       { d with stream := { d.stream with loadConcurrency := n } }).orEnv "LOAD_CONCURRENCY",
     (reading "max-input-wait-ms" (countValue 64) fun n d =>
       { d with stream := { d.stream with maxInputWait := n } }).orEnv "MAX_INPUT_WAIT_MS",
     { (reading "ignore-address" addressesValue fun l d =>
         { d with ignored := d.ignored ++ l }).orEnv "IGNORED_ADDRESSES" with arity := .values },
     (flag "log-span-durations" fun b d =>
       { d with logSpanDurations := b }).orEnv "LOG_SPAN_DURATIONS"]
  operands :=
    [(reading "sentry-dsn" some fun s d => { d with faultSink := some s }).orEnv "SENTRY_DSN",
     (reading "sentry-traces-sample-rate" (fun s => if isReal s then some s else none) fun s d =>
       { d with tracesSampleRate := s }).orEnv "SENTRY_TRACES_SAMPLE_RATE"]
  subcommands := ["recent", "historical", "help"]
  versioned := true

/-- The parameters of both modes. Mirrors `BehaviourArgs`. -/
def behaviourOptions : List (Parameter Behaviour) :=
  [flag "ignore-import-state" fun b p => { p with ignoreState := b },
   reading "force-block-range" (fun s => (Range.ofText s).toOption) fun r p =>
     { p with forced := some r },
   reading "max-queries-per-product" (countValue 64) fun n p => { p with maxQueries := n },
   reading "wait-for-block-propagation" (countValue 64) fun n p => { p with unsettled := n },
   flag "strict-coverage" fun b p => { p with strict := b },
   reading "repeat-every-sec" secondsValue fun n p => { p with repeatEvery := some n }]

/-- The parameters of a mode. Only history can leave the last blocks out. -/
def behaviourCommand : ImportMode → Command Behaviour
  | .recent => { options := behaviourOptions }
  | .historical =>
    { options :=
        behaviourOptions ++
          [choosing "skip-recent-window" skipOfName? fun s p => { p with skipRecent := s }] }

end Parameters

/-! ## Reading -/

/-- What help is asked about: nothing, or one subcommand. -/
def helpAbout : List String → Refusal
  | [] => .help
  | w :: ws =>
    if w ∈ setupCommand.subcommands then
      match ws with
      | [] => .help
      | w :: _ => .unknownSubcommand w
    else .unknownSubcommand w

/-- Mirrors `Args::behaviour`. -/
def behaviourOf (name : String) (words : List String) : Except Refusal Behaviour :=
  match name with
  | "recent" => (behaviourCommand .recent).run (Behaviour.ofMode .recent) words
  | "historical" => (behaviourCommand .historical).run (Behaviour.ofMode .historical) words
  | _ => .error (helpAbout words)

namespace Invocation

/-- What a command line asks for, with an environment to stand in for what it leaves out. The
subcommand is read before all that precedes it is settled. -/
def ofArguments (env : String → Option String) (words : List String) :
    Except Refusal Invocation := do
  let (r, subcommand) ← setupCommand.read words (setupCommand.start {})
  let behaviour ← subcommand.mapM fun (name, words) => behaviourOf name words
  let r ← r.settle
  let r ← (setupCommand.options ++ setupCommand.operands).foldlM (Reading.fromEnv env) r
  match behaviour, r.draft.chain, r.draft.rpcUrl with
  | none, _, _ => .error (if r.given = [] then .helpForNothing else .missingSubcommand)
  | some _, none, _ => .error (.missingArgument "chain")
  | some _, _, none => .error (.missingArgument "rpc-url")
  | some behaviour, some chain, some rpcUrl => return { setup := r.draft, chain, rpcUrl, behaviour }

def limits (i : Invocation) : RpcLimitations :=
  { maxSpan := i.setup.maxSpan.getD (RpcLimitations.ofChain i.chain).maxSpan
    maxAddresses := i.setup.maxAddresses }

/-- Mirrors `Args::runner_config`. -/
def runner (i : Invocation) : Runner :=
  { chain := i.chain, behaviour := i.behaviour, limits := i.limits, stream := i.setup.stream
    ignored := i.setup.ignored }

/-- Mirrors `Args::snapshot_config`. -/
def snapshotRunner (i : Invocation) : SnapshotRunner :=
  { chain := i.chain, behaviour := i.behaviour, stream := i.setup.stream
    slots := TimeGrid.ofMillis i.setup.snapshotInterval }

/-- Mirrors `Args::rpc_limiter`. -/
def limiter (i : Invocation) : RpcLimiter :=
  RpcLimiter.ofDelay i.setup.minDelay 1 i.setup.fetchTimeout

end Invocation
end Backfill.CommandLine
