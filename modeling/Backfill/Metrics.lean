import Backfill.Chain
import Backfill.Fault

/-!
# Metrics

What is counted, under which names, and how the counts are described to a collector.
-/
namespace Backfill

/-- What is counted. -/
inductive Metric where
  | queriesDispatched
  | queriesFailed
  | rangesCovered
  | rangesRequeued
  | recordsLoaded
  | recordsFailed
  | cyclesCompleted
  | snapshotsStored
  /-- Reports of what went wrong in places of a kind. -/
  | errors (kind : String)
  deriving DecidableEq, Repr

namespace Metric

def kindOf : ErrorContext → String
  | .query .. => "query"
  | .record .. => "record"
  | .importState _ => "import_state"
  | .snapshot .. => "snapshot"

def all : List Metric :=
  [queriesDispatched, queriesFailed, rangesCovered, rangesRequeued, recordsLoaded, recordsFailed,
   cyclesCompleted, snapshotsStored, errors "query", errors "record", errors "import_state",
   errors "snapshot"]

def name : Metric → String
  | queriesDispatched => "num_queries_dispatched"
  | queriesFailed => "num_queries_failed"
  | rangesCovered => "num_ranges_covered"
  | rangesRequeued => "num_ranges_requeued"
  | recordsLoaded => "num_records_loaded"
  | recordsFailed => "num_records_failed"
  | cyclesCompleted => "num_cycles_completed"
  | snapshotsStored => "num_snapshots_stored"
  | errors _ => "num_errors"

/-- A label with its value. Values are names and versions, which need no escapes. -/
def label (name value : String) : String := name ++ "=\"" ++ value ++ "\""

def series (m : Metric) : String :=
  m.name ++ "_total" ++
    match m with
    | errors kind => "\x7b" ++ label "kind" kind ++ "\x7d"
    | _ => ""

def help : Metric → String
  | queriesDispatched => "Number of transfer queries sent to the RPC"
  | queriesFailed => "Number of transfer queries which failed"
  | rangesCovered => "Number of block ranges marked as imported"
  | rangesRequeued => "Number of block ranges scheduled for a retry"
  | recordsLoaded => "Number of investment records stored"
  | recordsFailed => "Number of investment records which couldn't be stored"
  | cyclesCompleted => "Number of finished import cycles"
  | snapshotsStored => "Number of share rate snapshots stored"
  | errors _ => "Number of reported errors"

def headerLines (name help kind : String) : List String :=
  ["# HELP " ++ name ++ " " ++ help ++ ".", "# TYPE " ++ name ++ " " ++ kind]

def describe (m : Metric) : List String := headerLines m.name m.help "counter"

/-- The lines that describe everything measured on a chain by a version of the runner, but for the
errors. Mirrors `register_metrics`. -/
def description (chain : Chain) (version : String) : List String :=
  headerLines "importer_info" "Importer info" "info"
    ++ ["importer_info_info\x7b" ++ label "chain" chain.name ++ "," ++ label "version" version
      ++ "\x7d 1"]
    ++ [queriesDispatched, queriesFailed, rangesCovered, rangesRequeued, recordsLoaded,
        recordsFailed, cyclesCompleted].flatMap describe
    ++ headerLines "products_in_last_cycle" "Number of products processed by the last cycle" "gauge"
    ++ describe snapshotsStored ++ ["# EOF"]

end Metric
end Backfill
