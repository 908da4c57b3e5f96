import Backfill.Metrics
import Backfill.Transfer

/-!
# Traces

What a cycle did, in order: the calls it made, what it reported, and what it counted.
-/
namespace Backfill

/-- A call of a source or a store. -/
inductive Call where
  | latest
  | blockTime (block : BlockNumber)
  | transfers (range : Range BlockNumber) (tokens : List Address)
  | position (request : TransferDataParams)
  | creation (contract : Address)
  | shareRate (vault : Address) (block : BlockNumber)
  | stateLoad (key : String)
  | stateSave (key : String)
  | stateUpdate (key : String)
  /-- The load of a state of another import, which knows the origin. -/
  | positionsStateLoad (key : String)
  deriving DecidableEq

def Call.kind : Call → String
  | latest => "latest"
  | blockTime _ => "block_datetime"
  | transfers .. => "transfers"
  | position _ => "transfer_data"
  | creation _ => "creation"
  | shareRate .. => "share_rate"
  | stateLoad _ => "state_load"
  | stateSave _ => "state_save"
  | stateUpdate _ => "state_update"
  | positionsStateLoad _ => "investment_state_load"

inductive Cause where
  | fetch (fault : FetchError)
  | load (fault : LoadError)
  | store (fault : StoreFault)
  deriving DecidableEq

def Cause.message : Cause → String
  | .fetch fault => fault.message
  | .load fault => fault.message
  | .store fault => fault.message

/-- Something a cycle did: a call, a report, or a count in the metrics. -/
inductive Event where
  | call (call : Call)
  | report (place : ErrorContext) (cause : Cause)
  | count (metric : Metric) (amount : Nat)
  deriving DecidableEq

/-- Everything done, in order. -/
abbrev Trace := List Event

namespace Trace

def calls (t : Trace) : List Call := t.filterMap fun
  | .call c => some c
  | _ => none

/-- What reached the `ErrorSink`. -/
def reports (t : Trace) : List (ErrorContext × Cause) := t.filterMap fun
  | .report place cause => some (place, cause)
  | _ => none

def accounts (t : Trace) : List String :=
  t.reports.map fun (place, cause) => place.text ++ ": " ++ cause.message

/-- How much an event adds to a metric. A report counts as an error in its kind of place. -/
def addition (m : Metric) : Event → Nat
  | .count m' n => if m' = m then n else 0
  | .report place _ => if Metric.errors (Metric.kindOf place) = m then 1 else 0
  | .call _ => 0

-- sums begin with the zero of the core library
attribute [local instance(high)] Zero.ofOfNat0

def total (t : Trace) (m : Metric) : Nat := (t.map (addition m)).sum

/-- The metrics that grew, and by how much. -/
def growth (t : Trace) : List (Metric × Nat) :=
  (Metric.all.map fun m => (m, t.total m)).filter (·.2 ≠ 0)

end Trace
end Backfill
