import Backfill.Cycle.Basic
import Backfill.Json.Value

/-!
# Status

What a runner shows about itself while it runs.
-/
namespace Backfill

open Json

def CycleStage.name : CycleStage → String
  | idle => "Idle"
  | collect => "Collect"
  | frontier => "DetermineFrontier"
  | ranges => "BuildRanges"
  | plan => "Optimize"
  | dispatch => "Dispatch"
  | load => "Load"
  | reconcile => "Reconcile"
  | done => "Done"

namespace Progress

def members {α : Type} [Axis.Document α] (lastName : String) (p : Progress α) :
    List (String × Value) :=
  [("stage", .text p.stage.name),
   (lastName, (p.lastImported.map Axis.Document.write).getD .null)]

/-- Mirrors `Runner::status`. -/
def blockStatus (p : Progress BlockNumber) : List (String × Value) :=
  p.members "last_imported_block"

/-- Mirrors `SnapshotRunner::status`. -/
def timeStatus (p : Progress Instant) : List (String × Value) := p.members "last_imported_datetime"

end Progress

/-- A status, with the chain it is about. Mirrors `get_status`. -/
def statusText (chain : Chain) (members : List (String × Value)) : String :=
  (Value.record (members ++ [("chain", .text chain.name)])).compact

end Backfill
