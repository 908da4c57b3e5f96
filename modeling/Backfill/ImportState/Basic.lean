import Backfill.Chain
import Backfill.Range.Algebra
import Backfill.Time.Text

/-!
# Import states

What has been imported of one key, and what failed and waits for a retry. An imported position stays
imported; a failed one waits until it is imported, and nothing waits that is imported.
-/
namespace Backfill

/-- What became of one range. Mirrors `RangeOutcome`. -/
structure RangeOutcome (α : Type) where
  range : Range α
  success : Bool
  deriving DecidableEq

/-- How far an import has come. Mirrors `ImportRanges`. -/
structure ImportRanges (α : Type) where
  /-- When an outcome was last applied, in milliseconds since the epoch. -/
  lastImport : UInt64 := 0
  covered : List (Range α) := []
  toRetry : List (Range α) := []
  deriving DecidableEq

/-- The state of the import of one key. Mirrors `ImportState`. -/
structure ImportState (α : Type) where
  key : String
  productId : Int64
  chain : Chain
  /-- Where data begins. -/
  origin : α
  originTime : Option Stamp
  coverage : ImportRanges α
  deriving DecidableEq

variable {α : Type} [Axis α]

namespace ImportRanges

/-- A success is covered and waits no more; a failure waits, as far as it is not covered. Mirrors
`ImportRanges::apply_result`. -/
def applyResult (now : UInt64) (c : ImportRanges α) (o : RangeOutcome α) : ImportRanges α :=
  if o.success then
    { lastImport := now
      covered := Range.merge (c.covered ++ [o.range])
      toRetry := Range.exclude c.toRetry [o.range] }
  else
    { lastImport := now
      covered := c.covered
      toRetry := Range.exclude (Range.merge (c.toRetry ++ [o.range])) c.covered }

/-- Mirrors `ImportRanges::apply_results`. -/
def applyResults (now : UInt64) (c : ImportRanges α) (os : List (RangeOutcome α)) :
    ImportRanges α :=
  os.foldl (applyResult now) c

end ImportRanges

namespace ImportState

/-- Mirrors `ImportState::new`. -/
def fresh (key : String) (productId : Int64) (chain : Chain) (origin : α)
    (originTime : Option Stamp) : ImportState α :=
  { key, productId, chain, origin, originTime, coverage := {} }

def applyResults (now : UInt64) (s : ImportState α) (os : List (RangeOutcome α)) : ImportState α :=
  { s with coverage := s.coverage.applyResults now os }

end ImportState

/-! ## What is still wanted -/

/-- The demand of a product: everything in a full range, less what is covered. Mirrors
`ProductRanges`. -/
structure ProductRanges (α : Type) where
  key : String
  full : Range α
  covered : List (Range α)
  toRetry : List (Range α)
  deriving DecidableEq

namespace ProductRanges

/-- The ranges never asked for: the full range less what is covered or waits for a retry. Whoever
ignores import states wants all of it. Mirrors `ProductRanges::compute_needed`. -/
def computeNeeded (ignoreState : Bool) (d : ProductRanges α) : List (Range α) :=
  if ignoreState then [d.full] else Range.exclude [d.full] (d.covered ++ d.toRetry)

end ProductRanges
end Backfill
