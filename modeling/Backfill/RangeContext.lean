import Backfill.ImportState.Basic
import Backfill.Product.Basic
import Backfill.Settings

/-!
# Windows of blocks

Which blocks a cycle is about. A runner of recent blocks looks at a window right below the head
and goes on where it stopped; one of the history looks at everything from the origin of a product up
to the head, and can leave that window to the other.
-/
namespace Backfill

/-- What the products of a cycle have in common. Mirrors `RangeContext`. -/
structure RangeContext where
  behaviour : Behaviour
  /-- The highest block of the chain. -/
  latest : BlockNumber
  /-- The highest block imported so far. -/
  lastImported : Option BlockNumber
  maxSpan : Nat
  blocksPerHour : Nat

namespace RangeContext

/-- The highest block that is settled. Mirrors `RangeContext::head`. -/
def head? (w : RangeContext) : Option BlockNumber := w.latest.minus? w.behaviour.unsettled

/-- How far the window reaches below the head: what a query may span, an hour at most. Mirrors
`RangeContext::window_len`. -/
def windowLen (w : RangeContext) : Nat := min w.maxSpan w.blocksPerHour

/-- The window below the head, from where the last import stopped; none without new blocks. Mirrors
`RangeContext::recent_range`. -/
def recentRange? (w : RangeContext) : Option (Range BlockNumber) :=
  w.head?.bind fun head =>
    match w.lastImported with
    | none => some ⟨Axis.stepDown head w.windowLen, head⟩
    | some last =>
      if head ≤ last then none
      else some ⟨Axis.stepDown head (min w.windowLen (head.toNat - (last.toNat + 1))), head⟩

/-- From the origin of a product up to the head, or to below the window if the product leaves that
out. Mirrors `RangeContext::historical_range`. -/
def historicalRange? (w : RangeContext) (p : Product) (s : ImportState BlockNumber) :
    Option (Range BlockNumber) := do
  let head ← w.head?
  let last ←
    if w.behaviour.skipRecent.appliesTo p.retired then head.minus? (w.windowLen + 1) else some head
  Range.between? s.origin last

/-- What a product wants of this cycle, if it takes part. An import state counts only when history
is imported. Mirrors `RangeContext::product_ranges`. -/
def productRanges? (w : RangeContext) (p : Product) (state : Option (ImportState BlockNumber)) :
    Option (ProductRanges BlockNumber) := do
  let state := match w.behaviour.mode with
    | .historical => state
    | .recent => none
  let coverage : ImportRanges BlockNumber := match state with
    | some s => if w.behaviour.ignoreState then {} else s.coverage
    | none => {}
  let full? := match state with
    | some s => w.historicalRange? p s
    | none => w.recentRange?
  match w.behaviour.forced with
  | none => return ⟨p.key, ← full?, coverage.covered, coverage.toRetry⟩
  | some bounds =>
    let full ← full?
    return ⟨p.key, ← full.clamp bounds, coverage.covered,
      Range.merge (coverage.toRetry.filterMap (·.clamp bounds))⟩

end RangeContext
end Backfill
