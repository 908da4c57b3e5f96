import Backfill.Range.Basic
import Backfill.Time.Instant

/-!
# Time slots

Time is cut into slots of one length, aligned on the epoch. A slot is sampled once, at the block
taken for the last one produced in it.
-/
namespace Backfill

/-- Slots of a length in milliseconds. Mirrors `TimeGrid`. -/
structure TimeGrid where
  interval : UInt64
  pos : 0 < interval

namespace TimeGrid

/-- Slots of the length, of a millisecond at least. A length counts in 64 bits. Mirrors
`TimeGrid::new`. -/
def ofMillis (interval : Nat) : TimeGrid :=
  if h : 0 < UInt64.ofNat interval then ⟨UInt64.ofNat interval, h⟩ else ⟨1, by decide⟩

/-- The start of the slot that holds an instant. Lengths from `2 ^ 63` on are taken as signed
numbers, of which only the absolute value matters. Mirrors `TimeGrid::floor`. -/
def floor (s : TimeGrid) (t : Instant) : Instant :=
  Axis.stepDown t (t.millis % s.interval.toInt64.toInt).toNat

/-- The end of the last slot that is over. Mirrors `TimeGrid::last_complete`. -/
def lastComplete (s : TimeGrid) (t : Instant) : Instant := Axis.prev (s.floor t)

end TimeGrid

/-- The head of a chain: its highest settled block and when that was produced.
Mirrors `Frontier`. -/
structure Frontier where
  block : BlockNumber
  time : Instant
  deriving DecidableEq

namespace Frontier

/-- The block taken for the last one produced by an instant, on a chain with `blockMillis`
milliseconds between blocks. Mirrors `Frontier::block_at`. -/
def blockAt (f : Frontier) (t : Instant) (blockMillis : Nat) : BlockNumber :=
  let behind := Axis.distance t f.time
  let m := max 1 blockMillis
  Axis.stepDown f.block ((behind + (m - 1)) / m)

end Frontier
end Backfill
