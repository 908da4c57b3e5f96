import Backfill.Axis

/-!
# Instants

An instant is a number of nanoseconds since 1970-01-01 00:00 UTC, without leap seconds. The axis of
instants is walked in whole milliseconds, so what lies below a millisecond is kept by every step.
-/
namespace Backfill

/-- A moment between the start of year -262143 and the end of year 262142.
Mirrors `DateTime<Utc>`. -/
structure Instant where
  nanos : Int
  first_le : -8334601228800000000000 ≤ nanos := by decide
  le_last : nanos ≤ 8210266876799999999999 := by decide
  deriving DecidableEq

namespace Instant

def earliest : Instant where nanos := -8334601228800000000000

def latest : Instant where nanos := 8210266876799999999999

/-- 1970-01-01 00:00 UTC. -/
def epoch : Instant where nanos := 0

def ofNanos? (n : Int) : Option Instant :=
  if h : -8334601228800000000000 ≤ n ∧ n ≤ 8210266876799999999999 then some ⟨n, h.1, h.2⟩ else none

/-- The instant `n` nanoseconds after the epoch, or the end of the range on that side. -/
def nearest (n : Int) : Instant where
  nanos := max (-8334601228800000000000) (min 8210266876799999999999 n)
  first_le := by omega
  le_last := by omega

def ofSeconds? (s : Int) : Option Instant := ofNanos? (s * 1000000000)

/-- Whole milliseconds since the epoch, rounded down. -/
def millis (t : Instant) : Int := t.nanos / 1000000

theorem ext_nanos {a b : Instant} (h : a.nanos = b.nanos) : a = b := by
  cases a; cases b; simp_all

instance : Inhabited Instant := ⟨epoch⟩

end Instant

/-- A step of time is a millisecond. -/
instance : Axis Instant where
  coord := Instant.nanos
  nearest := Instant.nearest
  lowest := -8334601228800000000000
  highest := 8210266876799999999999
  unit := 1000000
  coord_inj := Instant.ext_nanos
  coord_mem t := ⟨t.first_le, t.le_last⟩
  coord_nearest _ := rfl
  unit_pos := by decide

end Backfill
