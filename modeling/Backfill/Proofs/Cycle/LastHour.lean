import Backfill.Proofs.Cycle.WholeSlots

/-!
# Where history ends and the last hour begins

Two snapshot runners can share out the slots of a product. One samples the history and leaves the
last hour out, the other one samples the last hour and needs no state for it. The last hour begins
with the slot that holds the instant an hour before the head, and the slot of the head is not over.
If `o`, `w` and `n` number the slots of the origin, of the beginning of the last hour and of the
head, the first snapshot runner wants slots `o` to `w - 1` and the second one slots `w` to `n - 1`.
Each of them may be left with none: the first one if the origin is no earlier than the last hour,
the second one if a slot is so long that it began more than an hour ago.

Results:
* `TimeGrid.between?_eq_some`: ranges from the beginning of one slot to before another one.
* `TimeGrid.Roomy.holds_either`: which milliseconds lie in either part.
* `SnapshotRunner.Handover.wanted?_past`, `SnapshotRunner.Handover.wanted?_present`: the two parts.
* `SnapshotRunner.Handover.slots_shared_out`: the two parts together.
* `HourOldVault.two_quarters_of_history`: a vault a little older than an hour.
-/
namespace Backfill

open Axis Range

/-! ## Slots by their numbers -/

namespace TimeGrid

variable {s : TimeGrid} {t u : Instant} {r : Range Instant} {j k n : Int}

def number (s : TimeGrid) (millis : Int) : Int := millis / s.len

theorem number_mul_le (s : TimeGrid) (n : Int) : s.number n * s.len ≤ n :=
  Int.ediv_mul_le n (Int.ne_of_gt s.len_pos)

theorem number_mono (s : TimeGrid) {m n : Int} (h : m ≤ n) : s.number m ≤ s.number n :=
  Int.ediv_le_ediv s.len_pos h

theorem le_number (s : TimeGrid) : (k + 1) * s.len ≤ n ↔ k < s.number n :=
  (Int.le_ediv_iff_mul_le s.len_pos).symm

theorem mul_le_mul_len (s : TimeGrid) : j * s.len ≤ k * s.len ↔ j ≤ k :=
  Int.mul_le_mul_right s.len_pos

theorem mul_lt_mul_len (s : TimeGrid) : j * s.len < k * s.len ↔ j < k :=
  Int.mul_lt_mul_right s.len_pos

theorem number_mul_mono (s : TimeGrid) {m n : Int} (h : m ≤ n) :
    s.number m * s.len ≤ s.number n * s.len :=
  s.mul_le_mul_len.mpr (s.number_mono h)

theorem nanos_prev (ht : t.nanos = n * 1000000) (hroom : place Instant.earliest < n) :
    (prev t).nanos = (n - 1) * 1000000 := by
  have hprev : (prev t).nanos = max (-8334601228800000000000) (t.nanos - 1000000) := coord_prev t
  have hearliest : place Instant.earliest = -8334601228800000 := by decide
  omega

theorem spans_iff : s.Spans j (k - 1) r ↔
    j < k ∧ coord r.first = j * s.len * 1000000 ∧ coord r.last = (k * s.len - 1) * 1000000 := by
  constructor
  · intro h
    have hlast : coord r.last = ((k - 1 + 1) * s.len - 1) * 1000000 := h.last
    rw [Int.sub_add_cancel] at hlast
    exact ⟨Int.lt_of_le_sub_one h.order, h.first, hlast⟩
  · intro ⟨hlt, hfirst, hlast⟩
    rw [← Int.sub_add_cancel k 1] at hlast
    exact ⟨Int.le_sub_one_of_lt hlt, hfirst, hlast⟩

/-- From the beginning of slot number `j` to before slot number `k` there are whole slots, if
any. -/
theorem between?_eq_some (ht : t.nanos = j * s.len * 1000000)
    (hu : u.nanos = (k * s.len - 1) * 1000000) : between? t u = some r ↔ s.Spans j (k - 1) r := by
  rw [Range.between?_eq_some, spans_iff]
  constructor
  · intro ⟨heq, hvalid⟩
    subst heq
    have hle : t.nanos ≤ u.nanos := hvalid
    exact ⟨s.mul_lt_mul_len.mp (by omega), ht, hu⟩
  · intro ⟨hlt, hfirst, hlast⟩
    have hbegins : j * s.len < k * s.len := s.mul_lt_mul_len.mpr hlt
    obtain rfl : r.first = t := coord_inj (hfirst.trans ht.symm)
    obtain rfl : r.last = u := coord_inj (hlast.trans hu.symm)
    have hvalid : r.first.nanos ≤ r.last.nanos := by omega
    exact ⟨rfl, hvalid⟩

theorem exists_spans_between (ht : t.nanos = j * s.len * 1000000)
    (hu : u.nanos = (k * s.len - 1) * 1000000) (hj : j * s.len ≤ n) (hk : n < k * s.len) :
    ∃ r, s.Spans j (k - 1) r :=
  ⟨⟨t, u⟩, spans_iff.mpr ⟨s.mul_lt_mul_len.mp (Int.lt_of_le_of_lt hj hk), ht, hu⟩⟩

theorem mem_spans (hr : s.Spans j (k - 1) r) (ht : Whole t) :
    t ∈ r ↔ j * s.len ≤ place t ∧ place t < k * s.len := by
  have hcoord : coord t = place t * 1000000 := coord_eq_place ht
  obtain ⟨-, hfirst, hlast⟩ := spans_iff.mp hr
  rw [mem_def]
  omega

/-- Where the slots of one range end those of another one may begin. -/
theorem spans_meet {q : Range Instant} {l : Int} (hr : s.Spans j (k - 1) r) (hq : s.Spans k l q) :
    next r.last = q.first ∧ ∀ t ∈ r, t ∉ q := by
  obtain ⟨-, -, hlast⟩ := spans_iff.mp hr
  have hfirst : coord q.first = k * s.len * 1000000 := hq.first
  constructor
  · have hnext : coord (next r.last) = min (highest Instant) (coord r.last + 1000000) :=
      coord_next r.last
    have hbound := (coord_mem q.first).2
    exact coord_inj (by omega)
  · intro t ht ht'
    rw [mem_def] at ht ht'
    omega

/-- Whole milliseconds, from which no step leaves the axis: neither down to the slot of the origin,
nor to the millisecond before the slot that holds the instant an hour before the head. -/
structure Roomy (s : TimeGrid) (head origin : Instant) : Prop where
  len : s.len < 2 ^ 63
  whole_head : Whole head
  whole_origin : Whole origin
  fits_origin : s.Fits origin
  hour : place Instant.earliest < s.number (place head - 3600000) * s.len

namespace Roomy

variable {head origin : Instant} (h : s.Roomy head origin)

include h

theorem nanos_origin : (s.floor origin).nanos = s.number (place origin) * s.len * 1000000 :=
  coord_floor h.len h.whole_origin h.fits_origin

theorem place_hour : Whole (stepDown head 3600000) ∧
    place (stepDown head 3600000) = place head - 3600000 := by
  have hhead : coord head = place head * 1000000 := coord_eq_place h.whole_head
  have hdown : coord (stepDown head 3600000) =
      max (-8334601228800000000000) (coord head - 3600000 * 1000000) := coord_stepDown head 3600000
  have hearliest : place Instant.earliest = -8334601228800000 := by decide
  have hroom := h.hour
  have hfloor := s.number_mul_le (place head - 3600000)
  have hcoord : coord (stepDown head 3600000) = (place head - 3600000) * 1000000 := by omega
  refine ⟨whole_stepDown h.whole_head _, ?_⟩
  rw [place, hcoord]
  exact Int.mul_ediv_cancel _ (by decide)

theorem nanos_hour : (s.floor (stepDown head 3600000)).nanos =
    s.number (place head - 3600000) * s.len * 1000000 := by
  obtain ⟨hwhole, hplace⟩ := h.place_hour
  have hfits : s.Fits (stepDown head 3600000) := by
    rw [Fits, hplace]
    exact Int.le_of_lt h.hour
  have hfloor : (s.floor (stepDown head 3600000)).nanos =
      place (stepDown head 3600000) / s.len * s.len * 1000000 := coord_floor h.len hwhole hfits
  rw [hfloor, hplace, number]

theorem nanos_before_hour : (prev (s.floor (stepDown head 3600000))).nanos =
    (s.number (place head - 3600000) * s.len - 1) * 1000000 :=
  nanos_prev h.nanos_hour h.hour

theorem nanos_lastComplete : (s.lastComplete head).nanos =
    (s.number (place head) * s.len - 1) * 1000000 := by
  have hmono : s.number (place head - 3600000) * s.len ≤ s.number (place head) * s.len :=
    s.number_mul_mono (by omega)
  have hroom : place Instant.earliest < s.number (place head) * s.len :=
    Int.lt_of_lt_of_le h.hour hmono
  exact nanos_prev (coord_floor h.len h.whole_head (Int.le_of_lt hroom)) hroom

/-- The slots from that of the origin to before the last hour, and those of the last hour that are
over, are all from the earlier one of both on. -/
theorem holds_either (ht : Whole t) :
    (∃ r, (s.Spans (s.number (place origin)) (s.number (place head - 3600000) - 1) r ∨
        s.Spans (s.number (place head - 3600000)) (s.number (place head) - 1) r) ∧ t ∈ r) ↔
      coord (least (s.floor origin) (s.floor (stepDown head 3600000))) ≤ coord t ∧
        coord t ≤ coord (s.lastComplete head) := by
  have hcoord : coord t = place t * 1000000 := coord_eq_place ht
  have hfirst : coord (least (s.floor origin) (s.floor (stepDown head 3600000))) =
      min (s.number (place origin) * s.len * 1000000)
        (s.number (place head - 3600000) * s.len * 1000000) := by
    rw [coord_least, ← h.nanos_origin, ← h.nanos_hour]
    rfl
  have hlast : coord (s.lastComplete head) = (s.number (place head) * s.len - 1) * 1000000 :=
    h.nanos_lastComplete
  have hmono : s.number (place head - 3600000) * s.len ≤ s.number (place head) * s.len :=
    s.number_mul_mono (by omega)
  constructor
  · rintro ⟨r, hr | hr, hmem⟩
    · rw [mem_spans hr ht] at hmem
      omega
    · rw [mem_spans hr ht] at hmem
      omega
  · intro hbounds
    by_cases hearly : place t < s.number (place head - 3600000) * s.len
    · have horigin : s.number (place origin) * s.len ≤ place t := by omega
      obtain ⟨r, hr⟩ := exists_spans_between h.nanos_origin h.nanos_before_hour horigin hearly
      exact ⟨r, .inl hr, (mem_spans hr ht).mpr ⟨horigin, hearly⟩⟩
    · have hover : place t < s.number (place head) * s.len := by omega
      obtain ⟨r, hr⟩ := exists_spans_between h.nanos_hour h.nanos_lastComplete (by omega) hover
      exact ⟨r, .inr hr, (mem_spans hr ht).mpr ⟨by omega, hover⟩⟩

/-- A slot is over at the head if and only if it ends no later than the last one that is. -/
theorem over_iff (hr : s.Spans k k r) :
    coord r.last < coord head ↔ coord r.last ≤ coord (s.lastComplete head) := by
  have hhead : coord head = place head * 1000000 := coord_eq_place h.whole_head
  have hlast : coord r.last = ((k + 1) * s.len - 1) * 1000000 := hr.last
  have hcomplete : coord (s.lastComplete head) = (s.number (place head) * s.len - 1) * 1000000 :=
    h.nanos_lastComplete
  have hover : (k + 1) * s.len ≤ place head ↔ (k + 1) * s.len ≤ s.number (place head) * s.len :=
    s.le_number.trans (s.mul_le_mul_len.trans Int.add_one_le_iff).symm
  omega

end Roomy
end TimeGrid

/-! ## The two parts -/

namespace SnapshotRunner

/-- Two snapshot runners of the same slots: `past` samples what a product has before the last hour,
and `present` samples the last hour. -/
structure Handover (p : Product) (past present : SnapshotRunner) : Prop where
  slots : past.slots = present.slots
  historical : past.behaviour.mode = .historical
  skips : past.behaviour.skipRecent.appliesTo p.retired = true
  recent : present.behaviour.mode = .recent

variable {σ τ : Type} [ImportStateStore σ Instant] [ImportStateStore τ BlockNumber]

/-- The range that a product wants to be sampled in a cycle, from what is stored by then. -/
def wanted? (s : SnapshotRunner) (sources : Sources) (positions : τ) (f : Frontier)
    (lastImported : Option Instant) (p : Product) (states : σ) : Option (Range Instant) :=
  (s.productRanges? sources positions f lastImported p states).1.map (·.full)

namespace Handover

variable {p : Product} {past present : SnapshotRunner} (h : Handover p past present) {f : Frontier}
  {x : ImportState Instant} {r : Range Instant} (hroom : past.slots.Roomy f.time x.origin)
  (sources : Sources) (positions : τ) (lastImported : Option Instant) (states : σ)

include h hroom

/-- The snapshot runner of the history wants the slots from that of the origin to before the last
hour. -/
theorem wanted?_past (hopen : (importState sources positions p states).1 = some x) :
    past.wanted? sources positions f lastImported p states = some r ↔
      past.slots.Spans (past.slots.number (place x.origin))
        (past.slots.number (place f.time - 3600000) - 1) r := by
  have hlast : (least (past.slots.lastComplete f.time) (prev (past.windowStart f))).nanos =
      (past.slots.number (place f.time - 3600000) * past.slots.len - 1) * 1000000 := by
    have hleast : (least (past.slots.lastComplete f.time) (prev (past.windowStart f))).nanos =
        min (past.slots.lastComplete f.time).nanos (prev (past.windowStart f)).nanos :=
      coord_least (past.slots.lastComplete f.time) (prev (past.windowStart f))
    have hmono := past.slots.number_mul_mono
      (m := place f.time - 3600000) (n := place f.time) (by omega)
    rw [hleast, hroom.nanos_lastComplete, windowStart, hroom.nanos_before_hour]
    omega
  have hwanted : past.wanted? sources positions f lastImported p states =
      between? (past.slots.floor x.origin)
        (least (past.slots.lastComplete f.time) (prev (past.windowStart f))) := by
    simp only [wanted?, productRanges?, h.historical, hopen, Option.bind_some, productRangesWith?,
      fullRange?, h.skips, if_true, Option.map_map]
    exact Option.map_id_apply ..
  rw [hwanted]
  exact TimeGrid.between?_eq_some hroom.nanos_origin hlast

theorem wanted?_present :
    present.wanted? sources positions f none p states = some r ↔
      past.slots.Spans (past.slots.number (place f.time - 3600000))
        (past.slots.number (place f.time) - 1) r := by
  have hwanted : present.wanted? sources positions f none p states =
      between? (past.windowStart f) (past.slots.lastComplete f.time) := by
    simp only [wanted?, productRanges?, h.recent, productRangesWith?, fullRange?, windowStart,
      h.slots, Option.map_map]
    exact Option.map_id_apply ..
  rw [hwanted]
  exact TimeGrid.between?_eq_some hroom.nanos_hour hroom.nanos_lastComplete

/-! ## Together -/

/-- **Shared out.** The snapshot runner of the history wants nothing that is not a range of whole
slots, and so does the one of the last hour. If both want something, the one range ends right before
the other one begins. Together they have every millisecond from the slot of the origin, or from the
last hour if that begins earlier, to the last slot that is over, and no other one. The slots up to
there are those that end before the head. -/
theorem slots_shared_out (hopen : (importState sources positions p states).1 = some x)
    {sources' : Sources} {positions' : τ} {states' : σ} {history recent : Option (Range Instant)}
    (hhistory : past.wanted? sources positions f lastImported p states = history)
    (hrecent : present.wanted? sources' positions' f none p states' = recent) :
    (∀ r, r ∈ history ∨ r ∈ recent → ∃ j k, past.slots.Spans j k r) ∧
      (∀ r ∈ history, ∀ q ∈ recent, next r.last = q.first ∧ ∀ t ∈ r, t ∉ q) ∧
      (∀ t, Whole t → ((∃ r, (r ∈ history ∨ r ∈ recent) ∧ t ∈ r) ↔
        coord (least (past.slots.floor x.origin) (past.windowStart f)) ≤ coord t ∧
          coord t ≤ coord (past.slots.lastComplete f.time))) ∧
      ∀ k slot, past.slots.Spans k k slot →
        (coord slot.last < coord f.time ↔
          coord slot.last ≤ coord (past.slots.lastComplete f.time)) := by
  subst hhistory hrecent
  have hpast := fun r => h.wanted?_past hroom sources positions lastImported states hopen (r := r)
  have hpresent := fun r => h.wanted?_present hroom sources' positions' states' (r := r)
  simp only [Option.mem_def, hpast, hpresent]
  refine ⟨?_, fun r hr q hq => TimeGrid.spans_meet hr hq, fun t ht => ?_, fun k slot hslot =>
    hroom.over_iff hslot⟩
  · rintro r (hr | hr)
    · exact ⟨_, _, hr⟩
    · exact ⟨_, _, hr⟩
  · exact hroom.holds_either ht

end Handover
end SnapshotRunner

/-! ## A vault a little older than an hour -/

namespace HourOldVault

open SnapshotRunner
open StrictCycle (product)

def mock : MockChain := { baseMillis := -6500000, creations := [(.ofNat 9, 0)] }

def head : Frontier := ⟨1755, mock.timeOf 1755⟩

def snapshotRunner (mode : ImportMode) : SnapshotRunner :=
  { chain := .fantom, behaviour := { Behaviour.ofMode mode with skipRecent := .live }
    slots := .ofMillis 900000 }

def states : MemoryImportStateStore Instant := ⟨.empty⟩

def positions : MemoryImportStateStore BlockNumber := ⟨.empty⟩

def state : ImportState Instant :=
  .fresh product.shareRateKey product.id product.chain (mock.timeOf 0)
    (some (Stamp.ofInstant (mock.timeOf 0)))

/-- What the vault wants in a mode, in nanoseconds since the epoch. -/
def wanted (mode : ImportMode) : Option (Int × Int) :=
  ((snapshotRunner mode).wanted? mock.sources positions head none product states).map fun r =>
    (r.first.nanos, r.last.nanos)

theorem handover : Handover product (snapshotRunner .historical) (snapshotRunner .recent) where
  slots := rfl
  historical := rfl
  skips := rfl
  recent := rfl

theorem roomy : (snapshotRunner .historical).slots.Roomy head.time state.origin where
  len := by decide
  whole_head := by unfold Whole; decide +kernel
  whole_origin := by unfold Whole; decide +kernel
  fits_origin := by unfold TimeGrid.Fits; decide +kernel
  hour := by decide +kernel

/-- Two quarters lie before the last hour, and four of the last hour are over. The two parts meet,
and no millisecond of them is left out. -/
theorem two_quarters_of_history :
    wanted .historical = some (-7200000000000, -5400001000000) ∧
      wanted .recent = some (-5400000000000, -1800001000000) ∧
      ∃ history recent,
        (snapshotRunner .historical).wanted? mock.sources positions head none product states =
            some history ∧
          (snapshotRunner .recent).wanted? mock.sources positions head none product states =
            some recent ∧
          next history.last = recent.first ∧
          ∀ t : Instant, Whole t → -7200000000000 ≤ t.nanos → t.nanos ≤ -1800001000000 →
            t ∈ history ∨ t ∈ recent := by
  have hhistory : wanted .historical = some (-7200000000000, -5400001000000) := by decide +kernel
  have hrecent : wanted .recent = some (-5400000000000, -1800001000000) := by decide +kernel
  obtain ⟨history, hpast, -⟩ := Option.map_eq_some_iff.mp hhistory
  obtain ⟨recent, hpresent, -⟩ := Option.map_eq_some_iff.mp hrecent
  obtain ⟨-, hmeet, hboth, -⟩ :=
    handover.slots_shared_out roomy mock.sources positions none states rfl hpast hpresent
  refine ⟨hhistory, hrecent, history, recent, hpast, hpresent, (hmeet _ rfl _ rfl).1,
    fun t ht hfirst hlast => ?_⟩
  have hlow : coord (least ((snapshotRunner .historical).slots.floor state.origin)
      ((snapshotRunner .historical).windowStart head)) = -7200000000000 := by decide +kernel
  have hhigh : coord ((snapshotRunner .historical).slots.lastComplete head.time) =
      -1800001000000 := by
    decide +kernel
  obtain ⟨r, hr | hr, hmem⟩ := (hboth t ht).mpr (by rw [hlow, hhigh]; exact ⟨hfirst, hlast⟩)
  · exact .inl (Option.some.inj hr ▸ hmem)
  · exact .inr (Option.some.inj hr ▸ hmem)

end HourOldVault
end Backfill
