import Backfill.Proofs.Cycle.Sampling
import Backfill.Proofs.Range.Aligned
import Backfill.Mock.Chain

/-!
# What is sampled is whole slots

A plan knows nothing of slots: it cuts ranges from their ends. That it asks for single slots all the
same is kept along the rounds of a snapshot runner. Full ranges begin and end with slots, for what a
head or an origin is taken down to begins one, and one ends where the last import stopped. What
results leave covered or to be retried is made of whole slots again.

Where the axis begins, at the earliest instant, nothing ends before a slot. A head in the slot that
begins there has no slot behind it, and is asked for the earliest instant alone.

Results:
* `TimeGrid.begins_floor`, `TimeGrid.Begins.prev`: where slots begin and end.
* `SnapshotRunner.aligned_fullRange`: full ranges are made of whole slots.
* `SnapshotRunner.slot_of_query`, `SnapshotRunner.OnGrid.runCycle`: one round.
* `sampled_in_slots`: rounds from empty stores.
* `QuarterHours.earliest_sampled_alone`: a head in the first slot of the axis.
-/
namespace Backfill

open Axis Range

/-! ## Where slots begin and end -/

namespace TimeGrid

variable {s : TimeGrid} {t u : Instant}

abbrev len (s : TimeGrid) : Nat := s.interval.toNat

/-- The axis reaches down to the beginning of the slot that holds an instant. -/
def Fits (s : TimeGrid) (t : Instant) : Prop :=
  place Instant.earliest ≤ place t / (s.len : Int) * s.len

/-- The millisecond before an instant is on the axis. Slots of a millisecond need none. -/
def Preceded (s : TimeGrid) (t : Instant) : Prop := s.len = 1 ∨ t ≠ .earliest

structure Begins (s : TimeGrid) (t : Instant) : Prop where
  whole : Whole t
  dvd : (s.len : Int) ∣ place t

structure Ends (s : TimeGrid) (t : Instant) : Prop where
  whole : Whole t
  dvd : (s.len : Int) ∣ place t + 1

theorem len_pos (s : TimeGrid) : (0 : Int) < s.len :=
  Int.ofNat_lt.mpr (UInt64.lt_iff_toNat_lt.mp s.pos)

theorem whole_earliest : Whole Instant.earliest := by
  unfold Whole
  decide

/-- Walking down stays on the grid of milliseconds: the axis begins with a whole one. -/
theorem whole_stepDown (h : Whole t) (n : Nat) : Whole (stepDown t n) := by
  have hlow : unit Instant ∣ lowest Instant := by decide
  rw [Whole, coord_stepDown]
  rcases Int.le_total (lowest Instant) (coord t - n * unit Instant) with hle | hle
  · rw [Int.max_eq_right hle]
    exact Int.dvd_sub h (Int.dvd_mul_left ..)
  · rw [Int.max_eq_left hle]
    exact hlow

theorem toInt_interval (hlen : s.len < 2 ^ 63) : s.interval.toInt64.toInt = s.len := by
  calc s.interval.toInt64.toInt
      = (UInt64.ofNat s.len).toInt64.toInt := by rw [UInt64.ofNat_toNat]
    _ = (Int64.ofNat s.len).toInt := by rw [UInt64.toInt64_ofNat']
    _ = s.len := Int64.toInt_ofNat_of_lt hlen

/-- An instant is taken down to the first millisecond of its slot. -/
theorem coord_floor (hlen : s.len < 2 ^ 63) (ht : Whole t) (hfits : s.Fits t) :
    coord (s.floor t) = place t / s.len * s.len * unit Instant := by
  have hback : ((t.millis % s.interval.toInt64.toInt).toNat : Int) = place t % s.len := by
    rw [toInt_interval hlen, Int.toNat_of_nonneg (Int.emod_nonneg _ (Int.ne_of_gt s.len_pos))]
    rfl
  have hlow : lowest Instant ≤ place t / s.len * s.len * unit Instant :=
    (Int.mul_le_mul_right (unit_pos (α := Instant))).mpr hfits
  have hdown : coord t - place t % s.len * unit Instant =
      place t / s.len * s.len * unit Instant := by
    rw [coord_eq_place ht, ← Int.sub_mul]
    congr 1
    have := Int.emod_add_mul_ediv (place t) s.len
    rw [Int.mul_comm] at this
    omega
  rw [floor, coord_stepDown, hback, hdown, Int.max_eq_right hlow]

theorem begins_floor (hlen : s.len < 2 ^ 63) (ht : Whole t) (hfits : s.Fits t) :
    s.Begins (s.floor t) := by
  have hcoord := coord_floor hlen ht hfits
  refine ⟨?_, ?_⟩
  · rw [Whole, hcoord]
    exact Int.dvd_mul_left ..
  · rw [place, hcoord, Int.mul_ediv_cancel _ (Int.ne_of_gt unit_pos)]
    exact Int.dvd_mul_left ..

theorem Begins.greatest (ht : s.Begins t) (hu : s.Begins u) : s.Begins (greatest t u) := by
  unfold Axis.greatest
  split
  · exact hu
  · exact ht

theorem Ends.least (ht : s.Ends t) (hu : s.Ends u) : s.Ends (least t u) := by
  unfold Axis.least
  split
  · exact ht
  · exact hu

theorem Begins.prev (ht : s.Begins t) (hroom : s.Preceded t) : s.Ends (prev t) := by
  by_cases hne : t = .earliest
  · subst hne
    have hone : s.len = 1 := hroom.resolve_right (absurd rfl)
    exact ⟨whole_stepDown whole_earliest 1, by rw [hone]; exact Int.one_dvd _⟩
  · have hlt : coord Instant.earliest < coord t :=
      Int.lt_iff_le_and_ne.mpr ⟨(coord_mem t).1, fun heq => hne (coord_inj heq).symm⟩
    obtain ⟨hw, hp⟩ := prev_of_lt whole_earliest ht.whole hlt
    exact ⟨hw, by rw [hp, Int.sub_add_cancel]; exact ht.dvd⟩

/-- Right after a slot another one begins, if it does before a whole millisecond. -/
theorem Ends.next (ht : s.Ends t) (hu : Whole u) (hle : coord (next t) ≤ coord u) :
    s.Begins (next t) := by
  have hodd : ¬ unit Instant ∣ highest Instant := by decide
  have htop : coord u ≠ highest Instant := fun heq => hodd (heq ▸ hu)
  have hbound := (coord_mem u).2
  have hlt : coord t < coord u := by
    have hunit := unit_pos (α := Instant)
    rw [coord_next] at hle
    omega
  obtain ⟨hw, hp⟩ := next_of_lt ht.whole hu hlt
  exact ⟨hw, hp ▸ ht.dvd⟩

theorem Begins.aligned {r : Range Instant} (ht : s.Begins t) (hu : s.Ends u)
    (h : between? t u = some r) : r.Aligned s.len := by
  obtain ⟨rfl, hvalid⟩ := between?_eq_some.mp h
  exact ⟨⟨ht.whole, hu.whole, hvalid⟩, ht.dvd, hu.dvd⟩

/-- The range from slot number `j` to slot number `k`, in nanoseconds since the epoch. -/
structure Spans (s : TimeGrid) (j k : Int) (r : Range Instant) : Prop where
  order : j ≤ k
  first : r.first.nanos = j * s.len * 1000000
  last : r.last.nanos = ((k + 1) * s.len - 1) * 1000000

section Spans

variable {r : Range Instant}

/-- An aligned range is the range of some slots. -/
theorem exists_spans (h : r.Aligned s.len) : ∃ j k, s.Spans j k r := by
  obtain ⟨j, hj⟩ := h.first
  obtain ⟨k, hk⟩ := h.last
  have hfirst : r.first.nanos = place r.first * 1000000 := coord_eq_place h.proper.first
  have hlast : r.last.nanos = place r.last * 1000000 := coord_eq_place h.proper.last
  have hlt : s.len * j < s.len * k := by
    have := h.proper.place_le
    omega
  refine ⟨j, k - 1, ?_, ?_, ?_⟩
  · exact Int.le_sub_one_of_lt (Int.lt_of_mul_lt_mul_left hlt (Int.le_of_lt s.len_pos))
  · rw [hfirst, hj, Int.mul_comm j]
  · rw [hlast, Int.sub_add_cancel, Int.mul_comm k, ← hk, Int.add_sub_cancel]

theorem exists_spans_single (h : r.Slot s.len) : ∃ k, s.Spans k k r := by
  obtain ⟨k, hk⟩ := h.first
  have hfirst : r.first.nanos = place r.first * 1000000 := coord_eq_place h.proper.first
  have hlast : r.last.nanos = place r.last * 1000000 := coord_eq_place h.proper.last
  have hsize : place r.last = (k + 1) * s.len - 1 := by
    have := h.size
    rw [Int.add_mul, Int.one_mul, Int.mul_comm k]
    omega
  exact ⟨k, Int.le_refl k, by rw [hfirst, hk, Int.mul_comm k], by rw [hlast, hsize]⟩

end Spans
end TimeGrid

/-! ## Where results leave the mark -/

/-- The mark is where it was, or where a result ends. -/
theorem Cycle.furthest_of_forall {α : Type} [Axis α] {P : α → Prop} {last : Option α}
    {rs : List (ImportRangeResult α)} (hlast : ∀ a, last = some a → P a)
    (hrs : ∀ r ∈ rs, P r.range.last) : ∀ a, furthest last rs = some a → P a := by
  have hends : ∀ b ∈ (rs.filter (·.success)).map (·.range.last), P b := by
    intro b hb
    obtain ⟨r, hr, rfl⟩ := List.mem_map.mp hb
    exact hrs r (List.mem_filter.mp hr).1
  unfold furthest
  generalize (rs.filter (·.success)).map (·.range.last) = ends at hends
  induction ends generalizing last with
  | nil => exact hlast
  | cons b ends ih =>
    rw [List.forall_mem_cons] at hends
    refine ih (fun a ha => ?_) hends.2
    cases last with
    | none =>
      cases ha
      exact hends.1
    | some m =>
      cases ha
      dsimp only
      unfold greatest
      split
      · exact hends.1
      · exact hlast m rfl

/-! ## One round -/

namespace SnapshotRunner

variable {σ τ ρ : Type} {s : SnapshotRunner} {f : Frontier}

/-- The head is a whole millisecond, and the slots that it is taken down to are on the axis. -/
structure Reaches (s : SnapshotRunner) (f : Frontier) : Prop where
  whole : Whole f.time
  head : s.slots.Fits f.time
  window : s.slots.Fits (stepDown f.time 3600000)
  preceded : s.slots.Preceded (s.slots.floor f.time)

/-- All times that a round is about are whole milliseconds, and their slots are on the axis. -/
structure SnapshotCycle.Regular [ImportStateStore τ BlockNumber] (s : SnapshotRunner)
    (r : SnapshotCycle τ ρ) : Prop where
  reaches : ∀ f, (s.frontier r.conditions.sources).1 = .ok (some f) → s.Reaches f
  skips : ∀ f, (s.frontier r.conditions.sources).1 = .ok (some f) → s.behaviour.mode = .historical →
    ∀ p ∈ r.sampled s, s.behaviour.skipRecent.appliesTo p.retired = true →
      s.slots.Preceded (s.windowStart f)
  origins : s.behaviour.mode = .historical → ∀ p ∈ r.sampled s, ∀ t,
    (origin r.conditions.sources r.positions p).1 = .ok (some t) → Whole t ∧ s.slots.Fits t

/-- A state on the grid: data begins on the axis, and what is imported or failed is whole slots. -/
structure Even (s : SnapshotRunner) (x : ImportState Instant) : Prop where
  origin : Whole x.origin ∧ s.slots.Fits x.origin
  coverage : x.coverage.Aligned s.slots.len

/-- All states are on the grid, and the last import ended a slot. -/
structure OnGrid [ImportStateStore σ Instant] (s : SnapshotRunner) (b : RunnerState Instant σ ρ) :
    Prop where
  states : Loaded (fun _ => s.Even) b.states
  lastImported : ∀ t, b.progress.lastImported = some t → s.slots.Ends t

section Ranges

variable {lastImported : Option Instant} {p : Product} {x? : Option (ImportState Instant)}
  (hlen : s.slots.len < 2 ^ 63) (hf : s.Reaches f)
  (hlast : ∀ t, lastImported = some t → s.slots.Ends t) (hx : ∀ x, x? = some x → s.Even x)
  (hskip : ∀ x, x? = some x → s.behaviour.skipRecent.appliesTo p.retired = true →
    s.slots.Preceded (s.windowStart f))

include hlen hf hlast hx hskip

/-- A full range is made of whole slots. -/
theorem aligned_fullRange {full : Range Instant}
    (h : s.fullRange? f lastImported p x? = some full) : full.Aligned s.slots.len := by
  have hend : s.slots.Ends (s.slots.lastComplete f.time) :=
    (TimeGrid.begins_floor hlen hf.whole hf.head).prev hf.preceded
  have hstart : s.slots.Begins (s.windowStart f) :=
    TimeGrid.begins_floor hlen (TimeGrid.whole_stepDown hf.whole _) hf.window
  unfold fullRange? at h
  cases x? with
  | some x =>
    obtain ⟨hwhole, hfits⟩ := (hx x rfl).origin
    refine (TimeGrid.begins_floor hlen hwhole hfits).aligned ?_ h
    split
    · next hskips => exact hend.least (hstart.prev (hskip x rfl hskips))
    · exact hend
  | none =>
    cases lastImported with
    | none => exact hstart.aligned hend h
    | some t =>
      have hle : coord (next t) ≤ coord (s.slots.lastComplete f.time) := by
        have hvalid := (between?_eq_some.mp h).2
        obtain rfl := (between?_eq_some.mp h).1
        rw [Valid, coord_greatest] at hvalid
        exact Int.le_trans (Int.le_max_right ..) hvalid
      exact (hstart.greatest ((hlast t rfl).next hend.whole hle)).aligned hend h

/-- What a product wants is whole slots. -/
theorem aligned_demand {d : ProductRanges Instant}
    (h : s.productRangesWith? f lastImported p x? = some d) :
    d.full.Aligned s.slots.len ∧ (∀ r ∈ d.covered, r.Aligned s.slots.len) ∧
      ∀ r ∈ d.toRetry, r.Aligned s.slots.len := by
  obtain ⟨full, hfull, rfl⟩ := Option.map_eq_some_iff.mp h
  have haligned := aligned_fullRange hlen hf hlast hx hskip hfull
  have hempty := ImportRanges.aligned_empty (α := Instant) s.slots.len
  cases x? with
  | none => exact ⟨haligned, hempty.covered, hempty.toRetry⟩
  | some x =>
    have hcoverage :
        ImportRanges.Aligned s.slots.len (if s.behaviour.ignoreState then {} else x.coverage) := by
      split
      · exact hempty
      · exact (hx x rfl).coverage
    exact ⟨haligned, hcoverage.covered, hcoverage.toRetry⟩

end Ranges

section SnapshotCycle

variable [ImportStateStore σ Instant] [ImportStateStore τ BlockNumber] [RecordSink ρ]
  [HonestImportStateStore σ Instant] {r : SnapshotCycle τ ρ} {b : RunnerState Instant σ ρ}
  (hlen : s.slots.len < 2 ^ 63) (hb : OnGrid s b) (hr : r.Regular s)

omit [HonestImportStateStore σ Instant] [RecordSink ρ] [ImportStateStore σ Instant] in
theorem SnapshotCycle.Regular.even_freshState (hr : r.Regular s)
    (hmode : s.behaviour.mode = .historical) {p : Product} (hp : p ∈ r.sampled s) {t : Instant}
    (ht : (SnapshotRunner.origin r.conditions.sources r.positions p).1 = .ok (some t)) :
    s.Even (freshState p t) :=
  ⟨hr.origins hmode p hp t ht, ImportRanges.aligned_empty _⟩

include hlen hb hr

omit [RecordSink ρ] in
/-- **Queries.** A query of a round is about one slot. -/
theorem slot_of_query {g : Agenda} (hg : r.agenda? s b = some g) {q : Plan.Query Instant}
    (hq : q ∈ g.plan.queries) :
    q.range.Slot s.slots.len ∧ ∀ t ∈ q.targets, t.ranges = [q.range] := by
  obtain ⟨-, hfrontier, hplan⟩ := agenda?_eq_some hg
  have hspan := (Plan.check_eq_ok_iff.mp (Plan.choose_eq_ok hplan).1).maxSpan
  rw [Plan.choose_of_one hplan rfl] at hq
  obtain ⟨single, hsingle, rfl⟩ := List.mem_map.mp hq
  obtain ⟨d, hd, -, hrange⟩ := Plan.mem_singles.mp hsingle
  obtain ⟨p, hp, x?, hwant, hx⟩ := (buildRanges_loaded hb.states fun hmode p hp t ht _ =>
    hr.even_freshState hmode hp ht).2 d hd
  obtain ⟨hfull, hcovered, htoRetry⟩ := aligned_demand hlen (hr.reaches _ hfrontier)
    hb.lastImported (fun x h => (hx x h).2)
    (fun x h => hr.skips _ hfrontier (hx x h).1 p hp) hwant
  exact ⟨Plan.slot_of_piecesFor hspan hfull hcovered htoRetry _ hrange,
    fun t ht => by rw [List.mem_singleton.mp ht]; rfl⟩

theorem slot_of_result {g : Agenda} (hg : r.agenda? s b = some g) {y : ImportRangeResult Instant}
    (hy : y ∈ r.results s b g) : y.range.Slot s.slots.len := by
  obtain ⟨j, hj, -, hrange⟩ := exists_job hy
  obtain ⟨-, q, hq, t, ht, -, hmem⟩ := mem_jobs hj
  obtain ⟨hslot, hranges⟩ := slot_of_query hlen hb hr hg hq
  rw [hranges t ht, List.mem_singleton] at hmem
  exact hrange ▸ hmem ▸ hslot

/-- **A round.** What is on the grid stays there. -/
theorem OnGrid.runCycle : OnGrid s (r.runCycle s b).2 where
  states := by
    refine round_loaded hb.states (fun hmode p hp t ht _ => hr.even_freshState hmode hp ht)
      fun g hg _ p _ x hx => ⟨hx.origin, hx.coverage.applyResults (fun o ho => ?_) _⟩
    obtain ⟨y, hy, rfl⟩ := List.mem_map.mp ho
    exact (slot_of_result hlen hb hr hg (List.mem_filter.mp hy).1).toAligned
  lastImported := by
    rcases round_cases s r b with hearly | ⟨g, hg, hcomplete⟩
    · rw [hearly.lastImported]
      exact hb.lastImported
    · rw [hcomplete.lastImported]
      refine Cycle.furthest_of_forall hb.lastImported fun y hy => ?_
      have hslot := slot_of_result hlen hb hr hg hy
      exact ⟨hslot.proper.last, hslot.last⟩

end SnapshotCycle

/-! ## Rounds -/

section Rounds

variable [ImportStateStore σ Instant] [ImportStateStore τ BlockNumber] [RecordSink ρ]
  [HonestImportStateStore σ Instant] {b : RunnerState Instant σ ρ}
  {rounds : List (SnapshotCycle τ ρ)}

/-- **Rounds.** What is on the grid stays there. -/
theorem OnGrid.after (hlen : s.slots.len < 2 ^ 63) (hb : OnGrid s b)
    (hrounds : ∀ r ∈ rounds, r.Regular s) : OnGrid s (s.after b rounds) := by
  induction rounds generalizing b with
  | nil => exact hb
  | cons r rounds ih =>
    rw [List.forall_mem_cons] at hrounds
    exact ih (hb.runCycle hlen hrounds.1) hrounds.2

structure Untouched (b : RunnerState Instant σ ρ) : Prop where
  states : ∀ key x, ImportStateStore.load b.states key ≠ .ok (some x)
  lastImported : b.progress.lastImported = none

omit [ImportStateStore τ BlockNumber] [RecordSink ρ] [HonestImportStateStore σ Instant] in
theorem Untouched.onGrid (h : Untouched b) : OnGrid s b where
  states key x hx := absurd hx (h.states key x)
  lastImported t ht := by
    rw [h.lastImported] at ht
    cases ht

end Rounds
end SnapshotRunner

variable {σ τ ρ : Type} [ImportStateStore σ Instant] [ImportStateStore τ BlockNumber] [RecordSink ρ]
  [HonestImportStateStore σ Instant]

/-- **Slots.** Rounds from empty stores, some of which may be called off or fail in part, leave
nothing but whole slots as covered or to be retried, and every query that is planned is about one
slot. Lengths are below `2 ^ 63` milliseconds, and all times are whole milliseconds whose slots are
on the axis, as is the millisecond before the slot of a head. -/
theorem sampled_in_slots {s : SnapshotRunner} (hlen : s.slots.len < 2 ^ 63)
    {b : RunnerState Instant σ ρ} (hb : SnapshotRunner.Untouched b)
    {rounds : List (SnapshotRunner.SnapshotCycle τ ρ)} (hrounds : ∀ r ∈ rounds, r.Regular s) :
    (∀ key x, ImportStateStore.load (s.after b rounds).states key = .ok (some x) →
      ∀ r ∈ x.coverage.covered ++ x.coverage.toRetry, ∃ j k, s.slots.Spans j k r) ∧
    ∀ before r later, rounds = before ++ r :: later →
      ∀ g, r.agenda? s (s.after b before) = some g → ∀ q ∈ g.plan.queries,
        (∃ k, s.slots.Spans k k q.range) ∧ ∀ t ∈ q.targets, t.ranges = [q.range] := by
  refine ⟨fun key x hx r hr => ?_, fun before r later heq g hg q hq => ?_⟩
  · have hcoverage := ((hb.onGrid.after hlen hrounds).states key x hx).coverage
    rcases List.mem_append.mp hr with hr | hr
    · exact TimeGrid.exists_spans (hcoverage.covered r hr)
    · exact TimeGrid.exists_spans (hcoverage.toRetry r hr)
  · subst heq
    have hbefore := hb.onGrid.after hlen fun r' hr' => hrounds r' (List.mem_append_left _ hr')
    have hr := hrounds r (List.mem_append_right _ List.mem_cons_self)
    obtain ⟨hslot, hranges⟩ := SnapshotRunner.slot_of_query hlen hbefore hr hg hq
    exact ⟨TimeGrid.exists_spans_single hslot, hranges⟩

/-! ## Quarters of an hour -/

namespace QuarterHours

open SnapshotRunner
open StrictCycle (product)

def snapshotRunner : SnapshotRunner :=
  { chain := .fantom, behaviour := .ofMode .historical, slots := .ofMillis 900000 }

def mock : MockChain := { baseMillis := -2000000, creations := [(.ofNat 9, 150)] }

def round (mock : MockChain) (cancelled : Cancellation := fun _ => false) :
    SnapshotCycle (MemoryImportStateStore BlockNumber) MemoryRecords :=
  { conditions := { sources := mock.sources, cancelled, now := 5 }
    positions := ⟨.empty⟩, products := [product] }

def rounds : List (SnapshotCycle (MemoryImportStateStore BlockNumber) MemoryRecords) :=
  [round { mock with latest := .ok 1200, failingRates := [(357, .timeout)] },
    round { mock with latest := .ok 1500 } fun done =>
      done.calls.any (·.kind = "share_rate"),
    round { mock with latest := .ok 1500 }]

def initial : RunnerState Instant (MemoryImportStateStore Instant) MemoryRecords :=
  { states := ⟨.empty⟩, records := ⟨.empty, .empty, .empty, .empty⟩ }

/-- What is covered and what waits after rounds, in nanoseconds since the epoch. -/
def imported (rounds : List (SnapshotCycle (MemoryImportStateStore BlockNumber) MemoryRecords)) :
    Option (List (Int × Int) × List (Int × Int)) :=
  let nanos (r : Range Instant) := (r.first.nanos, r.last.nanos)
  match ImportStateStore.load (snapshotRunner.after initial rounds).states product.shareRateKey with
  | .ok (some x) => some (x.coverage.covered.map nanos, x.coverage.toRetry.map nanos)
  | _ => none

theorem untouched : Untouched initial where
  states _ _ h := by cases h
  lastImported := rfl

theorem regular_of_one {ρ : Type} {r : SnapshotCycle (MemoryImportStateStore BlockNumber) ρ}
    {p : Product} {f : Frontier} {t : Instant} (hone : r.sampled snapshotRunner = [p])
    (hfrontier : (snapshotRunner.frontier r.conditions.sources).1 = .ok (some f))
    (hf : snapshotRunner.Reaches f)
    (horigin : (origin r.conditions.sources r.positions p).1 = .ok (some t))
    (ht : Whole t ∧ snapshotRunner.slots.Fits t) : r.Regular snapshotRunner where
  reaches f' hf' := by
    cases hfrontier.symm.trans hf'
    exact hf
  skips _ _ _ _ _ h := by cases h
  origins _ p' hp t' ht' := by
    obtain rfl := List.mem_singleton.mp (hone ▸ hp)
    cases horigin.symm.trans ht'
    exact ht

theorem reaches {n : BlockNumber} (hn : n = 1200 ∨ n = 1500) :
    snapshotRunner.Reaches ⟨n, mock.timeOf n⟩ := by
  rcases hn with rfl | rfl <;>
    exact ⟨by unfold Whole; decide +kernel, by unfold TimeGrid.Fits; decide +kernel,
      by unfold TimeGrid.Fits; decide +kernel, .inr (by decide +kernel)⟩

theorem begins : Whole (mock.timeOf 150) ∧ snapshotRunner.slots.Fits (mock.timeOf 150) := by
  unfold Whole TimeGrid.Fits
  decide +kernel

theorem regular : ∀ r ∈ rounds, r.Regular snapshotRunner := by
  simp only [rounds, List.forall_mem_cons]
  exact ⟨regular_of_one rfl rfl (reaches (.inl rfl)) rfl begins,
    regular_of_one rfl rfl (reaches (.inr rfl)) rfl begins,
    regular_of_one rfl rfl (reaches (.inr rfl)) rfl begins,
    fun _ h => absurd h List.not_mem_nil⟩

/-- The first round leaves a slot to be retried, before the epoch. The last one retries it and adds
a slot. -/
theorem sampled_in_slots_quarters :
    (∀ r ∈ rounds, r.Regular snapshotRunner) ∧
    imported (rounds.take 1) =
      some ([(-1800000000000, -900001000000), (0, 899999000000)], [(-900000000000, -1000000)]) ∧
    imported (rounds.take 2) = imported (rounds.take 1) ∧
    imported rounds = some ([(-1800000000000, 1799999000000)], []) ∧
    (∀ key x,
      ImportStateStore.load (snapshotRunner.after initial rounds).states key = .ok (some x) →
      ∀ r ∈ x.coverage.covered ++ x.coverage.toRetry, ∃ j k, snapshotRunner.slots.Spans j k r) ∧
    ∀ before r later, rounds = before ++ r :: later →
      ∀ g, r.agenda? snapshotRunner (snapshotRunner.after initial before) = some g →
      ∀ q ∈ g.plan.queries,
        (∃ k, snapshotRunner.slots.Spans k k q.range) ∧ ∀ t ∈ q.targets, t.ranges = [q.range] :=
  ⟨regular, by decide +kernel, by decide +kernel, by decide +kernel,
    sampled_in_slots (by decide) untouched regular⟩

def earliest : MockChain := { baseMillis := -8334601228800000, creations := [(.ofNat 9, 0)] }

def first : SnapshotCycle (MemoryImportStateStore BlockNumber) MemoryRecords := round earliest

/-- The earliest instant is no slot of a quarter of an hour. -/
theorem not_spans_earliest (j k : Int) :
    ¬ snapshotRunner.slots.Spans j k ⟨.earliest, .earliest⟩ := by
  intro h
  have hfirst : (-8334601228800000000000 : Int) = j * 900000 * 1000000 := h.first
  have hlast : (-8334601228800000000000 : Int) = ((k + 1) * 900000 - 1) * 1000000 := h.last
  omega

/-- No slot reaches below the axis, and yet what is planned and covered is the earliest instant
alone. -/
theorem earliest_sampled_alone :
    Untouched initial ∧ snapshotRunner.slots.len < 2 ^ 63 ∧
      (∀ f, (snapshotRunner.frontier first.conditions.sources).1 = .ok (some f) →
        Whole f.time ∧ snapshotRunner.slots.Fits f.time ∧
          snapshotRunner.slots.Fits (stepDown f.time 3600000)) ∧
      (∀ p ∈ first.sampled snapshotRunner, ∀ t,
        (origin first.conditions.sources first.positions p).1 = .ok (some t) →
          Whole t ∧ snapshotRunner.slots.Fits t) ∧
      (∃ g, first.agenda? snapshotRunner initial = some g ∧
        ∃ q ∈ g.plan.queries, ¬ ∃ k, snapshotRunner.slots.Spans k k q.range) ∧
      ∃ x, ImportStateStore.load (snapshotRunner.after initial [first]).states
        product.shareRateKey =
          .ok (some x) ∧
        ∃ r ∈ x.coverage.covered, ¬ ∃ j k, snapshotRunner.slots.Spans j k r := by
  have htime : earliest.timeOf 0 = .earliest := by decide +kernel
  have hearliest : Whole Instant.earliest ∧ snapshotRunner.slots.Fits .earliest ∧
      snapshotRunner.slots.Fits (stepDown .earliest 3600000) := by
    unfold Whole TimeGrid.Fits
    decide +kernel
  have hhead : (snapshotRunner.frontier first.conditions.sources).1 =
      .ok (some ⟨0, earliest.timeOf 0⟩) :=
    rfl
  have horigin : (origin first.conditions.sources first.positions product).1 =
      .ok (some (earliest.timeOf 0)) := rfl
  have hplanned : (first.agenda? snapshotRunner initial).any (fun g =>
      g.plan.queries.map (·.range) = [⟨.earliest, .earliest⟩]) = true := by
    decide +kernel
  have hcovered : (ImportStateStore.load (snapshotRunner.after initial [first]).states
      product.shareRateKey).toOption.join.any (fun x =>
        x.coverage.covered = [⟨.earliest, .earliest⟩]) = true := by
    decide +kernel
  refine ⟨untouched, by decide, fun f hf => ?_, fun p hp t ht => ?_, ?_, ?_⟩
  · cases hhead.symm.trans hf
    rw [htime]
    exact hearliest
  · obtain rfl := List.mem_singleton.mp (show p ∈ [product] from hp)
    cases horigin.symm.trans ht
    rw [htime]
    exact ⟨hearliest.1, hearliest.2.1⟩
  · obtain ⟨g, hg, hranges⟩ := (Option.any_eq_true _ _).mp hplanned
    rw [decide_eq_true_eq] at hranges
    obtain ⟨q, hq, hrange⟩ := List.mem_map.mp (hranges ▸ List.mem_singleton.mpr rfl)
    exact ⟨g, hg, q, hq, fun ⟨k, hk⟩ => not_spans_earliest k k (hrange ▸ hk)⟩
  · obtain ⟨x, hx, hranges⟩ := (Option.any_eq_true _ _).mp hcovered
    rw [decide_eq_true_eq] at hranges
    refine ⟨x, toOption_eq_some (Option.join_eq_some_iff.mp hx), _,
      hranges ▸ List.mem_singleton.mpr rfl, fun ⟨j, k, hspan⟩ => not_spans_earliest j k hspan⟩

end QuarterHours

end Backfill
