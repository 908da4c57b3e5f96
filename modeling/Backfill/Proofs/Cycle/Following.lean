import Backfill.Proofs.Cycle.CalledOff
import Backfill.Proofs.Cycle.CatchUp
import Backfill.Proofs.Cycle.Recent
import Backfill.Proofs.Cycle.Rescan

/-!
# A runner follows the head of the chain

A runner of recent blocks sends one query for each product in a cycle. The window reaches as far
below the head as a query may span blocks, or as an hour has blocks, whichever is less, and has the
head besides: one block more than that length. A query that may span `n` blocks takes `n` blocks,
the head among them. So where the span is the smaller of the two and the window is at its longest,
the lowest block of the window is not asked for. An hour that is shorter than the span leaves no
such block.

Results:
* `Runner.holds_brought_recent`: the blocks that are asked for on behalf of a product.
* `Runner.lastImported_of_window`: where the mark is after a cycle in which everything succeeds.
* `Runner.queried_above`: while the head comes up slowly, everything above the mark is asked for.
* `follows_head`: what one cycle leaves out, and when a run of them leaves nothing out.
* `block_between_passed_over`: a block that no cycle asks for.
-/
namespace Backfill

open Axis Range

/-! ## Queries for products without coverage -/

namespace Plan

variable {α : Type} [Axis α] {limits : Limits} {ds : List (ProductRanges α)}
  {d : ProductRanges α} {a : α}

/-- A product of which nothing is imported is asked for from above. -/
theorem piecesFor_uncovered (hcovered : d.covered = []) (htoRetry : d.toRetry = []) :
    piecesFor limits d = pieces .descending limits.maxSpan d.full limits.maxQueries := by
  cases hignore : limits.ignoreState with
  | true => exact piecesFor_ignoring hignore d
  | false =>
    have hfresh : d.computeNeeded false = [d.full] := by
      rw [ProductRanges.computeNeeded, hcovered, htoRetry]
      rfl
    have hone : merge [d.full] = [d.full] := rfl
    have hnone : merge ([] : List (Range α)) = [] := rfl
    simp only [piecesFor, hignore, hfresh, htoRetry, firstPieces, hone, hnone, piecesOfAll,
      List.reverse_singleton, List.reverse_nil, List.append_nil, Bool.false_eq_true, if_false]

theorem holds_brought_uncovered [Axis.Shown α] {draws : Draws} {plan : Plan α}
    (h : choose limits draws ds = .ok plan) (hone : limits.maxProducts = 1)
    (hds : ∀ d ∈ ds, ProperRanges d) (hd : d ∈ ds) (hcovered : d.covered = [])
    (htoRetry : d.toRetry = []) (ha : Whole a) :
    Holds (brought d.key plan.queries) a ↔
      a ∈ d.full ∧ place d.full.last - place a < limits.maxQueries * limits.maxSpan := by
  have haccept := check_eq_ok_iff.mp (choose_eq_ok h).1
  obtain rfl := choose_of_one h hone
  rw [brought_singles haccept.keys hd, piecesFor_uncovered hcovered htoRetry,
    holds_piecesDown haccept.maxSpan (hds d hd).full _ ha]

end Plan

namespace Runner

variable {σ ρ : Type} [ImportStateStore σ BlockNumber] {i : Runner} {c : Conditions}
  {products : List Product} {b : RunnerState BlockNumber σ ρ} {g : Agenda} {p : Product}
  {latest : BlockNumber}

/-! ## What one cycle asks for -/

section Recent

variable (recent : i.behaviour.mode = .recent) (unforced : i.behaviour.forced = none)

include recent

theorem exists_agenda_recent (able : i.Able) (hlatest : c.sources.latest = .ok latest)
    (hkeys : ((products.filter (·.chain = i.chain)).map (·.key)).Nodup) :
    ∃ g, i.agenda? c products b = some g := by
  refine exists_agenda_of_buildRanges able hlatest hkeys fun ps => ?_
  rw [(buildRanges_recent_eq recent c.sources rfl ps b.states).1]
  refine ⟨?_, fun d hd => ?_⟩
  · exact (RangeContext.keys_productRanges?_none _ _).trans (List.filter_sublist.map _)
  · obtain ⟨p, -, hdemand⟩ := List.mem_filterMap.mp hd
    exact proper_block.mp (RangeContext.proper_productRanges?_none hdemand).full

include unforced

theorem wanted_window {d : ProductRanges BlockNumber} (hd : d ∈ i.wanted c g b) :
    (i.window g.latest b.progress.lastImported).recentRange? = some d.full ∧ d.covered = [] ∧
      d.toRetry = [] := by
  obtain ⟨p, -, -, hdemand⟩ := (wanted_recent recent).mp hd
  rw [RangeContext.productRanges?_unforced unforced] at hdemand
  obtain ⟨full, hfull, rfl⟩ := Option.map_eq_some_iff.mp hdemand
  exact ⟨hfull, rfl, rfl⟩

variable (hg : i.agenda? c products b = some g)

include hg

theorem exists_window (one : i.limits.maxAddresses = 1) {key : String} {block : BlockNumber}
    (h : Holds (Plan.brought key g.plan.queries) block) :
    ∃ full, (i.window g.latest b.progress.lastImported).recentRange? = some full ∧
    block ∈ full := by
  obtain ⟨r, hr, hblock⟩ := h
  obtain ⟨q, hq, hbrings⟩ := Plan.mem_brought.mp hr
  obtain ⟨d, hd, rfl⟩ := exists_demand_of_query hg hq hbrings
  obtain ⟨hfull, hcovered, htoRetry⟩ := wanted_window recent unforced hd
  exact ⟨d.full, hfull, ((Plan.holds_brought_uncovered (agenda?_eq_some hg).2.2 one
    (allotted_recent recent hg).1 hd hcovered htoRetry (whole_block block)).mp ⟨r, hr, hblock⟩).1⟩

/-- A product whose state can be loaded is asked for from the head down, as far as its queries
go. -/
theorem holds_brought_recent (one : i.limits.maxAddresses = 1) (hp : p ∈ g.products)
    (loads : (ImportStateStore.load b.states p.positionsKey).isOk = true) (block : BlockNumber) :
    Holds (Plan.brought p.key g.plan.queries) block ↔
      ∃ full, (i.window g.latest b.progress.lastImported).recentRange? = some full ∧ block ∈ full ∧
        full.last.toNat < block.toNat + i.behaviour.maxQueries * i.limits.maxSpan := by
  -- where there is a window the product has a demand for it
  have hdemand : ∀ full, (i.window g.latest b.progress.lastImported).recentRange? = some full →
      (Holds (Plan.brought p.key g.plan.queries) block ↔ block ∈ full ∧
        full.last.toNat < block.toNat + i.behaviour.maxQueries * i.limits.maxSpan) := by
    intro full hfull
    have hd : (⟨p.key, full, [], []⟩ : ProductRanges BlockNumber) ∈ i.wanted c g b := by
      refine (wanted_recent recent).mpr ⟨p, hp, loads, ?_⟩
      rw [RangeContext.productRanges?_unforced unforced, hfull, Option.map_some]
    rw [Plan.holds_brought_uncovered (agenda?_eq_some hg).2.2 one (allotted_recent recent hg).1 hd
      rfl rfl (whole_block block)]
    refine and_congr_right fun hblock => ?_
    simp only [place, coord_block, Axis.unit, Int.ediv_one, optimizerOptions]
    rw [← Int.natCast_mul]
    omega
  constructor
  · intro h
    obtain ⟨full, hfull, -⟩ := exists_window recent unforced hg one h
    exact ⟨full, hfull, (hdemand full hfull).mp h⟩
  · rintro ⟨full, hfull, h⟩
    exact (hdemand full hfull).mpr h

end Recent

/-! ## Where the mark is afterwards -/

section Mark

variable [RecordSink ρ] (recent : i.behaviour.mode = .recent) (unforced : i.behaviour.forced = none)
  (one : i.limits.maxAddresses = 1) (hg : i.agenda? c products b = some g)

include recent unforced one hg

/-- The results of a cycle lie in its window. -/
theorem result_window {records : ρ} {r : ImportRangeResult BlockNumber}
    (hr : r ∈ i.resultsOf c g records) :
    ∃ full, (i.window g.latest b.progress.lastImported).recentRange? = some full ∧
      r.range.last ∈ full := by
  have hkeys := (Product.collect_eq_ok (agenda?_eq_some hg).1).1
  have hperm := c.queryOrder.perm g.plan.queries
  obtain ⟨f, hf, hrf⟩ := List.mem_flatMap.mp hr
  have ho : r.outcome ∈ Cycle.outcomesOf f.product.key (i.resultsOf c g records) :=
    List.mem_map_of_mem
      (List.mem_filter.mpr ⟨hr, decide_eq_true (FetchedRange.key_of_mem_results hrf)⟩)
  obtain ⟨hproper, q, hq, range, hbrings, hin⟩ :=
    Cycle.outcome_brought hkeys ((allotted_recent recent hg).2.of_perm hperm) ho
  have hbrought : Holds (Plan.brought f.product.key g.plan.queries) r.range.last :=
    ⟨range, Plan.mem_brought.mpr ⟨q, hperm.mem_iff.mp hq, hbrings⟩, hin _ hproper.last_mem⟩
  exact exists_window recent unforced hg one hbrought

omit unforced one in
/-- Where everything succeeds, what is asked for has succeeded. -/
theorem exists_success (smooth : i.Smooth latest c products b) (hp : p ∈ g.products)
    {block : BlockNumber} (h : Holds (Plan.brought p.key g.plan.queries) block) :
    ∃ r ∈ i.resultsOf c g b.records, r.success = true ∧ block ∈ r.range := by
  have hkeys := (Product.collect_eq_ok (agenda?_eq_some hg).1).1
  have hperm := c.queryOrder.perm g.plan.queries
  have hfailures : ∀ x ∈ i.failures c g b.records,
      (x.product, x.transfer) ∈ FetchedRange.jobs (i.fetched c g) := fun x hx =>
    (c.loadOrder.perm _).mem_iff.mp (FetchedRange.mem_of_mem_failures hx)
  have hserved : Cycle.Served c.sources g.products (c.queryOrder.order g.plan.queries) p block :=
    (Cycle.served_iff smooth.answers).mpr ((Holds.of_perm (Plan.brought_perm hperm)).mpr h)
  have hfine :
      ¬ (i.behaviour.strict = true ∧ FetchedRange.Failed (i.failures c g b.records) p block) := by
    rintro ⟨hstrict, x, hx, -⟩
    rw [smooth.loads hstrict g hg] at hx
    exact List.not_mem_nil hx
  obtain ⟨o, ho, hsuccess, hblock⟩ : ∃ o ∈ Cycle.outcomesOf p.key (i.resultsOf c g b.records),
      o.success = true ∧ block ∈ o.range :=
    (Cycle.succeeds_outcomes hkeys ((allotted_recent recent hg).2.of_perm hperm) hp hfailures).mpr
      ⟨hserved, hfine⟩
  obtain ⟨r, hr, rfl⟩ := List.mem_map.mp ho
  exact ⟨r, (List.mem_filter.mp hr).1, hsuccess, hblock⟩

omit recent unforced one in
theorem lastImported_of_agenda (runs : ∀ t, c.cancelled t = false) :
    (i.runCycle c products b).2.progress.lastImported =
      Cycle.furthest b.progress.lastImported (i.resultsOf c g b.records) := by
  rw [lastImported_cycle, (cycle_of_agenda runs hg).1]
  rfl

/-- A cycle in which everything succeeds moves the mark to the head. -/
theorem lastImported_of_window (able : i.Able) (smooth : i.Smooth latest c products b)
    (hp : p ∈ g.products) (loads : (ImportStateStore.load b.states p.positionsKey).isOk = true)
    {full : Range BlockNumber}
    (hfull : (i.window g.latest b.progress.lastImported).recentRange? = some full) :
    (i.runCycle c products b).2.progress.lastImported = some full.last := by
  obtain ⟨-, hvalid, hmem⟩ := RangeContext.recentRange?_spec hfull
  have hhead : full.last ∈ full := (proper_block.mpr hvalid).last_mem
  have hroom : 0 < i.behaviour.maxQueries * i.limits.maxSpan :=
    Nat.mul_pos able.maxQueries able.maxSpan
  have hasked : Holds (Plan.brought p.key g.plan.queries) full.last :=
    (holds_brought_recent recent unforced hg one hp loads full.last).mpr
      ⟨full, hfull, hhead, by omega⟩
  obtain ⟨r, hr, hsuccess, hblock⟩ := exists_success recent hg smooth hp hasked
  rw [lastImported_of_agenda hg smooth.runs]
  refine eq_some_of_beyond fun block => ?_
  rw [Cycle.beyond_furthest]
  constructor
  · intro ⟨_, habove⟩
    exact UInt64.lt_of_le_of_lt (UInt64.le_iff_toNat_le.mpr (Int.ofNat_le.mp hblock.2))
      (habove r hr hsuccess)
  · intro hblock
    refine ⟨fun l hl => UInt64.lt_trans (((hmem full.last).mp hhead).2.2 l hl) hblock, ?_⟩
    intro r hr _
    obtain ⟨full', hfull', hlast⟩ := result_window recent unforced one hg hr
    obtain rfl : full = full' := Option.some.inj (hfull.symm.trans hfull')
    exact UInt64.lt_of_le_of_lt ((hmem _).mp hlast).1 hblock

theorem lastImported_of_none (runs : ∀ t, c.cancelled t = false)
    (hnone : (i.window g.latest b.progress.lastImported).recentRange? = none) :
    (i.runCycle c products b).2.progress.lastImported = b.progress.lastImported := by
  have hresults : i.resultsOf c g b.records = [] := by
    refine List.eq_nil_iff_forall_not_mem.mpr fun r hr => ?_
    obtain ⟨full, hfull, -⟩ := result_window recent unforced one hg hr
    rw [hnone] at hfull
    cases hfull
  rw [lastImported_of_agenda hg runs, hresults]
  rfl

end Mark

/-! ## Cycle after cycle -/

section Runs

variable [RecordSink ρ] {x : RunnerCycle σ} {xs : List (RunnerCycle σ)} {block : BlockNumber}

/-- A product takes part in a cycle, and everything succeeds. -/
structure Joins (i : Runner) (p : Product) (x : RunnerCycle σ) (b : RunnerState BlockNumber σ ρ) :
    Prop where
  smooth : ∃ latest, i.Smooth latest x.conditions x.products (begun x b)
  keys : ((x.products.filter (·.chain = i.chain)).map (·.key)).Nodup
  member : p ∈ x.products ∧ p.chain = i.chain
  loads : (ImportStateStore.load x.states p.positionsKey).isOk = true

def JoinsAll (i : Runner) (p : Product) : List (RunnerCycle σ) → RunnerState BlockNumber σ ρ → Prop
  | [], _ => True
  | x :: xs, b =>
    i.Joins p x b ∧ JoinsAll i p xs (i.runCycle x.conditions x.products (begun x b)).2

/-- The plan of a cycle asks for a block on behalf of a product. -/
def Asks (i : Runner) (p : Product) (x : RunnerCycle σ) (b : RunnerState BlockNumber σ ρ)
    (block : BlockNumber) : Prop :=
  ∃ g, i.agenda? x.conditions x.products (begun x b) = some g ∧
    Holds (Plan.brought p.key g.plan.queries) block

def Queried (i : Runner) (p : Product) :
    List (RunnerCycle σ) → RunnerState BlockNumber σ ρ → BlockNumber → Prop
  | [], _, _ => False
  | x :: xs, b, block => i.Asks p x b block ∨
    Queried i p xs (i.runCycle x.conditions x.products (begun x b)).2 block

def head? (i : Runner) (x : RunnerCycle σ) : Option BlockNumber :=
  x.conditions.sources.latest.toOption.bind (·.minus? i.behaviour.unsettled)

def height (i : Runner) (x : RunnerCycle σ) : Nat := ((i.head? x).map UInt64.toNat).getD 0

/-- From one cycle to the next the head may come up by as many blocks as a query spans, and by one
more than an hour has. -/
def Slow (i : Runner) (low high : Nat) : Prop :=
  high ≤ low + min i.limits.maxSpan (i.chain.blocksPerHour + 1)

instance (i : Runner) : DecidableRel i.Slow := fun _ _ => inferInstanceAs (Decidable (_ ≤ _))

variable (recent : i.behaviour.mode = .recent) (unforced : i.behaviour.forced = none)
  (able : i.Able) (one : i.limits.maxAddresses = 1)

include recent able

theorem Joins.exists_agenda (h : i.Joins p x b) :
    ∃ g, i.agenda? x.conditions x.products (begun x b) = some g ∧ p ∈ g.products ∧
      i.head? x = (i.window g.latest b.progress.lastImported).head? := by
  obtain ⟨latest, hsmooth⟩ := h.smooth
  obtain ⟨g, hg⟩ := exists_agenda_recent recent able hsmooth.frontier h.keys (b := begun x b)
  obtain ⟨hcollect, hlatest, -⟩ := agenda?_eq_some hg
  refine ⟨g, hg, ?_, ?_⟩
  · exact (Product.collect_eq_ok hcollect).2.mem_iff.mpr
      (List.mem_filter.mpr ⟨h.member.1, decide_eq_true h.member.2⟩)
  · rw [head?, hlatest]
    rfl

include unforced one

/-- A cycle asks for the blocks above the mark from the head down, as far as the window and the
query reach. -/
theorem Joins.asks_iff (h : i.Joins p x b) (single : i.behaviour.maxQueries = 1) :
    i.Asks p x b block ↔ ∃ head, i.head? x = some head ∧ block ≤ head ∧
      head.toNat ≤ block.toNat + min i.limits.maxSpan i.chain.blocksPerHour ∧
      head.toNat < block.toNat + i.limits.maxSpan ∧ Beyond b.progress.lastImported block := by
  obtain ⟨g, hg, hp, hhead⟩ := h.exists_agenda recent able
  have hasks : i.Asks p x b block ↔ Holds (Plan.brought p.key g.plan.queries) block := by
    constructor
    · rintro ⟨g', hg', hblock⟩
      exact Option.some.inj (hg'.symm.trans hg) ▸ hblock
    · exact fun hblock => ⟨g, hg, hblock⟩
  rw [hasks, holds_brought_recent recent unforced hg one hp h.loads, single, Nat.one_mul, hhead]
  constructor
  · rintro ⟨full, hfull, hblock, hroom⟩
    obtain ⟨hlast, -, hmem⟩ := RangeContext.recentRange?_spec hfull
    obtain ⟨hle, hlen, habove⟩ := (hmem block).mp hblock
    exact ⟨full.last, hlast, hle, hlen, hroom, habove⟩
  · rintro ⟨head, hhead', hle, hlen, hroom, habove⟩
    obtain ⟨full, hfull, hblock⟩ :=
      RangeContext.mem_recentRange?.mpr ⟨head, hhead', hle, hlen, habove⟩
    obtain ⟨hlast, -, -⟩ := RangeContext.recentRange?_spec hfull
    obtain rfl : full.last = head := Option.some.inj (hlast.symm.trans hhead')
    exact ⟨full, hfull, hblock, hroom⟩

/-- A cycle moves the mark to the head if that lies above it, and leaves it otherwise. -/
theorem Joins.lastImported (h : i.Joins p x b) :
    let mark := (i.runCycle x.conditions x.products (begun x b)).2.progress.lastImported
    (∃ head, i.head? x = some head ∧ Beyond b.progress.lastImported head ∧ mark = some head) ∨
      (∀ head, i.head? x = some head → ¬ Beyond b.progress.lastImported head) ∧
        mark = b.progress.lastImported := by
  intro mark
  obtain ⟨g, hg, hp, hhead⟩ := h.exists_agenda recent able
  obtain ⟨latest, hsmooth⟩ := h.smooth
  cases hfull : (i.window g.latest b.progress.lastImported).recentRange? with
  | none =>
    rw [hhead]
    exact .inr ⟨RangeContext.recentRange?_eq_none.mp hfull,
      lastImported_of_none recent unforced one hg hsmooth.runs hfull⟩
  | some full =>
    obtain ⟨hlast, hvalid, hmem⟩ := RangeContext.recentRange?_spec hfull
    refine .inl ⟨full.last, hhead.trans hlast, ?_, ?_⟩
    · exact ((hmem full.last).mp (proper_block.mpr hvalid).last_mem).2.2
    · exact lastImported_of_window recent unforced one hg able hsmooth hp h.loads hfull

variable (single : i.behaviour.maxQueries = 1)

include single

/-- While the head comes up slowly, every block above the mark is asked for, up to the last head.
The head never gets further from the mark than a window and a query reach. -/
theorem queried_above {l : BlockNumber} (hjoins : i.JoinsAll p xs b)
    (hmark : b.progress.lastImported = some l) {start : Nat} (hstart : start ≤ l.toNat)
    (hslow : (start :: xs.map i.height).IsChain i.Slow) (habove : l < block)
    (hbelow : block.toNat ≤ (xs.map i.height).getLastD start) : i.Queried p xs b block := by
  rw [UInt64.lt_iff_toNat_lt] at habove
  induction xs generalizing b l start with
  | nil =>
    rw [List.map_nil, List.getLastD_nil] at hbelow
    omega
  | cons x xs ih =>
    obtain ⟨hjoin, hjoins⟩ := hjoins
    rw [List.map_cons] at hslow hbelow
    obtain ⟨hstep, hslow⟩ := List.isChain_cons_cons.mp hslow
    rw [List.getLastD_cons] at hbelow
    rcases hjoin.lastImported recent unforced able one with ⟨head, hhead, hnew, hnext⟩ |
        ⟨hold, hnext⟩
    · have hheight : i.height x = head.toNat := by rw [height, hhead]; rfl
      by_cases hblock : block ≤ head
      · refine .inl ((hjoin.asks_iff recent unforced able one single).mpr ⟨head, hhead, hblock, ?_⟩)
        rw [Slow, hheight] at hstep
        refine ⟨by omega, by have := able.maxSpan; omega, ?_⟩
        rw [hmark, beyond_some, UInt64.lt_iff_toNat_lt]
        exact habove
      · rw [UInt64.le_iff_toNat_le] at hblock
        exact .inr (ih hjoins hnext (by omega) hslow (by omega) hbelow)
    · have hheight : i.height x ≤ l.toNat := by
        rw [height]
        cases hhead : i.head? x with
        | none => exact Nat.zero_le _
        | some head =>
          have hle := hold head hhead
          rw [hmark, beyond_some, UInt64.lt_iff_toNat_lt] at hle
          simpa using hle
      exact .inr (ih hjoins (hnext.trans hmark) hheight hslow habove hbelow)

/-- While the head comes up slowly, no block is left out between one that is asked for and the last
head. -/
theorem queried_between {first : BlockNumber} (hjoins : i.JoinsAll p xs b)
    (hslow : (xs.map i.height).IsChain i.Slow) (hfirst : i.Queried p xs b first)
    (habove : first ≤ block) {start : Nat}
    (hbelow : block.toNat ≤ (xs.map i.height).getLastD start) : i.Queried p xs b block := by
  induction xs generalizing b start with
  | nil => exact hfirst
  | cons x xs ih =>
    obtain ⟨hjoin, hjoins⟩ := hjoins
    rw [List.map_cons, List.getLastD_cons] at hbelow
    rcases hfirst with hfirst | hfirst
    · have hasks := (hjoin.asks_iff recent unforced able one single).mp hfirst
      obtain ⟨head, hhead, hle, hlen, hroom, hmark⟩ := hasks
      have hheight : i.height x = head.toNat := by rw [height, hhead]; rfl
      rw [UInt64.le_iff_toNat_le] at hle habove
      by_cases hblock : block ≤ head
      · refine .inl ((hjoin.asks_iff recent unforced able one single).mpr ⟨head, hhead, hblock, ?_⟩)
        refine ⟨by omega, by omega, fun l hl => ?_⟩
        exact UInt64.lt_of_lt_of_le (hmark l hl) (UInt64.le_iff_toNat_le.mpr habove)
      · -- the mark is at the head now
        rw [UInt64.le_iff_toNat_le] at hblock
        refine .inr (queried_above recent unforced able one single hjoins ?_ (Nat.le_of_eq hheight)
          hslow (UInt64.lt_iff_toNat_lt.mpr (by omega)) hbelow)
        rcases hjoin.lastImported recent unforced able one with ⟨head', hhead', -, hnext⟩ |
            ⟨hold, -⟩
        · rw [hnext, Option.some.inj (hhead'.symm.trans hhead)]
        · refine absurd (fun l hl => ?_) (hold head hhead)
          exact UInt64.lt_of_lt_of_le (hmark l hl) (UInt64.le_iff_toNat_le.mpr hle)
    · exact .inr (ih hjoins hslow.tail hfirst hbelow)

end Runs

end Runner

/-- **One block too many.** A runner of recent blocks with one query to the product and the cycle
leaves at most one block of its window out: the one that lies as far below the head as a query spans
blocks. It leaves that out where an hour has no fewer blocks than that and the block lies above the
mark. So a run in which everything succeeds leaves no block out between one that it asks for and its
last head, if the head never comes up by more blocks at a time than a query spans, nor by more than
an hour has and one. -/
theorem follows_head {σ ρ : Type} [ImportStateStore σ BlockNumber] [RecordSink ρ] {i : Runner}
    (recent : i.behaviour.mode = .recent) (unforced : i.behaviour.forced = none) (able : i.Able)
    (one : i.limits.maxAddresses = 1) (single : i.behaviour.maxQueries = 1) (p : Product) :
    (∀ (c : Runner.Conditions) (products : List Product) (b : RunnerState BlockNumber σ ρ)
      (g : Agenda),
      i.agenda? c products b = some g → p ∈ g.products →
      (ImportStateStore.load b.states p.positionsKey).isOk = true → ∀ block,
        (∃ full, (i.window g.latest b.progress.lastImported).recentRange? = some full ∧
          block ∈ full) ∧
            ¬ Holds (Plan.brought p.key g.plan.queries) block ↔
          i.limits.maxSpan ≤ i.chain.blocksPerHour ∧ Beyond b.progress.lastImported block ∧
            ∃ head, g.latest.minus? i.behaviour.unsettled = some head ∧
              head.toNat = block.toNat + i.limits.maxSpan) ∧
    ∀ (xs : List (RunnerCycle σ)) (b : RunnerState BlockNumber σ ρ), i.JoinsAll p xs b →
      (xs.map i.height).IsChain i.Slow → ∀ first block, i.Queried p xs b first → first ≤ block →
        block.toNat ≤ (xs.map i.height).getLastD 0 → i.Queried p xs b block := by
  constructor
  · intro c products b g hg hp loads block
    rw [Runner.holds_brought_recent recent unforced hg one hp loads, single, Nat.one_mul]
    have hwindow : (∃ full, (i.window g.latest b.progress.lastImported).recentRange? = some full ∧
        block ∈ full) ↔ ∃ head, g.latest.minus? i.behaviour.unsettled = some head ∧ block ≤ head ∧
          head.toNat ≤ block.toNat + min i.limits.maxSpan i.chain.blocksPerHour ∧
          Beyond b.progress.lastImported block := RangeContext.mem_recentRange?
    constructor
    · rintro ⟨hin, hout⟩
      obtain ⟨full, hfull, hblock⟩ := hin
      obtain ⟨hlast, -, hmem⟩ := RangeContext.recentRange?_spec hfull
      obtain ⟨-, hlen, habove⟩ := (hmem block).mp hblock
      have hfar : ¬ full.last.toNat < block.toNat + i.limits.maxSpan := fun hroom =>
        hout ⟨full, hfull, hblock, hroom⟩
      simp only [RangeContext.windowLen, Runner.window] at hlen
      exact ⟨by omega, habove, full.last, hlast, by omega⟩
    · rintro ⟨hhour, habove, head, hhead, heq⟩
      have hle : block ≤ head := UInt64.le_iff_toNat_le.mpr (by omega)
      refine ⟨hwindow.mpr ⟨head, hhead, hle, by omega, habove⟩, ?_⟩
      rintro ⟨full, hfull, -, hroom⟩
      obtain ⟨hlast, -, -⟩ := RangeContext.recentRange?_spec hfull
      obtain rfl : full.last = head := Option.some.inj (hlast.symm.trans hhead)
      omega
  · intro xs b hjoins hslow first block hfirst habove hbelow
    exact Runner.queried_between recent unforced able one single hjoins hslow hfirst habove hbelow

/-! ## A vault whose blocks come ten at a time -/

namespace RecentVaults

open StrictCycle (product)
open FourCycles (healthy)

def cyclesAt (heads : List BlockNumber) : List (RunnerCycle (MemoryImportStateStore BlockNumber)) :=
  heads.map fun head => ⟨healthy head, [product], ⟨.empty⟩⟩

theorem joins (head : BlockNumber)
    (b : RunnerState BlockNumber (MemoryImportStateStore BlockNumber) MemoryRecords) :
    runner.Joins product ⟨healthy head, [product], {}⟩ b where
  smooth := ⟨head, fun _ => rfl, rfl, fun _ _ => ⟨_, rfl⟩, nofun⟩
  keys := by
    have hkeys : (([product].filter (·.chain = runner.chain)).map (·.key)).Nodup := by decide
    exact hkeys
  member := ⟨List.mem_cons_self .., rfl⟩
  loads := rfl

theorem joinsAll (heads : List BlockNumber)
    (b : RunnerState BlockNumber (MemoryImportStateStore BlockNumber) MemoryRecords) :
    runner.JoinsAll product (cyclesAt heads) b := by
  induction heads generalizing b with
  | nil => trivial
  | cons head heads ih => exact ⟨joins head b, ih _⟩

/-- From block 31 on the vault is asked for every block. Of its first window it is not asked for the
lowest one. -/
theorem follows_head_slowly :
    (∀ block : BlockNumber, 31 ≤ block → block.toNat ≤ 58 →
      runner.Queried product (cyclesAt [40, 50, 58]) (initial {}) block) ∧
      ∃ g, runner.agenda? (healthy 40) [product]
        (initial ({} : MemoryImportStateStore BlockNumber)) =
          some g ∧ ¬ Holds (Plan.brought product.key g.plan.queries) 30 := by
  have able : runner.Able := ⟨by decide, by decide, by decide⟩
  obtain ⟨hcycle, hrun⟩ := follows_head (σ := MemoryImportStateStore BlockNumber)
    (ρ := MemoryRecords) (i := runner) rfl rfl able rfl rfl product
  have hslow : ((cyclesAt [40, 50, 58]).map runner.height).IsChain runner.Slow := by
    decide +kernel
  have hlast : ((cyclesAt [40, 50, 58]).map runner.height).getLastD 0 = 58 := by decide +kernel
  have hhead : BlockNumber.minus? 40 0 = some 40 := by decide +kernel
  constructor
  · have hfirst : runner.Queried product (cyclesAt [40, 50, 58]) (initial {}) 31 :=
      .inl (((joins 40 (initial {})).asks_iff rfl rfl able rfl rfl).mpr
        ⟨40, hhead, by decide, by decide, by decide, beyond_none 31⟩)
    intro block habove hbelow
    refine hrun _ _ (joinsAll [40, 50, 58] (initial {})) hslow 31 block hfirst habove ?_
    rwa [hlast]
  · obtain ⟨g, hg, hp, -⟩ := (joins 40 (initial {})).exists_agenda rfl able
    have hlatest : g.latest = 40 := (Except.ok.inj (Runner.agenda?_eq_some hg).2.1).symm
    have hfar : ∃ head, g.latest.minus? runner.behaviour.unsettled = some head ∧
        head.toNat = (30 : BlockNumber).toNat + runner.limits.maxSpan := by
      rw [hlatest]
      exact ⟨40, hhead, by decide⟩
    exact ⟨g, hg, ((hcycle _ _ _ g hg hp rfl 30).mpr ⟨by decide, beyond_none 30, hfar⟩).2⟩

/-- The head comes up by eleven blocks, one more than the window is long. Everything succeeds, and
block 41 is in no query. -/
theorem block_between_passed_over :
    let run := runner.cycleAll (cyclesAt [40, 51]) (initial {})
    min runner.limits.maxSpan runner.chain.blocksPerHour + 1 = 51 - 40 ∧
      run.2.trace.calls.filter (·.kind = "transfers") =
        [.transfers ⟨31, 40⟩ [.ofNat 9], .transfers ⟨42, 51⟩ [.ofNat 9]] ∧
      (∀ r ∈ runner.resultsAll (cyclesAt [40, 51]) (initial {}), r.success = true) ∧
      (runner.window 51 (some 40)).recentRange? = some ⟨41, 51⟩ := by
  decide +kernel

end RecentVaults

end Backfill
