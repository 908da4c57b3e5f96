import Mathlib.Data.List.Induction
import Backfill.Proofs.Cycle.States
import Backfill.Proofs.Cycle.WholeSlots
import Backfill.Proofs.Range.Places
import Backfill.Proofs.Records.Prices
import Backfill.Mock.Stores

/-!
# What is covered of a feed is stored

Work is planned for products, and coverage is kept for feeds, which products may share. A round
samples one product to the feed, which may be another one in the next round. A slot is covered only
through a result that is a success. Then a price of the feed is stored at the block that the head of
that round gives for the end of the slot, with the row of that block, and later rounds lose neither.

Reads may fail, either row may be refused, rounds may be called off, and other writers may add rows
between them.

Results:
* `SnapshotRunner.eq_of_feed`: one product to the feed.
* `SnapshotRunner.covers_of_outcome`: a round that covers a slot stores its price.
* `SnapshotRunner.backed_after`: what is covered after rounds.
* `covered_sampled`: rounds from empty stores.
-/
namespace Backfill

open Axis Range RecordTables

theorem Product.shareRateKey_inj {p q : Product} (h : p.shareRateKey = q.shareRateKey) :
    p.shareFeed = q.shareFeed :=
  Int64.toInt_inj.mp (integerText_inj ((String.append_right_inj _).mp h))

namespace SnapshotRunner

variable {σ τ ρ : Type} [ImportStateStore σ Instant] [ImportStateStore τ BlockNumber] [RecordSink ρ]
  {s : SnapshotRunner} {r : SnapshotCycle τ ρ} {b : RunnerState Instant σ ρ} {g : Agenda}

/-! ## One round -/

omit [ImportStateStore τ BlockNumber] [RecordSink ρ] in
theorem eq_of_feed {j j' : SampleJob} (hj : j ∈ jobs (r.targets s) g.plan)
    (hj' : j' ∈ jobs (r.targets s) g.plan)
    (h : j.target.product.shareFeed = j'.target.product.shareFeed) :
    j.target.product = j'.target.product :=
  congrArg SampleTarget.product
    (List.inj_on_of_nodup_map (targets_feeds _) (mem_jobs hj).1 (mem_jobs hj').1 h)

/-- A round covers a slot of a feed: up to the head it found, it sampled a product of the feed, and
came to its end with a success for the slot. -/
structure SnapshotCycle.Covers (s : SnapshotRunner) (r : SnapshotCycle τ ρ)
    (b : RunnerState Instant σ ρ) (feed : Int64) (f : Frontier) (slot : Range Instant) : Prop where
  frontier : (s.frontier r.conditions.sources).1 = .ok (some f)
  succeeded : ∃ p ∈ r.sampled s, p.shareFeed = feed ∧
    ∃ y ∈ (r.runCycle s b).1.toOption.getD [], y.key = p.key ∧ y.range = slot ∧ y.success = true

theorem SnapshotCycle.Covers.slot [HonestImportStateStore σ Instant] {feed : Int64} {f : Frontier}
    {slot : Range Instant} (h : r.Covers s b feed f slot) (hlen : s.slots.len < 2 ^ 63)
    (hb : OnGrid s b) (hr : r.Regular s) : slot.Slot s.slots.len := by
  obtain ⟨p, -, -, y, hy, -, rfl, -⟩ := h.succeeded
  rcases round_cases s r b with hearly | ⟨g, hg, hcomplete⟩
  · rw [hearly.results] at hy
    exact absurd hy List.not_mem_nil
  · rw [hcomplete.ending] at hy
    exact slot_of_result hlen hb hr hg hy

section Stored

variable [RetainingSink ρ]

/-- **Storing.** To store samples keeps what is there. A success is one of a sample whose rows are
there in the end. -/
theorem storeAll_spec (s : SnapshotRunner) (xs : List Sample) (records : ρ) :
    Retained (RecordSink.tables records) (RecordSink.tables (s.storeAll xs records).2.1) ∧
      ∀ y ∈ (s.storeAll xs records).1, y.success = true → ∃ x ∈ xs, y.key = x.product.key ∧
        y.range = x.range ∧ (RecordSink.tables (s.storeAll xs records).2.1).HasPrice s.chain
          x.product.shareFeed x.block := by
  induction xs generalizing records with
  | nil => exact ⟨.refl _, fun _ h => absurd h List.not_mem_nil⟩
  | cons x xs ih =>
    obtain ⟨hstore, hprice⟩ := s.store_spec x records
    obtain ⟨hrest, hprices⟩ := ih (s.store x records).2.1
    refine ⟨hstore.trans hrest, List.forall_mem_cons.mpr ⟨fun hsuccess => ?_, ?_⟩⟩
    · obtain ⟨hkey, hrange, -⟩ := store_about s x records
      exact ⟨x, List.mem_cons_self, hkey, hrange, (hprice hsuccess).retained hrest⟩
    · intro y hy hsuccess
      obtain ⟨x', hx', hstored⟩ := hprices y hy hsuccess
      exact ⟨x', List.mem_cons_of_mem _ hx', hstored⟩

/-- However a round ends, the rows that were there stay. -/
theorem SnapshotCycle.retained
    (hmeanwhile : Retained (RecordSink.tables b.records)
      (RecordSink.tables (r.meanwhile b.records))) :
    Retained (RecordSink.tables b.records) (RecordSink.tables (r.runCycle s b).2.records) := by
  have hstored (g : Agenda) : Retained (RecordSink.tables b.records)
      (RecordSink.tables (r.stored s b g)) :=
    hmeanwhile.trans (s.storeAll_spec (r.samples s g) (r.meanwhile b.records)).1
  rcases round_cases s r b with hearly | ⟨g, -, hcomplete⟩
  · rcases hearly.records with hrecords | ⟨g, hrecords⟩
    · rw [hrecords]
      exact hmeanwhile
    · rw [hrecords]
      exact hstored g
  · rw [hcomplete.records]
    exact hstored g

/-- **A round.** What succeeds for a product is covered for its feed, and the price is there. -/
theorem covers_of_outcome (hg : r.agenda? s b = some g)
    (hcomplete : Complete s r g b (r.runCycle s b).1 (r.runCycle s b).2) {p : Product}
    (hp : p ∈ r.sampled s) {o : RangeOutcome Instant}
    (ho : o ∈ Cycle.outcomesOf p.key (r.results s b g)) (hsuccess : o.success = true) :
    r.Covers s b p.shareFeed g.frontier o.range ∧
      (RecordSink.tables (r.runCycle s b).2.records).HasPrice s.chain p.shareFeed
        (g.frontier.blockAt o.range.last s.chain.blockMillis) := by
  obtain ⟨hkeys, hfrontier, -⟩ := agenda?_eq_some hg
  obtain ⟨y, hy, rfl⟩ := List.mem_map.mp ho
  obtain ⟨hy, hkey⟩ := List.mem_filter.mp hy
  rw [decide_eq_true_eq] at hkey
  refine ⟨⟨hfrontier, p, hp, rfl, y, ?_, hkey, rfl, hsuccess⟩, ?_⟩
  · rw [hcomplete.ending]
    exact hy
  · obtain ⟨x, hx, hxkey, hxrange, hprice⟩ :=
      (s.storeAll_spec (r.samples s g) (r.meanwhile b.records)).2 y hy hsuccess
    obtain ⟨j, hj, hproduct, hrange, hblock⟩ := mem_samples hx
    -- the product with the key of the result is the one that was sampled
    have hsampled : x.product ∈ r.sampled s :=
      List.mem_map.mpr ⟨j.target, (mem_jobs hj).1, hproduct.symm⟩
    obtain rfl : x.product = p :=
      List.inj_on_of_nodup_map hkeys hsampled hp (hxkey.symm.trans hkey)
    rw [hcomplete.records]
    change HasPrice _ _ _ (g.frontier.blockAt y.range.last _)
    rw [hxrange, hrange, ← hblock]
    exact hprice

end Stored

/-! ## Rounds -/

section Rounds

variable {rounds : List (SnapshotCycle τ ρ)} {key : String} {n : Int}

/-- A step of time is backed under the key of a feed: a round covers it with some slot, and the rows
for the slot are there in the end. -/
def Backed (s : SnapshotRunner) (b : RunnerState Instant σ ρ) (rounds : List (SnapshotCycle τ ρ))
    (key : String) (n : Int) : Prop :=
  ∃ before r later p f slot, rounds = before ++ r :: later ∧ Product.shareRateKey p = key ∧
    r.Covers s (s.after b before) p.shareFeed f slot ∧ slot.Meets n ∧
    (RecordSink.tables (s.after b rounds).records).HasPrice s.chain p.shareFeed
      (f.blockAt slot.last s.chain.blockMillis)

theorem Backed.concat (h : Backed s b rounds key n)
    (hkept : Retained (RecordSink.tables (s.after b rounds).records)
      (RecordSink.tables (s.after b (rounds ++ [r])).records)) :
    Backed s b (rounds ++ [r]) key n := by
  obtain ⟨before, r', later, p, f, slot, heq, hkey, hcovers, hmeets, hprice⟩ := h
  exact ⟨before, r', later ++ [r], p, f, slot, by simp [heq], hkey, hcovers, hmeets,
    hprice.retained hkept⟩

/-- **Rounds.** From empty stores on, whatever is covered is backed. -/
theorem backed_after [HonestImportStateStore σ Instant] [RetainingSink ρ] (hb : Untouched b)
    (hkept : ∀ r ∈ rounds, ∀ records : ρ, Retained (RecordSink.tables records)
      (RecordSink.tables (r.meanwhile records))) :
    Loaded (fun key x => ∀ n, (∃ c ∈ x.coverage.covered, c.Meets n) → Backed s b rounds key n)
      (s.after b rounds).states := by
  induction rounds using List.reverseRecOn with
  | nil => exact fun key x hx => absurd hx (hb.states key x)
  | append_singleton rounds r ih =>
    have hbefore := ih fun r' hr' => hkept r' (List.mem_append_left _ hr')
    have hround : Retained (RecordSink.tables (s.after b rounds).records)
        (RecordSink.tables (s.after b (rounds ++ [r])).records) := by
      rw [after_concat]
      exact r.retained (hkept r (List.mem_append_right _ List.mem_cons_self) _)
    rw [after_concat]
    refine round_loaded (fun key x hx n hn => (hbefore key x hx n hn).concat hround)
      (fun _ _ _ _ _ _ n ⟨c, hc, _⟩ => absurd hc List.not_mem_nil)
      fun g hg hcomplete p hp x hx n hn => ?_
    rcases ImportRanges.exists_meets_of_applyResults _ hn with hold | ⟨o, ho, hsuccess, hmeets⟩
    · exact hx n hold
    · obtain ⟨hcovers, hprice⟩ := covers_of_outcome hg hcomplete hp ho hsuccess
      exact ⟨rounds, r, [], p, g.frontier, o.range, rfl, rfl, hcovers, hmeets,
        after_concat s b rounds r ▸ hprice⟩

end Rounds
end SnapshotRunner

variable {σ τ ρ : Type} [ImportStateStore σ Instant] [ImportStateStore τ BlockNumber] [RecordSink ρ]
  [HonestImportStateStore σ Instant] [RetainingSink ρ]

/-- **Covered is sampled.** Let rounds of a snapshot runner begin with empty stores, in an honest
store of states, with records in a sink that never loses a row. Of the products that a round
samples, no two have one feed. And any instant that is covered in the end of a feed was covered by
some round with a slot, and there is a price of the feed at the block that the head of that round
gives for the end of the slot, with the row of the block. If all times are regular, that is a slot
of the grid. -/
theorem covered_sampled {s : SnapshotRunner} {b : RunnerState Instant σ ρ}
    (hb : SnapshotRunner.Untouched b) {rounds : List (SnapshotRunner.SnapshotCycle τ ρ)}
    (hkept : ∀ r ∈ rounds, ∀ records : ρ, Retained (RecordSink.tables records)
      (RecordSink.tables (r.meanwhile records))) :
    (∀ before r later, rounds = before ++ r :: later →
      ∀ g, r.agenda? s (s.after b before) = some g →
        ∀ j ∈ SnapshotRunner.jobs (r.targets s) g.plan,
          ∀ j' ∈ SnapshotRunner.jobs (r.targets s) g.plan,
          j.target.product.shareFeed = j'.target.product.shareFeed →
            j.target.product = j'.target.product) ∧
    ∀ (p : Product) x,
      ImportStateStore.load (s.after b rounds).states p.shareRateKey = .ok (some x) →
      ∀ t, Holds x.coverage.covered t →
        ∃ before r later f slot, rounds = before ++ r :: later ∧
          r.Covers s (s.after b before) p.shareFeed f slot ∧ slot.Meets (place t) ∧
          (RecordSink.tables (s.after b rounds).records).HasPrice s.chain p.shareFeed
            (f.blockAt slot.last s.chain.blockMillis) ∧
          (s.slots.len < 2 ^ 63 → (∀ r ∈ rounds, r.Regular s) → ∃ k, s.slots.Spans k k slot) := by
  refine ⟨fun _ r _ _ g _ j hj j' hj' h => SnapshotRunner.eq_of_feed hj hj' h, fun p x hx t ht =>
    ?_⟩
  obtain ⟨c, hc, ht⟩ := ht
  obtain ⟨before, r, later, q, f, slot, rfl, hkey, hcovers, hmeets, hprice⟩ :=
    SnapshotRunner.backed_after hb hkept p.shareRateKey x hx (place t) ⟨c, hc, meets_of_mem ht⟩
  have hfeed := Product.shareRateKey_inj hkey
  refine ⟨before, r, later, f, slot, rfl, hfeed ▸ hcovers, hmeets, hfeed ▸ hprice,
    fun hlen hregular => ?_⟩
  have hbefore := hb.onGrid.after hlen fun r' hr' => hregular r' (List.mem_append_left _ hr')
  have hr := hregular r (List.mem_append_right _ List.mem_cons_self)
  exact TimeGrid.exists_spans_single (hcovers.slot hlen hbefore hr)

/-! ## A vault and a boost with one feed -/

namespace SharedFeed

open SnapshotRunner
open StrictCycle (product)
open QuarterHours (snapshotRunner mock)

/-- Shares of the vault are staked in it, so it has the same price. -/
def boost : Product :=
  { product with
    id := 9, key := "boost", data := .boost ⟨"boost", .ofNat 11, .ofNat 9, 18, 18⟩ }

def mended (records : Refusing MemoryRecords) : Refusing MemoryRecords :=
  { records with broken := [] }

/-- The first round is about both products: one price cannot be read, and one is refused. The second
one is about the vault alone. -/
def rounds : List (SnapshotCycle (MemoryImportStateStore BlockNumber) (Refusing MemoryRecords)) :=
  [{ conditions :=
      { sources := { mock with
          latest := .ok 1200, creations := [(.ofNat 11, 150)]
          failingRates := [(357, .timeout)] }.sources
        now := 5 }
     positions := ⟨.empty⟩, products := [product, boost] },
    { conditions := { sources := { mock with latest := .ok 1500 }.sources, now := 6 }
      positions := ⟨.empty⟩, products := [product], meanwhile := mended }]

def initial : RunnerState Instant (MemoryImportStateStore Instant) (Refusing MemoryRecords) :=
  { states := ⟨.empty⟩, records := ⟨⟨.empty, .empty, .empty, .empty⟩, ["price:831"]⟩ }

def covered
    (rounds : List (SnapshotCycle (MemoryImportStateStore BlockNumber) (Refusing MemoryRecords))) :
    List (Int × Int) :=
  match ImportStateStore.load (snapshotRunner.after initial rounds).states product.shareRateKey with
  | .ok (some x) => x.coverage.covered.map fun r => (r.first.nanos, r.last.nanos)
  | _ => []

def priced
    (rounds : List (SnapshotCycle (MemoryImportStateStore BlockNumber) (Refusing MemoryRecords))) :
    List PriceKey :=
  (RecordSink.tables (snapshotRunner.after initial rounds).records).prices.map (·.1)

theorem untouched : Untouched initial where
  states _ _ h := by cases h
  lastImported := rfl

theorem kept : ∀ r ∈ rounds, ∀ records, Retained (RecordSink.tables records)
    (RecordSink.tables (r.meanwhile records)) := by
  simp only [rounds, List.forall_mem_cons]
  exact ⟨fun _ => .refl _, fun _ => .refl _, fun _ h => absurd h List.not_mem_nil⟩

theorem regular : ∀ r ∈ rounds, r.Regular snapshotRunner := by
  simp only [rounds, List.forall_mem_cons]
  exact ⟨QuarterHours.regular_of_one (p := boost) rfl rfl (QuarterHours.reaches (.inl rfl)) rfl
      QuarterHours.begins,
    QuarterHours.regular_of_one (p := product) rfl rfl (QuarterHours.reaches (.inr rfl)) rfl
      QuarterHours.begins,
    fun _ h => absurd h List.not_mem_nil⟩

/-- The first round covers a slot through the boost, and the second one three more through the
vault. Between slots, too, every instant is covered by one of them, and its price is there. -/
theorem covered_sampled_shared :
    rounds.map (fun r => (r.sampled snapshotRunner).map (·.key)) = [["boost"], ["vault"]] ∧
      covered (rounds.take 1) = [(-1800000000000, -900001000000)] ∧
      covered rounds = [(-1800000000000, 1799999000000)] ∧
      priced rounds = [(1, 0), (1, 1131), (1, 657), (1, 184)] ∧
      ∀ t : Instant, -1800000000000 ≤ t.nanos → t.nanos ≤ 1799999000000 →
        ∃ before r later f slot, rounds = before ++ r :: later ∧
          r.Covers snapshotRunner (snapshotRunner.after initial before) 1 f slot ∧
          slot.Meets (place t) ∧
          (RecordSink.tables (snapshotRunner.after initial rounds).records).HasPrice .fantom 1
            (f.blockAt slot.last 1900) ∧
          ∃ k, snapshotRunner.slots.Spans k k slot := by
  have hcovered : covered rounds = [(-1800000000000, 1799999000000)] := by decide +kernel
  refine ⟨rfl, by decide +kernel, hcovered, by decide +kernel, fun t hfirst hlast => ?_⟩
  unfold covered at hcovered
  split at hcovered
  · next x hx =>
    obtain ⟨c, hc, hends⟩ := List.map_eq_singleton_iff.mp hcovered
    rw [Prod.mk.injEq] at hends
    have hmem : t ∈ c := ⟨Int.le_trans (Int.le_of_eq hends.1) hfirst,
      Int.le_trans hlast (Int.le_of_eq hends.2.symm)⟩
    obtain ⟨before, r, later, f, slot, heq, hcovers, hmeets, hprice, hslot⟩ :=
      (covered_sampled untouched kept).2 product x hx t ⟨c, hc ▸ List.mem_cons_self, hmem⟩
    exact ⟨before, r, later, f, slot, heq, hcovers, hmeets, hprice, hslot (by decide) regular⟩
  · cases hcovered

end SharedFeed

end Backfill
