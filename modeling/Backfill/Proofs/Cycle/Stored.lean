import Backfill.Proofs.Cycle.Honest
import Backfill.Proofs.Cycle.TwoPlans
import Backfill.Proofs.Records.Lasting

/-!
# What is covered is stored

Coverage and records are kept apart, in a store and a sink of which either may fail. In strict mode
they still agree: a block is covered only by a fetch all of whose transfers in the block were
loaded. If one was not, the block waits, and a later cycle fetches it again.

Cycles hand records on like states, except that others may add rows in between, and that the sink
itself may refuse rows in one cycle and take them in the next.

Results:
* `Runner.cycle_kept`: a cycle, however it ends, drops no row.
* `CycleRun.exists_fetch`: what made a block succeed.
* `CycleRun.stored_of_covers`: the cycle that covers a block leaves the positions of its transfers.
* `CycleRun.covered_stored`: over all cycles, what is covered is stored.
-/
namespace Backfill

open RecordTables

variable {σ ρ : Type} [ImportStateStore σ BlockNumber] [RecordSink ρ]

/-! ## One cycle -/

namespace FetchedRange

theorem mem_jobs_ofQueries {l : Loader} {sources : Sources} {products : List Product}
    {qs : List (Plan.Query BlockNumber)} {q : Plan.Query BlockNumber} {p : Product}
    {r : Range BlockNumber} {ts : List Transfer} {t : Transfer}
    (hkeys : (products.map (·.key)).Nodup) (hp : p ∈ products) (hq : q ∈ qs)
    (hbrings : q.Brings p.key r) (hts : answer sources products q = .ok ts) (ht : t ∈ ts)
    (hkept : l.keeps p t = true) (hin : t.block ∈ r) :
    (p, t) ∈ jobs (ofQueries l sources products qs).1 := by
  have hf : ⟨p, r, some (select l p r ts)⟩ ∈ (ofQueries l sources products qs).1 :=
    (mem_ofQueries hkeys).mpr ⟨q, hq, hp, hbrings, by rw [hts]⟩
  refine mem_jobs.mpr ⟨_, hf, rfl, _, rfl, List.mem_filter.mpr ⟨ht, ?_⟩⟩
  rw [Loader.keeps, Bool.and_eq_true] at hkept
  rw [hkept.1, Range.contains_iff.mpr hin, hkept.2]
  rfl

end FetchedRange

/-- However a cycle ends, the rows that were there stay. -/
theorem Runner.cycle_kept [LastingRecordSink ρ] (i : Runner) (c : Conditions)
    (products : List Product) (b : RunnerState BlockNumber σ ρ) :
    Kept (RecordSink.tables b.records) (RecordSink.tables (i.runCycle c products b).2.records) := by
  have hstored (g : Agenda) : Kept (RecordSink.tables b.records)
      (RecordSink.tables (i.stored c g b.records)) := (FetchedRange.loadAll_spec ..).1
  have h : i.runCycle c products b = ((i.runCycle c products b).1, (i.runCycle c products b).2) :=
    rfl
  rcases cycle_cases h with hearly | ⟨g, -, -, hrecords, -⟩
  · rcases hearly.records with hrecords | ⟨g, hrecords⟩
    · rw [hrecords]
      exact .refl _
    · rw [hrecords]
      exact hstored g
  · rw [hrecords]
    exact hstored g

namespace CycleRun

def left (t : CycleRun ρ) (states : σ) : ρ := (t.runCycle states).2.records

/-- A block of a product is covered by what a cycle fetches: a query that was to bring it is
answered with some transfers, and the block succeeds. -/
structure Covers (t : CycleRun ρ) (states : σ) (p : Product) (b : BlockNumber)
    (answer : List Transfer) : Prop where
  fetched : ∃ g, t.agenda? states = some g ∧ p ∈ g.products ∧ ∃ q ∈ g.plan.queries, ∃ r,
    q.Brings p.key r ∧ b ∈ r ∧ FetchedRange.answer t.conditions.sources g.products q = .ok answer
  succeeded : Range.Holds (t.imported p states) b

section One

variable [HonestImportStateStore σ BlockNumber] {t : CycleRun ρ} {states : σ} {p : Product}
  {b : BlockNumber} (hsound : AllSound states)
  (historical : t.runner.behaviour.mode = .historical) (distinct : (t.products.map (·.id)).Nodup)

include hsound historical distinct

/-- A block succeeds because a query that was to bring it is answered and, in strict mode, no record
of the block fails. -/
theorem exists_fetch (h : Range.Holds (t.imported p states) b) :
    ∃ g, t.agenda? states = some g ∧
      t.left states = t.runner.stored t.conditions g t.records ∧
      ∃ q ∈ g.products, q.id = p.id ∧
        Cycle.Served t.conditions.sources g.products g.plan.queries q b ∧
        ¬ (t.runner.behaviour.strict = true ∧
          FetchedRange.Failed (t.runner.failures t.conditions g t.records) q b) := by
  rw [← ranges_outcomes distinct historical, RangeOutcome.holds_ranges] at h
  obtain ⟨o, ho, hsuccess, hb⟩ := h
  obtain ⟨-, q, hq, hkey, ho⟩ := mem_outcomes ho
  have hcycle : t.runCycle states = ((t.runCycle states).1, (t.runCycle states).2) := rfl
  rcases Runner.cycle_cases hcycle with hearly | ⟨g, hg, hresults, hrecords, -⟩
  · rw [results, hearly.results] at ho
    exact absurd ho (by simp [Cycle.outcomesOf])
  obtain ⟨hproducts, hkeys⟩ := products_of_agenda hg
  obtain ⟨limits, ds, hplan⟩ := allotted_honest hsound historical hg
  have hsent := hplan.of_perm (t.conditions.queryOrder.perm g.plan.queries)
  rw [results, hresults] at ho
  have hmem : q ∈ g.products := hproducts ▸ hq
  have hfailures : ∀ x ∈ t.runner.failures t.conditions g t.records,
      (x.product, x.transfer) ∈ FetchedRange.jobs (t.runner.fetched t.conditions g) := fun x hx =>
    (t.conditions.loadOrder.perm _).mem_iff.mp (FetchedRange.mem_of_mem_failures hx)
  obtain ⟨hserved, hfine⟩ :=
    (Cycle.succeeds_outcomes hkeys hsent hmem hfailures).mp ⟨o, ho, hsuccess, hb⟩
  refine ⟨g, hg, hrecords, q, hmem, Product.positionsKey_eq_iff.mp hkey, ?_, hfine⟩
  exact (Cycle.served_of_perm (t.conditions.queryOrder.perm _)).mp hserved

theorem exists_covers (h : Range.Holds (t.imported p states) b) :
    ∃ q answer, q.id = p.id ∧ t.Covers states q b answer := by
  obtain ⟨g, hg, -, q, hq, hid, ⟨query, hquery, r, hbrings, hb, answer, hanswer⟩, -⟩ :=
    exists_fetch hsound historical distinct h
  refine ⟨q, answer, hid, ⟨g, hg, hq, query, hquery, r, hbrings, hb, hanswer⟩, ?_⟩
  rw [imported, hid]
  exact h

variable [LastingRecordSink ρ]

/-- In strict mode the cycle that covers a block leaves the positions of all transfers that it was
answered in the block. -/
theorem stored_of_covers (strict : t.runner.behaviour.strict = true) {answer : List Transfer}
    (h : t.Covers states p b answer) {tr : Transfer} (htr : tr ∈ answer) (hblock : tr.block = b)
    (hkept : t.runner.loader.keeps p tr = true) :
    (RecordSink.tables (t.left states)).HasPosition p tr := by
  obtain ⟨g, hg, hp, query, hquery, r, hbrings, hb, hanswer⟩ := h.fetched
  obtain ⟨g', hg', hleft, q, hq, hid, -, hfine⟩ :=
    exists_fetch hsound historical distinct h.succeeded
  cases hg.symm.trans hg'
  obtain ⟨hproducts, hkeys⟩ := products_of_agenda hg
  -- the product is the only one with its id
  obtain rfl : q = p := List.inj_on_of_nodup_map (nodup_collected distinct) (hproducts ▸ hq)
    (hproducts ▸ hp) (Product.positionsKey_eq_iff.mpr hid)
  have hjob : (q, tr) ∈ FetchedRange.jobs (t.runner.fetched t.conditions g) :=
    FetchedRange.mem_jobs_ofQueries hkeys hq ((t.conditions.queryOrder.perm _).mem_iff.mpr hquery)
      hbrings hanswer htr hkept (hblock ▸ hb)
  rw [hleft]
  refine ((FetchedRange.loadAll_spec t.runner.loader t.conditions.sources _ t.records).2 (q, tr)
    ((t.conditions.loadOrder.perm _).mem_iff.mpr hjob)).resolve_right fun ⟨x, hx, hxp, hxt⟩ => ?_
  exact hfine ⟨strict, x, hx, hxp, by rw [hxt, hblock]⟩

end One

/-! ## All cycles -/

/-- Cycles hand the records on: each begins with all rows that were left to it, and in the end there
are all rows that the last one left. -/
def HandOn : ρ → List (CycleRun ρ) → σ → ρ → Prop
  | first, [], _, last => Kept (RecordSink.tables first) (RecordSink.tables last)
  | first, t :: ts, states, last =>
    Kept (RecordSink.tables first) (RecordSink.tables t.records) ∧
      HandOn (t.left states) ts (t.after states) last

variable {ts : List (CycleRun ρ)} {states : σ} {first last : ρ} {p : Product} {b : BlockNumber}

variable [LastingRecordSink ρ]

theorem HandOn.kept (h : HandOn first ts states last) :
    Kept (RecordSink.tables first) (RecordSink.tables last) := by
  induction ts generalizing first states with
  | nil => exact h
  | cons t ts ih =>
    have hleft : Kept (RecordSink.tables t.records) (RecordSink.tables (t.left states)) :=
      Runner.cycle_kept _ _ _ (t.initial states)
    exact (h.1.trans hleft).trans (ih h.2)

theorem HandOn.left {before later : List (CycleRun ρ)} {t : CycleRun ρ}
    (h : HandOn first (before ++ t :: later) states last) :
    Kept (RecordSink.tables (t.left (afterAll before states))) (RecordSink.tables last) := by
  induction before generalizing first states with
  | nil => exact h.2.kept
  | cons u before ih => exact ih h.2

variable [HonestImportStateStore σ BlockNumber]

/-- **Covered is stored.** Let runners in strict mode take turns on states that begin empty, in an
honest store, with records in a lasting sink. A block of a product that is covered in the end was
covered by what some cycle fetched, and of each transfer that it was answered in this block there is
a position in the end, unless its owner is ignored. Queries, loads, the store and the sink may fail,
in any order, and cycles may be called off. -/
theorem covered_stored
    (historical : ∀ t ∈ ts, t.runner.behaviour.mode = .historical)
    (strict : ∀ t ∈ ts, t.runner.behaviour.strict = true)
    (distinct : ∀ t ∈ ts, (t.products.map (·.id)).Nodup)
    (empty : ∀ key, (coverageOf (ImportStateStore.load states key)).covered = [] ∧
      (coverageOf (ImportStateStore.load states key)).toRetry = [])
    (records : HandOn first ts states last) (p : Product) (b : BlockNumber)
    (covered : Range.Holds (coverageOf
      (ImportStateStore.load (afterAll ts states) p.positionsKey)).covered b) :
    (∃ before t later q answer, ts = before ++ t :: later ∧ q.id = p.id ∧
      t.Covers (afterAll before states) q b answer) ∧
    ∀ before t later q answer, ts = before ++ t :: later → q.id = p.id →
      t.Covers (afterAll before states) q b answer →
        ∀ tr ∈ answer, tr.block = b → t.runner.loader.keeps q tr = true →
          (RecordSink.tables last).HasPosition q tr := by
  have hsound : AllSound states := fun key => .of_empty (empty key).1 (empty key).2
  have hsplit {before later : List (CycleRun ρ)} {t : CycleRun ρ}
      (heq : ts = before ++ t :: later) :
      AllSound (afterAll before states) ∧ t ∈ ts :=
    ⟨sound_afterAll_honest hsound fun u hu => historical u (by simp [heq, hu]), by simp [heq]⟩
  constructor
  · obtain ⟨before, t, later, heq, h⟩ :=
      (covered_afterAll_honest hsound historical distinct covered).resolve_left
        (by simp [(empty p.positionsKey).1])
    obtain ⟨hbefore, ht⟩ := hsplit heq
    obtain ⟨q, answer, hid, hcovers⟩ := exists_covers hbefore (historical t ht) (distinct t ht) h
    exact ⟨before, t, later, q, answer, heq, hid, hcovers⟩
  · intro before t later q answer heq _ hcovers tr htr hblock hkept
    obtain ⟨hbefore, ht⟩ := hsplit heq
    have hstored := stored_of_covers hbefore (historical t ht) (distinct t ht) (strict t ht)
      hcovers htr hblock hkept
    exact hstored.kept (heq ▸ records).left

end CycleRun

/-! ## A sink that refuses a row for a while -/

namespace RefusedRow

open StrictCycle (product runner conditions)
open FourCycles (other healthy)

def states : Unreliable (MemoryImportStateStore BlockNumber) :=
  { inner := StrictCycle.initial.states, brokenUpdates := [other.positionsKey] }

def noRows (broken : List String) : Refusing MemoryRecords :=
  ⟨⟨.empty, .empty, .empty, .empty⟩, broken⟩

def mended (r : Refusing MemoryRecords) : Refusing MemoryRecords := { r with broken := [] }

theorem kept_mended (r : Refusing MemoryRecords) :
    Kept (RecordSink.tables r) (RecordSink.tables (mended r)) := .refl _

/-- A cycle in which the position of block 15 cannot be read and that of block 35 is refused. -/
def refused : CycleRun (Refusing MemoryRecords) :=
  { runner, conditions, products := [product, other], records := noRows ["investment:35"] }

/-- A cycle in which all goes well but for that change. -/
def accepted : CycleRun (Refusing MemoryRecords) :=
  { runner, conditions := healthy 40, products := [product, other]
    records := mended (refused.left states) }

def last : Refusing MemoryRecords := accepted.left (refused.after states)

theorem handed : CycleRun.HandOn (noRows []) [refused, accepted] states last := by
  simp only [CycleRun.HandOn, last]
  exact ⟨.refl _, kept_mended _, .refl _⟩

/-- Two blocks wait until their rows are there. Nothing of the second vault is ever covered. -/
theorem covered_stored_later :
    let covered (p : Product) ts := (coverageOf
      (ImportStateStore.load (CycleRun.afterAll ts states) p.positionsKey)).covered
    let positions (r : Refusing MemoryRecords) : List InvestmentKey :=
      (RecordSink.tables r).positions.map (·.1)
    covered product [refused] = [⟨10, 14⟩, ⟨16, 20⟩, ⟨31, 34⟩, ⟨36, 40⟩] ∧
      positions (refused.left states) = [] ∧
      covered product [refused, accepted] = [⟨10, 40⟩] ∧ covered other [refused, accepted] = [] ∧
      positions last = [(7, 1, 35), (7, 2, 15)] ∧
      ∀ b ∈ (⟨10, 40⟩ : Range BlockNumber),
        (∃ before t later q answer, [refused, accepted] = before ++ t :: later ∧
          q.id = product.id ∧ t.Covers (CycleRun.afterAll before states) q b answer) ∧
        ∀ before t later q answer, [refused, accepted] = before ++ t :: later →
          q.id = product.id → t.Covers (CycleRun.afterAll before states) q b answer →
            ∀ tr ∈ answer, tr.block = b → t.runner.loader.keeps q tr = true →
              (RecordSink.tables last).HasPosition q tr := by
  intro covered positions
  have hcovered : covered product [refused, accepted] = [⟨10, 40⟩] := by decide +kernel
  refine ⟨by decide +kernel, by decide +kernel, hcovered, by decide +kernel, by decide +kernel,
    fun b hb => ?_⟩
  refine CycleRun.covered_stored ?_ ?_ ?_ (fun _ => ⟨rfl, rfl⟩) handed product b ?_
  · simp [refused, accepted, runner, Behaviour.ofMode]
  · simp [refused, accepted, runner]
  · simp [refused, accepted, product, other]
  · change Range.Holds (covered product [refused, accepted]) b
    rw [hcovered]
    exact ⟨_, List.mem_singleton.mpr rfl, hb⟩

end RefusedRow

end Backfill
