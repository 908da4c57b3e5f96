import Backfill.Proofs.Cycle.CycleRuns

/-!
# How high plans reach

What a product has never asked for is taken from blocks that its window allows: settled ones, and
below the last blocks if it leaves those out. A retry is not held to that. It waits as it was when
it failed, and a later cycle plans it although its own head may be lower, as when another node lags
behind, more blocks count as not settled, or the last blocks are left out from then on.

Results:
* `waits_afterAll`: what waits was allowed in some cycle for the same product.
* `planned_allowed`: a block that is planned is allowed now, or it waits and was allowed in an
  earlier cycle for the same product.
* `planned_above_head`: a lower head does not hold back what waits above it, and the answer of a
  node that has no such block yet makes it covered.
-/
namespace Backfill

open Axis Range

namespace CycleRun

variable {σ ρ : Type} [ImportStateStore σ BlockNumber] [RecordSink ρ] {t : CycleRun ρ}
  {ts : List (CycleRun ρ)} {states : σ} {p : Product} {key : String} {b : BlockNumber}

omit [ImportStateStore σ BlockNumber] [RecordSink ρ] in
/-- The product may ask for the block in this cycle. -/
def Allows (t : CycleRun ρ) (p : Product) (b : BlockNumber) : Prop :=
  ∃ latest, t.conditions.sources.latest = .ok latest ∧
    (t.runner.window latest t.progress.lastImported).Allows p b

/-- A cycle over the history in which a product with the state could ask for the block. -/
def Reached (t : CycleRun ρ) (key : String) (b : BlockNumber) : Prop :=
  t.runner.behaviour.mode = .historical ∧
    ∃ p ∈ t.products, p.positionsKey = key ∧ t.Allows p b

section Step

variable [LawfulImportStateStore σ BlockNumber]
  (hsound : ∀ key, (coverageOf (ImportStateStore.load states key)).Sound)

include hsound

omit [RecordSink ρ] in
theorem planned_spec (historical : t.runner.behaviour.mode = .historical) {g : Agenda}
    (hg : t.agenda? states = some g) {q : Plan.Query BlockNumber} (hq : q ∈ g.plan.queries)
    {r : Range BlockNumber} (brings : q.Brings key r) (hb : b ∈ r) :
    ∃ p ∈ g.products, p.key = key ∧ (t.Allows p b ∨ t.runner.behaviour.ignoreState = false ∧
      Holds (coverageOf (ImportStateStore.load states p.positionsKey)).toRetry b) := by
  obtain ⟨-, d, hd, hkey, hneed⟩ := (allotted hsound historical hg).2.needed q hq key r brings
  obtain ⟨p, hp, s, -, hcoverage, hdemand⟩ := Runner.wanted_spec historical d hd
  have hs : s.coverage.Sound := hcoverage ▸ hsound p.positionsKey
  refine ⟨p, hp, (RangeContext.productRanges?_key historical hdemand).symm.trans hkey, ?_⟩
  rcases (RangeContext.holds_need historical hdemand hs (hneed b (whole_block b) hb)).1 with
    hallows | ⟨hcounts, hwaits⟩
  · exact .inl ⟨g.latest, (Runner.agenda?_eq_some hg).2.1, hallows⟩
  · exact .inr ⟨hcounts, hcoverage ▸ hwaits⟩

/-- What waits after a cycle waited before or could be asked for in it. -/
theorem waits_after
    (hb : Holds (coverageOf (ImportStateStore.load (t.after states) key)).toRetry b) :
    Holds (coverageOf (ImportStateStore.load states key)).toRetry b ∨ t.Reached key b := by
  rw [coverage_after hsound,
    ImportRanges.holds_toRetry_applyResults (hsound key) (outcomes_proper hsound) (whole_block b)]
      at hb
  rcases hb.1 with hwaits | ⟨o, ho, -, hb⟩
  · exact .inl hwaits
  · obtain ⟨-, historical, g, hg, p, hp, hkey, q, hq, r, brings, hin⟩ := outcome_planned hsound ho
    obtain ⟨p', hp', hkey', hspec⟩ := planned_spec hsound historical hg hq brings (hin b hb)
    obtain ⟨hproducts, hkeys⟩ := products_of_agenda hg
    obtain rfl := List.inj_on_of_nodup_map hkeys hp' hp hkey'
    have hmem := (mem_collected.mp (hproducts ▸ hp)).1
    rcases hspec with hallows | ⟨-, hwaits⟩
    · exact .inr ⟨historical, p', hmem, hkey, hallows⟩
    · exact .inl (hkey ▸ hwaits)

end Step

variable [LawfulImportStateStore σ BlockNumber]

theorem waits_afterAll (hsound : ∀ key, (coverageOf (ImportStateStore.load states key)).Sound)
    (hb : Holds (coverageOf (ImportStateStore.load (afterAll ts states) key)).toRetry b) :
    Holds (coverageOf (ImportStateStore.load states key)).toRetry b ∨
      ∃ t ∈ ts, t.Reached key b := by
  induction ts generalizing states with
  | nil => exact .inl hb
  | cons t ts ih =>
    rcases ih (sound_after hsound) hb with hwaits | ⟨u, hu, hreached⟩
    · exact (waits_after hsound hwaits).imp_right fun h => ⟨t, List.mem_cons_self .., h⟩
    · exact .inr ⟨u, List.mem_cons_of_mem _ hu, hreached⟩

/-- **Ceiling.** After any cycles from empty states, every block that is planned for a product is
allowed now, or it waits for a retry and was allowed in an earlier cycle for the same product. So it
is allowed whenever the earlier cycles allowed no more than this one. -/
theorem planned_allowed
    (empty : ∀ key, (coverageOf (ImportStateStore.load states key)).covered = [] ∧
      (coverageOf (ImportStateStore.load states key)).toRetry = [])
    (historical : t.runner.behaviour.mode = .historical) {g : Agenda}
    (planned : t.agenda? (afterAll ts states) = some g) :
    ∀ q ∈ g.plan.queries, ∀ key r, q.Brings key r → ∀ b ∈ r, ∃ p ∈ g.products, p.key = key ∧
      (t.Allows p b ∨ t.runner.behaviour.ignoreState = false ∧
        Holds (coverageOf (ImportStateStore.load (afterAll ts states) p.positionsKey)).toRetry b ∧
        ∃ u ∈ ts, u.runner.behaviour.mode = .historical ∧
          ∃ p' ∈ u.products, p'.id = p.id ∧ u.Allows p' b) := by
  intro q hq key r brings b hb
  have hsound : ∀ key, (coverageOf (ImportStateStore.load states key)).Sound := fun key =>
    .of_empty (empty key).1 (empty key).2
  obtain ⟨p, hp, hkey, hspec⟩ :=
    planned_spec (sound_afterAll hsound ts) historical planned hq brings hb
  refine ⟨p, hp, hkey, hspec.imp_right fun ⟨hcounts, hwaits⟩ => ⟨hcounts, hwaits, ?_⟩⟩
  rcases waits_afterAll hsound hwaits with hwaits | ⟨u, hu, hmode, p', hp', hkey', hallows⟩
  · rw [(empty _).2] at hwaits
    exact absurd hwaits (by simp)
  · exact ⟨u, hu, hmode, p', hp', Product.positionsKey_eq_iff.mp hkey', hallows⟩

end CycleRun

/-! ## A node that lags behind -/

namespace LaggingNode

open StrictCycle (product initial)

def cycleAt (latest : BlockNumber) (failingRanges : List (Range BlockNumber × FetchError)) :
    CycleRun MemoryRecords where
  runner :=
    { chain := .fantom, behaviour := Behaviour.ofMode .historical
      limits := { maxSpan := 1000, maxAddresses := 1 } }
  conditions :=
    { sources := ({ latest := .ok latest, creations := [(.ofNat 9, 10)], failingRanges } :
        MockChain).sources
      now := 5 }
  products := [product]
  records := initial.records

def first : CycleRun MemoryRecords := cycleAt 40 [(⟨10, 40⟩, .timeout)]

def second : CycleRun MemoryRecords := cycleAt 20 []

def states : MemoryImportStateStore BlockNumber := {}

theorem second_plan : ∃ g, second.agenda? (CycleRun.afterAll [first] states) = some g ∧
    g.products = [product] ∧ ∃ q ∈ g.plan.queries, q.Brings product.key ⟨10, 40⟩ := by
  have hagenda : (second.agenda? (CycleRun.afterAll [first] states)).map
      (fun g => (g.products, g.plan)) =
        some ([product], .perProduct [⟨"vault", ⟨10, 40⟩⟩]) := by decide +kernel
  obtain ⟨g, hg, heq⟩ := Option.map_eq_some_iff.mp hagenda
  obtain ⟨hproducts, hplan⟩ := Prod.mk.inj heq
  refine ⟨g, hg, hproducts, .single ⟨"vault", ⟨10, 40⟩⟩, ?_, Plan.brings_single.mpr ⟨rfl, rfl⟩⟩
  rw [hplan]
  exact List.mem_singleton.mpr rfl

theorem mem_retry : (40 : BlockNumber) ∈ (⟨10, 40⟩ : Range BlockNumber) :=
  contains_iff.mp (by decide)

theorem not_allowed : ¬ second.Allows product 40 := by
  rintro ⟨latest, hlatest, hallows⟩
  cases hlatest
  exact absurd hallows.settled (by decide)

/-- The block above the head was allowed when it failed. -/
theorem planned_allowed_before :
    ∃ g, second.agenda? (CycleRun.afterAll [first] states) = some g ∧
      (∃ q ∈ g.plan.queries, q.Brings product.key ⟨10, 40⟩) ∧ ¬ second.Allows product 40 ∧
        ∃ u ∈ [first], ∃ p ∈ u.products, p.id = product.id ∧ u.Allows p 40 := by
  obtain ⟨g, hg, hproducts, q, hq, brings⟩ := second_plan
  refine ⟨g, hg, ⟨q, hq, brings⟩, not_allowed, ?_⟩
  obtain ⟨p, hp, -, hspec⟩ :=
    CycleRun.planned_allowed (fun _ => ⟨rfl, rfl⟩) rfl hg q hq _ _ brings 40 mem_retry
  rw [hproducts, List.mem_singleton] at hp
  subst hp
  obtain ⟨-, -, u, hu, -, p, hp, hid, hallows⟩ := hspec.resolve_left not_allowed
  exact ⟨u, hu, p, hp, hid, hallows⟩

/-- The retry is planned up to block 40, and then all of it is covered. -/
theorem planned_above_head :
    (∃ g, second.agenda? (CycleRun.afterAll [first] states) = some g ∧
      ∃ q ∈ g.plan.queries, ∃ r, q.Brings product.key r ∧ ∃ b ∈ r, ¬ second.Allows product b) ∧
      (coverageOf (ImportStateStore.load (CycleRun.afterAll [first, second] states)
        product.positionsKey)).covered = [⟨10, 40⟩] := by
  obtain ⟨g, hg, -, q, hq, brings⟩ := second_plan
  exact ⟨⟨g, hg, q, hq, ⟨10, 40⟩, brings, 40, mem_retry, not_allowed⟩, by decide +kernel⟩

end LaggingNode

end Backfill
