import Backfill.Proofs.Cycle.CycleRuns

/-!
# No block is imported twice

While import states count, a plan brings a product only blocks that are not covered, and each of
them once; and a block that has succeeded is covered from then on. So over all cycles that runners
take on the same states, the successful results of a product have no block in common.

Results:
* `ranges_ofQueries`: what is fetched for a product is what the queries were to bring it.
* `parts_outcomes`: the outcomes of one cycle are parts of what is not covered before it.
* `covered_afterAll`: what is covered in the end was covered before or has succeeded.
* `imported_once`: over any number of cycles no block of a product succeeds twice.
-/
namespace Backfill

open Axis Range

/-! ## What is fetched for one product -/

namespace FetchedRange

variable {l : Loader} {sources : Sources} {products : List Product} {p : Product}

private theorem ranges_deal (hp : p ∈ products) (answer : Except FetchError (List Transfer))
    (ts : List (Plan.Target BlockNumber)) :
    ((deal l (ts.filterMap fun t => (products.find? (·.key = t.key)).map (·, t.ranges))
      answer).filter (·.product.key = p.key)).map (·.range) =
        (ts.filter (·.key = p.key)).flatMap (·.ranges) := by
  induction ts with
  | nil => rfl
  | cons t ts ih =>
    cases hfind : products.find? (·.key = t.key) with
    | none =>
      have hne : t.key ≠ p.key := fun heq => by
        simpa [heq] using List.find?_eq_none.mp hfind p hp
      simpa [hfind, hne] using ih
    | some q =>
      have hkey : q.key = t.key := by simpa using List.find?_some hfind
      rw [List.filterMap_cons_some (by rw [hfind, Option.map_some]), deal, List.flatMap_cons,
        List.filter_append, List.map_append, ← deal, ih, List.filter_map, List.map_map]
      by_cases heq : t.key = p.key <;> simp [hkey, heq, Function.comp_def]

theorem ranges_ofQueries (hp : p ∈ products) (qs : List (Plan.Query BlockNumber)) :
    ((ofQueries l sources products qs).1.filter (·.product.key = p.key)).map (·.range) =
      Plan.brought p.key qs := by
  induction qs with
  | nil => rfl
  | cons q qs ih =>
    have hsplit : (ofQueries l sources products (q :: qs)).1 =
        (ofQuery l sources products q).1 ++ (ofQueries l sources products qs).1 := rfl
    rw [hsplit, List.filter_append, List.map_append, ih, fst_ofQuery]
    exact congrArg (· ++ _) (ranges_deal hp _ q.targets)

end FetchedRange

namespace Cycle

theorem filter_results {key : String} {fs : List FetchedRange}
    {res : FetchedRange → List (ImportRangeResult BlockNumber)}
    (hres : ∀ f ∈ fs, ∀ o ∈ res f, o.key = f.product.key) :
    (fs.flatMap res).filter (·.key = key) = (fs.filter (·.product.key = key)).flatMap res :=
  Plan.filter_flatMap_own fun f hf o ho => by rw [hres f hf o ho]

theorem ranges_outcomesOf {key : String} {fs : List FetchedRange}
    {res : FetchedRange → List (ImportRangeResult BlockNumber)}
    (hres : ∀ f ∈ fs, ∀ o ∈ res f, o.key = f.product.key) :
    (outcomesOf key (fs.flatMap res)).map (·.range) =
      (fs.filter (·.product.key = key)).flatMap fun f => (res f).map (·.range) := by
  rw [outcomesOf, filter_results hres, List.map_map, List.map_flatMap]
  rfl

end Cycle

/-! ## What cycles import of one product -/

namespace CycleRun

variable {σ ρ : Type} [ImportStateStore σ BlockNumber] [RecordSink ρ]

/-- The ranges of the successful results of a product: of the one that has its id. -/
def imported (p : Product) (t : CycleRun ρ) (states : σ) : List (Range BlockNumber) :=
  ((t.results states).filter fun r => r.success ∧
    ∃ q ∈ t.products, q.chain = t.runner.chain ∧ q.id = p.id ∧ q.key = r.key).map (·.range)

def importedAll (p : Product) : List (CycleRun ρ) → σ → List (Range BlockNumber)
  | [], _ => []
  | t :: ts, states => t.imported p states ++ importedAll p ts (t.after states)

section Successes

variable {t : CycleRun ρ} {states : σ} {p : Product} (distinct : (t.products.map (·.id)).Nodup)

include distinct

omit [ImportStateStore σ BlockNumber] [RecordSink ρ] in
theorem nodup_collected : (t.collected.map (·.positionsKey)).Nodup := by
  refine Product.nodup_positionsKey (((sortBy_perm _ _).map _).nodup_iff.mpr ?_)
  exact distinct.sublist (List.filter_sublist.map _)

/-- What succeeds is folded as a success. -/
theorem ranges_outcomes (historical : t.runner.behaviour.mode = .historical) :
    RangeOutcome.ranges true (t.outcomes states p.positionsKey) = t.imported p states := by
  rw [outcomes_historical historical, imported]
  by_cases hex : ∃ q ∈ t.collected, q.positionsKey = p.positionsKey
  · obtain ⟨q, hq, hkey⟩ := hex
    obtain ⟨hq', hchain⟩ := mem_collected.mp hq
    have hid := Product.positionsKey_eq_iff.mp hkey
    -- the key of a result tells its product
    have hown : ∀ r : ImportRangeResult BlockNumber, r.key = q.key ↔
        ∃ q' ∈ t.products, q'.chain = t.runner.chain ∧ q'.id = p.id ∧ q'.key = r.key := by
      refine fun r => ⟨fun h => ⟨q, hq', hchain, hid, h.symm⟩, ?_⟩
      rintro ⟨q', hmem, -, hid', h⟩
      rw [← h, List.inj_on_of_nodup_map distinct hmem hq' (hid'.trans hid.symm)]
    rw [← hkey, Cycle.outcomesAt_of_mem (nodup_collected distinct) hq, RangeOutcome.ranges,
      Cycle.outcomesOf, List.filter_map, List.map_map, List.filter_filter]
    refine congrArg (List.map _) (List.filter_congr fun r _ => ?_)
    simp [hown r, ImportRangeResult.outcome]
  · have hnone : ∀ q ∈ t.collected, q.positionsKey ≠ p.positionsKey := fun q hq h => hex ⟨q, hq, h⟩
    have hother : (t.results states).filter (fun r => r.success ∧
        ∃ q ∈ t.products, q.chain = t.runner.chain ∧ q.id = p.id ∧ q.key = r.key) = [] := by
      refine List.filter_eq_nil_iff.mpr fun r _ h => ?_
      obtain ⟨-, q, hq, hchain, hid, -⟩ := of_decide_eq_true h
      exact hnone q (mem_collected.mpr ⟨hq, hchain⟩) (Product.positionsKey_eq_iff.mpr hid)
    rw [Cycle.outcomesAt_of_none hnone, hother]
    rfl

end Successes

section Parts

variable [LawfulImportStateStore σ BlockNumber] {t : CycleRun ρ} {states : σ}
  (hsound : ∀ key, (coverageOf (ImportStateStore.load states key)).Sound)
  (historical : t.runner.behaviour.mode = .historical)
  (counts : t.runner.behaviour.ignoreState = false)

include hsound historical counts

/-- A plan brings a product parts of what is not covered, whatever becomes of its queries. -/
theorem parts_resultsOf {g : Agenda} (hg : t.agenda? states = some g) {p : Product}
    (hp : p ∈ g.products) :
    Parts (fun b => ¬ Holds (coverageOf (ImportStateStore.load states p.positionsKey)).covered b)
      ((Cycle.outcomesOf p.key (t.runner.resultsOf t.conditions g t.records)).map (·.range)) := by
  obtain ⟨-, hkeys⟩ := products_of_agenda hg
  obtain ⟨hproper, hplan⟩ := allotted hsound historical hg
  have hperm := t.conditions.queryOrder.perm g.plan.queries
  by_cases hnone : Cycle.outcomesOf p.key (t.runner.resultsOf t.conditions g t.records) = []
  · rw [hnone]
    exact .nil
  obtain ⟨d, hd, hkey⟩ := exists_demand hkeys hplan hnone
  obtain ⟨q, hq, s, -, hcoverage, hdemand⟩ := Runner.wanted_spec historical d hd
  obtain rfl := List.inj_on_of_nodup_map hkeys hq hp
    ((RangeContext.productRanges?_key historical hdemand).symm.trans hkey)
  have hs : s.coverage.Sound := hcoverage ▸ hsound q.positionsKey
  -- the fetched ranges of the product are parts of its need, and its results are parts of those
  have hfetched : Parts (Holds (Plan.need t.runner.behaviour.ignoreState d).ranges)
      (((t.runner.fetched t.conditions g).filter (·.product.key = q.key)).map (·.range)) := by
    rw [Runner.fetched, FetchedRange.ranges_ofQueries hp, ← hkey]
    exact (Plan.choose_parts (Runner.agenda?_eq_some hg).2.2 (fun _ => hproper) hd).of_perm
      (Plan.brought_perm hperm.symm)
  have hsent := hplan.of_perm hperm
  rw [Runner.resultsOf, Cycle.ranges_outcomesOf]
  · refine (Parts.refine_map hfetched fun f hf => ?_).mono fun b _ hb =>
      hcoverage ▸ (RangeContext.holds_need historical hdemand hs hb).2 counts
    exact (Cycle.parts_fetched hkeys hsent (List.mem_filter.mp hf).1).mono fun b hb hm =>
      ⟨hm, hfetched.inside f.range (List.mem_map_of_mem hf) b hb hm⟩
  · intro f hf o ho
    exact FetchedRange.key_of_mem_results ho

/-- The outcomes of a cycle are parts of what is not covered before it. -/
theorem parts_outcomes (distinct : (t.products.map (·.id)).Nodup) (key : String) :
    Parts (fun b => ¬ Holds (coverageOf (ImportStateStore.load states key)).covered b)
      ((t.outcomes states key).map (·.range)) := by
  rw [outcomes_historical historical]
  by_cases hex : ∃ p ∈ t.collected, p.positionsKey = key
  · obtain ⟨p, hp, rfl⟩ := hex
    rw [Cycle.outcomesAt_of_mem (nodup_collected distinct) hp]
    rcases run_cases t states with ⟨hnone, -⟩ | ⟨g, hg, hresults, -⟩
    · rw [hnone]
      exact .nil
    · rw [hresults]
      exact parts_resultsOf hsound historical counts hg ((products_of_agenda hg).1 ▸ hp)
  · rw [Cycle.outcomesAt_of_none fun p hp h => hex ⟨p, hp, h⟩]
    exact .nil

end Parts

/-! ## Over all cycles -/

section All

variable [LawfulImportStateStore σ BlockNumber] {p : Product} {states : σ}

theorem covered_after {t : CycleRun ρ} (historical : t.runner.behaviour.mode = .historical)
    (distinct : (t.products.map (·.id)).Nodup)
    (hsound : ∀ key, (coverageOf (ImportStateStore.load states key)).Sound) (b : BlockNumber) :
    Holds (coverageOf (ImportStateStore.load (t.after states) p.positionsKey)).covered b ↔
      Holds (coverageOf (ImportStateStore.load states p.positionsKey)).covered b ∨
        Holds (t.imported p states) b := by
  rw [coverage_after hsound, ImportRanges.holds_covered_applyResults (hsound p.positionsKey)
      (outcomes_proper hsound) (whole_block b),
    ← RangeOutcome.holds_ranges, ranges_outcomes distinct historical]

variable {ts : List (CycleRun ρ)}

/-- The invariant: what is still to be imported has no block in common with what is covered. -/
theorem parts_importedAll
    (historical : ∀ t ∈ ts, t.runner.behaviour.mode = .historical)
    (counts : ∀ t ∈ ts, t.runner.behaviour.ignoreState = false)
    (distinct : ∀ t ∈ ts, (t.products.map (·.id)).Nodup)
    (hsound : ∀ key, (coverageOf (ImportStateStore.load states key)).Sound) :
    Parts (fun b => ¬ Holds (coverageOf (ImportStateStore.load states p.positionsKey)).covered b)
      (importedAll p ts states) := by
  induction ts generalizing states with
  | nil => exact .nil
  | cons t ts ih =>
    rw [List.forall_mem_cons] at historical counts distinct
    have hnow := (parts_outcomes hsound historical.1 counts.1 distinct.1 p.positionsKey).sublist
      (RangeOutcome.ranges_sublist true _)
    rw [ranges_outcomes distinct.1 historical.1] at hnow
    -- the later cycles keep out of what is covered by then, and this cycle's successes are
    refine hnow.append_rest ((ih historical.2 counts.2 distinct.2
      (sound_after hsound)).mono fun b _ hb => ?_)
    rwa [covered_after historical.1 distinct.1 hsound, not_or] at hb

theorem covered_afterAll
    (historical : ∀ t ∈ ts, t.runner.behaviour.mode = .historical)
    (distinct : ∀ t ∈ ts, (t.products.map (·.id)).Nodup)
    (hsound : ∀ key, (coverageOf (ImportStateStore.load states key)).Sound) (b : BlockNumber) :
    Holds (coverageOf (ImportStateStore.load (afterAll ts states) p.positionsKey)).covered b ↔
      Holds (coverageOf (ImportStateStore.load states p.positionsKey)).covered b ∨
        Holds (importedAll p ts states) b := by
  induction ts generalizing states with
  | nil => simp [afterAll, importedAll]
  | cons t ts ih =>
    rw [List.forall_mem_cons] at historical distinct
    rw [afterAll, ih historical.2 distinct.2 (sound_after hsound),
      covered_after historical.1 distinct.1 hsound, importedAll, holds_append, or_assoc]

/-- **No block twice.** While import states count, no block of a product lies in two successful
results, whatever settings the cycles have, whatever fails or is called off, and in whatever order
queries and loads end. What is covered in the end are the blocks of these results. -/
theorem imported_once
    (historical : ∀ t ∈ ts, t.runner.behaviour.mode = .historical)
    (counts : ∀ t ∈ ts, t.runner.behaviour.ignoreState = false)
    (distinct : ∀ t ∈ ts, (t.products.map (·.id)).Nodup)
    (empty : ∀ key, (coverageOf (ImportStateStore.load states key)).covered = [] ∧
      (coverageOf (ImportStateStore.load states key)).toRetry = []) :
    ((importedAll p ts states).Pairwise fun r s => ∀ b, b ∈ r → b ∉ s) ∧
      ∀ b,
        Holds (coverageOf (ImportStateStore.load (afterAll ts states) p.positionsKey)).covered b ↔
          Holds (importedAll p ts states) b := by
  have hsound : ∀ key, (coverageOf (ImportStateStore.load states key)).Sound := fun key =>
    .of_empty (empty key).1 (empty key).2
  have hparts := parts_importedAll (p := p) historical counts distinct hsound
  refine ⟨hparts.separate.imp fun h b => h b (whole_block b), fun b => ?_⟩
  rw [covered_afterAll historical distinct hsound, (empty _).1]
  simp

end All

end CycleRun

/-! ## Four cycles of a vault -/

namespace FourCycles

open StrictCycle (product runner mock conditions initial)

def other : Product :=
  { id := 8, key := "another vault", chain := .fantom, shareFeed := 3, underlyingFeed := 4
    retired := false, data := .vault ⟨"another", .ofNat 10, 18, 18⟩ }

def healthy (latest : BlockNumber) : Runner.Conditions :=
  { sources := { mock with
      latest := .ok latest, creations := [(.ofNat 9, 10), (.ofNat 10, 20)]
      failingRanges := [], failingOwners := [] }.sources
    now := 6 }

/-- A cycle with failures, one that is called off after its queries, one over a forced range while
the node lags, and one with shared queries. -/
def cycles : List (CycleRun MemoryRecords) :=
  [ { runner, conditions, products := [product], records := initial.records },
    { runner, products := [product], records := initial.records
      conditions := { healthy 60 with
        cancelled := fun done => done.calls.any (·.kind = "transfers") } },
    { runner := { runner with behaviour := { runner.behaviour with forced := some ⟨12, 25⟩ } }
      conditions := healthy 35, products := [product, other], records := initial.records },
    { runner := { runner with limits := { maxSpan := 1000, maxAddresses := 2 } }
      conditions := healthy 50, products := [product, other], records := initial.records } ]

theorem imported_once_vault :
    let imported := CycleRun.importedAll product cycles ({} : MemoryImportStateStore BlockNumber)
    imported = [⟨31, 34⟩, ⟨36, 40⟩, ⟨35, 35⟩, ⟨11, 14⟩, ⟨16, 20⟩, ⟨10, 10⟩, ⟨21, 25⟩, ⟨15, 15⟩,
        ⟨26, 30⟩, ⟨41, 50⟩] ∧
      (imported.Pairwise fun r s => ∀ b, b ∈ r → b ∉ s) ∧
      ∀ b, Holds (coverageOf (ImportStateStore.load
        (CycleRun.afterAll cycles ({} : MemoryImportStateStore BlockNumber))
          product.positionsKey)).covered b ↔
          Holds imported b := by
  refine ⟨by decide +kernel, CycleRun.imported_once ?_ ?_ ?_ fun key => ⟨rfl, rfl⟩⟩
  · simp [cycles, runner, Behaviour.ofMode]
  · simp [cycles, runner, Behaviour.ofMode]
  · simp [cycles, product, other]

end FourCycles

end Backfill
