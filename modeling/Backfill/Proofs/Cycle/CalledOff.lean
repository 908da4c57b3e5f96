import Backfill.Proofs.Cycle.Folding

/-!
# Cycles that are called off

A cycle asks six times whether it is called off, and it can fail to find the head of the chain or to
make a plan. By then it may have made import states and stored records. What it folds comes after
all of that, in one stage that nothing interrupts: so a cycle folds the outcomes of all products
that it planned for, or those of none.

Nothing is assumed of the states, nor of when the cycle is called off. The store can fail to load
and to save; what it can load it can change.

Results:
* `FetchedRange.exists_result`: no block of a fetched range is left without a result.
* `Runner.load_buildRanges`: states that are made when ranges are determined cover nothing.
* `cycle_all_or_none`: a cycle folds everything that it planned, or leaves everything as it was.
-/
namespace Backfill

open Axis Range

/-! ## Outcomes of what was planned -/

namespace FetchedRange

variable {strict : Bool} {failed : List (String × BlockNumber)} {head b : BlockNumber}
  {f : FetchedRange}

/-- No block of a fetched range is left without a result. -/
theorem exists_result (hb : b ∈ f.range) : ∃ o ∈ f.results strict failed head, b ∈ o.range := by
  have hvalid : f.range.Valid := Int.le_trans hb.1 hb.2
  suffices h : ∃ success, ∃ o ∈ f.results strict failed head, o.success = success ∧ b ∈ o.range by
    obtain ⟨_, o, ho, -, hb⟩ := h
    exact ⟨o, ho, hb⟩
  cases hts : f.transfers with
  | none => exact ⟨false, (fails_results b).mpr (.inl ⟨hts, hb⟩)⟩
  | some ts =>
    by_cases hblock : b ∈ blocks ts
    · by_cases hfailed : strict = true ∧ (f.product.key, b) ∈ failed
      · exact ⟨false, (fails_results b).mpr (.inr ⟨ts, hts, hblock, hfailed⟩)⟩
      · exact ⟨true, (succeeds_results hvalid b).mpr ⟨ts, hts, .inr ⟨hblock, hfailed⟩⟩⟩
    · exact ⟨true, (succeeds_results hvalid b).mpr ⟨ts, hts, .inl ⟨hb, hblock⟩⟩⟩

end FetchedRange

namespace Runner

variable {σ ρ : Type} [ImportStateStore σ BlockNumber] {i : Runner} {c : Conditions}
  {products : List Product} {g : Agenda} {b : RunnerState BlockNumber σ ρ} {p : Product}

variable [LawfulImportStateStore σ BlockNumber]

theorem load_buildRanges (i : Runner) (sources : Sources) (w : RangeContext) (ps : List Product)
    (states : σ) (key : String) :
    ImportStateStore.load (i.buildRanges sources w ps states).2.1 key =
      ImportStateStore.load states key ∨
      ImportStateStore.load states key = .ok none ∧ ∃ s,
        ImportStateStore.load (i.buildRanges sources w ps states).2.1 key = .ok (some s) ∧
          s.coverage = {} := by
  cases hmode : i.behaviour.mode with
  | recent => exact .inl (by rw [buildRanges_recent hmode])
  | historical =>
    rcases (buildRanges_grows hmode (Eq.refl (i.buildRanges sources w ps states))).1 key with
      hsame | ⟨p, -, -, hsame | ⟨hnone, origin, time, hmade⟩⟩
    · exact .inl hsame
    · exact .inl hsame
    · exact .inr ⟨hnone, _, hmade, rfl⟩

theorem exists_opened (historical : i.behaviour.mode = .historical)
    (h : i.agenda? c products b = some g) (hp : p ∈ g.products) {q : Plan.Query BlockNumber}
    (hq : q ∈ g.plan.queries) {r : Range BlockNumber} (hb : q.Brings p.key r) :
    ∃ s, ImportStateStore.load (i.opened c g b) p.positionsKey = .ok (some s) := by
  obtain ⟨d, hd, hdkey⟩ := exists_demand_of_query h hq hb
  obtain ⟨p', hp', s, hs, -, hdemand⟩ := wanted_spec historical d hd
  have hkeys := (Product.collect_eq_ok (agenda?_eq_some h).1).1
  have hkey : p'.key = p.key :=
    (RangeContext.productRanges?_key historical hdemand).symm.trans hdkey
  exact ⟨s, List.inj_on_of_nodup_map hkeys hp' hp hkey ▸ hs⟩

variable [RecordSink ρ]

omit [LawfulImportStateStore σ BlockNumber] in
theorem exists_query (hkeys : (g.products.map (·.key)).Nodup) {records : ρ}
    {o : RangeOutcome BlockNumber} (ho : o ∈ Cycle.outcomesOf p.key (i.resultsOf c g records)) :
    ∃ q ∈ g.plan.queries, ∃ r, q.Brings p.key r := by
  obtain ⟨x, hx, -⟩ := List.mem_map.mp ho
  obtain ⟨hx, hkey⟩ := List.mem_filter.mp hx
  obtain ⟨f, hf, hx⟩ := List.mem_flatMap.mp hx
  obtain ⟨q, hq, -, hbrings, -⟩ := (FetchedRange.mem_ofQueries hkeys).mp hf
  rw [← FetchedRange.key_of_mem_results hx, of_decide_eq_true hkey] at hbrings
  exact ⟨q, (c.queryOrder.perm g.plan.queries).mem_iff.mp hq, f.range, hbrings⟩

omit [LawfulImportStateStore σ BlockNumber] in
/-- What was planned for has an outcome, block by block. -/
theorem exists_outcome (hkeys : (g.products.map (·.key)).Nodup) (hp : p ∈ g.products)
    {q : Plan.Query BlockNumber} (hq : q ∈ g.plan.queries) {r : Range BlockNumber}
    (hb : q.Brings p.key r) {block : BlockNumber} (hblock : block ∈ r) (records : ρ) :
    ∃ o ∈ Cycle.outcomesOf p.key (i.resultsOf c g records), block ∈ o.range := by
  have hsent := (c.queryOrder.perm g.plan.queries).mem_iff.mpr hq
  obtain ⟨f, hf, rfl, rfl⟩ : ∃ f ∈ i.fetched c g, f.product = p ∧ f.range = r := by
    cases hanswer : FetchedRange.answer c.sources g.products q with
    | ok ts =>
      refine ⟨⟨p, r, some (FetchedRange.select i.loader p r ts)⟩, ?_, rfl, rfl⟩
      exact (FetchedRange.mem_ofQueries hkeys).mpr ⟨q, hsent, hp, hb, by rw [hanswer]⟩
    | error fault =>
      refine ⟨⟨p, r, none⟩, ?_, rfl, rfl⟩
      exact (FetchedRange.mem_ofQueries hkeys).mpr ⟨q, hsent, hp, hb, by rw [hanswer]⟩
  obtain ⟨x, hx, hin⟩ := FetchedRange.exists_result hblock
  refine ⟨x.outcome, List.mem_map_of_mem (List.mem_filter.mpr ⟨?_, ?_⟩), hin⟩
  · exact List.mem_flatMap.mpr ⟨f, hf, hx⟩
  · exact decide_eq_true (FetchedRange.key_of_mem_results hx)

/-! ## All or none -/

/-- A cycle that folds nothing: it is called off, or it fails. How far cycles have come stays as it
was, and so does every state. A state that was made on the way covers nothing, and nothing waits in
it. -/
structure Untouched (b : RunnerState BlockNumber σ ρ) (e : Ending BlockNumber)
    (b' : RunnerState BlockNumber σ ρ) : Prop where
  ending : e = .ok [] ∨ ∃ fault, e = .error fault
  lastImported : b'.progress.lastImported = b.progress.lastImported
  kept : ∀ key s, ImportStateStore.load b.states key = .ok (some s) →
    ImportStateStore.load b'.states key = .ok (some s)
  made : ∀ key s, ImportStateStore.load b'.states key = .ok (some s) →
    ImportStateStore.load b.states key = .ok (some s) ∨
      ImportStateStore.load b.states key = .ok none ∧ s.coverage.covered = [] ∧
        s.coverage.toRetry = []

/-- A cycle that folds the outcomes of all products of its plan. Every block that a query was to
bring a product is in an outcome of the product. In historical mode each such product has a state by
then, every state has all outcomes at its key applied, and no state changes otherwise. In recent
mode no state changes at all. -/
structure FoldsAll (i : Runner) (token : CancellationToken) (c : Conditions) (g : Agenda)
    (b : RunnerState BlockNumber σ ρ) (e : Ending BlockNumber) (b' : RunnerState BlockNumber σ ρ) :
    Prop
    extends Complete i token c g b e b' where
  planned : ∀ p ∈ g.products, ∀ q ∈ g.plan.queries, ∀ r, q.Brings p.key r → ∀ block ∈ r,
    ∃ o ∈ Cycle.outcomesOf p.key (i.resultsOf c g b.records), block ∈ o.range
  found : i.behaviour.mode = .historical →
    ∀ p ∈ g.products, ∀ q ∈ g.plan.queries, ∀ r, q.Brings p.key r →
      ∃ s, ImportStateStore.load (i.opened c g b) p.positionsKey = .ok (some s)
  opened : ∀ key, ImportStateStore.load (i.opened c g b) key = ImportStateStore.load b.states key ∨
    ImportStateStore.load b.states key = .ok none ∧
      ∃ s, ImportStateStore.load (i.opened c g b) key = .ok (some s) ∧ s.coverage = {}
  historical : i.behaviour.mode = .historical → ∀ key,
    ImportStateStore.load b'.states key = (ImportStateStore.load (i.opened c g b) key).map
      (Option.map (ImportState.applyResults c.now ·
        (Cycle.outcomesAt (i.resultsOf c g b.records) g.products key)))
  recent : i.behaviour.mode = .recent → b'.states = b.states

variable {token : CancellationToken} {e : Ending BlockNumber} {b' : RunnerState BlockNumber σ ρ}

theorem Early.untouched (h : Early i c products b e b') : Untouched b e b' := by
  -- each key has what it had, or a state was made where there was none
  have hload : ∀ key, ImportStateStore.load b'.states key = ImportStateStore.load b.states key ∨
      ImportStateStore.load b.states key = .ok none ∧
        ∃ s, ImportStateStore.load b'.states key = .ok (some s) ∧ s.coverage = {} := by
    intro key
    rcases h.states with hstates | ⟨latest, ps, hstates⟩
    · exact .inl (by rw [hstates])
    · rw [hstates]
      exact load_buildRanges i c.sources _ ps b.states key
  refine ⟨h.ending, h.lastImported, fun key s hs => ?_, fun key s hs => ?_⟩
  · rcases hload key with hsame | ⟨hnone, -⟩
    · exact hsame.trans hs
    · rw [hs] at hnone
      cases hnone
  · rcases hload key with hsame | ⟨hnone, made, hmade, hempty⟩
    · exact .inl (hsame.symm.trans hs)
    · obtain rfl : made = s := by simpa [hs] using hmade.symm
      exact .inr ⟨hnone, by rw [hempty], by rw [hempty]⟩

theorem Complete.foldsAll (h : Complete i token c g b e b') (hg : i.agenda? c products b = some g) :
    FoldsAll i token c g b e b' := by
  have hkeys := (Product.collect_eq_ok (agenda?_eq_some hg).1).1
  refine { h with planned := ?_, found := ?_, opened := ?_, historical := ?_, recent := ?_ }
  · exact fun p hp q hq r hb block hblock => exists_outcome hkeys hp hq hb hblock b.records
  · exact fun historical p hp q hq r hb => exists_opened historical hg hp hq hb
  · exact load_buildRanges i c.sources _ g.products b.states
  · intro historical key
    rw [h.states, folded, historical]
    refine Cycle.load_updateStates_key c.now (fun p hp hne => ?_) key
    obtain ⟨o, ho⟩ := List.exists_mem_of_ne_nil _ hne
    obtain ⟨q, hq, r, hb⟩ := exists_query hkeys ho
    obtain ⟨s, hs⟩ := exists_opened historical hg hp hq hb
    exact ⟨some s, hs⟩
  · intro recent
    rw [h.states, folded, recent]
    exact buildRanges_recent recent

/-- **All or none.** A cycle folds the outcomes of all products of its plan, or it ends without
results and leaves everything as it was but for states that cover nothing. That is so for cycles in
either mode, on whatever states, called off before any stage, and whether or not the head of the
chain is found and a plan is made. -/
theorem cycle_all_or_none (i : Runner) (c : Conditions) (products : List Product)
    (b : RunnerState BlockNumber σ ρ) :
    i.runCycle c products b = i.runCycleUnder (fun _ => c.cancelled) c products b ∧
      ∀ token : CancellationToken,
        let (e, b') := i.runCycleUnder token c products b
        Untouched b e b' ∨ ∃ g, i.agenda? c products b = some g ∧ FoldsAll i token c g b e b' := by
  refine ⟨rfl, fun token => ?_⟩
  rcases runCycleUnder_cases (Eq.refl (i.runCycleUnder token c products b)) with hearly | ⟨g, hg, h⟩
  · exact .inl hearly.untouched
  · exact .inr ⟨g, hg, h.foldsAll hg⟩

end Runner

/-! ## A vault, called off before its queries are sent -/

namespace CalledOff

open StrictCycle (product runner conditions initial)

def token : CancellationToken := fun stage _ => stage = .dispatch

/-- A state was made for the vault, and is as it was made. -/
theorem cycle_all_or_none_dispatch :
    let (e, b') := runner.runCycleUnder token conditions [product] initial
    e = .ok [] ∧ ImportStateStore.load initial.states product.positionsKey = .ok none ∧
      coverageOf (ImportStateStore.load b'.states product.positionsKey) = {} ∧
      (ImportStateStore.load b'.states product.positionsKey).toOption.join.isSome ∧
      Runner.Untouched initial e b' := by
  refine ⟨by decide +kernel, by decide +kernel, by decide +kernel, by decide +kernel, ?_⟩
  refine ((Runner.cycle_all_or_none runner conditions [product] initial).2 token).resolve_right ?_
  rintro ⟨g, -, h⟩
  obtain ⟨t, ht⟩ := h.passed .dispatch (by decide)
  simp [token] at ht

end CalledOff

end Backfill
