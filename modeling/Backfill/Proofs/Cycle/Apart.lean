import Backfill.Proofs.Cycle.Alike

/-!
# Products do not disturb each other

A runner that asks for one product at a time plans, fetches and loads its products in one cycle,
and folds all results into states in the end. What it does for one of them depends on the head of
the chain, on what the sources say of that product and on its own state. Other products may be there
or not, their states may be unreadable, their queries and records may fail: the product has the same
queries and results, and the same is covered and waits.

Results:
* `Runner.alike_of_agendas`: two cycles with agendas.
* `products_apart`: two cycles that come to their ends.
-/
namespace Backfill

open Axis Range

/-! ## Two cycles -/

/-- What a store that is the same at a key has there. -/
theorem SameAt.coverageOf_eq {σ : Type} [ImportStateStore σ BlockNumber] {key : String} {u u' : σ}
    (h : SameAt key u u') :
    (coverageOf (ImportStateStore.load u key)).covered =
    (coverageOf (ImportStateStore.load u' key)).covered ∧
      (coverageOf (ImportStateStore.load u key)).toRetry =
        (coverageOf (ImportStateStore.load u' key)).toRetry := by
  have hfound := (keeps_sameAt key).load h
  cases hload : ImportStateStore.load u key <;> cases hload' : ImportStateStore.load u' key <;>
    rw [hload, hload'] at hfound
  · exact ⟨rfl, rfl⟩
  · exact hfound.elim
  · exact hfound.elim
  · cases hfound with
    | none => exact ⟨rfl, rfl⟩
    | some hagree =>
      obtain ⟨-, last, rfl⟩ := hagree
      exact ⟨rfl, rfl⟩

namespace Runner

variable {σ ρ : Type} [ImportStateStore σ BlockNumber] {i : Runner} {c c' : Conditions}
  {products products' : List Product} {b b' : RunnerState BlockNumber σ ρ} {g g' : Agenda}
  {p : Product}

theorem queries_of_agenda (one : i.limits.maxAddresses = 1) (hg : i.agenda? c products b = some g) :
    g.plan.queries = (Plan.singles i.optimizerOptions (i.wanted c g b)).map .single := by
  rw [Plan.choose_of_one (agenda?_eq_some hg).2.2 one]
  rfl

theorem single_of_agenda (one : i.limits.maxAddresses = 1) (hg : i.agenda? c products b = some g) :
    ∀ q ∈ g.plan.queries, ∃ s, q = .single s := by
  intro q hq
  rw [queries_of_agenda one hg] at hq
  obtain ⟨s, -, rfl⟩ := List.mem_map.mp hq
  exact ⟨s, rfl⟩

/-- A product that two cycles are about, among any others, has the same queries and results, and its
states stay the same. -/
theorem alike_of_agendas [RecordSink ρ] (historical : i.behaviour.mode = .historical)
    (one : i.limits.maxAddresses = 1) (hg : i.agenda? c products b = some g)
    (hg' : i.agenda? c' products' b' = some g') (hp : p.Amid g.products) (hp' : p.Amid g'.products)
    (agree : c.sources.AgreeOn p c'.sources)
    (steady : i.behaviour.strict = true → i.loader.SteadyFrom c.sources p b.records b'.records)
    (stores : SameAt p.positionsKey b.states b'.states) :
    g.plan.queries.filter (p.key ∈ ·.keys) = g'.plan.queries.filter (p.key ∈ ·.keys) ∧
      ((i.resultsOf c g b.records).filter (·.key = p.key)).Perm
        ((i.resultsOf c' g' b'.records).filter (·.key = p.key)) ∧
      SameAt p.positionsKey (i.folded c g b) (i.folded c' g' b') := by
  obtain ⟨hcollect, hlatest, -⟩ := agenda?_eq_some hg
  obtain ⟨hcollect', hlatest', -⟩ := agenda?_eq_some hg'
  have hkeys := (Product.collect_eq_ok hcollect).1
  have hkeys' := (Product.collect_eq_ok hcollect').1
  have hsame : g.latest = g'.latest := by
    rw [agree.latest, hlatest'] at hlatest
    exact (Except.ok.inj hlatest).symm
  -- both want the same of the product's history
  have hdemands := buildRanges_alike historical agree g.latest b.progress.lastImported
    b'.progress.lastImported stores hp hp'
  have hwanted : (i.wanted c g b).filter (·.key = p.key) =
      (i.wanted c' g' b').filter (·.key = p.key) := by
    rw [wanted, wanted, ← hsame]
    exact hdemands.1
  have hopened : SameAt p.positionsKey (i.opened c g b) (i.opened c' g' b') := by
    rw [opened, opened, ← hsame]
    exact hdemands.2.1
  have hq := queries_of_agenda one hg
  have hq' := queries_of_agenda one hg'
  have hsingle := single_of_agenda one hg
  have hsingle' := single_of_agenda one hg'
  have hbrought : Plan.brought p.key g.plan.queries = Plan.brought p.key g'.plan.queries := by
    rw [hq, hq', Plan.brought_singles_filter, Plan.brought_singles_filter, hwanted]
  have hproper : ∀ r ∈ Plan.brought p.key g.plan.queries, r.Proper := by
    rw [hq, Plan.brought_singles_filter]
    intro r hr
    obtain ⟨d, hd, hr⟩ := List.mem_flatMap.mp hr
    exact (Plan.parts_piecesFor i.optimizerOptions (hdemands.2.2 d hd)).proper r hr
  have hresults := results_alike hkeys hkeys' hp.mem hp'.mem hsingle hsingle' hbrought agree hsame
    steady
  refine ⟨?_, hresults, ?_⟩
  · rw [hq, hq', Plan.filter_singles, Plan.filter_singles, hwanted]
  · rw [folded, folded, historical]
    exact Cycle.updateStates_alike (hresults.map _)
      (outcomes_proper_of_brought hkeys hp.mem hsingle hproper b.records) _ _ hopened hp hp'

end Runner

/-! ## Two cycles -/

namespace CycleRun

variable {σ ρ : Type} [ImportStateStore σ BlockNumber] [RecordSink ρ] {t t' : CycleRun ρ}
  {states states' : σ} {p : Product}

def queries (t : CycleRun ρ) (states : σ) : List (Plan.Query BlockNumber) :=
  ((t.agenda? states).map (·.plan.queries)).getD []

def Completes (t : CycleRun ρ) (states : σ) : Prop :=
  (t.runCycle states).1.isOk = true ∧ (t.runCycle states).2.progress.stage = .done

/-- A cycle that comes to its end has nothing to do, or does what its agenda says. -/
theorem Completes.cases (h : t.Completes states) :
    (t.collected = [] ∧ t.results states = [] ∧ t.after states = states) ∨
      ∃ g, t.agenda? states = some g ∧
        t.results states = t.runner.resultsOf t.conditions g t.records ∧
        t.after states = t.runner.folded t.conditions g (t.initial states) := by
  obtain ⟨hok, hdone⟩ := h
  have hcycle : t.runCycle states = ((t.runCycle states).1, (t.runCycle states).2) := rfl
  rcases Runner.cycle_cases hcycle with hearly | ⟨g, hg, hresults, -, hstates⟩
  · obtain ⟨rs, hrs⟩ : ∃ rs, (t.runCycle states).1 = .ok rs := by
      rcases hearly.ending with h | ⟨fault, h⟩
      · exact ⟨_, h⟩
      · rw [h] at hok
        cases hok
    obtain ⟨hcollect, hsame⟩ := hearly.completed rs hrs hdone
    exact .inl ⟨(Product.eq_of_collect hcollect).symm, hearly.results, hsame⟩
  · exact .inr ⟨g, hg, congrArg (·.toOption.getD []) hresults, hstates⟩

/-- A product that is not collected has no queries and no results, and its state stays. -/
theorem apart_of_collected (historical : t.runner.behaviour.mode = .historical)
    (one : t.runner.limits.maxAddresses = 1) (completes : t.Completes states)
    (h : p.Apart t.collected) :
    (t.queries states).filter (p.key ∈ ·.keys) = [] ∧
      (t.results states).filter (·.key = p.key) = [] ∧
      ∀ u' : σ, SameAt p.positionsKey states u' → SameAt p.positionsKey (t.after states) u' := by
  have hne : ∀ q ∈ t.collected, q.positionsKey ≠ p.positionsKey := fun q hq => (h q hq).2
  refine ⟨?_, ?_, fun u' hsame => ?_⟩
  · unfold queries
    cases hg : t.agenda? states with
    | none => rfl
    | some g =>
      rw [Option.map_some, Option.getD_some, Runner.queries_of_agenda one hg, Plan.filter_singles,
        Runner.wanted, (products_of_agenda hg).1, Runner.filter_buildRanges_apart historical h]
      rfl
  · rcases completes.cases with ⟨-, hnone, -⟩ | ⟨g, hg, hresults, -⟩
    · rw [hnone]
      rfl
    · obtain ⟨hproducts, hkeys⟩ := products_of_agenda hg
      have hnone : (t.runner.fetched t.conditions g).filter (·.product.key = p.key) = [] := by
        refine List.filter_eq_nil_iff.mpr fun f hf hkey => ?_
        obtain ⟨q, -, hmem, -⟩ := (FetchedRange.mem_ofQueries hkeys).mp hf
        exact (h f.product (hproducts ▸ hmem)).1 (of_decide_eq_true hkey)
      rw [hresults, Runner.resultsOf,
        Cycle.filter_results fun f _ o ho => FetchedRange.key_of_mem_results ho, hnone]
      rfl
  · rcases completes.cases with ⟨-, -, hafter⟩ | ⟨g, hg, -, hafter⟩
    · rw [hafter]
      exact hsame
    · rw [hafter, Runner.folded, historical, Runner.opened, (products_of_agenda hg).1]
      exact Cycle.sameAt_updateStates _ _ (Runner.sameAt_buildRanges _ _ _ hsame hne) hne

section Collected

variable (keys : (t.products.map (·.key)).Nodup) (ids : (t.products.map (·.id)).Nodup)
  (hp : p ∈ t.products)

include keys ids hp

omit [ImportStateStore σ BlockNumber] [RecordSink ρ] in
theorem amid_collected (hchain : p.chain = t.runner.chain) : p.Amid t.collected := by
  refine Product.amid_of_mem ?_ (nodup_collected ids) (mem_collected.mpr ⟨hp, hchain⟩)
  exact ((sortBy_perm _ _).map _).nodup_iff.mpr (keys.sublist (List.filter_sublist.map _))

omit [ImportStateStore σ BlockNumber] [RecordSink ρ] in
theorem apart_collected (hchain : p.chain ≠ t.runner.chain) : p.Apart t.collected := by
  intro q hq
  obtain ⟨hq, hq'⟩ := mem_collected.mp hq
  refine ⟨fun heq => hchain ?_, fun heq => hchain ?_⟩
  · rw [← List.inj_on_of_nodup_map keys hq hp heq, hq']
  · rw [← List.inj_on_of_nodup_map ids hq hp (Product.positionsKey_inj heq), hq']

end Collected

end CycleRun

/-- **Apart.** Two cycles of runners of the history that ask for one product at a time come to their
ends. A product that both are about has the same queries and the same results in both, and the same
is covered and waits in the end. The cycles may differ in all other products, in what becomes of
their states, queries and records, in the order in which things end, and in what was done before. -/
theorem products_apart {σ ρ : Type} [ImportStateStore σ BlockNumber] [RecordSink ρ]
    {t t' : CycleRun ρ} {states states' : σ} {p : Product} (same : t'.runner = t.runner)
    (historical : t.runner.behaviour.mode = .historical) (one : t.runner.limits.maxAddresses = 1)
    (keys : (t.products.map (·.key)).Nodup) (ids : (t.products.map (·.id)).Nodup)
    (keys' : (t'.products.map (·.key)).Nodup) (ids' : (t'.products.map (·.id)).Nodup)
    (hp : p ∈ t.products) (hp' : p ∈ t'.products)
    (agree : t.conditions.sources.AgreeOn p t'.conditions.sources)
    (steady : t.runner.behaviour.strict = true →
      t.runner.loader.SteadyFrom t.conditions.sources p t.records t'.records)
    (stores : SameAt p.positionsKey states states')
    (completes : t.Completes states) (completes' : t'.Completes states') :
    let after := ImportStateStore.load (t.after states) p.positionsKey
    let after' := ImportStateStore.load (t'.after states') p.positionsKey
    (t.queries states).filter (p.key ∈ ·.keys) = (t'.queries states').filter (p.key ∈ ·.keys) ∧
      ((t.results states).filter (·.key = p.key)).Perm
        ((t'.results states').filter (·.key = p.key)) ∧
      (coverageOf after).covered = (coverageOf after').covered ∧
      (coverageOf after).toRetry = (coverageOf after').toRetry ∧
      SameAt p.positionsKey (t.after states) (t'.after states') := by
  intro after after'
  suffices h : (t.queries states).filter (p.key ∈ ·.keys) =
      (t'.queries states').filter (p.key ∈ ·.keys) ∧
      ((t.results states).filter (·.key = p.key)).Perm
        ((t'.results states').filter (·.key = p.key)) ∧
      SameAt p.positionsKey (t.after states) (t'.after states') by
    obtain ⟨hqueries, hresults, hafter⟩ := h
    exact ⟨hqueries, hresults, hafter.coverageOf_eq.1, hafter.coverageOf_eq.2, hafter⟩
  by_cases hchain : p.chain = t.runner.chain
  · have hamid := CycleRun.amid_collected keys ids hp hchain
    have hamid' := CycleRun.amid_collected keys' ids' hp' (same ▸ hchain)
    obtain ⟨g, hg, hresults, hafter⟩ := completes.cases.resolve_left fun hnone =>
      List.not_mem_nil (hnone.1 ▸ hamid.mem)
    obtain ⟨g', hg', hresults', hafter'⟩ := completes'.cases.resolve_left fun hnone =>
      List.not_mem_nil (hnone.1 ▸ hamid'.mem)
    rw [← (CycleRun.products_of_agenda hg).1] at hamid
    rw [← (CycleRun.products_of_agenda hg').1] at hamid'
    have hqueries : t.queries states = g.plan.queries := by rw [CycleRun.queries, hg]; rfl
    have hqueries' : t'.queries states' = g'.plan.queries := by rw [CycleRun.queries, hg']; rfl
    rw [same] at hresults' hafter'
    rw [hqueries, hqueries', hresults, hresults', hafter, hafter']
    rw [CycleRun.agenda?, same] at hg'
    have hstores : SameAt p.positionsKey (t.initial states).states (t'.initial states').states :=
      stores
    obtain ⟨halike, hperm, hstays⟩ :=
      Runner.alike_of_agendas historical one hg hg' hamid hamid' agree steady hstores
    exact ⟨halike, hperm, hstays⟩
  · obtain ⟨hqueries, hresults, hafter⟩ := CycleRun.apart_of_collected historical one completes
      (CycleRun.apart_collected keys ids hp hchain)
    obtain ⟨hqueries', hresults', hafter'⟩ := CycleRun.apart_of_collected (same ▸ historical)
      (same ▸ one) completes' (CycleRun.apart_collected keys' ids' hp' (same ▸ hchain))
    have hkeeps := keeps_sameAt (σ := σ) p.positionsKey
    exact ⟨hqueries.trans hqueries'.symm, hresults ▸ hresults' ▸ .refl _,
      hkeeps.symm (hafter' _ (hkeeps.symm (hafter _ stores)))⟩

/-! ## Two vaults, one of which fails -/

namespace ApartVaults

open StrictCycle (product runner mock)
open FourCycles (other)

def remote : MockChain :=
  { mock with
    creations := [(.ofNat 9, 10), (.ofNat 10, 20)]
    transfers := mock.transfers ++ [⟨33, .ofNat 3, 0, .ofNat 10, .ofNat 5, 1⟩] }

def failing : Sources :=
  { remote.sources with
    transfers := fun range tokens =>
      if tokens = [other.contract] ∧ range = ⟨20, 20⟩ then .error .timeout
      else remote.sources.transfers range tokens }

def records (broken : List String) : Refusing MemoryRecords :=
  ⟨⟨.empty, .empty, .empty, .empty⟩, broken⟩

def states (brokenLoads : List String) : Unreliable (MemoryImportStateStore BlockNumber) :=
  { inner := TwoVaults.states, brokenLoads }

def first : CycleRun (Refusing MemoryRecords) where
  runner := runner
  products := [product, other]
  records := records ["investment:33"]
  conditions := { sources := failing, now := 5 }

def second : CycleRun (Refusing MemoryRecords) where
  runner := runner
  products := [other, product]
  records := records []
  conditions :=
    { sources := remote.sources, now := 9, queryOrder := TwoVaults.reversed.queryOrder }

/-- In one cycle a query and a record of the second vault fail, in the other its state cannot be
read. The first vault does not notice. -/
theorem products_apart_failing :
    let run := first.after (states [])
    let run' := second.after (states [other.positionsKey])
    let after u key := coverageOf (ImportStateStore.load u key)
    (first.results (states [])).filterMap
          (fun r => if r.key = other.key then some (r.range, r.success) else none) =
        [(⟨31, 32⟩, true), (⟨34, 40⟩, true), (⟨33, 33⟩, false), (⟨21, 30⟩, false),
          (⟨20, 20⟩, false)] ∧
      (second.results (states [other.positionsKey])).filter (·.key = other.key) = [] ∧
      (after run product.positionsKey).covered = [⟨10, 14⟩, ⟨16, 24⟩, ⟨27, 40⟩] ∧
      (after run' product.positionsKey).toRetry = [⟨15, 15⟩, ⟨25, 26⟩] ∧
      (first.queries (states [])).filter (product.key ∈ ·.keys) =
        (second.queries (states [other.positionsKey])).filter (product.key ∈ ·.keys) ∧
      ((first.results (states [])).filter (·.key = product.key)).Perm
        ((second.results (states [other.positionsKey])).filter (·.key = product.key)) ∧
      (after run product.positionsKey).covered = (after run' product.positionsKey).covered ∧
      (after run product.positionsKey).toRetry = (after run' product.positionsKey).toRetry := by
  intro run run' after
  have same : second.runner = first.runner := rfl
  have hproper := (TwoVaults.reached_states product.positionsKey).sound.toProper
  have hinner : SameAt product.positionsKey TwoVaults.states TwoVaults.states :=
    MemoryImportStateStore.sameAt (.some (.refl hproper))
  have stores : SameAt product.positionsKey (states []) (states [other.positionsKey]) :=
    Unreliable.sameAt ⟨hinner, by decide, .rfl, .rfl, .rfl⟩
  have agree : failing.AgreeOn product remote.sources :=
    { latest := rfl
      creation := rfl
      transfers := by
        intro range
        have hother : [product.contract] ≠ [other.contract] := by decide
        simp only [failing, hother, false_and, if_false]
      position := fun _ _ => rfl }
  have steady : runner.loader.SteadyFrom failing product (records ["investment:33"])
      (records []) := by
    have hrows : ∀ t ∈ remote.transfers, t.token = product.contract → ∀ name ∈ Refusing.rows t,
        name ∉ ["investment:33"] ∧ name ∉ [] := by decide +kernel
    refine Refusing.steadyFrom (runner.loader.steady_memory _ _)
      fun range ts hts t ht htoken => hrows t ?_ htoken
    rw [agree.transfers] at hts
    simp only [MockChain.sources, MockChain.transfersIn] at hts
    split at hts
    · cases hts
    · obtain rfl := Except.ok.inj hts
      exact (List.mem_filter.mp ht).1
  have completes : first.Completes (states []) := ⟨by decide +kernel, by decide +kernel⟩
  have completes' : second.Completes (states [other.positionsKey]) :=
    ⟨by decide +kernel, by decide +kernel⟩
  obtain ⟨hqueries, hresults, hcovered, htoRetry, -⟩ :=
    products_apart same rfl rfl (by decide) (by decide) (by decide) (by decide)
      (List.mem_cons_self ..) (.tail _ (.head _)) agree (fun _ => steady) stores
        completes completes'
  exact ⟨by decide +kernel, by decide +kernel, by decide +kernel, by decide +kernel, hqueries,
    hresults, hcovered, htoRetry⟩

end ApartVaults
end Backfill
