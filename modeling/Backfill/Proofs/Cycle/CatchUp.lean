import Backfill.Proofs.Cycle.Repeats

/-!
# A runner catches up

While the head of the chain stays where it is and everything succeeds, a runner that repeats its
cycle comes to one that has nothing to ask for.

What carries this is the set of blocks that are not covered, over all products of the chain. No
cycle adds to it, because what is covered stays so. A plan with a query brings some product a block
that it needs, which is one not covered before and covered after. So the set shrinks with every
cycle that sends queries. And a plan without queries, of either kind, leaves nothing needed: no
product can be crowded out of it, as a product with a need has a query of its own or a part in a
shared one.

Results:
* `Plan.exists_brings`, `Plan.not_needed_of_nil`: what the queries of a plan are for.
* `RangeContext.covered_of_not_needed`: when a product needs nothing.
* `Runner.uncovered_lt`: a plan with queries leaves fewer blocks uncovered.
* `Runner.catches_up`: some cycle has nothing to ask for, unless two products have one key.
-/
namespace Backfill

open Axis Range

/-! ## Plans without queries -/

namespace Plan

variable {α : Type} [Axis α] [Axis.Shown α] {limits : Limits} {draws : Draws}
  {ds : List (ProductRanges α)} {plan : Plan α}

/-- Every query of a plan is to bring some product a range. -/
theorem exists_brings (h : choose limits draws ds = .ok plan) {q : Query α}
    (hq : q ∈ plan.queries) : ∃ key r, q.Brings key r := by
  rcases (choose_eq_ok h).2 with rfl | rfl
  · obtain ⟨s, -, rfl⟩ := List.mem_map.mp hq
    exact ⟨s.key, s.range, brings_single.mpr ⟨rfl, rfl⟩⟩
  · obtain ⟨s, hs, rfl⟩ := List.mem_map.mp hq
    obtain ⟨_, -, _, hs⟩ := mem_shareds hs
    obtain ⟨c, -, hc⟩ := List.mem_filterMap.mp hs
    obtain ⟨range, hcover, rfl⟩ := Option.map_eq_some_iff.mp hc
    -- a query is made only of a chunk that needs something
    have hne : c.flatMap (·.ranges) ≠ [] := fun hnil => by
      rw [cover_eq_none.mpr hnil] at hcover
      cases hcover
    obtain ⟨r, hr⟩ := List.exists_mem_of_ne_nil _ hne
    obtain ⟨n, hn, hr⟩ := List.mem_flatMap.mp hr
    exact ⟨n.key, r, ⟨n.key, n.ranges⟩, List.mem_map_of_mem hn, rfl, hr⟩

/-- If a plan has no queries, nothing is needed. -/
theorem not_needed_of_nil (h : choose limits draws ds = .ok plan)
    (hds : ∀ d ∈ ds, ProperRanges d) (hnil : plan.queries = []) {d : ProductRanges α} (hd : d ∈ ds)
    {a : α} (ha : Whole a) : ¬ Holds (need limits.ignoreState d).ranges a := by
  intro hneed
  obtain ⟨haccept, hplan⟩ := choose_eq_ok h
  have haccept := check_eq_ok_iff.mp haccept
  rcases hplan with rfl | rfl
  · have hpieces : ∀ e ∈ ds, piecesFor limits e = [] := fun e he => by
      rw [← brought_singles haccept.keys he, hnil]
      rfl
    have huncut : Uncut limits ds := uncut_of_lt fun e he => by
      rw [hpieces e he]
      exact haccept.maxQueries
    have hheld := huncut.holds haccept.keys hd (hds d hd) ha hneed
    rw [hpieces d hd] at hheld
    exact holds_nil a hheld
  · have hheld := (parts_brought_shareds draws haccept.maxProducts haccept.keys hds hd).2 a ha hneed
    rw [hnil] at hheld
    exact holds_nil a hheld

end Plan

/-! ## What a product wants in the end -/

/-- A product that needs nothing has its part of the history covered, and nothing waits. -/
theorem RangeContext.covered_of_not_needed {w : RangeContext} {p : Product}
    {s : ImportState BlockNumber} {d : ProductRanges BlockNumber}
    (historical : w.behaviour.mode = .historical) (counts : w.behaviour.ignoreState = false)
    (unforced : w.behaviour.forced = none) (h : w.productRanges? p (some s) = some d)
    (hs : s.coverage.Sound) (hnone : ∀ b, ¬ Holds (Plan.need w.behaviour.ignoreState d).ranges b) :
    (∀ b ∈ d.full, Holds s.coverage.covered b) ∧ s.coverage.toRetry = [] := by
  have hd := proper_demand historical h hs
  obtain ⟨_, -, -, hcovered, ⟨-, -, htoRetry⟩ | ⟨_, hforced, -⟩⟩ :=
    productRanges?_eq_some historical h
  · rw [known_eq counts] at hcovered htoRetry
    have hwaits : ∀ b, ¬ Holds s.coverage.toRetry b := fun b hb =>
      hnone b ((Plan.holds_need hd (whole_block b)).mpr (.inr ⟨counts, htoRetry ▸ hb⟩))
    refine ⟨fun b hb => ?_, ?_⟩
    · by_contra hopen
      refine hnone b ((Plan.holds_need hd (whole_block b)).mpr (.inl ?_))
      exact (Plan.holds_fresh hd (whole_block b) counts).mpr
        ⟨hb, hcovered ▸ hopen, htoRetry ▸ hwaits b⟩
    · refine List.eq_nil_iff_forall_not_mem.mpr fun r hr => hwaits r.first ⟨r, hr, ?_⟩
      exact (hs.toRetry.proper r hr).first_mem
  · rw [unforced] at hforced
    cases hforced

theorem Cycle.updateStates_nil {σ : Type} [ImportStateStore σ BlockNumber] (now : UInt64)
    (stateKey : Product → String) (ps : List Product) (states : σ) :
    updateStates now stateKey [] ps states = (states, []) := by
  induction ps with
  | nil => rfl
  | cons p ps ih => exact ih

namespace Runner

variable {σ ρ : Type} [ImportStateStore σ BlockNumber] [RecordSink ρ] {i : Runner}
  {latest : BlockNumber} {products : List Product}

/-! ## Cycles in which everything succeeds -/

/-- Everything succeeds in a cycle: it is not called off and finds the head of the chain, its
queries are answered, and in strict mode all records are loaded. -/
structure Smooth (i : Runner) (latest : BlockNumber) (c : Conditions) (products : List Product)
    (b : RunnerState BlockNumber σ ρ) : Prop where
  runs : ∀ t, c.cancelled t = false
  frontier : c.sources.latest = .ok latest
  answers : c.sources.Answer
  loads : i.behaviour.strict = true → ∀ g, i.agenda? c products b = some g →
    i.failures c g b.records = []

def uncovered (i : Runner) (products : List Product) (states : σ) :
    Set (Product × BlockNumber) :=
  {x | (x.1 ∈ products ∧ x.1.chain = i.chain) ∧
    ¬ Holds (coverageOf (ImportStateStore.load states x.1.positionsKey)).covered x.2}

omit [RecordSink ρ] in
theorem finite_uncovered (i : Runner) (products : List Product) (states : σ) :
    (i.uncovered products states).Finite := by
  have hall : ({p | p ∈ products} ×ˢ (Set.univ : Set BlockNumber)).Finite :=
    (List.finite_toSet products).prod Set.finite_univ
  exact hall.subset fun x hx => ⟨hx.1.1, trivial⟩

section Step

variable [LawfulImportStateStore σ BlockNumber] {c : Conditions} {b : RunnerState BlockNumber σ ρ}
  {g : Agenda} (historical : i.behaviour.mode = .historical)
  (counts : i.behaviour.ignoreState = false) (distinct : (products.map (·.id)).Nodup)
  (hsound : ∀ key, (coverageOf (ImportStateStore.load b.states key)).Sound)
  (smooth : i.Smooth latest c products b) (hg : i.agenda? c products b = some g)

include historical hsound smooth hg

include distinct in
theorem covered_cycle {p : Product} (hp : p ∈ g.products) (a : BlockNumber) :
    Holds (coverageOf
        (ImportStateStore.load (i.runCycle c products b).2.states p.positionsKey)).covered a ↔
      Holds (coverageOf (ImportStateStore.load b.states p.positionsKey)).covered a ∨
        Holds (Plan.brought p.key g.plan.queries) a := by
  rw [(settled_cycle hsound historical distinct smooth.runs hg hp).covered,
    Cycle.served_iff smooth.answers, and_iff_left]
  rintro ⟨hstrict, x, hx, -⟩
  rw [smooth.loads hstrict g hg] at hx
  exact List.not_mem_nil hx

include counts distinct in
/-- A plan with queries leaves fewer blocks uncovered. -/
theorem uncovered_lt (hne : g.plan.queries ≠ []) :
    (i.uncovered products (i.runCycle c products b).2.states).ncard <
      (i.uncovered products b.states).ncard := by
  obtain ⟨hkeys, -, hproducts⟩ := agenda_products distinct hg
  have hsub : i.uncovered products (i.runCycle c products b).2.states ⊆
      i.uncovered products b.states := by
    rintro x ⟨hx, hopen⟩
    refine ⟨hx, fun hcovered => hopen ?_⟩
    exact (covered_cycle historical distinct hsound smooth hg ((hproducts x.1).mpr hx) x.2).mpr
      (.inl hcovered)
  -- the first block of what some query brings was needed, and is covered now
  obtain ⟨q, hq⟩ := List.exists_mem_of_ne_nil _ hne
  obtain ⟨key, r, hbrings⟩ := Plan.exists_brings (agenda?_eq_some hg).2.2 hq
  obtain ⟨hr, d, hd, rfl, hneed⟩ :=
    (agenda_allotted historical hg fun p _ => hsound p.positionsKey).2.needed q hq key r hbrings
  obtain ⟨p, hp, s, -, hcoverage, hdemand⟩ := wanted_spec historical d hd
  have hkey := RangeContext.productRanges?_key historical hdemand
  have hopen : ¬ Holds (coverageOf (ImportStateStore.load b.states p.positionsKey)).covered
      r.first :=
    hcoverage ▸ (RangeContext.holds_need historical hdemand (hcoverage ▸ hsound p.positionsKey)
      (hneed r.first (whole_block _) hr.first_mem)).2 counts
  have hcovered := (covered_cycle historical distinct hsound smooth hg hp r.first).mpr
    (.inr ⟨r, Plan.mem_brought.mpr ⟨q, hq, hkey ▸ hbrings⟩, hr.first_mem⟩)
  refine Set.ncard_lt_ncard ((Set.ssubset_iff_of_subset hsub).mpr ?_) (finite_uncovered ..)
  exact ⟨(p, r.first), ⟨(hproducts p).mp hp, hopen⟩, fun hnow => hnow.2 hcovered⟩

omit [LawfulImportStateStore σ BlockNumber] hsound in
/-- A plan without queries brings nothing, and at most states are made. -/
theorem idle_cycle (hnil : g.plan.queries = []) :
    (i.runCycle c products b).1 = .ok [] ∧
      (i.runCycle c products b).2.states = i.opened c g b := by
  obtain ⟨hresults, hstates⟩ := cycle_of_agenda smooth.runs hg
  have hfetched : i.fetched c g = [] := by
    have hsent : c.queryOrder.order g.plan.queries = [] :=
      ((c.queryOrder.perm g.plan.queries).trans (.of_eq hnil)).eq_nil
    rw [fetched, hsent]
    rfl
  have hnone : i.resultsOf c g b.records = [] := by
    rw [resultsOf, hfetched]
    rfl
  rw [folded, historical, hnone] at hstates
  dsimp only at hstates
  rw [Cycle.updateStates_nil] at hstates
  exact ⟨hresults.trans (congrArg _ hnone), hstates⟩

theorem covered_of_idle (counts : i.behaviour.ignoreState = false)
    (unforced : i.behaviour.forced = none) (hnil : g.plan.queries = []) :
    ∀ d ∈ i.wanted c g b, ∃ p ∈ g.products, p.key = d.key ∧ ∃ s,
      ImportStateStore.load (i.runCycle c products b).2.states p.positionsKey = .ok (some s) ∧
        (∀ a ∈ d.full, Holds s.coverage.covered a) ∧ s.coverage.toRetry = [] := by
  intro d hd
  obtain ⟨hproper, -⟩ := agenda_allotted historical hg fun p _ => hsound p.positionsKey
  obtain ⟨p, hp, s, hs, hcoverage, hdemand⟩ := wanted_spec historical d hd
  refine ⟨p, hp, (RangeContext.productRanges?_key historical hdemand).symm, s, ?_, ?_⟩
  · rw [(idle_cycle historical smooth hg hnil).2, hs]
  · exact RangeContext.covered_of_not_needed historical counts unforced hdemand
      (hcoverage ▸ hsound p.positionsKey) fun a =>
        Plan.not_needed_of_nil (agenda?_eq_some hg).2.2 hproper hnil hd (whole_block a)

end Step

/-- **Catching up.** Let everything succeed, from any states that outcomes have brought about. If no
two products of the chain have one key, some cycle has nothing left to ask for. It brings no
results, and after it every product that took part has its whole part of the history covered, and
nothing of its waits. If two have one key, every cycle is refused for that. -/
theorem catches_up [LawfulImportStateStore σ BlockNumber] {cs : Nat → Conditions}
    {b : RunnerState BlockNumber σ ρ} (historical : i.behaviour.mode = .historical)
    (counts : i.behaviour.ignoreState = false) (unforced : i.behaviour.forced = none)
    (able : i.Able) (distinct : (products.map (·.id)).Nodup)
    (reached : ∀ key, (coverageOf (ImportStateStore.load b.states key)).Reached)
    (smooth : ∀ n, i.Smooth latest (cs n) products (i.stateAfter cs products b n)) :
    let initial := i.stateAfter cs products b
    (((products.filter (·.chain = i.chain)).map (·.key)).Nodup →
      ∃ n g, i.agenda? (cs n) products (initial n) = some g ∧ g.plan.queries = [] ∧
        (i.runCycle (cs n) products (initial n)).1 = .ok [] ∧
        ∀ d ∈ i.wanted (cs n) g (initial n), ∃ p ∈ products, p.chain = i.chain ∧ p.key = d.key ∧
          ∃ s, ImportStateStore.load (initial (n + 1)).states p.positionsKey = .ok (some s) ∧
            (∀ a ∈ d.full, Holds s.coverage.covered a) ∧ s.coverage.toRetry = []) ∧
    (¬ ((products.filter (·.chain = i.chain)).map (·.key)).Nodup →
      ∀ n, ∃ keys, (i.runCycle (cs n) products (initial n)).1 =
        .error (.plan (.duplicateProducts keys))) := by
  intro initial
  have hsound := sound_stateAfter (i := i) cs products fun key => (reached key).sound
  refine ⟨fun hkeys => ?_, fun hrepeated n => ?_⟩
  · -- the number of uncovered blocks cannot decrease forever
    obtain ⟨n, hn⟩ := WellFounded.not_rel_apply_succ (r := (· < ·)) fun n =>
      (i.uncovered products (initial n).states).ncard
    obtain ⟨g, hg⟩ : ∃ g, i.agenda? (cs n) products (initial n) = some g :=
      exists_agenda historical able (smooth n).frontier hkeys
    have hnil : g.plan.queries = [] := by
      by_contra hne
      exact hn (uncovered_lt historical counts distinct (hsound n) (smooth n) hg hne)
    have hproducts := (agenda_products distinct hg).2.2
    refine ⟨n, g, hg, hnil, (idle_cycle historical (smooth n) hg hnil).1, fun d hd => ?_⟩
    obtain ⟨p, hp, hkey, h⟩ :=
      covered_of_idle historical (hsound n) (smooth n) hg counts unforced hnil d hd
    exact ⟨p, ((hproducts p).mp hp).1, ((hproducts p).mp hp).2, hkey, h⟩
  · obtain ⟨keys, hcollect⟩ := Product.collect_of_repeated hrepeated
    refine ⟨keys, ?_⟩
    simp only [runCycle, runCycleUnder, hcollect]

end Runner

/-! ## Two vaults catch up -/

namespace CatchingUp

open FourCycles (other healthy)
open StrictCycle (product mock)
open TwoVaults (initial)

def runner : Runner :=
  { StrictCycle.runner with behaviour := { StrictCycle.runner.behaviour with maxQueries := 2 } }

/-- The queries of odd cycles end the other way round. -/
def conditions (n : Nat) : Runner.Conditions :=
  if n % 2 = 0 then healthy 40
  else { healthy 40 with queryOrder := TwoVaults.reversed.queryOrder }

def twin : Product :=
  { product with id := 9, data := .vault ⟨"twin", .ofNat 11, 18, 18⟩ }

/-- Neither a query nor a record fails. -/
theorem smooth {products : List Product}
    (hproducts : ∀ p ∈ products, p ∈ [product, other, twin]) (n : Nat)
    (b : RunnerState BlockNumber (MemoryImportStateStore BlockNumber) MemoryRecords) :
    runner.Smooth 40 (conditions n) products b := by
  have hsources : (conditions n).sources = (healthy 40).sources := by
    unfold conditions
    split <;> rfl
  have answers : (healthy 40).sources.AnswerFrom mock.transfers :=
    fun _ _ => ⟨_, rfl, .refl _⟩
  have hloads : ∀ p ∈ [product, other, twin], ∀ t ∈ mock.transfers,
      (runner.loader.loadTransfer (healthy 40).sources p t TwoVaults.initial.records).1.isOk =
        true := by
    decide +kernel
  refine ⟨fun _ => ?_, hsources ▸ rfl, hsources ▸ answers.answer, fun _ g hg => ?_⟩
  · unfold conditions
    split <;> rfl
  · obtain ⟨hkeys, hperm⟩ := Product.collect_eq_ok (Runner.agenda?_eq_some hg).1
    apply FetchedRange.loadAll_eq_nil
    intro x hx records
    obtain ⟨hp, ht⟩ := FetchedRange.mem_ledger_of_mem_jobs hkeys (hsources ▸ answers)
      (((conditions n).loadOrder.perm _).mem_iff.mp hx)
    rw [hsources, runner.loader.steady_memory _ _ _ records TwoVaults.initial.records]
    exact hloads x.1 (hproducts _ (List.mem_filter.mp (hperm.mem_iff.mp hp)).1) x.2 ht

/-- Four cycles leave nothing: the first two have fresh blocks, the next has room for what waited,
and the last finds nothing to ask for. -/
theorem catches_up_vaults :
    let initial := runner.stateAfter conditions [product, other] TwoVaults.initial
    (∀ n, runner.Smooth 40 (conditions n) [product, other] (initial n)) ∧
      ((List.range 4).map fun n => (runner.agenda? (conditions n) [product, other]
        (initial n)).map (·.plan.queries.length)) = [some 4, some 3, some 1, some 0] ∧
      ∃ n g, runner.agenda? (conditions n) [product, other] (initial n) = some g ∧
        g.plan.queries = [] ∧
        (runner.runCycle (conditions n) [product, other] (initial n)).1 = .ok [] ∧
        ∀ d ∈ runner.wanted (conditions n) g (initial n), ∃ p ∈ [product, other],
          p.chain = runner.chain ∧ p.key = d.key ∧
          ∃ s, ImportStateStore.load (initial (n + 1)).states p.positionsKey = .ok (some s) ∧
            (∀ a ∈ d.full, Holds s.coverage.covered a) ∧ s.coverage.toRetry = [] := by
  intro initial
  have hsmooth : ∀ n, runner.Smooth 40 (conditions n) [product, other] (initial n) :=
    fun n => smooth (by simp) n (initial n)
  refine ⟨hsmooth, by decide +kernel, ?_⟩
  exact (Runner.catches_up rfl rfl rfl ⟨by decide, by decide, by decide⟩ (by decide)
    TwoVaults.reached_states hsmooth).1 (by decide)

/-- With two products of one key no cycle comes to a plan, however much there is to import. -/
theorem repeated_key_never_planned :
    let products := [product, twin]
    let initial := runner.stateAfter conditions products StrictCycle.initial
    (products.map (·.id)).Nodup ∧
      (∀ n, runner.Smooth 40 (conditions n) products (initial n)) ∧
      ∀ n, runner.agenda? (conditions n) products (initial n) = none ∧
        (runner.runCycle (conditions n) products (initial n)).1 =
          .error (.plan (.duplicateProducts ["vault"])) := by
  intro products initial
  have hcollect : Product.collect runner.chain products =
      .error (.duplicateProducts ["vault"]) := by decide +kernel
  refine ⟨by decide, fun n => ?_, fun n => ⟨?_, ?_⟩⟩
  · exact smooth (by simp [products]) n (initial n)
  · simp [Runner.agenda?, hcollect, Except.toOption]
  · simp only [Runner.runCycle, Runner.runCycleUnder, hcollect]

end CatchingUp

end Backfill
