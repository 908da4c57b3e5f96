import Backfill.Proofs.Cycle.Results
import Backfill.Proofs.Cycle.States
import Backfill.Proofs.Plan.Orders
import Backfill.Records.Memory
import Backfill.Mock.Chain

/-!
# What a completed cycle makes of import states

A cycle that is not called off plans queries, sends them, loads what they bring and folds the
outcomes, each stage in an order given from outside. `Settled` is what comes of it for one product,
whatever the orders: which positions are covered now, and which wait.

Results:
* `runCycleUnder_cases`: any cycle, called off wherever it may be, ends early and without results,
  or comes to its end and is what its agenda says.
* `cycle_completed`: a completed cycle is its agenda, its fetched ranges, its failures, and one
  folding of the outcomes.
* `cycle_settles`: after a completed cycle over the history every state is settled, and nothing
  else of any state has changed.
-/
namespace Backfill

open Axis Range

/-! ## Collected products -/

namespace Product

/-- In a sorted list equal keys are neighbours. -/
theorem nodup_of_repeatedNeighbours {ks : List String} (hs : ks.Pairwise (· ≤ ·))
    (h : repeatedNeighbours ks = []) : ks.Nodup := by
  induction ks with
  | nil => exact .nil
  | cons a ks ih =>
    obtain ⟨hle, hs⟩ := List.pairwise_cons.mp hs
    cases ks with
    | nil => simp
    | cons b ks =>
      obtain ⟨hne, hrest⟩ : a ≠ b ∧ repeatedNeighbours (b :: ks) = [] := by
        rw [repeatedNeighbours] at h
        split at h
        · split at h
          · next hhead => simp [h] at hhead
          · exact absurd h (by simp)
        · next hne => exact ⟨hne, h⟩
      refine List.nodup_cons.mpr ⟨fun hmem => hne ?_, ih hs hrest⟩
      have hab := hle b (List.mem_cons_self ..)
      rcases List.mem_cons.mp hmem with rfl | hmem
      · rfl
      · exact String.le_antisymm hab ((List.pairwise_cons.mp hs).1 a hmem)

theorem eq_of_collect {chain : Chain} {ps collected : List Product}
    (h : collect chain ps = .ok collected) : collected = byKey (ps.filter (·.chain = chain)) := by
  unfold collect at h
  dsimp only at h
  split at h
  · exact (Except.ok.inj h).symm
  · cases h

/-- The products of a cycle are those on its chain, and their keys are different. -/
theorem collect_eq_ok {chain : Chain} {ps collected : List Product}
    (h : collect chain ps = .ok collected) :
    (collected.map (·.key)).Nodup ∧ collected.Perm (ps.filter (·.chain = chain)) := by
  unfold collect at h
  dsimp only at h
  split at h
  · next hrep =>
    cases h
    refine ⟨nodup_of_repeatedNeighbours ?_ hrep, sortBy_perm _ _⟩
    rw [List.pairwise_map]
    refine (pairwise_sortBy (fun p q => ?_) (fun p q r => ?_) _).imp of_decide_eq_true
    · simpa using String.le_total p.key q.key
    · simpa using String.le_trans
  · cases h

end Product

/-! ## Stages -/

namespace RunnerState

variable {α σ ρ : Type} {b b' : RunnerState α σ ρ}

@[simp] theorem stage_reach (b : RunnerState α σ ρ) (s : CycleStage) :
    (b.reach s).progress.stage = s := rfl

@[simp] theorem progress_log (b : RunnerState α σ ρ) (t : Trace) :
    (b.log t).progress = b.progress := rfl

@[simp] theorem stage_about (b : RunnerState α σ ρ) (n : Nat) :
    (b.about n).progress.stage = b.progress.stage := rfl

theorem enter_cases {cancelled : Cancellation} {stage : CycleStage}
    {go : RunnerState α σ ρ → Ending α × RunnerState α σ ρ} {e : Ending α}
    (h : b.enter cancelled stage go = (e, b')) :
    e = .ok [] ∧ b' = b ∨ cancelled b.trace = false ∧ go (b.reach stage) = (e, b') := by
  unfold enter at h
  split at h
  · cases h
    exact .inl ⟨rfl, rfl⟩
  · next hgo => exact .inr ⟨Bool.eq_false_iff.mpr hgo, h⟩

end RunnerState

/-- The stages before which a cycle asks its token. -/
def CycleStage.polled : List CycleStage := [.frontier, .ranges, .plan, .dispatch, .load, .reconcile]

/-! ## The agenda of a cycle -/

theorem toOption_eq_some {ε β : Type} {x : Except ε β} {y : β} (h : x.toOption = some y) :
    x = .ok y := by
  cases x
  · cases h
  · exact congrArg _ (Option.some.inj h)

/-- What a cycle is to do once it is planned. -/
structure Agenda where
  products : List Product
  latest : BlockNumber
  plan : Plan BlockNumber

namespace Runner

variable {σ ρ : Type} [ImportStateStore σ BlockNumber] [RecordSink ρ]

omit [RecordSink ρ] in
def agenda? (i : Runner) (c : Conditions) (products : List Product)
    (b : RunnerState BlockNumber σ ρ) : Option Agenda := do
  let products ← (Product.collect i.chain products).toOption
  let latest ← c.sources.latest.toOption
  let ds := (i.buildRanges c.sources (i.window latest b.progress.lastImported) products b.states).1
  let plan ← (Plan.choose i.optimizerOptions c.draws ds).toOption
  return ⟨products, latest, plan⟩

def fetched (i : Runner) (c : Conditions) (g : Agenda) : List FetchedRange :=
  (FetchedRange.ofQueries i.loader c.sources g.products (c.queryOrder.order g.plan.queries)).1

def failures (i : Runner) (c : Conditions) (g : Agenda) (records : ρ) : List FetchedRange.Failure :=
  (FetchedRange.loadAll i.loader c.sources
    (c.loadOrder.order (FetchedRange.jobs (i.fetched c g))) records).1

def stored (i : Runner) (c : Conditions) (g : Agenda) (records : ρ) : ρ :=
  (FetchedRange.loadAll i.loader c.sources
    (c.loadOrder.order (FetchedRange.jobs (i.fetched c g))) records).2.1

def resultsOf (i : Runner) (c : Conditions) (g : Agenda) (records : ρ) :
    List (ImportRangeResult BlockNumber) :=
  (i.fetched c g).flatMap
    (FetchedRange.results i.behaviour.strict
      ((i.failures c g records).map FetchedRange.Failure.block) g.latest)

def wanted (i : Runner) (c : Conditions) (g : Agenda) (b : RunnerState BlockNumber σ ρ) :
    List (ProductRanges BlockNumber) :=
  (i.buildRanges c.sources (i.window g.latest b.progress.lastImported) g.products b.states).1

/-- The states when ranges have been determined. -/
def opened (i : Runner) (c : Conditions) (g : Agenda) (b : RunnerState BlockNumber σ ρ) : σ :=
  (i.buildRanges c.sources (i.window g.latest b.progress.lastImported) g.products b.states).2.1

/-- The states when outcomes are folded; a runner of recent blocks folds none. -/
def folded (i : Runner) (c : Conditions) (g : Agenda) (b : RunnerState BlockNumber σ ρ) : σ :=
  match i.behaviour.mode with
  | .recent => i.opened c g b
  | .historical =>
    (Cycle.updateStates c.now Product.positionsKey (i.resultsOf c g b.records) g.products
      (i.opened c g b)).1

/-- A cycle that ends before it folds outcomes. It has no results, and at most made states and
loaded records. -/
structure Early (i : Runner) (c : Conditions) (products : List Product)
    (b : RunnerState BlockNumber σ ρ) (e : Ending BlockNumber) (b' : RunnerState BlockNumber σ ρ) :
    Prop where
  ending : e = .ok [] ∨ ∃ fault, e = .error fault
  states : b'.states = b.states ∨ ∃ latest ps,
    b'.states = (i.buildRanges c.sources (i.window latest b.progress.lastImported) ps b.states).2.1
  records : b'.records = b.records ∨ ∃ g, b'.records = i.stored c g b.records
  lastImported : b'.progress.lastImported = b.progress.lastImported
  completed : ∀ results, e = .ok results → b'.progress.stage = .done →
    Product.collect i.chain products = .ok [] ∧ b'.states = b.states

/-- A cycle that has come to its end. It was never called off, and folded what its agenda brings. -/
structure Complete (i : Runner) (token : CancellationToken) (c : Conditions) (g : Agenda)
    (b : RunnerState BlockNumber σ ρ) (e : Ending BlockNumber) (b' : RunnerState BlockNumber σ ρ) :
    Prop where
  passed : ∀ stage ∈ CycleStage.polled, ∃ t, token stage t = false
  ending : e = .ok (i.resultsOf c g b.records)
  states : b'.states = i.folded c g b
  records : b'.records = i.stored c g b.records
  lastImported : b'.progress.lastImported =
    Cycle.furthest b.progress.lastImported (i.resultsOf c g b.records)
  stage : b'.progress.stage = .done

variable {i : Runner} {token : CancellationToken} {c : Conditions} {products : List Product}
  {b b' : RunnerState BlockNumber σ ρ} {e : Ending BlockNumber}

theorem Early.results (h : Early i c products b e b') : e.toOption.getD [] = [] := by
  rcases h.ending with rfl | ⟨fault, rfl⟩ <;> rfl

variable {results : List (ImportRangeResult BlockNumber)}

/-- Executing a plan is called off on the way, or it folds the results of what was fetched. -/
theorem executeUnder_cases (g : Agenda) (hb : b.progress.stage ≠ .done)
    (h : i.executeUnder token c g.products g.latest g.plan b = (e, b')) :
    (e = .ok [] ∧ b'.states = b.states ∧ b'.progress.stage ≠ .done ∧
      b'.progress.lastImported = b.progress.lastImported ∧
      (b'.records = b.records ∨ b'.records = i.stored c g b.records)) ∨
      (∃ t t', token .load t = false ∧ token .reconcile t' = false) ∧
        e = .ok (i.resultsOf c g b.records) ∧ b'.records = i.stored c g b.records ∧
        (b'.states = match i.behaviour.mode with
          | .recent => b.states
          | .historical => (Cycle.updateStates c.now Product.positionsKey
              (i.resultsOf c g b.records) g.products b.states).1) ∧
        b'.progress.lastImported =
          Cycle.furthest b.progress.lastImported (i.resultsOf c g b.records) ∧
        b'.progress.stage = .done := by
  unfold executeUnder at h
  rcases RunnerState.enter_cases h with ⟨rfl, rfl⟩ | ⟨hload, h⟩
  · exact .inl ⟨rfl, rfl, hb, rfl, .inl rfl⟩
  rcases RunnerState.enter_cases h with ⟨rfl, rfl⟩ | ⟨hreconcile, h⟩
  · exact .inl ⟨rfl, rfl, by simp [RunnerState.log, RunnerState.reach], rfl, .inr rfl⟩
  simp only [Prod.mk.injEq] at h
  obtain ⟨rfl, rfl⟩ := h
  refine .inr ⟨⟨_, _, hload, hreconcile⟩, rfl, ?_⟩
  cases i.behaviour.mode <;> exact ⟨rfl, rfl, rfl, rfl⟩

/-- **Stages.** A cycle ends early, or does what its agenda says. -/
theorem runCycleUnder_cases (h : i.runCycleUnder token c products b = (e, b')) :
    Early i c products b e b' ∨
      ∃ g, i.agenda? c products b = some g ∧ Complete i token c g b e b' := by
  unfold runCycleUnder at h
  dsimp only at h
  split at h
  · cases h
    exact .inl ⟨.inr ⟨_, rfl⟩, .inl rfl, .inl rfl, rfl, fun _ h => by cases h⟩
  next collected hcollect =>
  split at h
  · next hnil =>
    cases h
    exact .inl ⟨.inl rfl, .inl rfl, .inl rfl, rfl, fun _ _ _ => ⟨hnil ▸ hcollect, rfl⟩⟩
  rcases RunnerState.enter_cases h with ⟨rfl, rfl⟩ | ⟨hfrontier, h⟩
  · exact .inl ⟨.inl rfl, .inl rfl, .inl rfl, rfl, fun _ _ h => by simp at h⟩
  split at h
  · cases h
    exact .inl ⟨.inr ⟨_, rfl⟩, .inl rfl, .inl rfl, rfl, fun _ h => by cases h⟩
  next latest hlatest =>
  rcases RunnerState.enter_cases h with ⟨rfl, rfl⟩ | ⟨hranges, h⟩
  · exact .inl ⟨.inl rfl, .inl rfl, .inl rfl, rfl, fun _ _ h => by simp at h⟩
  rcases RunnerState.enter_cases h with ⟨rfl, rfl⟩ | ⟨hplanned, h⟩
  · exact .inl ⟨.inl rfl, .inr ⟨latest, collected, rfl⟩, .inl rfl, rfl,
      fun _ _ h => by simp [RunnerState.reach] at h⟩
  split at h
  · cases h
    exact .inl ⟨.inr ⟨_, rfl⟩, .inr ⟨latest, collected, rfl⟩, .inl rfl, rfl, fun _ h => by cases h⟩
  next plan hplan =>
  rcases RunnerState.enter_cases h with ⟨rfl, rfl⟩ | ⟨hdispatch, h⟩
  · exact .inl ⟨.inl rfl, .inr ⟨latest, collected, rfl⟩, .inl rfl, rfl, fun _ _ h => by simp at h⟩
  rcases executeUnder_cases ⟨collected, latest, plan⟩ (by simp) h with
    ⟨rfl, hstates, hdone, hlast, hrecords⟩ |
    ⟨⟨t, t', hload, hreconcile⟩, rfl, hrecords, hstates, hlast, hdone⟩
  · exact .inl ⟨.inl rfl, .inr ⟨latest, collected, hstates⟩, hrecords.imp_right fun h => ⟨_, h⟩,
      hlast, fun _ _ h => absurd h hdone⟩
  · refine .inr ⟨⟨collected, latest, plan⟩, ?_, ?_, rfl, hstates, hrecords, hlast, hdone⟩
    · have hplan' : Plan.choose i.optimizerOptions c.draws (i.buildRanges c.sources
          (i.window latest b.progress.lastImported) collected b.states).1 = .ok plan := hplan
      simp only [agenda?, hcollect, hlatest, Except.toOption, Option.bind_eq_bind, Option.bind_some,
        hplan']
      rfl
    · simp only [CycleStage.polled, List.forall_mem_cons]
      exact ⟨⟨_, hfrontier⟩, ⟨_, hranges⟩, ⟨_, hplanned⟩, ⟨_, hdispatch⟩, ⟨t, hload⟩,
        ⟨t', hreconcile⟩, List.forall_mem_nil _⟩

theorem cycle_cases (h : i.runCycle c products b = (e, b')) :
    Early i c products b e b' ∨ ∃ g, i.agenda? c products b = some g ∧
      e = .ok (i.resultsOf c g b.records) ∧ b'.records = i.stored c g b.records ∧
      b'.states = i.folded c g b := by
  rw [runCycle] at h
  refine (runCycleUnder_cases h).imp_right fun ⟨g, hg, hcomplete⟩ => ?_
  exact ⟨g, hg, hcomplete.ending, hcomplete.records, hcomplete.states⟩

theorem cycle_completed (historical : i.behaviour.mode = .historical)
    (h : i.runCycle c products b = (.ok results, b')) (hdone : b'.progress.stage = .done) :
    Product.collect i.chain products = .ok [] ∧ b'.states = b.states ∨
      ∃ g, i.agenda? c products b = some g ∧ results = i.resultsOf c g b.records ∧
        b'.states = (Cycle.updateStates c.now Product.positionsKey results g.products
          (i.opened c g b)).1 := by
  rcases cycle_cases h with hearly | ⟨g, hg, hresults, -, hstates⟩
  · exact .inl (hearly.completed results rfl hdone)
  · obtain rfl := Except.ok.inj hresults
    refine .inr ⟨g, hg, rfl, ?_⟩
    rw [hstates, folded, historical]

end Runner

/-! ## In whatever order -/

namespace Plan

theorem Allotted.of_perm {limits : Limits} {ds : List (ProductRanges BlockNumber)}
    {qs qs' : List (Query BlockNumber)} (h : Allotted limits ds qs) (hp : qs'.Perm qs) :
    Allotted limits ds qs' where
  needed q hq := h.needed q (hp.mem_iff.mp hq)
  once q hq q' hq' := h.once q (hp.mem_iff.mp hq) q' (hp.mem_iff.mp hq')

end Plan

namespace Cycle

variable {sources : Sources} {products : List Product} {qs qs' : List (Plan.Query BlockNumber)}
  {p : Product} {b : BlockNumber}

theorem served_of_perm (hp : qs'.Perm qs) :
    Served sources products qs' p b ↔ Served sources products qs p b := by
  simp only [Served, hp.mem_iff]

theorem missed_of_perm (hp : qs'.Perm qs) :
    Missed sources products qs' p b ↔ Missed sources products qs p b := by
  simp only [Missed, hp.mem_iff]

end Cycle

/-! ## Settled states -/

/-- The coverage that a store has found; nothing is covered without a state. -/
def coverageOf : Except StoreFault (Option (ImportState BlockNumber)) → ImportRanges BlockNumber
  | .ok (some s) => s.coverage
  | _ => {}

/-- What a cycle may do to what a store has for a product: change the coverage of its state, or
make a state if there is none. -/
inductive Folds (p : Product) : Except StoreFault (Option (ImportState BlockNumber)) →
    Except StoreFault (Option (ImportState BlockNumber)) → Prop where
  | same (found : Except StoreFault (Option (ImportState BlockNumber))) : Folds p found found
  | folded (s : ImportState BlockNumber) (coverage : ImportRanges BlockNumber) :
      Folds p (.ok (some s)) (.ok (some { s with coverage }))
  | made (origin : BlockNumber) (time : Option Stamp) (coverage : ImportRanges BlockNumber) :
      Folds p (.ok none)
        (.ok (some { ImportState.fresh p.positionsKey p.id p.chain origin time with coverage }))

section Found

variable {p : Product} {before opened : Except StoreFault (Option (ImportState BlockNumber))}
  {now : UInt64} {os : List (RangeOutcome BlockNumber)}

theorem Opened.folds (h : Opened p before opened) :
    Folds p before (opened.map (Option.map (ImportState.applyResults now · os))) := by
  rcases h with rfl | ⟨rfl, origin, time, rfl⟩
  · rcases opened with e | none | s
    · exact .same _
    · exact .same _
    · exact .folded s _
  · exact .made origin time _

theorem Opened.coverageOf_eq (h : Opened p before opened) :
    coverageOf opened = coverageOf before := by
  rcases h with rfl | ⟨rfl, origin, time, rfl⟩ <;> rfl

theorem coverageOf_map (h : os ≠ [] → ∃ s, opened = .ok (some s)) :
    coverageOf (opened.map (Option.map (ImportState.applyResults now · os))) =
      (coverageOf opened).applyResults now os := by
  cases os with
  | nil => rcases opened with e | none | s <;> rfl
  | cons o os =>
    obtain ⟨s, rfl⟩ := h (by simp)
    rfl

end Found

/-- What a cycle makes of the coverage of a product, block by block: what answered queries were to
bring is covered, what failed queries were to bring waits unless it is covered, and in strict mode a
block with a failed record counts as failed. -/
structure Settled (i : Runner) (c : Runner.Conditions) (g : Agenda)
    (failures : List FetchedRange.Failure) (p : Product) (before after : ImportRanges BlockNumber) :
    Prop where
  covered : ∀ b, Holds after.covered b ↔ Holds before.covered b ∨
    Cycle.Served c.sources g.products g.plan.queries p b ∧
      ¬ (i.behaviour.strict = true ∧ FetchedRange.Failed failures p b)
  toRetry : ∀ b, Holds after.toRetry b ↔
    (Holds before.toRetry b ∨ Cycle.Missed c.sources g.products g.plan.queries p b ∨
      i.behaviour.strict = true ∧ FetchedRange.Failed failures p b) ∧ ¬ Holds after.covered b
  sound : after.Sound

section Agenda

variable {i : Runner} {c : Runner.Conditions} {g : Agenda} {limits : Plan.Limits}
  {ds : List (ProductRanges BlockNumber)} {p : Product} (hkeys : (g.products.map (·.key)).Nodup)
  (hplan : Plan.Allotted limits ds g.plan.queries)

include hkeys hplan

/-- Folding a product's outcomes settles it. -/
theorem settled_applyResults {ρ : Type} [RecordSink ρ] (hp : p ∈ g.products) (records : ρ)
    {before : ImportRanges BlockNumber} (hbefore : before.Sound) (now : UInt64) :
    Settled i c g (i.failures c g records) p before
      (before.applyResults now (Cycle.outcomesOf p.key (i.resultsOf c g records))) := by
  have hsent := hplan.of_perm (c.queryOrder.perm g.plan.queries)
  have hfailures : ∀ x ∈ i.failures c g records,
      (x.product, x.transfer) ∈ FetchedRange.jobs (i.fetched c g) := fun x hx =>
    (c.loadOrder.perm _).mem_iff.mp (FetchedRange.mem_of_mem_failures hx)
  have hvalid : ∀ o ∈ Cycle.outcomesOf p.key (i.resultsOf c g records), o.range.Proper :=
    Cycle.outcomes_valid hkeys hsent
  refine ⟨fun b => ?_, fun b => ?_, hbefore.applyResults hvalid⟩
  · rw [ImportRanges.holds_covered_applyResults hbefore hvalid (whole_block b), Runner.resultsOf,
      Runner.fetched, Cycle.succeeds_outcomes hkeys hsent hp hfailures,
      Cycle.served_of_perm (c.queryOrder.perm g.plan.queries)]
  · rw [ImportRanges.holds_toRetry_applyResults hbefore hvalid (whole_block b)]
    refine and_congr_left' (or_congr_right ?_)
    rw [Runner.resultsOf, Runner.fetched, Cycle.fails_outcomes hkeys hsent hp hfailures,
      Cycle.missed_of_perm (c.queryOrder.perm g.plan.queries)]

/-- A product with outcomes has a demand. -/
theorem exists_demand {ρ : Type} [RecordSink ρ] {records : ρ}
    (h : Cycle.outcomesOf p.key (i.resultsOf c g records) ≠ []) : ∃ d ∈ ds, d.key = p.key := by
  have hsent := hplan.of_perm (c.queryOrder.perm g.plan.queries)
  obtain ⟨o, ho⟩ := List.exists_mem_of_ne_nil _ h
  obtain ⟨r, hr, -⟩ := List.mem_map.mp ho
  obtain ⟨hr, hkey⟩ := List.mem_filter.mp hr
  obtain ⟨f, hf, hr⟩ := List.mem_flatMap.mp hr
  have hfkey := (FetchedRange.results_valid (Cycle.fetched_valid hkeys hsent hf).2 hr).1
  obtain ⟨q, hq, -, hbrings, -⟩ := (FetchedRange.mem_ofQueries hkeys).mp hf
  obtain ⟨-, d, hd, hdkey, -⟩ := hsent.needed q hq _ _ hbrings
  exact ⟨d, hd, hdkey.trans (hfkey.symm.trans (of_decide_eq_true hkey))⟩

end Agenda

/-! ## Completed cycles -/

section Settles

variable {σ ρ : Type} [ImportStateStore σ BlockNumber] {i : Runner} {c : Runner.Conditions}
  {products : List Product} {b b' : RunnerState BlockNumber σ ρ} {g : Agenda}

theorem Runner.agenda?_eq_some (h : i.agenda? c products b = some g) :
    Product.collect i.chain products = .ok g.products ∧ c.sources.latest = .ok g.latest ∧
      Plan.choose i.optimizerOptions c.draws (i.wanted c g b) = .ok g.plan := by
  simp only [Runner.agenda?, Option.bind_eq_bind, Option.bind_eq_some_iff] at h
  obtain ⟨ps, hps, latest, hlatest, plan, hplan, h⟩ := h
  cases h
  exact ⟨toOption_eq_some hps, toOption_eq_some hlatest, toOption_eq_some hplan⟩

theorem Runner.exists_demand_of_query (h : i.agenda? c products b = some g)
    {q : Plan.Query BlockNumber} (hq : q ∈ g.plan.queries) {key : String} {r : Range BlockNumber}
    (hb : q.Brings key r) :
    ∃ d ∈ i.wanted c g b, d.key = key := by
  have hkey : key ∈ (i.wanted c g b).map (·.key) := by
    rcases (Plan.choose_eq_ok (agenda?_eq_some h).2.2).2 with hplan | hplan
    · exact Plan.key_mem_of_brings_singles (hplan ▸ hq) hb
    · exact Plan.key_mem_of_brings_shareds (hplan ▸ hq) hb
  exact List.mem_map.mp hkey

theorem Runner.agenda_products (distinct : (products.map (·.id)).Nodup)
    (h : i.agenda? c products b = some g) :
    (g.products.map (·.key)).Nodup ∧ (g.products.map (·.positionsKey)).Nodup ∧
      ∀ p, p ∈ g.products ↔ p ∈ products ∧ p.chain = i.chain := by
  obtain ⟨hkeys, hperm⟩ := Product.collect_eq_ok (agenda?_eq_some h).1
  have hids : (g.products.map (·.id)).Nodup :=
    (hperm.map _).nodup_iff.mpr (distinct.sublist (List.filter_sublist.map _))
  refine ⟨hkeys, Product.nodup_positionsKey hids, fun p => ?_⟩
  rw [hperm.mem_iff, List.mem_filter, decide_eq_true_eq]

variable [LawfulImportStateStore σ BlockNumber]

theorem Runner.coverageOf_buildRanges (historical : i.behaviour.mode = .historical)
    (sources : Sources) (w : RangeContext) (ps : List Product) (states : σ) (key : String) :
    coverageOf (ImportStateStore.load (i.buildRanges sources w ps states).2.1 key) =
      coverageOf (ImportStateStore.load states key) := by
  rcases (buildRanges_grows historical (Eq.refl (i.buildRanges sources w ps states))).1 key with
    hsame | ⟨p, -, -, hopened⟩
  · exact congrArg coverageOf hsame
  · exact hopened.coverageOf_eq

theorem Runner.wanted_spec (historical : i.behaviour.mode = .historical) :
    ∀ d ∈ i.wanted c g b, ∃ p ∈ g.products, ∃ s,
      ImportStateStore.load (i.opened c g b) p.positionsKey = .ok (some s) ∧
        s.coverage = coverageOf (ImportStateStore.load b.states p.positionsKey) ∧
        (i.window g.latest b.progress.lastImported).productRanges? p (some s) = some d := by
  intro d hd
  obtain ⟨p, hp, s, hs, hdemand⟩ := (buildRanges_grows historical
    (Eq.refl (i.buildRanges c.sources (i.window g.latest b.progress.lastImported) g.products
      b.states))).2 d hd
  refine ⟨p, hp, s, hs, ?_, hdemand⟩
  rw [← coverageOf_buildRanges historical c.sources (i.window g.latest b.progress.lastImported)
    g.products b.states, hs]
  rfl

theorem Runner.agenda_allotted (historical : i.behaviour.mode = .historical)
    (h : i.agenda? c products b = some g)
    (hsound : ∀ p ∈ g.products,
      (coverageOf (ImportStateStore.load b.states p.positionsKey)).Sound) :
    (∀ d ∈ i.wanted c g b, Plan.ProperRanges d) ∧
      Plan.Allotted i.optimizerOptions (i.wanted c g b) g.plan.queries := by
  have hproper : ∀ d ∈ i.wanted c g b, Plan.ProperRanges d := by
    intro d hd
    obtain ⟨p, hp, s, -, hcoverage, hdemand⟩ := wanted_spec historical d hd
    exact RangeContext.proper_demand historical hdemand (hcoverage ▸ hsound p hp)
  exact ⟨hproper, Plan.choose_allotted (agenda?_eq_some h).2.2 fun _ => hproper⟩

theorem Runner.agenda_plan (historical : i.behaviour.mode = .historical)
    (h : i.agenda? c products b = some g)
    (hsound : ∀ p ∈ g.products,
      (coverageOf (ImportStateStore.load b.states p.positionsKey)).Sound) :
    ∃ ds, Plan.Allotted i.optimizerOptions ds g.plan.queries ∧ ∀ d ∈ ds, ∃ p ∈ g.products,
      d.key = p.key ∧ ∃ s, ImportStateStore.load (i.opened c g b) p.positionsKey =
        .ok (some s) := by
  refine ⟨_, (agenda_allotted historical h hsound).2, fun d hd => ?_⟩
  obtain ⟨p, hp, s, hs, -, hdemand⟩ := wanted_spec historical d hd
  exact ⟨p, hp, RangeContext.productRanges?_key historical hdemand, s, hs⟩

variable [RecordSink ρ] {results : List (ImportRangeResult BlockNumber)}

/-- **Settlement.** After a completed cycle over the history each product of the chain is settled,
whatever failed and in whatever order things ended, and nothing else of any state has changed. -/
theorem cycle_settles (historical : i.behaviour.mode = .historical)
    (distinct : (products.map (·.id)).Nodup)
    (reached : ∀ p ∈ products, (coverageOf (ImportStateStore.load b.states p.positionsKey)).Reached)
    (ran : i.runCycle c products b = (.ok results, b'))
    (completed : b'.progress.stage = .done) :
    (∀ key, (∀ p ∈ products, p.chain = i.chain → p.positionsKey ≠ key) →
      ImportStateStore.load b'.states key = ImportStateStore.load b.states key) ∧
    ∀ p ∈ products, p.chain = i.chain → ∃ g, i.agenda? c products b = some g ∧ p ∈ g.products ∧
      Folds p (ImportStateStore.load b.states p.positionsKey)
        (ImportStateStore.load b'.states p.positionsKey) ∧
      Settled i c g (i.failures c g b.records) p
        (coverageOf (ImportStateStore.load b.states p.positionsKey))
        (coverageOf (ImportStateStore.load b'.states p.positionsKey)) := by
  rcases Runner.cycle_completed historical ran completed with
    ⟨hcollect, hstates⟩ | ⟨g, hg, rfl, hstates⟩
  · -- no product is on the chain
    refine ⟨fun key _ => by rw [hstates], fun p hp hchain => ?_⟩
    have hmem := (Product.collect_eq_ok hcollect).2.mem_iff.mpr
      (List.mem_filter.mpr ⟨hp, decide_eq_true hchain⟩)
    exact absurd hmem (List.not_mem_nil)
  · obtain ⟨hkeys, hnodup, hmem⟩ := Runner.agenda_products distinct hg
    have hsound : ∀ p ∈ g.products,
        (coverageOf (ImportStateStore.load b.states p.positionsKey)).Sound := fun p hp =>
      (reached p ((hmem p).mp hp).1).sound
    obtain ⟨ds, hplan, hds⟩ := Runner.agenda_plan historical hg hsound
    -- outcomes belong to products with a state
    have hfound : ∀ p ∈ g.products, Cycle.outcomesOf p.key (i.resultsOf c g b.records) ≠ [] →
        ∃ s, ImportStateStore.load (i.opened c g b) p.positionsKey = .ok (some s) := by
      intro p hp hne
      obtain ⟨d, hd, hkey⟩ := exists_demand hkeys hplan hne
      obtain ⟨p', hp', hkey', hs⟩ := hds d hd
      exact List.inj_on_of_nodup_map hkeys hp' hp (hkey'.symm.trans hkey) ▸ hs
    obtain ⟨hframe, hopened, -⟩ := buildRanges_opens historical hnodup
      (Eq.refl (i.buildRanges c.sources (i.window g.latest b.progress.lastImported)
        g.products b.states))
    obtain ⟨hframe', hown⟩ := Cycle.load_updateStates c.now hnodup fun p hp hne => by
      obtain ⟨s, hs⟩ := hfound p hp hne
      exact ⟨some s, hs⟩
    rw [← hstates] at hframe' hown
    refine ⟨fun key hne => ?_, fun p hp hchain => ⟨g, hg, ?_⟩⟩
    · have hother : ∀ p ∈ g.products, p.positionsKey ≠ key := fun p hp =>
        hne p ((hmem p).mp hp).1 ((hmem p).mp hp).2
      rw [hframe' key hother, Runner.opened, hframe key hother]
    · have hp := (hmem p).mpr ⟨hp, hchain⟩
      refine ⟨hp, ?_⟩
      rw [hown p hp, coverageOf_map (hfound p hp), Runner.opened, (hopened p hp).coverageOf_eq]
      exact ⟨(hopened p hp).folds, settled_applyResults hkeys hplan hp b.records
        (hsound p hp) c.now⟩

end Settles

/-! ## A cycle in strict mode -/

namespace StrictCycle

def product : Product :=
  { id := 7, key := "vault", chain := .fantom, shareFeed := 1, underlyingFeed := 2, retired := false
    data := .vault ⟨"vault", .ofNat 9, 18, 18⟩ }

def runner : Runner :=
  { chain := .fantom, behaviour := { Behaviour.ofMode .historical with strict := true }
    limits := { maxSpan := 10, maxAddresses := 1 } }

/-- Four queries are sent. The one about block 25 fails, and the record of block 15 does. -/
def mock : MockChain :=
  { latest := .ok 40, creations := [(.ofNat 9, 10)]
    transfers :=
      [⟨35, .ofNat 1, 0, .ofNat 9, .ofNat 5, 1⟩, ⟨15, .ofNat 2, 0, .ofNat 9, .ofNat 6, 1⟩]
    failingRanges := [(⟨25, 25⟩, .timeout)]
    failingOwners := [(.ofNat 6, .timeout)] }

def conditions : Runner.Conditions := { sources := mock.sources, now := 5 }

def initial : RunnerState BlockNumber (MemoryImportStateStore BlockNumber) MemoryRecords :=
  { states := ⟨.empty⟩, records := ⟨.empty, .empty, .empty, .empty⟩ }

def after : RunnerState BlockNumber (MemoryImportStateStore BlockNumber) MemoryRecords :=
  (runner.runCycle conditions [product] initial).2

theorem cycle_settles_strict :
    (coverageOf (ImportStateStore.load after.states product.positionsKey)).covered =
        [⟨10, 14⟩, ⟨16, 20⟩, ⟨31, 40⟩] ∧
      (coverageOf (ImportStateStore.load after.states product.positionsKey)).toRetry =
        [⟨15, 15⟩, ⟨21, 30⟩] ∧
      ∃ g, runner.agenda? conditions [product] initial = some g ∧
        Settled runner conditions g (runner.failures conditions g initial.records) product {}
          (coverageOf (ImportStateStore.load after.states product.positionsKey)) := by
  obtain ⟨results, hresults⟩ : ∃ results,
      (runner.runCycle conditions [product] initial).1 = .ok results := by
    have hok : (runner.runCycle conditions [product] initial).1.isOk = true := by decide +kernel
    cases h : (runner.runCycle conditions [product] initial).1 with
    | error fault => simp [h, Except.isOk, Except.toBool] at hok
    | ok results => exact ⟨results, rfl⟩
  have hdone : after.progress.stage = .done := by decide +kernel
  have hreached : ∀ p ∈ [product],
      (coverageOf (ImportStateStore.load initial.states p.positionsKey)).Reached :=
        fun _ _ => .empty
  obtain ⟨-, hsettled⟩ :=
    cycle_settles rfl (by decide) hreached (Prod.ext hresults rfl) hdone
  obtain ⟨g, hg, -, -, h⟩ := hsettled product (List.mem_singleton.mpr rfl) rfl
  exact ⟨by decide +kernel, by decide +kernel, g, hg, h⟩

end StrictCycle

end Backfill
