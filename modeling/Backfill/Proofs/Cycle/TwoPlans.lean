import Mathlib.Data.List.Count
import Backfill.Proofs.Cycle.Once
import Backfill.Proofs.Plan.Bounds
import Backfill.Proofs.Plan.Ties

/-!
# Two plans, one import

Queries shared by products bring more than each of them needs, and cut it differently than queries
for single products. What a product makes of a query does not show that: of the answer it keeps its
own transfers in the ranges that were meant for it, and these ranges hold the same blocks in either
plan. So where no product is cut, executing the plan for single products and executing the shared
one load the same transfers and leave the same blocks covered and waiting.

Results:
* `Plan.Orderly`: what plans of either kind have in common.
* `FetchedRange.count_jobs`, `FetchedRange.jobs_perm`: how often a transfer is loaded, from the
  ranges that products are brought; so queries that bring the same blocks have the same transfers
  loaded.
* `FetchedRange.failed_of_perm`: the transfers that fail to load, in whatever order they are loaded.
* `Settled.agree`: what is settled alike is covered and waits alike.
* `Runner.execute_eq`, `Runner.settled_execute`: what executing a plan does.
* `plans_agree`: the two plans of a list of demands.
-/
namespace Backfill

open Axis Range

/-! ## Orderly queries -/

namespace Plan

/-- Queries of which every product can take its own: what is meant for it lies in the range that is
asked for, and comes in parts. -/
structure Orderly (limits : Limits) (ds : List (ProductRanges BlockNumber))
    (qs : List (Query BlockNumber)) : Prop where
  allotted : Allotted limits ds qs
  inside : ∀ q ∈ qs, ∀ key r, q.Brings key r → ∀ b ∈ r, b ∈ q.range
  parts : ∀ key, ∃ P, Parts P (brought key qs)

theorem Orderly.of_perm {limits : Limits} {ds : List (ProductRanges BlockNumber)}
    {qs qs' : List (Query BlockNumber)} (h : Orderly limits ds qs) (hp : qs'.Perm qs) :
    Orderly limits ds qs' where
  allotted := h.allotted.of_perm hp
  inside q hq := h.inside q (hp.mem_iff.mp hq)
  parts key := (h.parts key).imp fun _ hparts => hparts.of_perm (brought_perm hp.symm)

end Plan

/-! ## What is loaded -/

def Sources.Answer (sources : Sources) : Prop :=
  ∀ range tokens, ∃ ts, sources.transfers range tokens = .ok ts

def Sources.AnswerFrom (sources : Sources) (ledger : List Transfer) : Prop :=
  ∀ range tokens, ∃ ts, sources.transfers range tokens = .ok ts ∧
    ts.Perm (ledger.filter fun t => range.contains t.block && tokens.contains t.token)

theorem Sources.AnswerFrom.answer {sources : Sources} {ledger : List Transfer}
    (h : sources.AnswerFrom ledger) : sources.Answer := fun range tokens =>
  (h range tokens).imp fun _ => And.left

/-- A leg that a product makes a position of: of its token, and of an owner who is not ignored. -/
def Loader.keeps (l : Loader) (p : Product) (t : Transfer) : Bool :=
  t.token = p.contract && !l.shouldIgnore p t.owner

namespace FetchedRange

variable {l : Loader} {sources : Sources} {products : List Product} {ledger : List Transfer}
  {limits : Plan.Limits} {ds : List (ProductRanges BlockNumber)}
  {qs qs' : List (Plan.Query BlockNumber)} {p : Product} {t : Transfer}

theorem contract_mem_served (hkeys : (products.map (·.key)).Nodup) (hp : p ∈ products)
    {q : Plan.Query BlockNumber} {r : Range BlockNumber} (hb : q.Brings p.key r) :
    p.contract ∈ (served products q).map (·.1.contract) := by
  obtain ⟨target, htarget, hkey, -⟩ := hb
  have hfind : products.find? (·.key = target.key) = some p :=
    (find?_key hkeys).mpr ⟨hp, hkey.symm⟩
  refine List.mem_map.mpr ⟨(p, target.ranges), ?_, rfl⟩
  exact List.mem_filterMap.mpr ⟨target, htarget, by rw [hfind, Option.map_some]⟩

/-- What is fetched for a range are the product's transfers in it, however far the query went. -/
theorem transfers_fetched (hkeys : (products.map (·.key)).Nodup)
    (answers : sources.AnswerFrom ledger) (h : Plan.Orderly limits ds qs) {f : FetchedRange}
    (hf : f ∈ (ofQueries l sources products qs).1) :
    ∃ ts, f.transfers = some ts ∧
      ts.Perm (ledger.filter fun t => l.keeps f.product t && f.range.contains t.block) := by
  obtain ⟨q, hq, hp, hb, hts⟩ := (mem_ofQueries hkeys).mp hf
  obtain ⟨ts, hok, hperm⟩ := answers q.range ((served products q).map (·.1.contract))
  rw [answer, hok] at hts
  refine ⟨_, hts, (hperm.filter _).trans (.of_eq ?_)⟩
  rw [List.filter_filter]
  refine List.filter_congr fun t _ => ?_
  have hnamed := contract_mem_served hkeys hp hb
  rw [Bool.eq_iff_iff]
  simp only [Loader.keeps, Bool.and_eq_true, decide_eq_true_eq, contains_iff, List.contains_iff_mem]
  constructor
  · rintro ⟨⟨⟨htoken, hin⟩, howner⟩, -⟩
    exact ⟨⟨htoken, howner⟩, hin⟩
  · rintro ⟨⟨htoken, howner⟩, hin⟩
    exact ⟨⟨⟨htoken, hin⟩, howner⟩, h.inside q hq _ _ hb _ hin, htoken ▸ hnamed⟩

private theorem count_jobs_of {fs : List FetchedRange}
    (hfs : ∀ f ∈ fs, ∃ ts, f.transfers = some ts ∧
      ts.Perm (ledger.filter fun t => l.keeps f.product t && f.range.contains t.block))
    (hown : ∀ f ∈ fs, f.product.key = p.key → f.product = p) :
    (jobs fs).count (p, t) =
      if l.keeps p t then ledger.count t *
        ((fs.filter (·.product.key = p.key)).map (·.range)).countP (·.contains t.block) else 0 := by
  induction fs with
  | nil => simp [jobs]
  | cons f fs ih =>
    rw [List.forall_mem_cons] at hfs hown
    obtain ⟨⟨ts, hts, hperm⟩, hrest⟩ := hfs
    have hjobs : jobs (f :: fs) = ts.map (f.product, ·) ++ jobs fs := by
      rw [jobs, List.flatMap_cons, hts]
      rfl
    rw [hjobs, List.count_append, ih hrest hown.2]
    by_cases hkey : f.product.key = p.key
    · have hproduct := hown.1 hkey
      have hhead : (ts.map (f.product, ·)).count (p, t) =
          if l.keeps p t && f.range.contains t.block then ledger.count t else 0 := by
        rw [hproduct, List.count_map_of_injective _ _ (Prod.mk_right_injective p), hperm.count_eq,
          hproduct]
        split
        · next hkept => exact List.count_filter hkept
        · next hkept => exact List.count_eq_zero.mpr fun hm => hkept (List.mem_filter.mp hm).2
      rw [hhead, List.filter_cons_of_pos (by simpa using hkey), List.map_cons, List.countP_cons]
      cases l.keeps p t <;> cases f.range.contains t.block <;> simp [Nat.mul_add, Nat.add_comm]
    · have hhead : (ts.map (f.product, ·)).count (p, t) = 0 := by
        refine List.count_eq_zero.mpr fun hm => hkey ?_
        obtain ⟨t', -, heq⟩ := List.mem_map.mp hm
        rw [(Prod.mk.inj heq).1]
      rw [hhead, List.filter_cons_of_neg (by simpa using hkey), Nat.zero_add]

section Queries

variable (hkeys : (products.map (·.key)).Nodup) (answers : sources.AnswerFrom ledger)

include hkeys answers

theorem count_jobs (h : Plan.Orderly limits ds qs) (hp : p ∈ products) :
    (jobs (ofQueries l sources products qs).1).count (p, t) =
      if l.keeps p t then
        ledger.count t * (Plan.brought p.key qs).countP (·.contains t.block)
      else 0 := by
  rw [count_jobs_of (fun f hf => transfers_fetched hkeys answers h hf), ranges_ofQueries hp]
  intro f hf hkey
  obtain ⟨-, -, hmem, -⟩ := (mem_ofQueries hkeys).mp hf
  exact List.inj_on_of_nodup_map hkeys hmem hp hkey

theorem mem_ledger_of_mem_jobs (hjob : (p, t) ∈ jobs (ofQueries l sources products qs).1) :
    p ∈ products ∧ t ∈ ledger := by
  obtain ⟨f, hf, rfl, ts, hts, ht⟩ := mem_jobs.mp hjob
  obtain ⟨q, -, hp, -, heq⟩ := (mem_ofQueries hkeys).mp hf
  obtain ⟨_, hok, hperm⟩ := answers q.range ((served products q).map (·.1.contract))
  rw [hts, answer, hok] at heq
  obtain rfl := Option.some.inj heq
  exact ⟨hp, (List.mem_filter.mp (hperm.mem_iff.mp (List.mem_filter.mp ht).1)).1⟩

/-- Queries that bring the same blocks have the same transfers loaded. -/
theorem jobs_perm (h : Plan.Orderly limits ds qs) (h' : Plan.Orderly limits ds qs')
    (hsame : ∀ key b, Holds (Plan.brought key qs) b ↔ Holds (Plan.brought key qs') b) :
    (jobs (ofQueries l sources products qs).1).Perm
    (jobs (ofQueries l sources products qs').1) := by
  rw [List.perm_iff_count]
  intro ⟨p, t⟩
  by_cases hp : p ∈ products
  · obtain ⟨P, hP⟩ := h.parts p.key
    obtain ⟨P', hP'⟩ := h'.parts p.key
    rw [count_jobs hkeys answers h hp, count_jobs hkeys answers h' hp,
      hP.countP_eq hP' (whole_block _) (hsame p.key t.block)]
  · rw [List.count_eq_zero.mpr fun hjob => hp (mem_ledger_of_mem_jobs hkeys answers hjob).1,
      List.count_eq_zero.mpr fun hjob => hp (mem_ledger_of_mem_jobs hkeys answers hjob).1]

end Queries

end FetchedRange

/-! ## What fails to load -/

/-- Whether a transfer is stored does not depend on what was stored before it. -/
def Loader.Steady (ρ : Type) [RecordSink ρ] (l : Loader) (sources : Sources) (p : Product)
    (t : Transfer) : Prop :=
  ∀ records records' : ρ,
    (l.loadTransfer sources p t records).1.isOk = (l.loadTransfer sources p t records').1.isOk

/-- What comes of records when transfers are loaded, whatever they are and whatever is read of
them. -/
inductive Loader.Leads {ρ : Type} [RecordSink ρ] (l : Loader) (records : ρ) : ρ → Prop where
  | refl : Leads l records records
  | load {r : ρ} (sources : Sources) (p : Product) (t : Transfer) :
      Leads l records r → Leads l records (l.loadTransfer sources p t r).2

theorem Loader.Leads.after {ρ : Type} [RecordSink ρ] {l : Loader} {records r : ρ}
    (sources : Sources) (p : Product) (t : Transfer)
    (h : l.Leads (l.loadTransfer sources p t records).2 r) :
    l.Leads records r := by
  induction h with
  | refl => exact .load sources p t .refl
  | load sources p t _ ih => exact .load sources p t ih

/-- Records in memory refuse nothing, so only what is read can fail. -/
theorem Loader.steady_memory (l : Loader) (sources : Sources) (p : Product) (t : Transfer) :
    l.Steady MemoryRecords sources p t := by
  intro records records'
  simp only [loadTransfer]
  split
  · rfl
  · rfl

namespace FetchedRange

theorem failed_iff {failures : List Failure} {p : Product} {b : BlockNumber} :
    Failed failures p b ↔
      ∃ t, (p, t) ∈ failures.map (fun x => (x.product, x.transfer)) ∧ t.block = b := by
  simp only [Failed, List.mem_map, Prod.mk.injEq]
  constructor
  · rintro ⟨x, hx, hp, hb⟩
    exact ⟨x.transfer, ⟨x, hx, hp, rfl⟩, hb⟩
  · rintro ⟨-, ⟨x, hx, hp, rfl⟩, hb⟩
    exact ⟨x, hx, hp, hb⟩

variable {ρ : Type} [RecordSink ρ] {l : Loader} {sources : Sources}
  {js js' : List (Product × Transfer)}

/-- Where what was loaded before does not count for some of the jobs, it does not count for which of
these fail. -/
theorem failures_filter (own ok : Product × Transfer → Bool) {records : ρ}
    (h : ∀ x ∈ js, own x = true →
      ∀ r, l.Leads records r → (l.loadTransfer sources x.1 x.2 r).1.isOk = ok x) :
    ((loadAll l sources js records).1.map fun x => (x.product, x.transfer)).filter own =
      (js.filter own).filter (!ok ·) := by
  induction js generalizing records with
  | nil => rfl
  | cons job js ih =>
    rw [List.forall_mem_cons] at h
    have hrest := ih fun x hx hown r hr => h.2 x hx hown r (hr.after sources job.1 job.2)
    by_cases hown : own job = true
    · have hhead := h.1 hown records .refl
      rw [List.filter_cons_of_pos hown, List.filter_cons, ← hhead, ← hrest]
      simp only [loadAll]
      cases (l.loadTransfer sources job.1 job.2 records).1
      · exact List.filter_cons_of_pos hown
      · rfl
    · rw [List.filter_cons_of_neg hown, ← hrest]
      simp only [loadAll]
      cases (l.loadTransfer sources job.1 job.2 records).1
      · exact List.filter_cons_of_neg hown
      · rfl

theorem failures_eq (hsteady : ∀ x ∈ js, l.Steady ρ sources x.1 x.2) (records records' : ρ) :
    (loadAll l sources js records).1.map (fun x => (x.product, x.transfer)) =
      js.filter fun x => !(l.loadTransfer sources x.1 x.2 records').1.isOk := by
  have h :=
    failures_filter (fun _ => true) (fun x => (l.loadTransfer sources x.1 x.2 records').1.isOk)
    fun x hx _ r (_ : l.Leads records r) => hsteady x hx r records'
  rwa [List.filter_true, List.filter_true] at h

theorem loadAll_eq_nil
    (h : ∀ x ∈ js, ∀ records : ρ, (l.loadTransfer sources x.1 x.2 records).1.isOk = true)
    (records : ρ) : (loadAll l sources js records).1 = [] := by
  have hsteady : ∀ x ∈ js, l.Steady ρ sources x.1 x.2 := fun x hx r r' =>
    (h x hx r).trans (h x hx r').symm
  rw [← List.map_eq_nil_iff, failures_eq hsteady records records, List.filter_eq_nil_iff]
  exact fun x hx => by simp [h x hx records]

theorem failed_of_perm (hsteady : ∀ x ∈ js, l.Steady ρ sources x.1 x.2) (h : js.Perm js')
    (records records' : ρ) (p : Product) (b : BlockNumber) :
    Failed (loadAll l sources js records).1 p b ↔
      Failed (loadAll l sources js' records').1 p b := by
  have hsteady' : ∀ x ∈ js', l.Steady ρ sources x.1 x.2 := fun x hx =>
    hsteady x (h.mem_iff.mpr hx)
  rw [failed_iff, failed_iff, failures_eq hsteady records records,
    failures_eq hsteady' records' records]
  simp only [(h.filter _).mem_iff]

end FetchedRange

/-! ## What is settled -/

/-- Coverages that are settled alike from the same one hold the same ranges. -/
theorem Settled.agree {i : Runner} {c c' : Runner.Conditions} {g g' : Agenda}
    {failures failures' : List FetchedRange.Failure} {p : Product}
    {before after after' : ImportRanges BlockNumber} (h : Settled i c g failures p before after)
    (h' : Settled i c' g' failures' p before after')
    (hserved : ∀ b, Cycle.Served c.sources g.products g.plan.queries p b ↔
      Cycle.Served c'.sources g'.products g'.plan.queries p b)
    (hmissed : ∀ b, Cycle.Missed c.sources g.products g.plan.queries p b ↔
      Cycle.Missed c'.sources g'.products g'.plan.queries p b)
    (hfailed : i.behaviour.strict = true →
      ∀ b, FetchedRange.Failed failures p b ↔ FetchedRange.Failed failures' p b) :
    after.covered = after'.covered ∧ after.toRetry = after'.toRetry := by
  have hstrict : ∀ b, (i.behaviour.strict = true ∧ FetchedRange.Failed failures p b) ↔
      (i.behaviour.strict = true ∧ FetchedRange.Failed failures' p b) :=
    fun b => and_congr_right fun hs => hfailed hs b
  have hcovered : ∀ b, Holds after.covered b ↔ Holds after'.covered b := by
    intro b
    rw [h.covered, h'.covered, hserved, hstrict]
  refine ⟨h.sound.covered.ext h'.sound.covered fun b _ => hcovered b, ?_⟩
  refine h.sound.toRetry.ext h'.sound.toRetry fun b _ => ?_
  rw [h.toRetry, h'.toRetry, hmissed, hstrict, hcovered]

namespace Cycle

variable {sources : Sources} {products : List Product} {qs : List (Plan.Query BlockNumber)}
  {p : Product} {b : BlockNumber}

theorem served_iff (answers : sources.Answer) :
    Served sources products qs p b ↔ Holds (Plan.brought p.key qs) b := by
  constructor
  · intro ⟨q, hq, r, hb, hm, _⟩
    exact ⟨r, Plan.mem_brought.mpr ⟨q, hq, hb⟩, hm⟩
  · intro ⟨r, hr, hm⟩
    obtain ⟨q, hq, hb⟩ := Plan.mem_brought.mp hr
    exact ⟨q, hq, r, hb, hm, answers _ _⟩

theorem not_missed (answers : sources.Answer) : ¬ Missed sources products qs p b := by
  intro ⟨q, _, _, _, _, fault, hfault⟩
  obtain ⟨ts, hok⟩ := answers q.range ((FetchedRange.served products q).map (·.1.contract))
  rw [FetchedRange.answer, hok] at hfault
  cases hfault

end Cycle

/-! ## Execution -/

namespace Runner

variable {σ ρ : Type} [ImportStateStore σ BlockNumber] [RecordSink ρ] {i : Runner} {c : Conditions}

def handed (i : Runner) (c : Conditions) (g : Agenda) : List (Product × Transfer) :=
  c.loadOrder.order (FetchedRange.jobs (i.fetched c g))

theorem execute_eq (g : Agenda) (b : RunnerState BlockNumber σ ρ)
    (runs : ∀ t, c.cancelled t = false) :
    (i.execute c g.products g.latest g.plan b).1 = .ok (i.resultsOf c g b.records) ∧
      (i.execute c g.products g.latest g.plan b).2.records =
        (FetchedRange.loadAll i.loader c.sources (i.handed c g) b.records).2.1 ∧
      (i.execute c g.products g.latest g.plan b).2.states =
        match i.behaviour.mode with
        | .recent => b.states
        | .historical => (Cycle.updateStates c.now Product.positionsKey
            (i.resultsOf c g b.records) g.products b.states).1 := by
  simp only [execute, executeUnder, RunnerState.enter, runs, Bool.false_eq_true, if_false]
  refine ⟨rfl, ?_, ?_⟩
  · cases i.behaviour.mode <;> rfl
  · cases i.behaviour.mode <;> rfl

section Execute

variable [LawfulImportStateStore σ BlockNumber] {g : Agenda} {limits : Plan.Limits}
  {ds : List (ProductRanges BlockNumber)} {b : RunnerState BlockNumber σ ρ}

/-- Executing a plan over the history settles every product, and touches no other state. -/
theorem settled_execute (historical : i.behaviour.mode = .historical)
    (runs : ∀ t, c.cancelled t = false) (hkeys : (g.products.map (·.key)).Nodup)
    (distinct : (g.products.map (·.id)).Nodup) (hplan : Plan.Allotted limits ds g.plan.queries)
    (found : ∀ p ∈ g.products, ∃ s,
      ImportStateStore.load b.states p.positionsKey = .ok (some s) ∧ s.coverage.Sound) :
    let after := (i.execute c g.products g.latest g.plan b).2.states
    (∀ key, (∀ p ∈ g.products, p.positionsKey ≠ key) →
      ImportStateStore.load after key = ImportStateStore.load b.states key) ∧
      ∀ p ∈ g.products, Settled i c g (i.failures c g b.records) p
        (coverageOf (ImportStateStore.load b.states p.positionsKey))
        (coverageOf (ImportStateStore.load after p.positionsKey)) := by
  intro after
  obtain ⟨-, -, hstates⟩ := execute_eq (i := i) g b runs
  simp only [historical] at hstates
  have hloaded : ∀ p ∈ g.products, Cycle.outcomesOf p.key (i.resultsOf c g b.records) ≠ [] →
      ∃ state, ImportStateStore.load b.states p.positionsKey = .ok state := by
    intro p hp _
    obtain ⟨s, hs, -⟩ := found p hp
    exact ⟨some s, hs⟩
  obtain ⟨hframe, hown⟩ :=
    Cycle.load_updateStates c.now (Product.nodup_positionsKey distinct) hloaded
  rw [← hstates] at hframe hown
  refine ⟨hframe, fun p hp => ?_⟩
  obtain ⟨s, hs, hsound⟩ := found p hp
  rw [hown p hp, coverageOf_map fun _ => ⟨s, hs⟩, hs]
  exact settled_applyResults hkeys hplan hp b.records hsound c.now

end Execute

end Runner

/-! ## Two plans -/

namespace Plan

section Orderly

variable {limits : Limits} {draws : Draws} {ds : List (ProductRanges BlockNumber)}
  {qs : List (Query BlockNumber)}

private theorem parts_of_keys
    (h : ∀ q ∈ qs, ∀ key r, q.Brings key r → key ∈ ds.map (·.key))
    (hparts : ∀ key ∈ ds.map (·.key), ∃ P, Parts P (brought key qs)) (key : String) :
    ∃ P, Parts P (brought key qs) := by
  by_cases hk : key ∈ ds.map (·.key)
  · exact hparts key hk
  · have hnone : brought key qs = [] := by
      refine List.eq_nil_iff_forall_not_mem.mpr fun r hr => hk ?_
      obtain ⟨q, hq, hb⟩ := mem_brought.mp hr
      exact h q hq key r hb
    exact ⟨fun _ => True, hnone ▸ .nil⟩

variable (haccept : Acceptable limits ds) (hds : ∀ d ∈ ds, ProperRanges d)

include haccept hds

theorem orderly_singles : Orderly limits ds (ofSingles limits ds).plan.queries where
  allotted := allotted_singles haccept.keys hds
  inside q hq := by
    obtain ⟨s, hs, rfl⟩ := List.mem_map.mp hq
    exact (within_single haccept hds hs).holds
  parts := parts_of_keys (fun _ hq _ _ => key_mem_of_brings_singles hq)
    (exists_parts_singles haccept hds)

theorem orderly_shareds : Orderly limits ds (ofShareds limits draws ds).plan.queries where
  allotted := allotted_shareds haccept.keys hds
  inside _ hq := (within_shared haccept hds hq).holds
  parts := parts_of_keys (fun _ hq _ _ => key_mem_of_brings_shareds hq)
    (exists_parts_shareds haccept hds)

variable (draws) in
theorem holds_brought_iff (uncut : Uncut limits ds) (key : String) (b : BlockNumber) :
    Holds (brought key (ofSingles limits ds).plan.queries) b ↔
      Holds (brought key (ofShareds limits draws ds).plan.queries) b := by
  constructor
  · intro h
    exact pairs_singles_subset haccept hds (show (key, b) ∈ pairs _ from h)
  · intro h
    exact pairs_shareds_subset haccept hds uncut (show (key, b) ∈ pairs _ from h)

end Orderly

end Plan

section Agree

variable {σ ρ : Type} [ImportStateStore σ BlockNumber] [LawfulImportStateStore σ BlockNumber]
  [RecordSink ρ] {i : Runner} {limits : Plan.Limits} {ds : List (ProductRanges BlockNumber)}
  {products : List Product} {ledger : List Transfer} {latest : BlockNumber}
  {b : RunnerState BlockNumber σ ρ} {c c' : Runner.Conditions}

section Orderly

variable {plan plan' : Plan BlockNumber} (keys : (products.map (·.key)).Nodup)
  (answers : c.sources.AnswerFrom ledger) (same : c'.sources = c.sources)
  (horderly : Plan.Orderly limits ds plan.queries)
  (horderly' : Plan.Orderly limits ds plan'.queries)
  (hsame : ∀ key b, Holds (Plan.brought key plan.queries) b ↔
    Holds (Plan.brought key plan'.queries) b)

include keys answers same horderly horderly' hsame

theorem Runner.handed_perm :
    (i.handed c ⟨products, latest, plan⟩).Perm (i.handed c' ⟨products, latest, plan'⟩) := by
  refine (c.loadOrder.perm _).trans (.trans ?_ (c'.loadOrder.perm _).symm)
  rw [fetched, fetched, same]
  refine FetchedRange.jobs_perm keys answers (horderly.of_perm (c.queryOrder.perm _))
    (horderly'.of_perm (c'.queryOrder.perm _)) fun key b => ?_
  rw [Holds.of_perm (Plan.brought_perm (c.queryOrder.perm _)), hsame,
    Holds.of_perm (Plan.brought_perm (c'.queryOrder.perm _))]

theorem Runner.failed_alike
    (hsteady : ∀ p ∈ products, ∀ t ∈ ledger, i.loader.Steady ρ c.sources p t)
    (records : ρ) (p : Product) (b : BlockNumber) :
    FetchedRange.Failed (i.failures c ⟨products, latest, plan⟩ records) p b ↔
      FetchedRange.Failed (i.failures c' ⟨products, latest, plan'⟩ records) p b := by
  have hhanded : (i.handed c ⟨products, latest, plan⟩).Perm
      (i.handed c' ⟨products, latest, plan'⟩) :=
    handed_perm keys answers same horderly horderly' hsame
  rw [failures, failures, same]
  refine FetchedRange.failed_of_perm (fun x hx => ?_) hhanded records records p b
  obtain ⟨hp, ht⟩ := FetchedRange.mem_ledger_of_mem_jobs keys answers
      ((c.loadOrder.perm _).mem_iff.mp hx)
  exact hsteady x.1 hp x.2 ht

/-- Orderly plans that bring the same blocks leave the same ranges covered and waiting. -/
theorem Runner.coverage_alike (distinct : (products.map (·.id)).Nodup)
    (found : ∀ p ∈ products, ∃ s,
      ImportStateStore.load b.states p.positionsKey = .ok (some s) ∧ s.coverage.Sound)
    (hsteady : i.behaviour.strict = true →
      ∀ p ∈ products, ∀ t ∈ ledger, i.loader.Steady ρ c.sources p t)
    (runs : ∀ t, c.cancelled t = false) (runs' : ∀ t, c'.cancelled t = false) (key : String) :
    let after :=
      coverageOf (ImportStateStore.load (i.execute c products latest plan b).2.states key)
    let after' :=
      coverageOf (ImportStateStore.load (i.execute c' products latest plan' b).2.states key)
    after.covered = after'.covered ∧ after.toRetry = after'.toRetry := by
  let g : Agenda := ⟨products, latest, plan⟩
  let g' : Agenda := ⟨products, latest, plan'⟩
  cases hmode : i.behaviour.mode with
  | recent =>
    -- without a history to cover, states stay as they are
    have hstates : (i.execute c products latest plan b).2.states =
        (i.execute c' products latest plan' b).2.states := by
      rw [(execute_eq (i := i) g b runs).2.2, (execute_eq (i := i) g' b runs').2.2, hmode]
    rw [hstates]
    exact ⟨rfl, rfl⟩
  | historical =>
    obtain ⟨hframe, hsettled⟩ :=
      settled_execute (g := g) hmode runs keys distinct horderly.allotted found
    obtain ⟨hframe', hsettled'⟩ :=
      settled_execute (g := g') hmode runs' keys distinct horderly'.allotted found
    by_cases hex : ∃ p ∈ products, p.positionsKey = key
    · obtain ⟨p, hp, rfl⟩ := hex
      refine (hsettled p hp).agree (hsettled' p hp) (fun b => ?_) (fun b => ?_) fun hstrict b => ?_
      · rw [same, Cycle.served_iff answers.answer, Cycle.served_iff answers.answer]
        exact hsame p.key b
      · rw [same]
        exact iff_of_false (Cycle.not_missed answers.answer) (Cycle.not_missed answers.answer)
      · exact failed_alike keys answers same horderly horderly' hsame (hsteady hstrict) _ p b
    · have hother : ∀ p ∈ products, p.positionsKey ≠ key := fun p hp h => hex ⟨p, hp, h⟩
      have hload := (hframe key hother).trans (hframe' key hother).symm
      exact ⟨by rw [hload], by rw [hload]⟩

end Orderly

/-- **Two plans.** Let every query be answered with the transfers of a ledger that it asks for, and
no product be cut. Then it makes no difference to products with import states of their own whether
the plan of queries for each of them is executed or the shared one, whatever is drawn and in
whatever order things end: the same transfers are loaded, and the same ranges are covered and wait
afterwards. -/
theorem plans_agree (accepted : Plan.check limits ds = .ok ())
    (valid : ∀ d ∈ ds, ∀ r ∈ d.covered ++ d.toRetry, r.Valid) (uncut : Plan.Uncut limits ds)
    (keys : (products.map (·.key)).Nodup) (distinct : (products.map (·.id)).Nodup)
    (found : ∀ p ∈ products, ∃ s,
      ImportStateStore.load b.states p.positionsKey = .ok (some s) ∧ s.coverage.Reached)
    (answers : c.sources.AnswerFrom ledger) (same : c'.sources = c.sources)
    (steady : i.behaviour.strict = true →
      ∀ p ∈ products, ∀ t ∈ ledger, i.loader.Steady ρ c.sources p t)
    (runs : ∀ t, c.cancelled t = false) (runs' : ∀ t, c'.cancelled t = false)
    (draws : Plan.Draws) :
    let single := (Plan.ofSingles limits ds).plan
    let shared := (Plan.ofShareds limits draws ds).plan
    (i.handed c ⟨products, latest, single⟩).Perm (i.handed c' ⟨products, latest, shared⟩) ∧
      ∀ key,
        let after := coverageOf
          (ImportStateStore.load (i.execute c products latest single b).2.states key)
        let after' := coverageOf
          (ImportStateStore.load (i.execute c' products latest shared b).2.states key)
        after.covered = after'.covered ∧ after.toRetry = after'.toRetry := by
  have haccept := Plan.check_eq_ok_iff.mp accepted
  have hds : ∀ d ∈ ds, Plan.ProperRanges d := haccept.proper valid
  have hsingle : Plan.Orderly limits ds (Plan.ofSingles limits ds).plan.queries :=
    Plan.orderly_singles haccept hds
  have hshared : Plan.Orderly limits ds (Plan.ofShareds limits draws ds).plan.queries :=
    Plan.orderly_shareds haccept hds
  have hsame := Plan.holds_brought_iff draws haccept hds uncut
  have hfound : ∀ p ∈ products, ∃ s,
      ImportStateStore.load b.states p.positionsKey = .ok (some s) ∧ s.coverage.Sound := by
    intro p hp
    obtain ⟨s, hs, hreached⟩ := found p hp
    exact ⟨s, hs, hreached.sound⟩
  exact ⟨Runner.handed_perm keys answers same hsingle hshared hsame,
    Runner.coverage_alike keys answers same hsingle hshared hsame distinct hfound steady runs
      runs'⟩

end Agree

/-! ## Two vaults -/

namespace TwoVaults

open FourCycles (other)
open StrictCycle (product runner)

def states : MemoryImportStateStore BlockNumber :=
  let past : ImportRanges BlockNumber :=
    (({} : ImportRanges BlockNumber).applyResult 1 ⟨⟨20, 24⟩, true⟩).applyResult 2 ⟨⟨27, 28⟩, false⟩
  let fresh (p : Product) (origin : BlockNumber) : ImportState BlockNumber :=
    .fresh p.positionsKey p.id p.chain origin none
  ⟨(Table.empty.put product.positionsKey { fresh product 10 with coverage := past }).put
    other.positionsKey (fresh other 20)⟩

theorem reached_states (key : String) :
    (coverageOf (ImportStateStore.load states key)).Reached := by
  simp only [ImportStateStore.load, states, Table.get?_put]
  split
  · exact .empty
  split
  · exact .step (.step .empty (.one 1 ⟨⟨20, 24⟩, true⟩ (by decide)))
      (.one 2 ⟨⟨27, 28⟩, false⟩ (by decide))
  · exact .empty

def initial : RunnerState BlockNumber (MemoryImportStateStore BlockNumber) MemoryRecords :=
  { states, records := ⟨.empty, .empty, .empty, .empty⟩ }

/-- Transfers of both vaults: to one owner whose position cannot be read, some of blocks that are
covered or come before the vault, and one that is listed twice. -/
def ledger : List Transfer :=
  [ ⟨12, .ofNat 1, 0, .ofNat 10, .ofNat 5, 1⟩, ⟨15, .ofNat 2, 0, .ofNat 9, .ofNat 6, 1⟩,
    ⟨22, .ofNat 3, 0, .ofNat 9, .ofNat 5, 1⟩, ⟨22, .ofNat 3, 1, .ofNat 10, .ofNat 5, 1⟩,
    ⟨28, .ofNat 4, 0, .ofNat 9, .ofNat 5, 1⟩, ⟨28, .ofNat 4, 0, .ofNat 9, .ofNat 5, 1⟩,
    ⟨35, .ofNat 5, 0, .ofNat 9, .ofNat 5, 1⟩ ]

def conditions : Runner.Conditions where
  sources := { StrictCycle.mock with transfers := ledger, failingRanges := [] }.sources
  now := 5

def reversed : Runner.Conditions :=
  { conditions with queryOrder := ⟨List.reverse, List.reverse_perm⟩ }

def limits : Plan.Limits :=
  { ignoreState := false, maxProducts := 2, maxSpan := 12, maxQueries := 9 }

def demands : List (ProductRanges BlockNumber) :=
  (runner.buildRanges conditions.sources (runner.window 40 none) [product, other] states).1

def single : Plan BlockNumber := (Plan.ofSingles limits demands).plan

def shared : Plan BlockNumber := (Plan.ofShareds limits (fun n => n.toUInt64) demands).plan

/-- Three queries do the work of six, also when they end the other way round. The block whose
transfer cannot be loaded waits either way. -/
theorem plans_agree_shared :
    let after c plan key := coverageOf (ImportStateStore.load
      (runner.execute c [product, other] 40 plan initial).2.states key)
    single.queries.length = 6 ∧ shared.queries.length = 3 ∧
      (runner.handed reversed ⟨[product, other], 40, shared⟩).map (fun x => (x.1.id, x.2.block)) =
        [(7, 35), (8, 22), (7, 28), (7, 28), (7, 15)] ∧
      (runner.handed conditions ⟨[product, other], 40, single⟩).Perm
        (runner.handed reversed ⟨[product, other], 40, shared⟩) ∧
      (after reversed shared product.positionsKey).covered = [⟨10, 14⟩, ⟨16, 40⟩] ∧
      (after reversed shared product.positionsKey).toRetry = [⟨15, 15⟩] ∧
      ∀ key, (after conditions single key).covered = (after reversed shared key).covered ∧
        (after conditions single key).toRetry = (after reversed shared key).toRetry := by
  intro after
  have hreached : ∀ p ∈ [product, other], ∃ s,
      ImportStateStore.load initial.states p.positionsKey = .ok (some s) ∧ s.coverage.Reached := by
    simp only [List.forall_mem_cons]
    exact ⟨⟨_, rfl, reached_states product.positionsKey⟩,
      ⟨_, rfl, reached_states other.positionsKey⟩,
      nofun⟩
  have answers : conditions.sources.AnswerFrom ledger := fun _ _ => ⟨_, rfl, .refl _⟩
  have same : reversed.sources = conditions.sources := rfl
  have accepted : Plan.check limits demands = .ok () := by decide +kernel
  obtain ⟨hhanded, hcoverage⟩ :
      (runner.handed conditions ⟨[product, other], 40, single⟩).Perm
        (runner.handed reversed ⟨[product, other], 40, shared⟩) ∧
      ∀ key, (after conditions single key).covered = (after reversed shared key).covered ∧
        (after conditions single key).toRetry = (after reversed shared key).toRetry :=
    plans_agree accepted (by decide +kernel) (Plan.uncut_of_lt (by decide +kernel)) (by decide)
      (by decide) hreached answers same (fun _ p _ t _ => runner.loader.steady_memory _ p t)
      (fun _ => rfl) (fun _ => rfl) fun n => n.toUInt64
  exact ⟨by decide +kernel, by decide +kernel, by decide +kernel, hhanded, by decide +kernel,
    by decide +kernel, hcoverage⟩

end TwoVaults

end Backfill
