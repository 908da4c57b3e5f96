import Backfill.Proofs.Cycle.Repeats
import Backfill.Proofs.ImportState.Local
import Backfill.Proofs.Records.Refused

/-!
# One product among others

What a stage of a cycle does for one product, whatever the other products are. A stage runs over a
list with the product in it. For two such lists the stage keeps the import states of the product the
same, and what comes out of it for the product is the same, if the sources say the same of it.

Results:
* `Product.amid_of_mem`: products with distinct keys and states are apart.
* `Sources.AgreeOn`: what the sources have to agree on. `SameAt`: when states are the same.
* `Runner.buildRanges_alike`: what the product wants.
* `Plan.filter_singles`, `FetchedRange.filter_ofQueries`: its queries, and what each of them brings.
* `Loader.SteadyFrom`, `Refusing.steadyFrom`: when its transfers load alike.
* `Runner.results_alike`: its results, up to their order.
* `Cycle.updateStates_alike`: folding them.
-/
namespace Backfill

open Axis Range

/-! ## A product among others -/

namespace Product

/-- No product of the list has the key or the import state of this one. -/
def Apart (p : Product) (ps : List Product) : Prop :=
  ∀ q ∈ ps, q.key ≠ p.key ∧ q.positionsKey ≠ p.positionsKey

/-- The product is in the list once, apart from all others. -/
def Amid (p : Product) (ps : List Product) : Prop :=
  ∃ before after, ps = before ++ p :: after ∧ p.Apart before ∧ p.Apart after

variable {p : Product} {ps : List Product}

theorem amid_of_mem (hkeys : (ps.map (·.key)).Nodup) (hstates : (ps.map (·.positionsKey)).Nodup)
    (hp : p ∈ ps) : p.Amid ps := by
  obtain ⟨before, after, rfl⟩ := List.append_of_mem hp
  simp only [List.map_append, List.map_cons, List.nodup_middle, List.nodup_cons] at hkeys hstates
  have hne : ∀ q ∈ before ++ after, q.key ≠ p.key ∧ q.positionsKey ≠ p.positionsKey := by
    intro q hq
    refine ⟨fun heq => hkeys.1 ?_, fun heq => hstates.1 ?_⟩
    · rw [← List.map_append, ← heq]
      exact List.mem_map_of_mem hq
    · rw [← List.map_append, ← heq]
      exact List.mem_map_of_mem hq
  exact ⟨before, after, rfl, fun q hq => hne q (List.mem_append_left _ hq),
    fun q hq => hne q (List.mem_append_right _ hq)⟩

theorem Amid.mem (h : p.Amid ps) : p ∈ ps := by
  obtain ⟨before, after, rfl, -, -⟩ := h
  simp

end Product

/-- The sources answer alike whatever is asked about the product: the head of the chain, and what
concerns its contract alone. -/
structure Sources.AgreeOn (p : Product) (s s' : Sources) : Prop where
  latest : s.latest = s'.latest
  creation : s.creation p.contract = s'.creation p.contract
  transfers : ∀ range, s.transfers range [p.contract] = s'.transfers range [p.contract]
  position : ∀ t : Transfer, t.token = p.contract →
    s.position (t.request p) = s'.position (t.request p)

/-! ## What a product wants -/

section Demands

variable {σ : Type} [ImportStateStore σ BlockNumber] {i : Runner} {sources sources' : Sources}
  {latest : BlockNumber} {last last' : Option BlockNumber} {p : Product} {ps qs : List Product}
  {u u' : σ} {key : String}

theorem RangeContext.productRanges?_agree (historical : i.behaviour.mode = .historical)
    {s s' : ImportState BlockNumber} (h : s.Agree s') :
    (i.window latest last').productRanges? p (some s') =
      (i.window latest last).productRanges? p (some s) := by
  obtain ⟨-, stamp, rfl⟩ := h
  cases hignore : i.behaviour.ignoreState <;>
    simp only [RangeContext.productRanges?, Runner.window, historical, hignore, if_true, if_false,
      Bool.false_eq_true] <;> rfl

namespace Runner

/-- What another product does leaves the state of a key alone. -/
theorem sameAt_productRanges? (i : Runner) (sources : Sources) (w : RangeContext)
    (h : SameAt key u u') (hne : p.positionsKey ≠ key) :
    SameAt key (i.productRanges? sources w p u).2.1 u' := by
  unfold productRanges?
  split
  · exact h
  · exact h
  · split
    · exact h
    · cases hcreate : createImportState sources p u with
      | mk s? rest =>
        obtain ⟨made, trace⟩ := rest
        rcases createState_cases hcreate with ⟨-, rfl⟩ | ⟨origin, time, -, hsave⟩
        · exact h
        · exact (keeps_sameAt key).save_other h hne hsave

theorem sameAt_buildRanges (i : Runner) (sources : Sources) (w : RangeContext) (h : SameAt key u u')
    (hne : ∀ q ∈ ps, q.positionsKey ≠ key) : SameAt key (i.buildRanges sources w ps u).2.1 u' := by
  induction ps generalizing u with
  | nil => exact h
  | cons q ps ih =>
    rw [List.forall_mem_cons] at hne
    exact ih (sameAt_productRanges? i sources w h hne.1) hne.2

/-- A state that is made for the product is made alike. -/
theorem createState_alike (agree : sources.AgreeOn p sources') (h : SameAt p.positionsKey u u') :
    let made := createImportState sources p u
    let made' := createImportState sources' p u'
    made.1 = made'.1 ∧ SameAt p.positionsKey made.2.1 made'.2.1 ∧
      ∀ s, made.1 = some s → s.coverage.Proper := by
  intro made made'
  simp only [made, made', createImportState, ← agree.creation]
  split
  · exact ⟨rfl, h, by simp⟩
  · exact ⟨rfl, h, by simp⟩
  next creation _ =>
  have hproper : ({} : ImportRanges BlockNumber).Proper := ImportRanges.sound_empty.toProper
  let s : ImportState BlockNumber := .fresh p.positionsKey p.id p.chain creation.block
    (some (Stamp.ofInstant creation.time))
  have hsave : Both (SameAt p.positionsKey) (ImportStateStore.save u s)
      (ImportStateStore.save u' s) :=
    (keeps_sameAt p.positionsKey).save h rfl hproper
  cases hs : ImportStateStore.save u s <;> cases hs' :
    ImportStateStore.save u' s <;> rw [hs, hs'] at hsave
  · exact ⟨rfl, h, by simp⟩
  · exact hsave.elim
  · exact hsave.elim
  · refine ⟨rfl, hsave, fun _ heq => ?_⟩
    obtain rfl := Option.some.inj heq
    exact hproper

/-- Where the sources answer alike and a product cannot tell the stores apart, it wants the same,
and afterwards cannot tell the stores apart either. -/
theorem productRanges?_alike (historical : i.behaviour.mode = .historical)
    (agree : sources.AgreeOn p sources') (latest : BlockNumber) (last last' : Option BlockNumber)
    (h : SameAt p.positionsKey u u') :
    let out := i.productRanges? sources (i.window latest last) p u
    let out' := i.productRanges? sources' (i.window latest last') p u'
    out.1 = out'.1 ∧ SameAt p.positionsKey out.2.1 out'.2.1 ∧
      ∀ d, out.1 = some d → Plan.ProperRanges d := by
  intro out out'
  have hfound := (keeps_sameAt p.positionsKey).load h
  simp only [out, out', productRanges?]
  cases hload : ImportStateStore.load u p.positionsKey with
  | error fault =>
    cases hload' : ImportStateStore.load u' p.positionsKey with
    | error fault' => exact ⟨rfl, h, by simp⟩
    | ok found' => rw [hload, hload'] at hfound; exact hfound.elim
  | ok found =>
    cases hload' : ImportStateStore.load u' p.positionsKey with
    | error fault' => rw [hload, hload'] at hfound; exact hfound.elim
    | ok found' =>
      rw [hload, hload'] at hfound
      cases hfound with
      | some hagree =>
        refine ⟨(RangeContext.productRanges?_agree historical hagree).symm, h, fun d hd => ?_⟩
        exact RangeContext.proper_of_known historical hd (RangeContext.known_proper hagree.proper)
      | none =>
        obtain ⟨hmade, hsame, hproper⟩ := createState_alike agree h
        simp only [historical, ← hmade]
        refine ⟨?_, hsame, fun d hd => ?_⟩
        · cases hs : (createImportState sources p u).1 with
          | none => rfl
          | some s =>
            exact (RangeContext.productRanges?_agree historical (.refl (hproper s hs))).symm
        · obtain ⟨s, hs, hdemand⟩ := Option.bind_eq_some_iff.mp hd
          exact RangeContext.proper_of_known historical hdemand
            (RangeContext.known_proper (hproper s hs))

theorem buildRanges_append (w : RangeContext) :
    i.buildRanges sources w (ps ++ qs) u =
      let first := i.buildRanges sources w ps u
      let rest := i.buildRanges sources w qs first.2.1
      (first.1 ++ rest.1, rest.2.1, first.2.2 ++ rest.2.2) := by
  induction ps generalizing u with
  | nil => rfl
  | cons p ps ih => simp only [List.cons_append, buildRanges, ih, List.append_assoc]

theorem filter_buildRanges_apart (historical : i.behaviour.mode = .historical) (h : p.Apart ps) :
    (i.buildRanges sources (i.window latest last) ps u).1.filter (·.key = p.key) = [] := by
  refine List.filter_eq_nil_iff.mpr fun d hd hkey => ?_
  have hsub := keys_buildRanges historical sources (i.window latest last) historical ps u
  obtain ⟨q, hq, heq⟩ := List.mem_map.mp (hsub.subset (List.mem_map_of_mem hd))
  exact (h q hq).1 (heq.trans (of_decide_eq_true hkey))

/-- Among any others a product has the demand that it has alone. -/
theorem buildRanges_alike (historical : i.behaviour.mode = .historical)
    (agree : sources.AgreeOn p sources') (latest : BlockNumber) (last last' : Option BlockNumber)
    (h : SameAt p.positionsKey u u') (hp : p.Amid ps) (hp' : p.Amid qs) :
    let out := i.buildRanges sources (i.window latest last) ps u
    let out' := i.buildRanges sources' (i.window latest last') qs u'
    out.1.filter (·.key = p.key) = out'.1.filter (·.key = p.key) ∧
      SameAt p.positionsKey out.2.1 out'.2.1 ∧
      ∀ d ∈ out.1.filter (·.key = p.key), Plan.ProperRanges d := by
  intro out out'
  obtain ⟨before, after, rfl, hbefore, hafter⟩ := hp
  obtain ⟨before', after', rfl, hbefore', hafter'⟩ := hp'
  have hkeeps := keeps_sameAt (σ := σ) p.positionsKey
  -- what comes before the product, the product itself, and what comes after it
  have hfirst := sameAt_buildRanges i sources (i.window latest last) h fun q hq => (hbefore q hq).2
  have hfirst' := hkeeps.symm (sameAt_buildRanges i sources' (i.window latest last')
    (hkeeps.symm hfirst) fun q hq => (hbefore' q hq).2)
  obtain ⟨hone, hthen, hproper⟩ := productRanges?_alike historical agree latest last last' hfirst'
  have hrest := sameAt_buildRanges i sources (i.window latest last) hthen fun q hq =>
    (hafter q hq).2
  have hrest' := hkeeps.symm (sameAt_buildRanges i sources' (i.window latest last')
    (hkeeps.symm hrest) fun q hq => (hafter' q hq).2)
  simp only [out, out', buildRanges_append, buildRanges, List.filter_append,
    filter_buildRanges_apart historical hbefore, filter_buildRanges_apart historical hbefore',
    filter_buildRanges_apart historical hafter, filter_buildRanges_apart historical hafter',
    List.nil_append, List.append_nil]
  refine ⟨by rw [hone], hrest', fun d hd => ?_⟩
  exact hproper d (Option.mem_toList.mp (List.mem_filter.mp hd).1)

end Runner

end Demands

/-! ## What is asked for on its behalf -/

namespace Plan

variable {α : Type} [Axis α]

/-- The queries for a product are those for its demand. -/
theorem filter_singles (limits : Limits) (key : String) (ds : List (ProductRanges α)) :
    ((singles limits ds).map Query.single).filter (key ∈ ·.keys) =
      (singles limits (ds.filter (·.key = key))).map .single := by
  have hown : (singles limits ds).filter (·.key = key) =
      singles limits (ds.filter (·.key = key)) := by
    refine filter_flatMap_own fun d _ q hq => ?_
    obtain ⟨r, -, rfl⟩ := List.mem_map.mp hq
    rfl
  have hkeys : ((fun q : Query α => decide (key ∈ q.keys)) ∘ Query.single) =
      fun q => decide (q.key = key) := by
    funext q
    simp [Query.keys, eq_comm]
  rw [List.filter_map, hkeys, hown]

end Plan

/-! ## What is fetched for it -/

namespace FetchedRange

variable {l : Loader} {sources sources' : Sources} {products : List Product} {p : Product}
  {qs : List (Plan.Query BlockNumber)}

/-- What is fetched when a range is asked for on behalf of one product. -/
def alone (l : Loader) (sources : Sources) (p : Product) (range : Range BlockNumber) :
    FetchedRange :=
  { product := p, range
    transfers := match sources.transfers range [p.contract] with
      | .ok ts => some (select l p range ts)
      | .error _ => none }

theorem alone_agree (agree : sources.AgreeOn p sources') :
    alone l sources p = alone l sources' p := by
  funext range
  rw [alone, alone, agree.transfers]

/-- By queries for single products each range of a product is fetched alone. -/
theorem filter_ofQueries (hkeys : (products.map (·.key)).Nodup) (hp : p ∈ products)
    (hqs : ∀ q ∈ qs, ∃ s, q = .single s) :
    (ofQueries l sources products qs).1.filter (·.product.key = p.key) =
      (Plan.brought p.key qs).map (alone l sources p) := by
  have hranges : ((ofQueries l sources products qs).1.filter (·.product.key = p.key)).map
      (·.range) = Plan.brought p.key qs := ranges_ofQueries hp qs
  rw [← hranges, List.map_map]
  symm
  refine (List.map_congr_left fun f hf => ?_).trans (List.map_id _)
  obtain ⟨hf, hkey⟩ := List.mem_filter.mp hf
  obtain ⟨q, hq, hmem, hb, htransfers⟩ := (mem_ofQueries hkeys).mp hf
  obtain ⟨s, rfl⟩ := hqs q hq
  obtain ⟨hskey, hrange⟩ := Plan.brings_single.mp hb
  have hproduct : f.product = p :=
    List.inj_on_of_nodup_map hkeys hmem hp (of_decide_eq_true hkey)
  have hserved : served products (.single s) = [(p, [s.range])] := by
    have hfind : products.find? (·.key = s.key) = some p :=
      (find?_key hkeys).mpr ⟨hp, hproduct ▸ hskey⟩
    simp [served, Plan.Query.targets, hfind]
  have hanswer : answer sources products (.single s) = sources.transfers s.range [p.contract] := by
    simp only [answer, hserved, List.map_cons, List.map_nil, Plan.Query.range]
  have hown : (alone l sources p f.range).transfers = f.transfers := by
    rw [htransfers, hanswer, hproduct, hrange]
    unfold alone
    cases sources.transfers s.range [p.contract] <;> rfl
  obtain ⟨product, range, transfers⟩ := f
  dsimp only at hproduct hown
  subst hproduct
  exact congrArg (FetchedRange.mk _ _) hown

theorem filter_jobs (key : String) (fs : List FetchedRange) :
    (jobs fs).filter (·.1.key = key) = jobs (fs.filter (·.product.key = key)) :=
  Plan.filter_flatMap_own fun f _ x hx => by
    obtain ⟨t, -, rfl⟩ := List.mem_map.mp hx
    rfl

/-- Results depend on what has failed of their own product only, and on that only in strict mode. -/
theorem results_congr {strict : Bool} {failed failed' : List (String × BlockNumber)}
    {f : FetchedRange} (h : strict = true → ∀ b, (f.product.key, b) ∈ failed ↔
      (f.product.key, b) ∈ failed')
    (head : BlockNumber) : f.results strict failed head = f.results strict failed' head := by
  have hfailed : ∀ b, (strict && failed.contains (f.product.key, b)) =
      (strict && failed'.contains (f.product.key, b)) := by
    intro b
    cases strict with
    | false => rfl
    | true =>
      rw [Bool.true_and, Bool.true_and, Bool.eq_iff_iff, List.contains_iff_mem,
        List.contains_iff_mem]
      exact h rfl b
  simp only [results, hfailed]

end FetchedRange

/-! ## What fails to load of it -/

section Loads

variable {ρ : Type} [RecordSink ρ] {l : Loader} {sources sources' : Sources} {p : Product}

theorem Loader.load_agree (agree : sources.AgreeOn p sources') {t : Transfer}
    (ht : t.token = p.contract) (records : ρ) :
    l.loadTransfer sources' p t records = l.loadTransfer sources p t records := by
  simp only [loadTransfer, prepare, agree.position t ht]

/-- Whether a transfer of the product is stored depends neither on what was loaded before nor on
which of the two records it is loaded into. -/
def Loader.SteadyFrom (l : Loader) (sources : Sources) (p : Product) (records records' : ρ) :
    Prop :=
  ∀ range ts, sources.transfers range [p.contract] = .ok ts → ∀ t ∈ ts, t.token = p.contract →
    ∀ r r', l.Leads records r → l.Leads records' r' →
      (l.loadTransfer sources p t r).1.isOk = (l.loadTransfer sources p t r').1.isOk

namespace FetchedRange

omit [RecordSink ρ] in
/-- The transfers to load of ranges that are fetched alone are the product's. -/
theorem jobs_alone {rs : List (Range BlockNumber)} {x : Product × Transfer}
    (hx : x ∈ jobs (rs.map (alone l sources p))) :
    x.1 = p ∧ x.2.token = p.contract ∧
      ∃ range ts, sources.transfers range [p.contract] = .ok ts ∧ x.2 ∈ ts := by
  obtain ⟨q, t⟩ := x
  obtain ⟨f, hf, rfl, ts, hts, ht⟩ := mem_jobs.mp hx
  obtain ⟨range, -, rfl⟩ := List.mem_map.mp hf
  refine ⟨rfl, ?_⟩
  simp only [alone] at hts
  split at hts
  · next all hall =>
    obtain rfl := Option.some.inj hts
    obtain ⟨ht, hkept⟩ := List.mem_filter.mp ht
    simp only [Bool.and_eq_true, decide_eq_true_eq] at hkept
    exact ⟨hkept.1.1, range, all, hall, ht⟩
  · cases hts

/-- Which blocks of a product have failed depends on its own transfers only, if what was loaded
before does not count for them. -/
theorem mem_failed_iff {js : List (Product × Transfer)} {key : String} {records : ρ}
    (ok : Product × Transfer → Bool)
    (hok : ∀ x ∈ js.filter (·.1.key = key), ∀ r, l.Leads records r →
      (l.loadTransfer sources x.1 x.2 r).1.isOk = ok x) (b : BlockNumber) :
    (key, b) ∈ (loadAll l sources js records).1.map Failure.block ↔
      ∃ x ∈ js.filter (·.1.key = key), ok x = false ∧ x.2.block = b := by
  have h := failures_filter (fun x => decide (x.1.key = key)) ok
    fun x hx hkey => hok x (List.mem_filter.mpr ⟨hx, hkey⟩)
  constructor
  · intro hb
    obtain ⟨x, hx, heq⟩ := List.mem_map.mp hb
    obtain ⟨hkey, hb⟩ := Prod.mk.inj heq
    have hown : (x.product, x.transfer) ∈ ((loadAll l sources js records).1.map
        fun x => (x.product, x.transfer)).filter (·.1.key = key) :=
      List.mem_filter.mpr ⟨List.mem_map_of_mem hx, decide_eq_true hkey⟩
    rw [h] at hown
    obtain ⟨hown, hfails⟩ := List.mem_filter.mp hown
    exact ⟨_, hown, by simpa using hfails, hb⟩
  · rintro ⟨x, hx, hfails, hb⟩
    have hown : x ∈ (js.filter (·.1.key = key)).filter (!ok ·) :=
      List.mem_filter.mpr ⟨hx, by simp [hfails]⟩
    rw [← h] at hown
    obtain ⟨hown, hkey⟩ := List.mem_filter.mp hown
    obtain ⟨y, hy, rfl⟩ := List.mem_map.mp hown
    exact List.mem_map.mpr ⟨y, hy, Prod.ext (of_decide_eq_true hkey) hb⟩

end FetchedRange

/-- Where a sink that is steady on its own refuses rows of other products only, this makes no
difference to the product. -/
theorem Refusing.steadyFrom {records records' : Refusing ρ}
    (steady : ∀ t, l.Steady ρ sources p t)
    (h : ∀ range ts, sources.transfers range [p.contract] = .ok ts → ∀ t ∈ ts,
      t.token = p.contract → ∀ name ∈ rows t, name ∉ records.broken ∧ name ∉ records'.broken) :
    l.SteadyFrom sources p records records' := by
  intro range ts hts t ht htoken r r' hr hr'
  have hrows := h range ts hts t ht htoken
  rw [isOk_load (fun name hname => broken_of_leads hr ▸ (hrows name hname).1) l sources p,
    isOk_load (fun name hname => broken_of_leads hr' ▸ (hrows name hname).2) l sources p,
    steady t r.inner r'.inner]

end Loads

/-! ## Its results -/

namespace Runner

section Results

variable {ρ : Type} [RecordSink ρ] {i : Runner} {c c' : Conditions} {g g' : Agenda} {p : Product}
  (hkeys : (g.products.map (·.key)).Nodup) (hkeys' : (g'.products.map (·.key)).Nodup)
  (hp : p ∈ g.products) (hp' : p ∈ g'.products)
  (hsingle : ∀ q ∈ g.plan.queries, ∃ s, q = .single s)
  (hsingle' : ∀ q ∈ g'.plan.queries, ∃ s, q = .single s)
  (hbrought : Plan.brought p.key g.plan.queries = Plan.brought p.key g'.plan.queries)
  (agree : c.sources.AgreeOn p c'.sources)

section One

include hkeys hp hsingle

theorem filter_fetched :
    ((i.fetched c g).filter (·.product.key = p.key)).Perm
      ((Plan.brought p.key g.plan.queries).map (FetchedRange.alone i.loader c.sources p)) := by
  have hperm := c.queryOrder.perm g.plan.queries
  rw [fetched, FetchedRange.filter_ofQueries hkeys hp fun q hq => hsingle q (hperm.mem_iff.mp hq)]
  exact (Plan.brought_perm hperm).map _

theorem mem_failures_iff {records : ρ} (ok : Product × Transfer → Bool)
    (hok : ∀ x ∈ FetchedRange.jobs ((Plan.brought p.key g.plan.queries).map
        (FetchedRange.alone i.loader c.sources p)), ∀ r, i.loader.Leads records r →
      (i.loader.loadTransfer c.sources x.1 x.2 r).1.isOk = ok x) (b : BlockNumber) :
    (p.key, b) ∈ (i.failures c g records).map FetchedRange.Failure.block ↔
      ∃ x ∈ FetchedRange.jobs ((Plan.brought p.key g.plan.queries).map
        (FetchedRange.alone i.loader c.sources p)), ok x = false ∧ x.2.block = b := by
  have hjobs : ((c.loadOrder.order (FetchedRange.jobs (i.fetched c g))).filter
      (·.1.key = p.key)).Perm (FetchedRange.jobs ((Plan.brought p.key g.plan.queries).map
        (FetchedRange.alone i.loader c.sources p))) := by
    refine ((c.loadOrder.perm _).filter _).trans ?_
    rw [FetchedRange.filter_jobs]
    exact (filter_fetched hkeys hp hsingle).flatMap_right _
  rw [failures, FetchedRange.mem_failed_iff ok fun x hx => hok x (hjobs.mem_iff.mp hx)]
  simp only [hjobs.mem_iff]

theorem outcomes_proper_of_brought (hproper : ∀ r ∈ Plan.brought p.key g.plan.queries, r.Proper)
    (records : ρ) : ∀ o ∈ Cycle.outcomesOf p.key (i.resultsOf c g records), o.range.Proper := by
  intro o ho
  obtain ⟨r, hr, rfl⟩ := List.mem_map.mp ho
  rw [resultsOf, Cycle.filter_results fun f _ o ho => FetchedRange.key_of_mem_results ho] at hr
  obtain ⟨f, hf, hr⟩ := List.mem_flatMap.mp hr
  have hf := (filter_fetched hkeys hp hsingle).mem_iff.mp hf
  obtain ⟨range, hrange, rfl⟩ := List.mem_map.mp hf
  exact proper_block.mpr (FetchedRange.results_valid (hproper range hrange).valid hr).2

end One

include hkeys hkeys' hp hp' hsingle hsingle' hbrought agree

/-- Where the same is asked for on behalf of a product, and answered alike, its results are the
same. -/
theorem results_alike (hlatest : g.latest = g'.latest)
    {records records' : ρ}
    (steady : i.behaviour.strict = true → i.loader.SteadyFrom c.sources p records records') :
    ((i.resultsOf c g records).filter (·.key = p.key)).Perm
      ((i.resultsOf c' g' records').filter (·.key = p.key)) := by
  have hown : ((i.fetched c g).filter (·.product.key = p.key)).Perm
      ((i.fetched c' g').filter (·.product.key = p.key)) := by
    refine (filter_fetched hkeys hp hsingle).trans (.trans (.of_eq ?_)
      (filter_fetched hkeys' hp' hsingle').symm)
    rw [hbrought, FetchedRange.alone_agree agree]
  have hfailed : i.behaviour.strict = true → ∀ b,
      (p.key, b) ∈ (i.failures c g records).map FetchedRange.Failure.block ↔
        (p.key, b) ∈ (i.failures c' g' records').map FetchedRange.Failure.block := by
    intro hstrict b
    have hsteady := steady hstrict
    rw [mem_failures_iff hkeys hp hsingle fun x =>
      (i.loader.loadTransfer c.sources p x.2 records').1.isOk,
      mem_failures_iff hkeys' hp' hsingle' fun x =>
        (i.loader.loadTransfer c.sources p x.2 records').1.isOk, hbrought,
          FetchedRange.alone_agree agree]
    · intro x hx r hr
      rw [← FetchedRange.alone_agree agree] at hx
      obtain ⟨hown, htoken, range, ts, hts, ht⟩ := FetchedRange.jobs_alone hx
      rw [hown, Loader.load_agree agree htoken,
        ← hsteady range ts hts x.2 ht htoken records r .refl hr]
      exact hsteady range ts hts x.2 ht htoken records records' .refl .refl
    · intro x hx r hr
      obtain ⟨hown, htoken, range, ts, hts, ht⟩ := FetchedRange.jobs_alone hx
      rw [hown]
      exact hsteady range ts hts x.2 ht htoken r records' hr .refl
  rw [resultsOf, resultsOf, Cycle.filter_results fun f _ o ho => FetchedRange.key_of_mem_results ho,
    Cycle.filter_results fun f _ o ho => FetchedRange.key_of_mem_results ho, ← hlatest]
  refine .trans (.of_eq (List.flatMap_congr fun f hf => ?_)) (hown.flatMap_right _)
  refine FetchedRange.results_congr (fun hstrict b => ?_) _
  rw [of_decide_eq_true (List.mem_filter.mp hf).2]
  exact hfailed hstrict b

end Results

end Runner

/-! ## Its state when outcomes are folded -/

namespace Cycle

variable {σ : Type} [ImportStateStore σ BlockNumber] {p : Product} {ps qs : List Product} {u u' : σ}
  {key : String} {now now' : UInt64} {rs rs' : List (ImportRangeResult BlockNumber)}

theorem updateStates_append : (updateStates now Product.positionsKey rs (ps ++ qs) u).1 =
    (updateStates now Product.positionsKey rs qs
      (updateStates now Product.positionsKey rs ps u).1).1 := by
  induction ps generalizing u with
  | nil => rfl
  | cons p ps ih =>
    simp only [List.cons_append, updateStates]
    split
    · exact ih
    · split <;> exact ih

/-- Folding the outcomes of other products leaves the state of a key alone. -/
theorem sameAt_updateStates (now : UInt64) (rs : List (ImportRangeResult BlockNumber))
    (h : SameAt key u u') (hne : ∀ q ∈ ps, q.positionsKey ≠ key) :
    SameAt key (updateStates now Product.positionsKey rs ps u).1 u' := by
  induction ps generalizing u with
  | nil => exact h
  | cons q ps ih =>
    rw [List.forall_mem_cons] at hne
    simp only [updateStates]
    split
    · exact ih h hne.2
    · split
      · next hupdate => exact ih ((keeps_sameAt key).update_other h hne.1 hupdate) hne.2
      · exact ih h hne.2

section Own

variable (hperm : (outcomesOf p.key rs).Perm (outcomesOf p.key rs'))
  (hproper : ∀ o ∈ outcomesOf p.key rs, o.range.Proper)

include hperm hproper

theorem updateStates_one (now now' : UInt64) (h : SameAt p.positionsKey u u') :
    SameAt p.positionsKey (updateStates now Product.positionsKey rs [p] u).1
      (updateStates now' Product.positionsKey rs' [p] u').1 := by
  have hupdate := (keeps_sameAt p.positionsKey).update h fun s s' hagree =>
    hagree.applyResults hproper hperm now now'
  simp only [updateStates]
  cases hos : outcomesOf p.key rs with
  | nil =>
    rw [hos] at hperm
    rw [hperm.symm.eq_nil]
    exact h
  | cons o os =>
    cases hos' : outcomesOf p.key rs' with
    | nil => exact absurd (hos' ▸ hperm).eq_nil (by simp [hos])
    | cons o' os' =>
      rw [hos, hos'] at hupdate
      dsimp only
      cases hout : ImportStateStore.update u p.positionsKey
        (ImportState.applyResults now · (o :: os)) <;>
        cases hout' : ImportStateStore.update u' p.positionsKey
          (ImportState.applyResults now' · (o' :: os')) <;>
        rw [hout, hout'] at hupdate
      · exact h
      · exact hupdate.elim
      · exact hupdate.elim
      · exact hupdate

/-- Folding the same outcomes into states that are the same keeps them so. -/
theorem updateStates_alike (now now' : UInt64) (h : SameAt p.positionsKey u u') (hp : p.Amid ps)
    (hp' : p.Amid qs) :
    SameAt p.positionsKey (updateStates now Product.positionsKey rs ps u).1
      (updateStates now' Product.positionsKey rs' qs u').1 := by
  obtain ⟨before, after, rfl, hbefore, hafter⟩ := hp
  obtain ⟨before', after', rfl, hbefore', hafter'⟩ := hp'
  have hkeeps := keeps_sameAt (σ := σ) p.positionsKey
  have hfirst := sameAt_updateStates now rs h fun q hq => (hbefore q hq).2
  have hfirst' := hkeeps.symm (sameAt_updateStates now' rs' (hkeeps.symm hfirst)
    fun q hq => (hbefore' q hq).2)
  have hone := updateStates_one hperm hproper now now' hfirst'
  have hrest := sameAt_updateStates now rs hone fun q hq => (hafter q hq).2
  rw [List.append_cons, List.append_cons before', updateStates_append, updateStates_append,
    updateStates_append, updateStates_append]
  exact hkeeps.symm (sameAt_updateStates now' rs' (hkeeps.symm hrest) fun q hq => (hafter' q hq).2)

end Own

end Cycle

end Backfill
