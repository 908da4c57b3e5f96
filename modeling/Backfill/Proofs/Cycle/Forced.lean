import Backfill.Proofs.Cycle.Recent
import Backfill.Proofs.Cycle.CycleRuns
import Backfill.Proofs.Plan.Bounds

/-!
# Forced bounds

A runner can be told to import no block outside of some bounds. They cut down the range that a
product is given, and on a way of its own what waits for a retry; holes between ranges are filled
and cut open again before a query is made of them. What a query is over is the smallest range that
has everything it is to bring, so it cannot get out of the bounds either.

Covered blocks are another matter. A runner of the history leaves them out, forced bounds or not.
One of recent blocks does not look at import states, and asks again for what they cover.

Results:
* `Runner.exists_sends`: the ranges that a cycle sends queries for.
* `RangeContext.productRanges?_inside`: what a product wants of a cycle.
* `Runner.sends_inside`: what the queries of a cycle are over, and what they bring.
* `Runner.asked_run`: the ranges of a whole run.
* `RecentVaults.asks_for_covered`: recent blocks that are covered.
-/
namespace Backfill

open Axis Range

/-! ## The ranges asked for -/

namespace Trace

/-- The ranges that queries were sent for, in order. -/
def asked (t : Trace) : List (Range BlockNumber) := t.filterMap fun
  | .call (.transfers range _) => some range
  | _ => none

@[simp] theorem asked_append (t u : Trace) : (t ++ u).asked = t.asked ++ u.asked :=
  List.filterMap_append

@[simp] theorem asked_nil : asked [] = [] := rfl

theorem asked_cons (e : Event) (t : Trace) : asked (e :: t) = asked [e] ++ t.asked :=
  asked_append [e] t

theorem asked_flatMap {β : Type} {xs : List β} {f : β → Trace} :
    asked (xs.flatMap f) = xs.flatMap fun x => (f x).asked := by
  induction xs with
  | nil => rfl
  | cons x xs ih => rw [List.flatMap_cons, asked_append, ih, List.flatMap_cons]

end Trace

namespace RunnerState

variable {α σ ρ : Type}

@[simp] theorem asked_log (b : RunnerState α σ ρ) (t : Trace) :
    (b.log t).trace.asked = b.trace.asked ++ t.asked :=
  Trace.asked_append ..

theorem enter_keeps {P : RunnerState α σ ρ → Prop} {b : RunnerState α σ ρ}
    {cancelled : Cancellation} {stage : CycleStage}
    {go : RunnerState α σ ρ → Ending α × RunnerState α σ ρ} (hoff : P b)
    (hgo : P (go (b.reach stage)).2) : P (b.enter cancelled stage go).2 := by
  unfold enter
  split
  · exact hoff
  · exact hgo

end RunnerState

namespace FetchedRange

variable {l : Loader} {sources : Sources}

theorem asked_reports (fs : List FetchedRange) (fault : FetchError) :
    Trace.asked (fs.map fun f => .report (.query f.product.key f.range) (.fetch fault)) = [] := by
  simp [Trace.asked, List.filterMap_map]

/-- A query is sent once, for its range. -/
theorem asked_ofQueries (products : List Product) (qs : List (Plan.Query BlockNumber)) :
    (ofQueries l sources products qs).2.asked = qs.map (·.range) := by
  have hone : ∀ q, (ofQuery l sources products q).2.asked = [q.range] := by
    intro q
    unfold ofQuery
    dsimp only
    split
    · rfl
    · rw [Trace.asked_append, Trace.asked_cons (.count .queriesFailed 1), asked_reports]
      rfl
  simp only [ofQueries, Trace.asked_flatMap, List.flatMap_map, hone]
  exact List.flatMap_pure_eq_map ..

theorem asked_loadAll {ρ : Type} [RecordSink ρ] (js : List (Product × Transfer)) (records : ρ) :
    (loadAll l sources js records).2.2.asked = [] := by
  induction js generalizing records with
  | nil => rfl
  | cons job js ih =>
    obtain ⟨p, t⟩ := job
    have hone : ∀ result, (Loader.trace p t result).asked = [] := by
      intro result
      cases result <;> rfl
    simp only [loadAll, Trace.asked_append, hone, ih, List.append_nil]

theorem asked_failures (failures : List Failure) :
    Trace.asked (failures.flatMap Failure.trace) = [] := by
  rw [Trace.asked_flatMap]
  exact List.flatMap_eq_nil_iff.mpr fun _ _ => rfl

end FetchedRange

namespace Cycle

variable {α σ ρ : Type} [Axis α] [ImportStateStore σ α]

theorem asked_updateStates (now : UInt64) (stateKey : Product → String)
    (results : List (ImportRangeResult α)) (ps : List Product) (states : σ) :
    (updateStates now stateKey results ps states).2.asked = [] := by
  induction ps generalizing states with
  | nil => rfl
  | cons p ps ih =>
    unfold updateStates
    split
    · exact ih states
    · dsimp only
      split
      · rw [Trace.asked_cons, ih]
        rfl
      · rw [Trace.asked_cons, Trace.asked_cons (.report ..), ih]
        rfl

theorem asked_reconcile (mode : ImportMode) (now : UInt64) (stateKey : Product → String)
    (products : List Product) (results : List (ImportRangeResult α)) (b : RunnerState α σ ρ) :
    (reconcile mode now stateKey products results b).trace.asked = b.trace.asked := by
  have hcounts : Trace.asked [.count .rangesCovered (results.countP (·.success)),
      .count .rangesRequeued (results.countP (!·.success))] = [] := rfl
  unfold reconcile
  dsimp only
  split
  · rw [RunnerState.asked_log, hcounts, List.append_nil]
  · rw [RunnerState.asked_log, asked_updateStates, List.append_nil]
    rw [RunnerState.asked_log, hcounts, List.append_nil]

end Cycle

namespace Runner

variable {σ ρ : Type} [ImportStateStore σ BlockNumber] {i : Runner} {c : Conditions}
  {products : List Product} {b b' : RunnerState BlockNumber σ ρ} {g : Agenda}

theorem asked_productRanges? (sources : Sources) (w : RangeContext) (p : Product) (states : σ) :
    (i.productRanges? sources w p states).2.2.asked = [] := by
  have hcreate : (createImportState sources p states).2.2.asked = [] := by
    unfold createImportState
    dsimp only
    split
    · rfl
    · rfl
    · split <;> rfl
  unfold productRanges?
  dsimp only
  split
  · rfl
  · rfl
  · split
    · rfl
    · dsimp only
      rw [Trace.asked_append, hcreate]
      rfl

theorem asked_buildRanges (sources : Sources) (w : RangeContext) (ps : List Product) (states : σ) :
    (i.buildRanges sources w ps states).2.2.asked = [] := by
  induction ps generalizing states with
  | nil => rfl
  | cons p ps ih =>
    simp only [buildRanges, Trace.asked_append, asked_productRanges?, ih, List.append_nil]

variable [RecordSink ρ]

/-- To execute a plan is to send its queries, and no others after them. -/
theorem asked_execute (i : Runner) (c : Conditions) (products : List Product)
    (latest : BlockNumber) (plan : Plan BlockNumber) (b : RunnerState BlockNumber σ ρ) :
    (i.execute c products latest plan b).2.trace.asked =
      b.trace.asked ++ (c.queryOrder.order plan.queries).map (·.range) := by
  let sent :=
    (FetchedRange.ofQueries i.loader c.sources products (c.queryOrder.order plan.queries)).2
  have hsent : (b.log sent).trace.asked =
      b.trace.asked ++ (c.queryOrder.order plan.queries).map (·.range) := by
    rw [RunnerState.asked_log, FetchedRange.asked_ofQueries]
  unfold execute executeUnder
  rw [← hsent]
  refine RunnerState.enter_keeps (P := (·.trace.asked = _)) rfl ?_
  dsimp only
  have hloaded : ∀ (records : ρ) js (failures : List FetchedRange.Failure),
      (((b.log sent).reach .load).log ((FetchedRange.loadAll i.loader c.sources js records).2.2 ++
        failures.flatMap FetchedRange.Failure.trace)).trace.asked = (b.log sent).trace.asked := by
    intro records js failures
    rw [RunnerState.asked_log, Trace.asked_append, FetchedRange.asked_loadAll,
      FetchedRange.asked_failures]
    exact List.append_nil _
  refine RunnerState.enter_keeps (P := (·.trace.asked = _)) (hloaded ..) ?_
  rw [RunnerState.asked_log]
  exact (List.append_nil _).trans ((Cycle.asked_reconcile ..).trans (hloaded ..))

/-- The cycle has sent these queries: none, or those of its plan in some order. -/
structure Sends (i : Runner) (c : Conditions) (products : List Product)
    (b b' : RunnerState BlockNumber σ ρ) (qs : List (Plan.Query BlockNumber)) : Prop where
  asked : b'.trace.asked = b.trace.asked ++ qs.map (·.range)
  planned : qs = [] ∨ ∃ g, i.agenda? c products b = some g ∧ qs.Perm g.plan.queries

/-- **Queries.** A cycle sends no query, or those of its plan. -/
theorem exists_sends (i : Runner) (c : Conditions) (products : List Product)
    (b : RunnerState BlockNumber σ ρ) :
    ∃ qs, Sends i c products b (i.runCycle c products b).2 qs := by
  have hnone : ∀ b' : RunnerState BlockNumber σ ρ, b'.trace.asked = b.trace.asked →
      ∃ qs, Sends i c products b b' qs :=
    fun b' h => ⟨[], by rw [h, List.map_nil, List.append_nil], .inl rfl⟩
  unfold runCycle runCycleUnder
  dsimp only
  split
  · exact hnone _ rfl
  next collected hcollect =>
  split
  · exact hnone _ rfl
  refine RunnerState.enter_keeps (P := fun b' => ∃ qs, Sends i c products b b' qs) (hnone _ rfl) ?_
  have hfrontier : ∀ b' : RunnerState BlockNumber σ ρ, b'.trace.asked = b.trace.asked →
      (b'.log [.call .latest]).trace.asked = b.trace.asked := fun b' h => by
    rw [RunnerState.asked_log, h]
    exact List.append_nil _
  split
  · exact hnone _ (hfrontier _ rfl)
  next latest hlatest =>
  refine RunnerState.enter_keeps (P := fun b' => ∃ qs, Sends i c products b b' qs)
    (hnone _ (hfrontier _ rfl)) ?_
  have hranges : ∀ b' : RunnerState BlockNumber σ ρ, b'.trace.asked = b.trace.asked →
      (b'.log (i.buildRanges c.sources (i.window latest b.progress.lastImported) collected
        b.states).2.2).trace.asked = b.trace.asked := fun b' h => by
    rw [RunnerState.asked_log, asked_buildRanges, h, List.append_nil]
  refine RunnerState.enter_keeps (P := fun b' => ∃ qs, Sends i c products b b' qs)
    (hnone _ (hranges _ (hfrontier _ rfl))) ?_
  split
  · exact hnone _ (hranges _ (hfrontier _ rfl))
  next plan hplan =>
  refine RunnerState.enter_keeps (P := fun b' => ∃ qs, Sends i c products b b' qs)
    (hnone _ (hranges _ (hfrontier _ rfl))) ?_
  refine ⟨c.queryOrder.order plan.queries, ?_, .inr ⟨⟨collected, latest, plan⟩, ?_,
    c.queryOrder.perm _⟩⟩
  · exact (asked_execute ..).trans (congrArg (· ++ _) (hranges _ (hfrontier _ rfl)))
  · have hplan' : Plan.choose i.optimizerOptions c.draws (i.buildRanges c.sources
        (i.window latest b.progress.lastImported) collected b.states).1 = .ok plan := hplan
    simp only [agenda?, hcollect, hlatest, Except.toOption, Option.bind_eq_bind, Option.bind_some,
      hplan']
    rfl

end Runner

/-! ## Inside the bounds -/

namespace RangeContext

variable {w : RangeContext} {p : Product} {state : Option (ImportState BlockNumber)}
  {d : ProductRanges BlockNumber} {bounds : Range BlockNumber}

/-- Both what a product may ask for and what it retries are cut down to the bounds. -/
theorem productRanges?_inside (forced : w.behaviour.forced = some bounds)
    (h : w.productRanges? p state = some d) :
    (∀ x ∈ d.full, x ∈ bounds) ∧ ∀ x, Holds d.toRetry x → x ∈ bounds := by
  simp only [productRanges?, forced, Option.bind_eq_bind] at h
  obtain ⟨full, -, h⟩ := Option.bind_eq_some_iff.mp h
  obtain ⟨part, hpart, h⟩ := Option.bind_eq_some_iff.mp h
  cases h
  refine ⟨fun x hx => ((mem_clamp hpart x).mp hx).2, fun x hx => ?_⟩
  rw [holds_merge clamped_proper (whole_block x)] at hx
  obtain ⟨r, hr, hx⟩ := hx
  obtain ⟨r', -, hclamp⟩ := List.mem_filterMap.mp hr
  exact ((mem_clamp hclamp x).mp hx).2

theorem need_inside (forced : w.behaviour.forced = some bounds)
    (h : w.productRanges? p state = some d) (hd : Plan.ProperRanges d) {ignoreState : Bool}
    {x : BlockNumber} (hx : Holds (Plan.need ignoreState d).ranges x) : x ∈ bounds := by
  obtain ⟨hfull, htoRetry⟩ := productRanges?_inside forced h
  rcases (Plan.holds_need hd (whole_block x)).mp hx with hx | ⟨-, hx⟩
  · cases ignoreState with
    | true => exact hfull x (by simpa [ProductRanges.computeNeeded] using hx)
    | false => exact hfull x ((Plan.holds_fresh hd (whole_block x) rfl).mp hx).1
  · exact htoRetry x hx

end RangeContext

namespace Runner

variable {σ ρ : Type} [ImportStateStore σ BlockNumber] [LawfulImportStateStore σ BlockNumber]
  {i : Runner} {c : Conditions} {products : List Product} {b b' : RunnerState BlockNumber σ ρ}
  {g : Agenda} {bounds : Range BlockNumber} {qs : List (Plan.Query BlockNumber)}

/-- Import states count in the history only, and there their ranges are in order. -/
def Orderly (i : Runner) (products : List Product) (states : σ) : Prop :=
  i.behaviour.mode = .historical →
    ∀ p ∈ products, (coverageOf (ImportStateStore.load states p.positionsKey)).Proper

/-- What products want of a cycle lies inside the bounds. -/
theorem wanted_inside (forced : i.behaviour.forced = some bounds)
    (orderly : i.Orderly g.products b.states) :
    ∀ d ∈ i.wanted c g b, Plan.ProperRanges d ∧
      ∀ x, Holds (Plan.need i.behaviour.ignoreState d).ranges x → x ∈ bounds := by
  intro d hd
  cases hmode : i.behaviour.mode with
  | recent =>
    obtain ⟨p, -, -, hdemand⟩ := (wanted_recent hmode).mp hd
    have hproper := RangeContext.proper_productRanges?_none hdemand
    exact ⟨hproper, fun x => RangeContext.need_inside forced hdemand hproper⟩
  | historical =>
    obtain ⟨p, hp, s, -, hcoverage, hdemand⟩ := wanted_spec hmode d hd
    have hproper := RangeContext.proper_of_known hmode hdemand
      (RangeContext.known_proper (hcoverage ▸ orderly hmode p hp))
    exact ⟨hproper, fun x => RangeContext.need_inside forced hdemand hproper⟩

/-- A query of an agenda is over blocks inside the bounds, and brings nothing else. -/
theorem query_inside (forced : i.behaviour.forced = some bounds)
    (orderly : i.Orderly g.products b.states) (h : i.agenda? c products b = some g)
    {q : Plan.Query BlockNumber} (hq : q ∈ g.plan.queries) :
    (∀ x ∈ q.range, x ∈ bounds) ∧ ∀ key r, q.Brings key r → ∀ x ∈ r, x ∈ bounds := by
  have hwanted := wanted_inside (c := c) forced orderly
  have hproper : ∀ d ∈ i.wanted c g b, Plan.ProperRanges d := fun d hd => (hwanted d hd).1
  obtain ⟨-, -, hchosen⟩ := agenda?_eq_some h
  have hbrings : ∀ key r, q.Brings key r → ∀ x ∈ r, x ∈ bounds := by
    intro key r hb x hx
    obtain ⟨-, d, hd, -, hneed⟩ :=
      (Plan.choose_allotted hchosen fun _ => hproper).needed q hq key r hb
    exact (hwanted d hd).2 x (hneed x (whole_block x) hx)
  -- a query is over the smallest range with all of that
  have haccept := Plan.check_eq_ok_iff.mp (Plan.choose_eq_ok hchosen).1
  obtain ⟨plan, hplan, hwithin, -⟩ := Plan.within_choose c.draws haccept hproper
  obtain rfl := Except.ok.inj (hplan.symm.trans hchosen)
  exact ⟨(hwithin q hq).smallest bounds hbrings, hbrings⟩

/-- A query of an agenda over the history brings no product a covered block, unless states are
ignored. -/
theorem query_uncovered (historical : i.behaviour.mode = .historical)
    (counts : i.behaviour.ignoreState = false)
    (sound : ∀ p ∈ g.products, (coverageOf (ImportStateStore.load b.states p.positionsKey)).Sound)
    (h : i.agenda? c products b = some g) {q : Plan.Query BlockNumber}
    (hq : q ∈ g.plan.queries) {p : Product} (hp : p ∈ g.products) {r : Range BlockNumber}
    (hb : q.Brings p.key r) :
    ∀ x ∈ r, ¬ Holds (coverageOf (ImportStateStore.load b.states p.positionsKey)).covered x := by
  intro x hx
  obtain ⟨-, d, hd, hkey, hneed⟩ := (agenda_allotted historical h sound).2.needed q hq _ _ hb
  obtain ⟨p', hp', s, -, hcoverage, hdemand⟩ := wanted_spec historical d hd
  have hkeys := (Product.collect_eq_ok (agenda?_eq_some h).1).1
  have hkey' := (RangeContext.productRanges?_key historical hdemand).symm.trans hkey
  obtain rfl : p' = p := List.inj_on_of_nodup_map hkeys hp' hp hkey'
  have hstate := RangeContext.holds_need historical hdemand (hcoverage ▸ sound p' hp')
    (hneed x (whole_block x) hx)
  exact hcoverage ▸ hstate.2 counts

variable [RecordSink ρ]

/-- **Forced bounds.** Whatever there is to import, whatever the head is and the limits are, a cycle
sends no query over a block outside the bounds, and brings no product one. Over the history it
brings no product a block that its import state covers either, unless states are ignored. -/
theorem sends_inside (forced : i.behaviour.forced = some bounds)
    (orderly : i.Orderly products b.states) :
    ∃ qs, Sends i c products b (i.runCycle c products b).2 qs ∧
      (∀ q ∈ qs, (∀ x ∈ q.range, x ∈ bounds) ∧
        ∀ key r, q.Brings key r → ∀ x ∈ r, x ∈ bounds) ∧
      (i.behaviour.mode = .historical → i.behaviour.ignoreState = false →
        (∀ p ∈ products, (coverageOf (ImportStateStore.load b.states p.positionsKey)).Reached) →
        ∀ p ∈ products, p.chain = i.chain → ∀ r ∈ Plan.brought p.key qs, ∀ x ∈ r,
          x ∈ bounds ∧
            ¬ Holds (coverageOf (ImportStateStore.load b.states p.positionsKey)).covered x) := by
  obtain ⟨qs, hsends⟩ := exists_sends i c products b
  rcases hsends.planned with rfl | ⟨g, hg, hperm⟩
  · refine ⟨[], hsends, by simp, fun _ _ _ p _ _ r hr => ?_⟩
    exact absurd hr List.not_mem_nil
  have hmem : ∀ p, p ∈ g.products ↔ p ∈ products ∧ p.chain = i.chain := fun p => by
    rw [(Product.collect_eq_ok (agenda?_eq_some hg).1).2.mem_iff, List.mem_filter,
      decide_eq_true_eq]
  have horderly : i.Orderly g.products b.states := fun hmode p hp =>
    orderly hmode p ((hmem p).mp hp).1
  have hinside : ∀ q ∈ qs, (∀ x ∈ q.range, x ∈ bounds) ∧
      ∀ key r, q.Brings key r → ∀ x ∈ r, x ∈ bounds := fun q hq =>
    query_inside forced horderly hg (hperm.mem_iff.mp hq)
  refine ⟨qs, hsends, hinside, fun historical counts reached p hp hchain r hr x hx => ?_⟩
  obtain ⟨q, hq, hb⟩ := Plan.mem_brought.mp hr
  refine ⟨(hinside q hq).2 _ _ hb x hx, ?_⟩
  exact query_uncovered historical counts (fun p hp => (reached p ((hmem p).mp hp).1).sound) hg
    (hperm.mem_iff.mp hq) ((hmem p).mpr ⟨hp, hchain⟩) hb x hx

end Runner

/-! ## Runs -/

namespace Rounds

variable {α σ ρ β : Type} {P : RunnerState α σ ρ → Prop} (cancelled : Cancellation)
  (stop : StopTime)

/-- What each cycle keeps, batches keep. -/
theorem overBatches_keeps {step : Step α σ ρ β} (hstep : ∀ items b, P b → P (step items b))
    (finish : Nat) (batches : List (Batch β)) {b : RunnerState α σ ρ} (h : P b) :
    P (overBatches step cancelled stop finish batches b).2 := by
  induction batches generalizing b with
  | nil => exact h
  | cons batch batches ih =>
    have hnext := hstep batch.items b h
    unfold overBatches
    dsimp only
    split
    · exact h
    split
    · exact hnext
    · exact ih hnext

/-- What each round keeps, a run keeps. -/
theorem repeated_keeps {step : RunnerState α σ ρ → RunnerState α σ ρ}
    (hstep : ∀ b, P b → P (step b)) (interval : Option Nat) (rounds now : Nat)
    {b : RunnerState α σ ρ} (h : P b) :
    P (repeated step cancelled stop interval rounds now b).2 := by
  induction rounds generalizing now b with
  | zero => exact h
  | succ rounds ih =>
    have hnext := hstep b h
    unfold repeated
    dsimp only
    split
    · exact hnext
    split
    · exact hnext
    split
    · exact hnext
    · exact ih _ hnext

end Rounds

/-- Since some ranges were asked for it was only for blocks inside the bounds, and states are
sound. -/
structure Confined {σ ρ : Type} [ImportStateStore σ BlockNumber] (bounds : Range BlockNumber)
    (before : List (Range BlockNumber)) (b : RunnerState BlockNumber σ ρ) : Prop where
  sound : ∀ key, (coverageOf (ImportStateStore.load b.states key)).Sound
  asked : ∃ since, b.trace.asked = before ++ since ∧ ∀ r ∈ since, ∀ x ∈ r, x ∈ bounds

namespace Runner

variable {σ ρ : Type} [ImportStateStore σ BlockNumber] [LawfulImportStateStore σ BlockNumber]
  [RecordSink ρ] {i : Runner} {b : RunnerState BlockNumber σ ρ} {bounds : Range BlockNumber}
  {before : List (Range BlockNumber)} (forced : i.behaviour.forced = some bounds)

include forced

theorem confined_cycle (c : Conditions) (products : List Product) (h : Confined bounds before b) :
    Confined bounds before (i.runCycle c products b).2 := by
  let cycleAt : CycleRun ρ := ⟨i, c, products, b.progress, b.records, b.trace⟩
  have hsound := CycleRun.sound_after (t := cycleAt) h.sound
  have horderly : i.Orderly products b.states := fun _ p _ => (h.sound p.positionsKey).toProper
  obtain ⟨qs, hsends, hinside, -⟩ := sends_inside (c := c) forced horderly
  obtain ⟨since, hsince, hbounds⟩ := h.asked
  refine ⟨hsound, since ++ qs.map (·.range), ?_, fun r hr => ?_⟩
  · rw [hsends.asked, hsince, List.append_assoc]
  · rcases List.mem_append.mp hr with hr | hr
    · exact hbounds r hr
    · obtain ⟨q, hq, rfl⟩ := List.mem_map.mp hr
      exact (hinside q hq).1

/-- **Runs.** However often a runner goes through its products, it asks for no block outside the
bounds. -/
theorem asked_run (c : Conditions) (stop : StopTime) (rounds : Nat) (products : List Product)
    (sound : ∀ key, (coverageOf (ImportStateStore.load b.states key)).Sound) :
    ∃ since, (i.run c stop rounds products b).2.trace.asked = b.trace.asked ++ since ∧
      ∀ r ∈ since, ∀ x ∈ r, x ∈ bounds := by
  have hstart : Confined bounds b.trace.asked b := ⟨sound, [], (List.append_nil _).symm, by simp⟩
  have hstream : ∀ b' : RunnerState BlockNumber σ ρ, Confined bounds b.trace.asked b' →
      Confined bounds b.trace.asked
        (i.processStream c none (products.map fun _ => 0) products b').2 := by
    intro b' h
    have hcollect : Confined bounds b.trace.asked (b'.reach .collect) := ⟨h.sound, h.asked⟩
    exact Rounds.overBatches_keeps (P := Confined bounds b.trace.asked) c.cancelled none
      (fun ps b h => confined_cycle forced c ps h) _ _ hcollect
  exact (Rounds.repeated_keeps (P := Confined bounds b.trace.asked) c.cancelled stop hstream
    i.behaviour.repeatEvery rounds 0 hstart).asked

end Runner

/-! ## A vault that is imported up to block 40 -/

namespace RecentVaults

open StrictCycle (product)
open FourCycles (healthy)

def upTo40 : ImportRanges BlockNumber :=
  ({} : ImportRanges BlockNumber).applyResult 5 ⟨⟨10, 40⟩, true⟩

def imported : MemoryImportStateStore BlockNumber :=
  ⟨.ofList [(product.positionsKey,
    { ImportState.fresh product.positionsKey 7 .fantom 10 none with coverage := upTo40 })]⟩

def bounded (mode : ImportMode) : Runner :=
  { StrictCycle.runner with behaviour := { Behaviour.ofMode mode with forced := some ⟨30, 45⟩ } }

theorem coverageOf_imported :
    coverageOf (ImportStateStore.load imported product.positionsKey) = upTo40 := by
  decide +kernel

theorem imported_reached : ∀ p ∈ [product],
    (coverageOf (ImportStateStore.load imported p.positionsKey)).Reached := by
  intro p hp
  obtain rfl := List.mem_singleton.mp hp
  rw [coverageOf_imported]
  exact .step .empty (.one 5 ⟨⟨10, 40⟩, true⟩ (by decide))

/-- A runner of the history asks for the rest of the bounds. -/
theorem sends_inside_vault :
    let before : RunnerState BlockNumber (MemoryImportStateStore BlockNumber) MemoryRecords :=
      initial imported
    let after := ((bounded .historical).runCycle (healthy 50) [product] before).2
    after.trace.asked = [⟨41, 45⟩] ∧
      ∃ qs, Runner.Sends (bounded .historical) (healthy 50) [product] before after qs ∧
        (∀ q ∈ qs, (∀ x ∈ q.range, x ∈ (⟨30, 45⟩ : Range BlockNumber)) ∧
          ∀ key r, q.Brings key r → ∀ x ∈ r, x ∈ (⟨30, 45⟩ : Range BlockNumber)) ∧
        ∀ r ∈ Plan.brought product.key qs, ∀ x ∈ r,
          x ∈ (⟨30, 45⟩ : Range BlockNumber) ∧ ¬ Holds upTo40.covered x := by
  intro before after
  have hcoverage : coverageOf (ImportStateStore.load before.states product.positionsKey) = upTo40 :=
    coverageOf_imported
  have hforced : (bounded .historical).behaviour.forced = some ⟨30, 45⟩ := rfl
  have horderly : (bounded .historical).Orderly [product] before.states := fun _ p hp =>
    (imported_reached p hp).sound.toProper
  obtain ⟨qs, hsends, hinside, huncovered⟩ :=
    Runner.sends_inside (c := healthy 50) (b := before) hforced horderly
  have hproduct := huncovered rfl rfl imported_reached product (List.mem_singleton.mpr rfl) rfl
  rw [hcoverage] at hproduct
  exact ⟨by decide +kernel, qs, hsends, hinside, hproduct⟩

/-- A runner of recent blocks asks again for blocks that are covered: whatever queries it has
sent, they bring some. -/
theorem asks_for_covered :
    let before : RunnerState BlockNumber (MemoryImportStateStore BlockNumber) MemoryRecords :=
      initial imported
    let after := ((bounded .recent).runCycle (healthy 40) [product] before).2
    (bounded .recent).behaviour.forced = some ⟨30, 45⟩ ∧
      (bounded .recent).behaviour.ignoreState = false ∧
      (coverageOf (ImportStateStore.load before.states product.positionsKey)).Reached ∧
      ¬ ∃ qs, Runner.Sends (bounded .recent) (healthy 40) [product] before after qs ∧
        ∀ r ∈ Plan.brought product.key qs, ∀ x ∈ r,
          ¬ Holds
            (coverageOf (ImportStateStore.load before.states product.positionsKey)).covered x := by
  intro before after
  have hreached := imported_reached product (List.mem_singleton.mpr rfl)
  refine ⟨rfl, rfl, hreached, fun h => ?_⟩
  obtain ⟨qs, hsends, huncovered⟩ := h
  have hagenda : ((bounded .recent).agenda? (healthy 40) [product] before).map (·.plan.queries) =
      some [.single ⟨"vault", ⟨31, 40⟩⟩] := by
    decide +kernel
  have hqs : qs = [.single ⟨"vault", ⟨31, 40⟩⟩] := by
    rcases hsends.planned with hnone | ⟨g, hg, hperm⟩
    · have hranges : after.trace.asked.length = 1 := by decide +kernel
      rw [hsends.asked, hnone] at hranges
      cases hranges
    · rw [hg, Option.map_some, Option.some.injEq] at hagenda
      rw [hagenda] at hperm
      exact List.perm_singleton.mp hperm
  have hbrought : ⟨31, 40⟩ ∈ Plan.brought product.key qs := by
    rw [hqs]
    decide +kernel
  have hcovered : Holds upTo40.covered 35 := ⟨⟨10, 40⟩, by decide, contains_iff.mp (by decide)⟩
  refine huncovered ⟨31, 40⟩ hbrought 35 (contains_iff.mp (by decide)) ?_
  rwa [show coverageOf (ImportStateStore.load before.states product.positionsKey) = upTo40 from
    coverageOf_imported]

end RecentVaults

end Backfill
