import Backfill.Cycle.SnapshotRunner
import Backfill.Proofs.Cycle.Once
import Backfill.Mock.Stores

/-!
# Import states in recent mode

In recent mode import states are not for use. The snapshot runner leaves them alone. The runner
still loads them, makes nothing of what it finds, but leaves a product out whose state cannot be
loaded. So two runners with states of any kind do the same as long as the same states cannot be
loaded, and two snapshot runners do in any case.

Results:
* `RunnerState.Abreast`: two runner states that go on alike and write no import state.
* `Runner.cycle_together`, `SnapshotRunner.cycle_together`: one cycle.
* `recent_unread`: any number of cycles.
-/
namespace Backfill

/-! ## Events -/

/-- A call that writes an import state. -/
def Event.writes : Event → Bool
  | .call (.stateSave _) | .call (.stateUpdate _) => true
  | _ => false

namespace Trace

def deeds (t : Trace) : Trace := t.filter fun
  | .report .. => false
  | _ => true

def WritesNone (t : Trace) : Prop := ∀ e ∈ t, e.writes = false

theorem deeds_append (t u : Trace) : (t ++ u).deeds = t.deeds ++ u.deeds := List.filter_append ..

@[simp] theorem writesNone_nil : WritesNone [] := List.forall_mem_nil _

@[simp] theorem writesNone_cons {e : Event} {t : Trace} :
    WritesNone (e :: t) ↔ e.writes = false ∧ t.WritesNone := List.forall_mem_cons

theorem WritesNone.of_deeds {t : Trace} (h : t.deeds.WritesNone) : t.WritesNone := by
  intro e he
  cases e with
  | report => rfl
  | call c => exact h _ (List.mem_filter.mpr ⟨he, rfl⟩)
  | count => rfl

theorem WritesNone.append {t u : Trace} (ht : t.WritesNone) (hu : u.WritesNone) :
    (t ++ u).WritesNone :=
  fun e he => (List.mem_append.mp he).elim (ht e) (hu e)

theorem writesNone_flatMap {β : Type} {xs : List β} {f : β → Trace}
    (h : ∀ x ∈ xs, (f x).WritesNone) : Trace.WritesNone (xs.flatMap f) := by
  intro e he
  obtain ⟨x, hx, he⟩ := List.mem_flatMap.mp he
  exact h x hx e he

end Trace

/-- Whether a cycle is called off does not depend on what was reported. -/
def Cancellation.ByDeeds (cancelled : Cancellation) : Prop :=
  ∀ t t' : Trace, t.deeds = t'.deeds → cancelled t = cancelled t'

/-! ## Two runner states -/

namespace RunnerState

variable {α σ σ' ρ : Type}

/-- Runner states that differ in their import states and in what was reported at most. -/
structure Alike (b : RunnerState α σ ρ) (b' : RunnerState α σ' ρ) : Prop where
  progress : b.progress = b'.progress
  records : b.records = b'.records
  deeds : b.trace.deeds = b'.trace.deeds

/-- Two runner states that went on from others: they are alike, and no import state was written. -/
structure Abreast (b : RunnerState α σ ρ) (b' : RunnerState α σ' ρ) (now : RunnerState α σ ρ)
    (now' : RunnerState α σ' ρ) : Prop extends Alike now now' where
  states : now.states = b.states
  states' : now'.states = b'.states
  written : now.trace.filter Event.writes = b.trace.filter Event.writes

/-- Two cycles that end in one way. -/
def Together (b : RunnerState α σ ρ) (b' : RunnerState α σ' ρ) (x : Ending α × RunnerState α σ ρ)
    (x' : Ending α × RunnerState α σ' ρ) : Prop :=
  x.1 = x'.1 ∧ Abreast b b' x.2 x'.2

variable {b now : RunnerState α σ ρ} {b' now' : RunnerState α σ' ρ}

theorem Alike.abreast (h : Alike b b') : Abreast b b' b b' := ⟨h, rfl, rfl, rfl⟩

namespace Abreast

variable (h : Abreast b b' now now')

include h

theorem reach (stage : CycleStage) : Abreast b b' (now.reach stage) (now'.reach stage) :=
  { h with progress := by simp only [RunnerState.reach, h.progress] }

theorem about (products : Nat) : Abreast b b' (now.about products) (now'.about products) :=
  { h with progress := by simp only [RunnerState.about, h.progress] }

theorem withRecords (records : ρ) :
    Abreast b b' { now with records } { now' with records } :=
  { h with records := rfl }

theorem log {events events' : Trace} (hdeeds : events.deeds = events'.deeds)
    (hnone : events.WritesNone) : Abreast b b' (now.log events) (now'.log events') := by
  have hempty : events.filter Event.writes = [] :=
    List.filter_eq_nil_iff.mpr fun e he => by simp [hnone e he]
  refine { h with deeds := ?_, written := ?_ }
  · simp only [RunnerState.log, Trace.deeds_append, h.deeds, hdeeds]
  · rw [RunnerState.log, List.filter_append, hempty, List.append_nil, h.written]

theorem enter {cancelled : Cancellation} (hdeeds : cancelled.ByDeeds) (stage : CycleStage)
    {go : RunnerState α σ ρ → Ending α × RunnerState α σ ρ}
    {go' : RunnerState α σ' ρ → Ending α × RunnerState α σ' ρ}
    (hgo : ∀ next next', Abreast b b' next next' → Together b b' (go next) (go' next')) :
    Together b b' (now.enter cancelled stage go) (now'.enter cancelled stage go') := by
  simp only [RunnerState.enter, hdeeds _ _ h.deeds]
  split
  · exact ⟨rfl, h⟩
  · exact hgo _ _ (h.reach stage)

variable [Axis α] [ImportStateStore σ α] [ImportStateStore σ' α]

theorem reconcile {mode : ImportMode} (recent : mode = .recent) (time : UInt64)
    (stateKey : Product → String) (products : List Product) (results : List (ImportRangeResult α)) :
    Abreast b b' (Cycle.reconcile mode time stateKey products results now)
      (Cycle.reconcile mode time stateKey products results now') := by
  subst recent
  let counts : Trace := [.count .rangesCovered (results.countP (·.success)),
    .count .rangesRequeued (results.countP (!·.success))]
  have hlog : Abreast b b' (now.log counts) (now'.log counts) :=
    h.log rfl (by simp [counts, Event.writes])
  exact { hlog with progress := by simp only [Cycle.reconcile, RunnerState.log, h.progress] }

end Abreast
end RunnerState

open RunnerState

/-! ## Cycles one after the other -/

namespace Cycle

variable {α σ σ' ρ : Type}

/-- Cycles one after the other, each on the states that it finds: how they end and which states they
leave, and the runner state in the end. -/
def sequence : List (σ × (RunnerState α σ ρ → Ending α × RunnerState α σ ρ)) → RunnerState α σ ρ →
    List (Ending α × σ) × RunnerState α σ ρ
  | [], b => ([], b)
  | (states, runCycle) :: cycles, b =>
    let (ending, after) := runCycle { b with states }
    let (rest, last) := sequence cycles after
    ((ending, after.states) :: rest, last)

/-- Two sequences of cycles that come to the same, and leave the states that they find. -/
structure Unread (found : List σ) (found' : List σ') (b : RunnerState α σ ρ)
    (run : List (Ending α × σ) × RunnerState α σ ρ)
    (run' : List (Ending α × σ') × RunnerState α σ' ρ) :
    Prop where
  endings : run.1.map (·.1) = run'.1.map (·.1)
  left : run.1.map (·.2) = found
  left' : run'.1.map (·.2) = found'
  alike : run.2.Alike run'.2
  written : run.2.trace.filter Event.writes = b.trace.filter Event.writes

/-- Cycles that come to the same one by one do so one after the other. -/
theorem sequence_unread {ι : Type} {xs : List ι} (found : ι → σ) (found' : ι → σ')
    (runCycle : ι → RunnerState α σ ρ → Ending α × RunnerState α σ ρ)
    (cycle' : ι → RunnerState α σ' ρ → Ending α × RunnerState α σ' ρ)
    (hstep : ∀ x ∈ xs, ∀ (b : RunnerState α σ ρ) (b' : RunnerState α σ' ρ), b.Alike b' →
      b.states = found x → b'.states = found' x → Together b b' (runCycle x b) (cycle' x b'))
    {b : RunnerState α σ ρ} {b' : RunnerState α σ' ρ} (h : b.Alike b') :
    Unread (xs.map found) (xs.map found') b (sequence (xs.map fun x => (found x, runCycle x)) b)
      (sequence (xs.map fun x => (found' x, cycle' x)) b') := by
  induction xs generalizing b b' with
  | nil => exact ⟨rfl, rfl, rfl, h, rfl⟩
  | cons x xs ih =>
    rw [List.forall_mem_cons] at hstep
    let start : RunnerState α σ ρ := { b with states := found x }
    let start' : RunnerState α σ' ρ := { b' with states := found' x }
    have hstart : start.Alike start' := ⟨h.progress, h.records, h.deeds⟩
    obtain ⟨hending, hnext⟩ := hstep.1 start start' hstart rfl rfl
    have hrest := ih hstep.2 hnext.toAlike
    exact {
      endings := congrArg₂ List.cons hending hrest.endings
      left := congrArg₂ List.cons hnext.states hrest.left
      left' := congrArg₂ List.cons hnext.states' hrest.left'
      alike := hrest.alike
      written := hrest.written.trans hnext.written }

end Cycle

/-! ## The runner -/

namespace FetchedRange

variable {l : Loader} {sources : Sources}

theorem writesNone_ofQueries (products : List Product) (qs : List (Plan.Query BlockNumber)) :
    (ofQueries l sources products qs).2.WritesNone := by
  refine Trace.writesNone_flatMap fun part hpart => ?_
  obtain ⟨q, -, rfl⟩ := List.mem_map.mp hpart
  unfold ofQuery
  dsimp only
  split
  · simp [Event.writes]
  · refine .append (by simp [Event.writes]) (Trace.writesNone_cons.mpr ⟨rfl, fun e he => ?_⟩)
    obtain ⟨f, -, rfl⟩ := List.mem_map.mp he
    rfl

theorem writesNone_loadAll {ρ : Type} [RecordSink ρ] (js : List (Product × Transfer))
    (records : ρ) : (loadAll l sources js records).2.2.WritesNone := by
  induction js generalizing records with
  | nil => exact Trace.writesNone_nil
  | cons job js ih =>
    refine Trace.WritesNone.append ?_ (ih _)
    unfold Loader.trace
    split <;> simp [Event.writes]

theorem writesNone_failures (failures : List Failure) :
    Trace.WritesNone (failures.flatMap Failure.trace) :=
  Trace.writesNone_flatMap fun _ _ => by simp [Failure.trace, Event.writes]

end FetchedRange

theorem RangeContext.productRanges?_recent {w : RangeContext} (recent : w.behaviour.mode = .recent)
    (p : Product) (state : Option (ImportState BlockNumber)) :
    w.productRanges? p state = w.productRanges? p none := by
  simp only [productRanges?, recent]

namespace Runner

variable {σ σ' ρ : Type} [ImportStateStore σ BlockNumber] [ImportStateStore σ' BlockNumber]
  {i : Runner} (recent : i.behaviour.mode = .recent)

include recent

/-- In recent mode the products take part whose states can be loaded, whatever these are, and the
loads are all that is called. -/
theorem buildRanges_recent_eq (sources : Sources) {w : RangeContext}
    (hw : w.behaviour = i.behaviour) (ps : List Product) (states : σ) :
    (i.buildRanges sources w ps states).1 =
        (ps.filter fun p => (ImportStateStore.load states p.positionsKey).isOk).filterMap
          (w.productRanges? · none) ∧
      (i.buildRanges sources w ps states).2.2.deeds =
        ps.map fun p => .call (.stateLoad p.positionsKey) := by
  have hrecent : w.behaviour.mode = .recent := hw ▸ recent
  induction ps with
  | nil => exact ⟨rfl, rfl⟩
  | cons p ps ih =>
    have hone : (i.productRanges? sources w p states).1 =
          (if (ImportStateStore.load states p.positionsKey).isOk then w.productRanges? p none
            else none) ∧
        (i.productRanges? sources w p states).2.1 = states ∧
        (i.productRanges? sources w p states).2.2.deeds = [.call (.stateLoad p.positionsKey)] := by
      simp only [productRanges?, recent]
      rcases ImportStateStore.load states p.positionsKey with fault | none | s
      · exact ⟨rfl, rfl, rfl⟩
      · exact ⟨rfl, rfl, rfl⟩
      · exact ⟨RangeContext.productRanges?_recent hrecent p (some s), rfl, rfl⟩
    obtain ⟨hdemand, hstates, hdeeds⟩ := hone
    simp only [buildRanges, hdemand, hstates, Trace.deeds_append, hdeeds, ih]
    refine ⟨?_, rfl⟩
    cases hok : (ImportStateStore.load states p.positionsKey).isOk <;>
      cases hd : w.productRanges? p none <;> simp [hok, hd]

theorem buildRanges_together (sources : Sources) {w : RangeContext} (hw : w.behaviour = i.behaviour)
    {ps : List Product} {states : σ} {states' : σ'}
    (alike : ∀ p ∈ ps, (ImportStateStore.load states p.positionsKey).isOk =
      (ImportStateStore.load states' p.positionsKey).isOk) :
    (i.buildRanges sources w ps states).1 = (i.buildRanges sources w ps states').1 ∧
      (i.buildRanges sources w ps states).2.2.deeds =
        (i.buildRanges sources w ps states').2.2.deeds ∧
      (i.buildRanges sources w ps states).2.2.WritesNone := by
  obtain ⟨hds, hdeeds⟩ := buildRanges_recent_eq recent sources hw ps states
  obtain ⟨hds', hdeeds'⟩ := buildRanges_recent_eq recent sources hw ps states'
  refine ⟨?_, hdeeds.trans hdeeds'.symm, .of_deeds fun e he => ?_⟩
  · rw [hds, hds', List.filter_congr alike]
  · rw [hdeeds] at he
    obtain ⟨p, -, rfl⟩ := List.mem_map.mp he
    rfl

variable [RecordSink ρ] {c : Conditions} (hdeeds : c.cancelled.ByDeeds)
  {b now : RunnerState BlockNumber σ ρ} {b' now' : RunnerState BlockNumber σ' ρ}
  (h : Abreast b b' now now')

include hdeeds h

theorem execute_together (products : List Product) (latest : BlockNumber)
    (plan : Plan BlockNumber) :
    Together b b' (i.execute c products latest plan now)
      (i.execute c products latest plan now') := by
  refine (h.log rfl (FetchedRange.writesNone_ofQueries _ _)).enter hdeeds .load fun next next' h =>
    ?_
  dsimp only
  rw [h.records]
  refine ((h.withRecords _).log rfl ((FetchedRange.writesNone_loadAll _ _).append
    (FetchedRange.writesNone_failures _))).enter hdeeds .reconcile fun next next' h => ?_
  exact ⟨rfl, ((h.reconcile recent ..).reach .done).log rfl (by simp [Event.writes])⟩

/-- Cycles with states of which the same cannot be loaded end in one way. -/
theorem cycle_together {products : List Product}
    (alike : ∀ p ∈ products, p.chain = i.chain →
      (ImportStateStore.load b.states p.positionsKey).isOk =
        (ImportStateStore.load b'.states p.positionsKey).isOk) :
    Together b b' (i.runCycle c products now) (i.runCycle c products now') := by
  have hcollect := h.reach .collect
  unfold runCycle runCycleUnder
  dsimp only
  split
  · exact ⟨rfl, hcollect.reach .done⟩
  next ps hps =>
  have habout := hcollect.about ps.length
  split
  · exact ⟨rfl, habout.reach .done⟩
  refine habout.enter hdeeds .frontier fun next next' h => ?_
  have hlog : Abreast b b' (next.log [.call .latest]) (next'.log [.call .latest]) :=
    h.log rfl (by simp [Event.writes])
  split
  · exact ⟨rfl, hlog⟩
  next latest _ =>
  refine hlog.enter hdeeds .ranges fun next next' h => ?_
  have hloads : ∀ p ∈ ps, (ImportStateStore.load next.states p.positionsKey).isOk =
      (ImportStateStore.load next'.states p.positionsKey).isOk := by
    intro p hp
    obtain ⟨hmem, hchain⟩ := List.mem_filter.mp ((Product.collect_eq_ok hps).2.mem_iff.mp hp)
    rw [h.states, h.states']
    exact alike p hmem (of_decide_eq_true hchain)
  rw [h.progress]
  obtain ⟨hds, htrace, hnone⟩ := buildRanges_together recent c.sources
    (w := i.window latest next'.progress.lastImported) rfl hloads
  rw [hds]
  refine Abreast.enter (.log ?_ htrace hnone) hdeeds .plan fun next next' h => ?_
  · exact { h with
      progress := rfl
      states := (buildRanges_recent recent).trans h.states
      states' := (buildRanges_recent recent).trans h.states' }
  split
  · exact ⟨rfl, h⟩
  next plan _ =>
  exact h.enter hdeeds .dispatch fun _ _ h => execute_together recent hdeeds h ps latest plan

end Runner

/-! ## The snapshot runner -/

namespace SnapshotRunner

variable {s : SnapshotRunner} {sources : Sources}

theorem writesNone_frontier : (s.frontier sources).2.WritesNone := by
  unfold frontier
  split
  · simp [Event.writes]
  · split <;> simp [Event.writes]

theorem writesNone_sample (f : Frontier) (job : SampleJob) :
    (s.sample sources f job).2.WritesNone := by
  unfold sample
  dsimp only
  split
  · simp [Event.writes]
  · split <;> simp [Event.writes]

theorem writesNone_store {ρ : Type} [RecordSink ρ] (x : Sample) (records : ρ) :
    (s.store x records).2.2.WritesNone := by
  unfold store
  dsimp only
  split
  · exact Trace.writesNone_nil
  · split <;> simp [Event.writes]

theorem writesNone_storeAll {ρ : Type} [RecordSink ρ] (xs : List Sample) (records : ρ) :
    (s.storeAll xs records).2.2.WritesNone := by
  induction xs generalizing records with
  | nil => exact Trace.writesNone_nil
  | cons x xs ih => exact (writesNone_store x records).append (ih _)

variable {σ σ' τ τ' ρ : Type} [ImportStateStore σ BlockNumber] [ImportStateStore σ' BlockNumber]
  [ImportStateStore τ Instant] [ImportStateStore τ' Instant] (recent : s.behaviour.mode = .recent)

include recent

omit [ImportStateStore σ' BlockNumber] [ImportStateStore τ' Instant] in
theorem buildRanges_recent_eq (positions : σ) (f : Frontier) (lastImported : Option Instant)
    (ps : List Product) (states : τ) :
    s.buildRanges sources positions f lastImported ps states =
      (ps.filterMap (s.productRangesWith? f lastImported · none), states, []) := by
  induction ps with
  | nil => rfl
  | cons p ps ih =>
    simp only [buildRanges, productRanges?, recent, ih]
    cases hd : s.productRangesWith? f lastImported p none <;> simp [hd]

variable [RecordSink ρ] {c : Conditions} (hdeeds : c.cancelled.ByDeeds)
  {b now : RunnerState Instant τ ρ} {b' now' : RunnerState Instant τ' ρ} (h : Abreast b b' now now')

include hdeeds h

theorem execute_together (targets : List SampleTarget) (f : Frontier) (plan : Plan Instant) :
    Together b b' (s.execute c targets f plan now) (s.execute c targets f plan now') := by
  have hsamples : Trace.WritesNone (((c.sampleOrder.order (jobs targets plan)).map
      (s.sample c.sources f)).flatMap (·.2)) := by
    refine Trace.writesNone_flatMap fun part hpart => ?_
    obtain ⟨job, -, rfl⟩ := List.mem_map.mp hpart
    exact writesNone_sample f job
  refine (h.log rfl hsamples).enter hdeeds .load fun next next' h => ?_
  dsimp only
  rw [h.records]
  refine ((h.withRecords _).log rfl (writesNone_storeAll _ _)).enter hdeeds .reconcile
    fun next next' h => ?_
  exact ⟨rfl, ((h.reconcile recent ..).reach .done).log rfl (by simp [Event.writes])⟩

/-- Cycles end in one way whatever the states are. -/
theorem cycle_together (positions : σ) (positions' : σ') (products : List Product) :
    Together b b' (s.runCycle c positions products now)
    (s.runCycle c positions' products now') := by
  have hcollect := h.reach .collect
  unfold runCycle
  dsimp only
  split
  · exact ⟨rfl, hcollect.reach .done⟩
  next ps _ =>
  have habout := hcollect.about (targets ps).length
  split
  · exact ⟨rfl, habout.reach .done⟩
  next ts _ =>
  refine habout.enter hdeeds .frontier fun next next' h => ?_
  have hlog : Abreast b b' (next.log (s.frontier c.sources).2)
      (next'.log (s.frontier c.sources).2) := h.log rfl writesNone_frontier
  split
  · exact ⟨rfl, hlog⟩
  · exact ⟨rfl, hlog.reach .done⟩
  next f _ =>
  refine hlog.enter hdeeds .ranges fun next next' h => ?_
  rw [buildRanges_recent_eq recent, buildRanges_recent_eq recent, h.progress]
  dsimp only
  refine Abreast.enter (.log ?_ rfl Trace.writesNone_nil) hdeeds .plan fun next next' h => ?_
  · exact { h with progress := rfl }
  split
  · exact ⟨rfl, h⟩
  next plan _ =>
  exact h.enter hdeeds .dispatch fun _ _ h => execute_together recent hdeeds h _ f plan

end SnapshotRunner

/-! ## Any number of cycles -/

/-- One cycle, begun twice: under the same conditions and with the same products, but on states of
its own each time. -/
structure Twin (γ σ σ' : Type) where
  conditions : γ
  products : List Product
  states : σ
  states' : σ'

/-- **Recent mode.** Cycles of a runner send the same queries and have the same results on any two
sequences of states, if in each cycle it is the states of the same products that cannot be loaded.
Cycles of a snapshot runner do so without any condition, whatever prices and positions have been
imported. Neither of them ever writes an import state. -/
theorem recent_unread {σ σ' τ τ' ρ : Type} [ImportStateStore σ BlockNumber]
    [ImportStateStore σ' BlockNumber] [ImportStateStore τ Instant] [ImportStateStore τ' Instant]
    [RecordSink ρ] :
    (∀ (i : Runner) (cycles : List (Twin Runner.Conditions σ σ')) (b : RunnerState BlockNumber σ ρ)
      (b' : RunnerState BlockNumber σ' ρ), i.behaviour.mode = .recent → b.Alike b' →
      (∀ x ∈ cycles, x.conditions.cancelled.ByDeeds) →
      (∀ x ∈ cycles, ∀ p ∈ x.products, p.chain = i.chain →
        (ImportStateStore.load x.states p.positionsKey).isOk =
          (ImportStateStore.load x.states' p.positionsKey).isOk) →
      Cycle.Unread (cycles.map (·.states)) (cycles.map (·.states')) b
        (Cycle.sequence (cycles.map fun x => (x.states, i.runCycle x.conditions x.products)) b)
        (Cycle.sequence (cycles.map fun x => (x.states', i.runCycle x.conditions x.products)) b')) ∧
    ∀ (s : SnapshotRunner) (cycles : List (Twin SnapshotRunner.Conditions (τ × σ) (τ' × σ')))
      (b : RunnerState Instant τ ρ) (b' : RunnerState Instant τ' ρ),
      s.behaviour.mode = .recent → b.Alike b' →
      (∀ x ∈ cycles, x.conditions.cancelled.ByDeeds) →
      Cycle.Unread (cycles.map (·.states.1)) (cycles.map (·.states'.1)) b
        (Cycle.sequence
          (cycles.map fun x => (x.states.1, s.runCycle x.conditions x.states.2 x.products)) b)
        (Cycle.sequence
          (cycles.map fun x => (x.states'.1, s.runCycle x.conditions x.states'.2 x.products))
            b') := by
  constructor
  · intro i cycles b b' recent h hdeeds alike
    refine Cycle.sequence_unread _ _ _ _ (fun x hx b b' h hstates hstates' => ?_) h
    refine Runner.cycle_together recent (hdeeds x hx) h.abreast fun p hp hchain => ?_
    rw [hstates, hstates']
    exact alike x hx p hp hchain
  · intro s cycles b b' recent h hdeeds
    exact Cycle.sequence_unread _ _ (fun x => s.runCycle x.conditions x.states.2 x.products)
      (fun x => s.runCycle x.conditions x.states'.2 x.products) (fun x hx b b' h _ _ =>
        SnapshotRunner.cycle_together recent (hdeeds x hx) h.abreast x.states.2 x.states'.2
          x.products) h

/-! ## Two vaults -/

namespace RecentVaults

open StrictCycle (product)
open FourCycles (other healthy)

def runner : Runner := { StrictCycle.runner with behaviour := .ofMode .recent }

def snapshotRunner : SnapshotRunner :=
  { chain := .fantom, behaviour := { Behaviour.ofMode .recent with maxQueries := 2 }
    slots := .ofMillis 900000 }

def initial {α σ : Type} (states : σ) : RunnerState α σ MemoryRecords :=
  { states, records := ⟨.empty, .empty, .empty, .empty⟩ }

def noTexts : SqliteImportStateStore.On BlockNumber := ⟨{}⟩

def garbled : SqliteImportStateStore.On BlockNumber :=
  ⟨⟨.ofList [(product.positionsKey, "garbled")]⟩⟩

def broken : Unreliable (MemoryImportStateStore BlockNumber) :=
  { inner := ⟨.ofList [(other.positionsKey, .fresh other.positionsKey 8 .fantom 20 none)]⟩
    brokenLoads := [product.positionsKey] }

def brokenPrices : Unreliable (MemoryImportStateStore Instant) :=
  { inner := {}, brokenLoads := [product.shareRateKey] }

def blockCycles :
    List (Twin Runner.Conditions (SqliteImportStateStore.On BlockNumber)
      (Unreliable (MemoryImportStateStore BlockNumber))) :=
  [⟨healthy 40, [product, other], garbled, broken⟩, ⟨healthy 50, [product, other], garbled, broken⟩]

def slotCycles :
    List (Twin SnapshotRunner.Conditions
      (MemoryImportStateStore Instant × SqliteImportStateStore.On BlockNumber)
      (Unreliable (MemoryImportStateStore Instant) ×
        Unreliable (MemoryImportStateStore BlockNumber))) :=
  [⟨{ sources := (healthy 2000).sources, now := 6 }, [product], ({}, noTexts),
    (brokenPrices, broken)⟩]

/-- The first vault is left out of both cycles with either states. Its slots are sampled. -/
theorem recent_unread_vaults :
    let run := Cycle.sequence
      (blockCycles.map fun x => (x.states, runner.runCycle x.conditions x.products))
        (initial garbled)
    let run' := Cycle.sequence
      (blockCycles.map fun x => (x.states', runner.runCycle x.conditions x.products))
        (initial broken)
    let sampled := Cycle.sequence (slotCycles.map fun x =>
      (x.states.1, snapshotRunner.runCycle x.conditions x.states.2 x.products)) (initial {})
    let sampled' := Cycle.sequence (slotCycles.map fun x =>
      (x.states'.1, snapshotRunner.runCycle x.conditions x.states'.2 x.products))
        (initial brokenPrices)
    run.1.map (·.1) =
        [.ok [⟨"another vault", ⟨31, 40⟩, true, 40⟩], .ok [⟨"another vault", ⟨41, 50⟩, true, 50⟩]] ∧
      Cycle.Unread (blockCycles.map (·.states)) (blockCycles.map (·.states')) (initial garbled)
        run run' ∧
      sampled.1.map (fun e => e.1.toOption.map (·.map fun r => (r.key, r.block))) =
        [some [("vault", 1789), ("vault", 1315)]] ∧
      Cycle.Unread (slotCycles.map (·.states.1)) (slotCycles.map (·.states'.1)) (initial {})
        sampled sampled' := by
  intro run run' sampled sampled'
  have halike {α σ σ' : Type} (states : σ) (states' : σ') :
      (initial states : RunnerState α σ MemoryRecords).Alike (initial states') := ⟨rfl, rfl, rfl⟩
  refine ⟨by decide +kernel, ?_, by decide +kernel, ?_⟩
  · refine (@recent_unread _ _ (MemoryImportStateStore Instant) (MemoryImportStateStore Instant)
      _ _ _ _ _ _).1 runner blockCycles (initial garbled) (initial broken) rfl (halike _ _) ?_
      (by decide +kernel)
    simp [blockCycles, healthy, Cancellation.ByDeeds]
  · refine (@recent_unread _ _ _ _ _ _ _ _ _ _).2 snapshotRunner slotCycles (initial {})
      (initial brokenPrices) rfl (halike _ _) ?_
    simp [slotCycles, Cancellation.ByDeeds]

/-- A text that does not parse makes a difference in recent mode: the vault whose import state it
should be is not queried. -/
theorem garbled_state_drops_vault :
    let runCycle states := runner.runCycle (healthy 40) [product] (initial states)
    (runCycle noTexts).1 = .ok [⟨"vault", ⟨31, 34⟩, true, 40⟩, ⟨"vault", ⟨36, 40⟩, true, 40⟩,
        ⟨"vault", ⟨35, 35⟩, true, 40⟩] ∧
      .transfers ⟨31, 40⟩ [.ofNat 9] ∈ (runCycle noTexts).2.trace.calls ∧
      (runCycle garbled).1 = .ok [] ∧
      (runCycle garbled).2.trace.calls = [.latest, .stateLoad product.positionsKey] := by
  decide +kernel

end RecentVaults

end Backfill
