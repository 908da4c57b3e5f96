import Backfill.Cycle.Rounds
import Backfill.Proofs.Cycle.Folding

/-!
# Cycles one after the other

Runners take turns on the same import states. A cycle is that of any runner, with its own
settings and whatever it finds outside, and states are all that it leaves to the next one.
`outcomes` is what a cycle folds into the state of a key: nothing if it is called off or fails on
the way, and nothing if it imports recent blocks.

Products of one cycle may share a key here. Then their outcomes are folded into one state.

Results:
* `coverage_after`: what any cycle makes of the coverage of a key.
* `outcome_planned`: an outcome is about blocks that the cycle planned to bring.
* `sound_afterAll`: cycles keep states sound.
* `run_cycles`: a runner that runs on its own takes turns with itself.
-/
namespace Backfill

open Axis Range

/-- A cycle with all that it is begun with but the import states. -/
structure CycleRun (ρ : Type) where
  runner : Runner
  conditions : Runner.Conditions
  products : List Product
  progress : Progress BlockNumber := {}
  records : ρ
  trace : Trace := []

namespace CycleRun

variable {σ ρ : Type}

def initial (t : CycleRun ρ) (states : σ) : RunnerState BlockNumber σ ρ :=
  ⟨t.progress, states, t.records, t.trace⟩

/-- The products of its chain, in the order in which their outcomes are folded. -/
def collected (t : CycleRun ρ) : List Product :=
  Product.byKey (t.products.filter (·.chain = t.runner.chain))

@[simp] theorem initial_records (t : CycleRun ρ) (states : σ) :
    (t.initial states).records = t.records := rfl

variable [ImportStateStore σ BlockNumber] [RecordSink ρ]

def runCycle (t : CycleRun ρ) (states : σ) : Ending BlockNumber × RunnerState BlockNumber σ ρ :=
  t.runner.runCycle t.conditions t.products (t.initial states)

def results (t : CycleRun ρ) (states : σ) : List (ImportRangeResult BlockNumber) :=
  (t.runCycle states).1.toOption.getD []

def after (t : CycleRun ρ) (states : σ) : σ := (t.runCycle states).2.states

def agenda? (t : CycleRun ρ) (states : σ) : Option Agenda :=
  t.runner.agenda? t.conditions t.products (t.initial states)

def outcomes (t : CycleRun ρ) (states : σ) (key : String) : List (RangeOutcome BlockNumber) :=
  match t.runner.behaviour.mode with
  | .recent => []
  | .historical => Cycle.outcomesAt (t.results states) t.collected key

def afterAll : List (CycleRun ρ) → σ → σ
  | [], states => states
  | t :: ts, states => afterAll ts (t.after states)

theorem afterAll_append (ts us : List (CycleRun ρ)) (states : σ) :
    afterAll (ts ++ us) states = afterAll us (afterAll ts states) := by
  induction ts generalizing states with
  | nil => rfl
  | cons t ts ih => exact ih _

/-! ## What one cycle folds -/

section Folded

variable {t : CycleRun ρ} {states : σ} {g : Agenda} {p : Product} {key : String} {b : BlockNumber}

omit [RecordSink ρ] in
theorem products_of_agenda (h : t.agenda? states = some g) :
    g.products = t.collected ∧ (g.products.map (·.key)).Nodup := by
  have hcollect := (Runner.agenda?_eq_some h).1
  exact ⟨Product.eq_of_collect hcollect, (Product.collect_eq_ok hcollect).1⟩

omit [ImportStateStore σ BlockNumber] [RecordSink ρ] in
theorem mem_collected : p ∈ t.collected ↔ p ∈ t.products ∧ p.chain = t.runner.chain := by
  rw [collected, Product.byKey, mem_sortBy, List.mem_filter, decide_eq_true_eq]

theorem run_cases (t : CycleRun ρ) (states : σ) :
    t.results states = [] ∧
        (t.after states = states ∨ ∃ w ps,
          t.after states = (t.runner.buildRanges t.conditions.sources w ps states).2.1) ∨
      ∃ g, t.agenda? states = some g ∧
        t.results states = t.runner.resultsOf t.conditions g t.records ∧
        t.after states = t.runner.folded t.conditions g (t.initial states) := by
  have h : t.runCycle states = ((t.runCycle states).1, (t.runCycle states).2) := rfl
  rcases Runner.cycle_cases h with hearly | ⟨g, hg, hresults, -, hstates⟩
  · exact .inl ⟨hearly.results, hearly.states.imp_right fun ⟨_, ps, h⟩ => ⟨_, ps, h⟩⟩
  · exact .inr ⟨g, hg, congrArg (·.toOption.getD []) hresults, hstates⟩

theorem outcomes_historical (historical : t.runner.behaviour.mode = .historical) :
    t.outcomes states key = Cycle.outcomesAt (t.results states) t.collected key := by
  rw [outcomes, historical]

theorem mem_outcomes {o : RangeOutcome BlockNumber} (ho : o ∈ t.outcomes states key) :
    t.runner.behaviour.mode = .historical ∧ ∃ p ∈ t.collected, p.positionsKey = key ∧
      o ∈ Cycle.outcomesOf p.key (t.results states) := by
  unfold outcomes at ho
  split at ho
  · exact absurd ho (by simp)
  · next hmode =>
    obtain ⟨p, hp, ho⟩ := List.mem_flatMap.mp ho
    obtain ⟨hp, hkey⟩ := List.mem_filter.mp hp
    exact ⟨hmode, p, hp, of_decide_eq_true hkey, ho⟩

variable [LawfulImportStateStore σ BlockNumber]
  (hsound : ∀ key, (coverageOf (ImportStateStore.load states key)).Sound)

include hsound

omit [RecordSink ρ] in
theorem allotted (historical : t.runner.behaviour.mode = .historical)
    (hg : t.agenda? states = some g) :
    (∀ d ∈ t.runner.wanted t.conditions g (t.initial states), Plan.ProperRanges d) ∧
      Plan.Allotted t.runner.optimizerOptions (t.runner.wanted t.conditions g (t.initial states))
        g.plan.queries :=
  Runner.agenda_allotted historical hg fun p _ => hsound p.positionsKey

theorem exists_state (historical : t.runner.behaviour.mode = .historical)
    (hg : t.agenda? states = some g) (hp : p ∈ g.products)
    (hne : Cycle.outcomesOf p.key (t.runner.resultsOf t.conditions g t.records) ≠ []) :
    ∃ s, ImportStateStore.load (t.runner.opened t.conditions g (t.initial states)) p.positionsKey =
      .ok (some s) := by
  have hkeys := (products_of_agenda hg).2
  obtain ⟨-, hplan⟩ := allotted hsound historical hg
  obtain ⟨d, hd, hkey⟩ := exists_demand hkeys hplan hne
  obtain ⟨q, hq, s, hs, -, hdemand⟩ := Runner.wanted_spec historical d hd
  have hkey' := (RangeContext.productRanges?_key historical hdemand).symm.trans hkey
  exact ⟨s, List.inj_on_of_nodup_map hkeys hq hp hkey' ▸ hs⟩

/-- **Cycles.** A cycle applies its outcomes at each key and does nothing else to what is covered or
waits, however it ends. -/
theorem coverage_after (key : String) :
    coverageOf (ImportStateStore.load (t.after states) key) =
      (coverageOf (ImportStateStore.load states key)).applyResults t.conditions.now
        (t.outcomes states key) := by
  cases hmode : t.runner.behaviour.mode with
  | recent =>
    have hafter : t.after states = states := by
      rcases run_cases t states with ⟨-, hstates | ⟨w, ps, hstates⟩⟩ | ⟨g, -, -, hstates⟩
      · exact hstates
      · exact hstates.trans (buildRanges_recent hmode)
      · rw [hstates, Runner.folded, hmode]
        exact buildRanges_recent hmode
    rw [hafter, outcomes, hmode]
    rfl
  | historical =>
    rw [outcomes_historical hmode]
    rcases run_cases t states with ⟨hnone, hstates⟩ | ⟨g, hg, hresults, hstates⟩
    · have hsame : coverageOf (ImportStateStore.load (t.after states) key) =
          coverageOf (ImportStateStore.load states key) := by
        rcases hstates with hstates | ⟨w, ps, hstates⟩
        · rw [hstates]
        · rw [hstates, Runner.coverageOf_buildRanges hmode]
      rw [hsame, hnone, Cycle.outcomesAt_nil]
      rfl
    · have hfound : ∀ p ∈ g.products, Cycle.outcomesOf p.key (t.results states) ≠ [] →
          ∃ s, ImportStateStore.load (t.runner.opened t.conditions g (t.initial states))
            p.positionsKey = .ok (some s) := fun p hp hne =>
        exists_state hsound hmode hg hp (hresults ▸ hne)
      have hload := Cycle.load_updateStates_key t.conditions.now
        (fun p hp hne => (hfound p hp hne).elim fun s hs => ⟨some s, hs⟩) key
      have hopened : coverageOf (ImportStateStore.load
          (t.runner.opened t.conditions g (t.initial states)) key) =
            coverageOf (ImportStateStore.load states key) := Runner.coverageOf_buildRanges hmode ..
      rw [hstates, Runner.folded, hmode]
      dsimp only
      rw [initial_records, ← hresults, hload, ← (products_of_agenda hg).1, coverageOf_map, hopened]
      -- outcomes at the key belong to a product whose state is there
      intro hne
      obtain ⟨o, ho⟩ := List.exists_mem_of_ne_nil _ hne
      obtain ⟨p, hp, ho⟩ := List.mem_flatMap.mp ho
      obtain ⟨hp, hkey⟩ := List.mem_filter.mp hp
      exact of_decide_eq_true hkey ▸ hfound p hp (List.ne_nil_of_mem ho)

/-- An outcome is about blocks that the cycle planned to bring a product with that key. -/
theorem outcome_planned {o : RangeOutcome BlockNumber} (ho : o ∈ t.outcomes states key) :
    o.range.Proper ∧ t.runner.behaviour.mode = .historical ∧ ∃ g, t.agenda? states = some g ∧
      ∃ p ∈ g.products, p.positionsKey = key ∧
        ∃ q ∈ g.plan.queries, ∃ r, q.Brings p.key r ∧ ∀ b ∈ o.range, b ∈ r := by
  obtain ⟨historical, p, hp, hkey, ho⟩ := mem_outcomes ho
  rcases run_cases t states with ⟨hnone, -⟩ | ⟨g, hg, hresults, -⟩
  · rw [hnone] at ho
    exact absurd ho (by simp [Cycle.outcomesOf])
  · obtain ⟨hproducts, hkeys⟩ := products_of_agenda hg
    have hsent := (allotted hsound historical hg).2.of_perm
      (t.conditions.queryOrder.perm g.plan.queries)
    rw [hresults] at ho
    obtain ⟨hproper, q, hq, hbrings⟩ := Cycle.outcome_brought hkeys hsent ho
    exact ⟨hproper, historical, g, hg, p, hproducts ▸ hp, hkey, q,
      (t.conditions.queryOrder.perm _).mem_iff.mp hq, hbrings⟩

theorem outcomes_proper : ∀ o ∈ t.outcomes states key, o.range.Proper := fun _ ho =>
  (outcome_planned hsound ho).1

theorem sound_after : ∀ key, (coverageOf (ImportStateStore.load (t.after states) key)).Sound := by
  intro key
  rw [coverage_after hsound]
  exact (hsound key).applyResults (outcomes_proper hsound)

theorem sound_afterAll (ts : List (CycleRun ρ)) :
    ∀ key, (coverageOf (ImportStateStore.load (afterAll ts states) key)).Sound := by
  induction ts generalizing states with
  | nil => exact hsound
  | cons t ts ih => exact ih (sound_after hsound)

end Folded

/-! ## Runs of one runner -/

variable {i : Runner} {c : Runner.Conditions}

variable (ρ) in
/-- States that a runner comes to by taking turns with itself. -/
def OwnRuns (i : Runner) (c : Runner.Conditions) (states states' : σ) : Prop :=
  ∃ ts : List (CycleRun ρ), (∀ t ∈ ts, t.runner = i ∧ t.conditions = c) ∧
    states' = afterAll ts states

theorem OwnRuns.refl (states : σ) : OwnRuns ρ i c states states := ⟨[], by simp, rfl⟩

theorem OwnRuns.cons (products : List Product) (b : RunnerState BlockNumber σ ρ) {states : σ}
    (h : OwnRuns ρ i c (i.runCycle c products b).2.states states) :
    OwnRuns ρ i c b.states states := by
  obtain ⟨ts, hts, rfl⟩ := h
  refine ⟨⟨i, c, products, b.progress, b.records, b.trace⟩ :: ts, ?_, rfl⟩
  exact List.forall_mem_cons.mpr ⟨⟨rfl, rfl⟩, hts⟩

theorem OwnRuns.trans {s₁ s₂ s₃ : σ} (h : OwnRuns ρ i c s₁ s₂) (h' : OwnRuns ρ i c s₂ s₃) :
    OwnRuns ρ i c s₁ s₃ := by
  obtain ⟨ts, hts, rfl⟩ := h
  obtain ⟨us, hus, rfl⟩ := h'
  exact ⟨ts ++ us, fun t ht => (List.mem_append.mp ht).elim (hts t) (hus t),
    (afterAll_append ts us s₁).symm⟩

/-- A stream of products is a cycle to the batch. -/
theorem stream_cycles (stop : StopTime) (delays : List Nat) (products : List Product)
    (b : RunnerState BlockNumber σ ρ) :
    OwnRuns ρ i c b.states (i.processStream c stop delays products b).2.states := by
  suffices h : ∀ finish batches (b : RunnerState BlockNumber σ ρ),
      OwnRuns ρ i c b.states
        (Rounds.overBatches (fun ps b => (i.runCycle c ps b).2) c.cancelled stop
        finish batches b).2.states from h _ _ (b.reach .collect)
  intro finish batches b
  induction batches generalizing b with
  | nil => exact .refl _
  | cons batch batches ih =>
    unfold Rounds.overBatches
    dsimp only
    split
    · exact .refl _
    split
    · exact .cons batch.items b (.refl _)
    · exact .cons batch.items b (ih _)

/-- **Runs.** A runner that runs once or again and again takes turns with itself. -/
theorem run_cycles (stop : StopTime) (rounds : Nat) (products : List Product)
    (b : RunnerState BlockNumber σ ρ) :
    OwnRuns ρ i c b.states (i.run c stop rounds products b).2.states := by
  suffices h : ∀ interval rounds now (b : RunnerState BlockNumber σ ρ), OwnRuns ρ i c b.states
      (Rounds.repeated (fun b => (i.processStream c none (products.map fun _ => 0) products b).2)
        c.cancelled stop interval rounds now b).2.states from h _ _ _ _
  intro interval rounds now b
  induction rounds generalizing now b with
  | zero => exact .refl _
  | succ rounds ih =>
    have hround := stream_cycles (i := i) (c := c) none (products.map fun _ => 0) products b
    unfold Rounds.repeated
    dsimp only
    split
    · exact hround
    split
    · exact hround
    split
    · exact hround
    · exact hround.trans (ih _ _)

end CycleRun
end Backfill
