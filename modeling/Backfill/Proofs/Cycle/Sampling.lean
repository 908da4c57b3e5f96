import Backfill.Cycle.SnapshotRunner
import Backfill.Proofs.Cycle.Folding
import Backfill.Proofs.Cycle.Honest

/-!
# Cycles of a snapshot runner

A snapshot runner settles what a cycle is about before it samples anything: products, the head of
the chain, and a plan. That is its agenda. A cycle ends early, called off or with a fault, or it
comes to its end and folds what its agenda brings. Rounds are cycles of one snapshot runner, one
after the other, each in conditions of its own. They hand on the import states, how far the last one
came, and the records, with which more may be done in between.

Results:
* `cycle_cases`, `round_cases`: how a cycle ends.
* `agenda?_eq_some`, `targets_feeds`, `mem_jobs`: what an agenda is made of.
* `exists_job`: what results are about.
* `buildRanges_loaded`, `updateStates_loaded`, `round_loaded`: what holds of all states in an honest
  store, from step to step.
-/
namespace Backfill.SnapshotRunner

variable {σ τ ρ : Type} [ImportStateStore σ Instant] [ImportStateStore τ BlockNumber] [RecordSink ρ]

/-! ## Targets -/

/-- The products that are sampled are some of those given. -/
theorem targets_sublist (ps : List Product) :
    ((targets ps).map SampleTarget.product).Sublist ps := by
  suffices h : ∀ feeds, ((targets.go feeds ps).map SampleTarget.product).Sublist ps from h []
  induction ps with
  | nil => exact fun _ => .slnil
  | cons p ps ih =>
    intro feeds
    rw [targets.go]
    split
    · exact (ih feeds).cons p
    split
    · exact (ih feeds).cons p
    · exact (ih _).cons_cons p

/-- No two targets have one feed. -/
theorem targets_feeds (ps : List Product) :
    ((targets ps).map (·.product.shareFeed)).Nodup := by
  suffices h : ∀ feeds, ((targets.go feeds ps).map (·.product.shareFeed)).Nodup ∧
      ∀ x ∈ targets.go feeds ps, x.product.shareFeed ∉ feeds from (h []).1
  induction ps with
  | nil => exact fun _ => ⟨.nil, fun _ h => absurd h List.not_mem_nil⟩
  | cons p ps ih =>
    intro feeds
    rw [targets.go]
    split
    · exact ih feeds
    split
    · exact ih feeds
    next hnew =>
    obtain ⟨hnodup, hfresh⟩ := ih (p.shareFeed :: feeds)
    rw [List.contains_iff_mem] at hnew
    refine ⟨List.nodup_cons.mpr ⟨fun hmem => ?_, hnodup⟩, List.forall_mem_cons.mpr
      ⟨hnew, fun x hx hmem => hfresh x hx (List.mem_cons_of_mem _ hmem)⟩⟩
    obtain ⟨x, hx, hfeed⟩ := List.mem_map.mp hmem
    exact hfresh x hx (hfeed ▸ List.mem_cons_self)

/-- A slot that is sampled is one that a query is to bring a target. -/
theorem mem_jobs {ts : List SampleTarget} {plan : Plan Instant} {j : SampleJob}
    (h : j ∈ jobs ts plan) : j.target ∈ ts ∧ ∃ q ∈ plan.queries, ∃ t ∈ q.targets,
      t.key = j.target.product.key ∧ j.range ∈ t.ranges := by
  obtain ⟨q, hq, h⟩ := List.mem_flatMap.mp h
  obtain ⟨t, ht, h⟩ := List.mem_flatMap.mp h
  split at h
  · next x hx =>
    obtain ⟨range, hrange, rfl⟩ := List.mem_map.mp h
    have hkey := List.find?_some hx
    rw [decide_eq_true_eq] at hkey
    exact ⟨List.mem_of_find?_eq_some hx, q, hq, t, ht, hkey.symm, hrange⟩
  · exact absurd h List.not_mem_nil

/-! ## The agenda of a cycle -/

/-- What a cycle is to do once it is planned. -/
structure Agenda where
  frontier : Frontier
  plan : Plan Instant

/-- One cycle: its conditions, the import states of positions, and the products. -/
structure SnapshotCycle (τ ρ : Type) where
  conditions : Conditions
  positions : τ
  products : List Product
  /-- What happens to the records before it. -/
  meanwhile : ρ → ρ := id

namespace SnapshotCycle

variable (s : SnapshotRunner) (r : SnapshotCycle τ ρ) (b : RunnerState Instant σ ρ)

def start : RunnerState Instant σ ρ := { b with records := r.meanwhile b.records }

def runCycle : Ending Instant × RunnerState Instant σ ρ :=
  s.runCycle r.conditions r.positions r.products (r.start b)

omit [ImportStateStore τ BlockNumber] [RecordSink ρ] in
/-- What it samples: of the products on the chain, the first of each feed. -/
def targets : List SampleTarget :=
  SnapshotRunner.targets (Product.byKey (r.products.filter (·.chain = s.chain)))

omit [ImportStateStore τ BlockNumber] [RecordSink ρ] in
def sampled : List Product := (targets s r).map SampleTarget.product

omit [RecordSink ρ] in
/-- What the sampled products want of the chain up to a head, and the states by then. -/
def asked (f : Frontier) : List (ProductRanges Instant) × σ × Trace :=
  s.buildRanges r.conditions.sources r.positions f b.progress.lastImported (sampled s r) b.states

omit [RecordSink ρ] in
def agenda? : Option Agenda := do
  let _ ← (Product.collect s.chain r.products).toOption
  let f ← (s.frontier r.conditions.sources).1.toOption.join
  let plan ← (Plan.choose s.optimizerOptions r.conditions.draws (asked s r b f).1).toOption
  return ⟨f, plan⟩

variable (g : Agenda)

/-- The samples, in the order in which they are stored. -/
def samples : List Sample :=
  r.conditions.storeOrder.order
    (((r.conditions.sampleOrder.order (jobs (targets s r) g.plan)).map
      (s.sample r.conditions.sources g.frontier)).map (·.1))

def stored : ρ := (s.storeAll (samples s r g) (r.meanwhile b.records)).2.1

def results : List (ImportRangeResult Instant) :=
  (s.storeAll (samples s r g) (r.meanwhile b.records)).1

omit [RecordSink ρ] in
/-- The states when ranges have been determined. -/
def opened : σ := (asked s r b g.frontier).2.1

/-- The states when outcomes are folded; a snapshot runner of recent slots folds none. -/
def folded : σ :=
  match s.behaviour.mode with
  | .recent => opened s r b g
  | .historical =>
    (Cycle.updateStates r.conditions.now Product.shareRateKey (results s r b g) (sampled s r)
      (opened s r b g)).1

end SnapshotCycle

/-! ## How a cycle ends -/

section Cases

variable {s : SnapshotRunner} {r : SnapshotCycle τ ρ} {b b' : RunnerState Instant σ ρ}
  {e : Ending Instant}

/-- A cycle that ends before it folds outcomes. It has no results; it made states and stored samples
at most. -/
structure Early (s : SnapshotRunner) (r : SnapshotCycle τ ρ) (b : RunnerState Instant σ ρ)
    (e : Ending Instant) (b' : RunnerState Instant σ ρ) : Prop where
  ending : e = .ok [] ∨ ∃ fault, e = .error fault
  states : b'.states = b.states ∨ ∃ f, (s.frontier r.conditions.sources).1 = .ok (some f) ∧
    b'.states = (r.asked s b f).2.1
  records : b'.records = r.meanwhile b.records ∨ ∃ g, b'.records = r.stored s b g
  lastImported : b'.progress.lastImported = b.progress.lastImported

/-- A cycle that has come to its end: it folded what its agenda brings. -/
structure Complete (s : SnapshotRunner) (r : SnapshotCycle τ ρ) (g : Agenda)
    (b : RunnerState Instant σ ρ) (e : Ending Instant) (b' : RunnerState Instant σ ρ) : Prop where
  ending : e = .ok (r.results s b g)
  states : b'.states = r.folded s b g
  records : b'.records = r.stored s b g
  lastImported : b'.progress.lastImported =
    Cycle.furthest b.progress.lastImported (r.results s b g)

/-- Executing a plan is called off on the way, or it folds the results of what was sampled. -/
theorem execute_cases (g : Agenda) (b₀ : RunnerState Instant σ ρ)
    (hfrontier : (s.frontier r.conditions.sources).1 = .ok (some g.frontier))
    (hrecords : b.records = r.meanwhile b₀.records) (hstates : b.states = r.opened s b₀ g)
    (hlast : b.progress.lastImported = b₀.progress.lastImported)
    (h : s.execute r.conditions (r.targets s) g.frontier g.plan b = (e, b')) :
    Early s r b₀ e b' ∨ Complete s r g b₀ e b' := by
  have hopened : b.states = b₀.states ∨ ∃ f, (s.frontier r.conditions.sources).1 = .ok (some f) ∧
      b.states = (r.asked s b₀ f).2.1 :=
    .inr ⟨g.frontier, hfrontier, hstates⟩
  have hstored : (s.storeAll (r.samples s g) b.records).2.1 = r.stored s b₀ g := by
    rw [hrecords]
    rfl
  unfold execute at h
  rcases RunnerState.enter_cases h with ⟨rfl, rfl⟩ | ⟨-, h⟩
  · exact .inl ⟨.inl rfl, hopened, .inl hrecords, hlast⟩
  rcases RunnerState.enter_cases h with ⟨rfl, rfl⟩ | ⟨-, h⟩
  · exact .inl ⟨.inl rfl, hopened, .inr ⟨g, hstored⟩, hlast⟩
  simp only [Prod.mk.injEq] at h
  obtain ⟨rfl, rfl⟩ := h
  have hresults : (s.storeAll (r.samples s g) b.records).1 = r.results s b₀ g := by
    rw [hrecords]
    rfl
  refine .inr ⟨congrArg _ hresults, ?_, ?_, ?_⟩
  · unfold SnapshotCycle.folded
    rw [← hresults, ← hstates]
    cases s.behaviour.mode <;> rfl
  · rw [← hstored]
    cases s.behaviour.mode <;> rfl
  · rw [← hresults, ← hlast]
    cases s.behaviour.mode <;> rfl

/-- **Stages.** A cycle ends early, or does what its agenda says. -/
theorem cycle_cases (h : r.runCycle s b = (e, b')) :
    Early s r b e b' ∨ ∃ g, r.agenda? s b = some g ∧ Complete s r g b e b' := by
  unfold SnapshotCycle.runCycle runCycle at h
  dsimp only at h
  split at h
  · cases h
    exact .inl ⟨.inr ⟨_, rfl⟩, .inl rfl, .inl rfl, rfl⟩
  next collected hcollect =>
  obtain rfl := Product.eq_of_collect hcollect
  split at h
  · cases h
    exact .inl ⟨.inl rfl, .inl rfl, .inl rfl, rfl⟩
  rcases RunnerState.enter_cases h with ⟨rfl, rfl⟩ | ⟨-, h⟩
  · exact .inl ⟨.inl rfl, .inl rfl, .inl rfl, rfl⟩
  split at h
  · cases h
    exact .inl ⟨.inr ⟨_, rfl⟩, .inl rfl, .inl rfl, rfl⟩
  · cases h
    exact .inl ⟨.inl rfl, .inl rfl, .inl rfl, rfl⟩
  next f hfrontier =>
  rcases RunnerState.enter_cases h with ⟨rfl, rfl⟩ | ⟨-, h⟩
  · exact .inl ⟨.inl rfl, .inl rfl, .inl rfl, rfl⟩
  have hopened : ∃ f', (s.frontier r.conditions.sources).1 = .ok (some f') ∧
      (r.asked s b f).2.1 = (r.asked s b f').2.1 := ⟨f, hfrontier, rfl⟩
  rcases RunnerState.enter_cases h with ⟨rfl, rfl⟩ | ⟨-, h⟩
  · exact .inl ⟨.inl rfl, .inr hopened, .inl rfl, rfl⟩
  split at h
  · cases h
    exact .inl ⟨.inr ⟨_, rfl⟩, .inr hopened, .inl rfl, rfl⟩
  next plan hplan =>
  rcases RunnerState.enter_cases h with ⟨rfl, rfl⟩ | ⟨-, h⟩
  · exact .inl ⟨.inl rfl, .inr hopened, .inl rfl, rfl⟩
  have hexecute := execute_cases ⟨f, plan⟩ b hfrontier (by rfl) (by rfl) (by rfl) h
  refine hexecute.imp_right fun hcomplete => ⟨_, ?_, hcomplete⟩
  have hplan' : Plan.choose s.optimizerOptions r.conditions.draws (r.asked s b f).1 = .ok plan :=
    hplan
  simp only [SnapshotCycle.agenda?, hcollect, hfrontier, hplan', Except.toOption, Option.join_some,
    Option.bind_eq_bind, Option.bind_some]
  rfl

theorem round_cases (s : SnapshotRunner) (r : SnapshotCycle τ ρ) (b : RunnerState Instant σ ρ) :
    Early s r b (r.runCycle s b).1 (r.runCycle s b).2 ∨
      ∃ g, r.agenda? s b = some g ∧ Complete s r g b (r.runCycle s b).1 (r.runCycle s b).2 :=
  cycle_cases rfl

theorem Early.results (h : Early s r b e b') : e.toOption.getD [] = [] := by
  rcases h.ending with rfl | ⟨fault, rfl⟩
  · rfl
  · rfl

omit [RecordSink ρ] in
theorem agenda?_eq_some {g : Agenda} (h : r.agenda? s b = some g) :
    ((r.sampled s).map (·.key)).Nodup ∧
      (s.frontier r.conditions.sources).1 = .ok (some g.frontier) ∧
      Plan.choose s.optimizerOptions r.conditions.draws (r.asked s b g.frontier).1 =
        .ok g.plan := by
  simp only [SnapshotCycle.agenda?, Option.bind_eq_bind, Option.bind_eq_some_iff] at h
  obtain ⟨collected, hcollected, f, hf, plan, hplan, h⟩ := h
  cases h
  have hcollect := toOption_eq_some hcollected
  obtain rfl := Product.eq_of_collect hcollect
  refine ⟨?_, toOption_eq_some (Option.join_eq_some_iff.mp hf), toOption_eq_some hplan⟩
  exact (Product.collect_eq_ok hcollect).1.sublist ((targets_sublist _).map _)

end Cases

/-! ## Results -/

section Results

variable {s : SnapshotRunner} {r : SnapshotCycle τ ρ} {g : Agenda}

omit [ImportStateStore τ BlockNumber] [RecordSink ρ] in
/-- A sample is one of a slot of the plan, at the block that the head gives for its end. -/
theorem mem_samples {x : Sample} (h : x ∈ r.samples s g) :
    ∃ j ∈ jobs (r.targets s) g.plan, x.product = j.target.product ∧ x.range = j.range ∧
      x.block = g.frontier.blockAt j.range.last s.chain.blockMillis := by
  have h := (r.conditions.storeOrder.perm _).mem_iff.mp h
  obtain ⟨part, hpart, rfl⟩ := List.mem_map.mp h
  obtain ⟨j, hj, rfl⟩ := List.mem_map.mp hpart
  refine ⟨j, (r.conditions.sampleOrder.perm _).mem_iff.mp hj, ?_⟩
  unfold sample
  dsimp only
  split
  · exact ⟨rfl, rfl, rfl⟩
  split <;> exact ⟨rfl, rfl, rfl⟩

theorem store_about (s : SnapshotRunner) (x : Sample) (records : ρ) :
    (s.store x records).1.key = x.product.key ∧ (s.store x records).1.range = x.range ∧
      (s.store x records).1.block = x.block := by
  unfold store
  dsimp only
  split
  · exact ⟨rfl, rfl, rfl⟩
  split <;> exact ⟨rfl, rfl, rfl⟩

theorem exists_sample {xs : List Sample} {records : ρ} {y : ImportRangeResult Instant}
    (h : y ∈ (s.storeAll xs records).1) :
    ∃ x ∈ xs, y.key = x.product.key ∧ y.range = x.range ∧ y.block = x.block := by
  induction xs generalizing records with
  | nil => exact absurd h List.not_mem_nil
  | cons x xs ih =>
    rcases List.mem_cons.mp h with heq | h
    · exact ⟨x, List.mem_cons_self, heq ▸ store_about s x records⟩
    · obtain ⟨x', hx', h⟩ := ih h
      exact ⟨x', List.mem_cons_of_mem _ hx', h⟩

omit [ImportStateStore σ Instant] [ImportStateStore τ BlockNumber] in
theorem exists_job {b : RunnerState Instant σ ρ} {y : ImportRangeResult Instant}
    (h : y ∈ r.results s b g) :
    ∃ j ∈ jobs (r.targets s) g.plan, y.key = j.target.product.key ∧ y.range = j.range := by
  obtain ⟨x, hx, hkey, hrange, -⟩ := exists_sample h
  obtain ⟨j, hj, hproduct, hrange', -⟩ := mem_samples hx
  exact ⟨j, hj, hproduct ▸ hkey, hrange.trans hrange'⟩

end Results

/-! ## What holds of all states -/

def freshState (p : Product) (t : Instant) : ImportState Instant :=
  .fresh p.shareRateKey p.id p.chain t (some (.ofInstant t))

/-- Holds of every state that the store finds. -/
def Loaded (P : String → ImportState Instant → Prop) (states : σ) : Prop :=
  ∀ key x, ImportStateStore.load states key = .ok (some x) → P key x

section Open

variable {sources : Sources} {positions : τ} {p : Product} {states states' : σ} {trace : Trace}
  {s? : Option (ImportState Instant)}

/-- There is no state, or it is found, or it is made of the origin and stored. -/
theorem openState_cases (h : importState sources positions p states = (s?, states', trace)) :
    s? = none ∧ states' = states ∨
      states' = states ∧ (∃ x, s? = some x ∧
        ImportStateStore.load states p.shareRateKey = .ok (some x)) ∨
      ∃ t, (origin sources positions p).1 = .ok (some t) ∧ s? = some (freshState p t) ∧
        ImportStateStore.save states (freshState p t) = .ok states' := by
  unfold importState at h
  dsimp only at h
  split at h
  · cases h
    exact .inl ⟨rfl, rfl⟩
  · next x hload =>
    cases h
    exact .inr (.inl ⟨rfl, x, rfl, hload⟩)
  split at h
  · cases h
    exact .inl ⟨rfl, rfl⟩
  · cases h
    exact .inl ⟨rfl, rfl⟩
  next t horigin =>
  split at h
  · cases h
    exact .inl ⟨rfl, rfl⟩
  · next hsave =>
    cases h
    exact .inr (.inr ⟨t, horigin, rfl, hsave⟩)

end Open

section Loaded

variable [HonestImportStateStore σ Instant] {s : SnapshotRunner}
  {P : String → ImportState Instant → Prop} {sources : Sources} {positions : τ} {f : Frontier}
  {lastImported : Option Instant}

/-- To determine ranges makes states at most, and what a product wants is made of its state. -/
theorem productRanges?_loaded {p : Product} {states : σ} (h : Loaded P states)
    (hmade : s.behaviour.mode = .historical → ∀ t, (origin sources positions p).1 = .ok (some t) →
      ∀ key, P key (freshState p t)) :
    Loaded P (s.productRanges? sources positions f lastImported p states).2.1 ∧
      ∀ d, (s.productRanges? sources positions f lastImported p states).1 = some d →
        ∃ x?, s.productRangesWith? f lastImported p x? = some d ∧
          ∀ x, x? = some x → s.behaviour.mode = .historical ∧ P p.shareRateKey x := by
  unfold productRanges?
  split
  · exact ⟨h, fun d hd => ⟨none, hd, fun x hx => by cases hx⟩⟩
  · next hmode =>
    cases hopen : importState sources positions p states with
    | mk x? rest =>
      obtain ⟨states', trace⟩ := rest
      dsimp only
      have hdemand {d : ProductRanges Instant}
          (hd : x?.bind (fun x => s.productRangesWith? f lastImported p (some x)) = some d) :
          s.productRangesWith? f lastImported p x? = some d := by
        cases x? with
        | none => cases hd
        | some x => exact hd
      rcases openState_cases hopen with ⟨rfl, rfl⟩ | ⟨rfl, x, rfl, hload⟩ | ⟨t, ht, rfl, hsave⟩
      · exact ⟨h, fun d hd => by cases hd⟩
      · refine ⟨h, fun d hd => ⟨_, hdemand hd, fun y hy => ?_⟩⟩
        cases hy
        exact ⟨hmode, h _ _ hload⟩
      · refine ⟨fun key x hx => ?_, fun d hd => ⟨_, hdemand hd, fun y hy => ?_⟩⟩
        · rcases HonestImportStateStore.load_save hsave key with hsame | hnew
          · exact h key x (hsame ▸ hx)
          · cases hnew.symm.trans hx
            exact hmade hmode t ht key
        · cases hy
          exact ⟨hmode, hmade hmode t ht _⟩

theorem buildRanges_loaded {ps : List Product} {states : σ} (h : Loaded P states)
    (hmade : s.behaviour.mode = .historical → ∀ p ∈ ps, ∀ t,
      (origin sources positions p).1 = .ok (some t) → ∀ key, P key (freshState p t)) :
    Loaded P (s.buildRanges sources positions f lastImported ps states).2.1 ∧
      ∀ d ∈ (s.buildRanges sources positions f lastImported ps states).1, ∃ p ∈ ps,
        ∃ x?, s.productRangesWith? f lastImported p x? = some d ∧
          ∀ x, x? = some x → s.behaviour.mode = .historical ∧ P p.shareRateKey x := by
  induction ps generalizing states with
  | nil => exact ⟨h, fun _ hd => absurd hd List.not_mem_nil⟩
  | cons p ps ih =>
    obtain ⟨hone, hwant⟩ := productRanges?_loaded (s := s) (f := f) h fun hmode =>
      hmade hmode p List.mem_cons_self
    obtain ⟨hrest, hwants⟩ := ih hone fun hmode q hq => hmade hmode q (List.mem_cons_of_mem _ hq)
    refine ⟨hrest, fun d hd => ?_⟩
    rcases List.mem_append.mp hd with hd | hd
    · exact ⟨p, List.mem_cons_self, hwant d (Option.mem_toList.mp hd)⟩
    · obtain ⟨q, hq, hd⟩ := hwants d hd
      exact ⟨q, List.mem_cons_of_mem _ hq, hd⟩

omit [ImportStateStore τ BlockNumber] [RecordSink ρ] in
/-- To fold outcomes changes the states of the products they are about. -/
theorem updateStates_loaded {now : UInt64} {results : List (ImportRangeResult Instant)}
    {ps : List Product} {states : σ} (h : Loaded P states)
    (hfold : ∀ p ∈ ps, ∀ x, P p.shareRateKey x →
      P p.shareRateKey (x.applyResults now (Cycle.outcomesOf p.key results))) :
    Loaded P (Cycle.updateStates now Product.shareRateKey results ps states).1 := by
  induction ps generalizing states with
  | nil => exact h
  | cons p ps ih =>
    rw [List.forall_mem_cons] at hfold
    cases hout : Cycle.outcomesOf p.key results with
    | nil =>
      simp only [Cycle.updateStates, hout]
      exact ih h hfold.2
    | cons o os =>
      cases hupdate : ImportStateStore.update states p.shareRateKey
          (ImportState.applyResults now · (o :: os)) with
      | error fault =>
        simp only [Cycle.updateStates, hout, hupdate]
        exact ih h hfold.2
      | ok found =>
        simp only [Cycle.updateStates, hout, hupdate]
        refine ih (fun key x hx => ?_) hfold.2
        rcases HonestImportStateStore.load_update hupdate key with
          hsame | ⟨rfl, hnone | ⟨y, hy, hchanged⟩⟩
        · exact h key x (hsame ▸ hx)
        · cases hnone.symm.trans hx
        · cases hchanged.symm.trans hx
          exact hout ▸ hfold.1 y (h _ _ hy)

variable {r : SnapshotCycle τ ρ} {b : RunnerState Instant σ ρ}

/-- **A round.** What holds of all states still does after a round, if it holds of those that are
made, and if outcomes keep it. -/
theorem round_loaded (h : Loaded P b.states)
    (hmade : s.behaviour.mode = .historical → ∀ p ∈ r.sampled s, ∀ t,
      (origin r.conditions.sources r.positions p).1 = .ok (some t) → ∀ key, P key (freshState p t))
    (hfold : ∀ g, r.agenda? s b = some g → Complete s r g b (r.runCycle s b).1 (r.runCycle s b).2 →
      ∀ p ∈ r.sampled s, ∀ x, P p.shareRateKey x → P p.shareRateKey
        (x.applyResults r.conditions.now (Cycle.outcomesOf p.key (r.results s b g)))) :
    Loaded P (r.runCycle s b).2.states := by
  have hasked (f : Frontier) : Loaded P (r.asked s b f).2.1 := (buildRanges_loaded h hmade).1
  rcases round_cases s r b with hearly | ⟨g, hg, hcomplete⟩
  · rcases hearly.states with hsame | ⟨f, -, hopened⟩
    · exact hsame ▸ h
    · exact hopened ▸ hasked f
  · rw [hcomplete.states, SnapshotCycle.folded]
    split
    · exact hasked g.frontier
    · exact updateStates_loaded (hasked g.frontier) (hfold g hg hcomplete)

end Loaded

/-! ## Rounds -/

section Rounds

variable (s : SnapshotRunner) (b : RunnerState Instant σ ρ)

def after (rounds : List (SnapshotCycle τ ρ)) : RunnerState Instant σ ρ :=
  rounds.foldl (fun b r => (r.runCycle s b).2) b

theorem after_concat (rounds : List (SnapshotCycle τ ρ)) (r : SnapshotCycle τ ρ) :
    s.after b (rounds ++ [r]) = (r.runCycle s (s.after b rounds)).2 := List.foldl_append

end Rounds

end Backfill.SnapshotRunner
