import Backfill.Proofs.Cycle.TwoPlans

/-!
# A runner that repeats its cycle

Products stay the same from cycle to cycle; what a cycle finds outside may change. `stateAfter n` is
what `n` cycles leave to the next one.

A cycle that is not called off and finds the head of the chain does what its agenda says, unless two
products of the chain have one key. Then every cycle is refused.

Results:
* `Product.collect_of_nodup`, `Product.collect_of_repeated`: which products are collected.
* `Runner.exists_agenda_of_buildRanges`, `Runner.exists_agenda`: when a cycle has an agenda.
* `Runner.cycle_of_agenda`: a cycle with an agenda that is not called off carries it out.
* `Runner.coverage_of_agenda`: what it then makes of the state of a product.
* `Runner.sound_stateAfter`: cycles keep states sound.
-/
namespace Backfill

open Axis Range

/-! ## Collected products -/

namespace Product

variable {chain : Chain} {ps : List Product}

theorem repeatedNeighbours_of_nodup {ks : List String} (h : ks.Nodup) :
    repeatedNeighbours ks = [] := by
  induction ks with
  | nil => rfl
  | cons a ks ih =>
    cases ks with
    | nil => rfl
    | cons b ks =>
      have hne : a ≠ b := fun heq => (List.nodup_cons.mp h).1 (heq ▸ List.mem_cons_self ..)
      simp only [repeatedNeighbours, if_neg hne, ih (List.nodup_cons.mp h).2]

theorem collect_of_nodup (h : ((ps.filter (·.chain = chain)).map (·.key)).Nodup) :
    collect chain ps = .ok (byKey (ps.filter (·.chain = chain))) := by
  have hsorted : ((byKey (ps.filter (·.chain = chain))).map (·.key)).Nodup :=
    ((sortBy_perm _ _).map _).nodup_iff.mpr h
  simp only [collect, repeatedNeighbours_of_nodup hsorted]

theorem collect_of_repeated (h : ¬ ((ps.filter (·.chain = chain)).map (·.key)).Nodup) :
    ∃ keys, collect chain ps = .error (.duplicateProducts keys) := by
  have hnone : ∀ collected, collect chain ps ≠ .ok collected := fun collected hcollect => by
    obtain ⟨hkeys, hperm⟩ := collect_eq_ok hcollect
    exact h ((hperm.map _).nodup_iff.mp hkeys)
  unfold collect at hnone ⊢
  dsimp only at hnone ⊢
  split
  · next hrep => exact absurd (by rw [hrep]) (hnone _)
  · exact ⟨_, rfl⟩

end Product

/-! ## One cycle -/

namespace Runner

/-- Limits that leave room for a query. -/
structure Able (i : Runner) : Prop where
  maxAddresses : 0 < i.limits.maxAddresses
  maxSpan : 0 < i.limits.maxSpan
  maxQueries : 0 < i.behaviour.maxQueries

variable {σ ρ : Type} [ImportStateStore σ BlockNumber] {i : Runner} {c : Conditions} {g : Agenda}
  {products : List Product} {b : RunnerState BlockNumber σ ρ} {latest : BlockNumber}

/-- A cycle that finds the head of the chain has an agenda if no two products of the chain have one
key, and their demands are such that a plan can be made of them. -/
theorem exists_agenda_of_buildRanges (able : i.Able) (hlatest : c.sources.latest = .ok latest)
    (hkeys : ((products.filter (·.chain = i.chain)).map (·.key)).Nodup)
    (hdemands : ∀ ps, let ds := (i.buildRanges c.sources
        (i.window latest b.progress.lastImported) ps b.states).1
      (ds.map (·.key)).Sublist (ps.map (·.key)) ∧ ∀ d ∈ ds, d.full.Valid) :
    ∃ g, i.agenda? c products b = some g := by
  let collected := Product.byKey (products.filter (·.chain = i.chain))
  have hcollect : Product.collect i.chain products = .ok collected :=
    Product.collect_of_nodup hkeys
  obtain ⟨hsub, hfull⟩ := hdemands collected
  have haccept : Plan.Acceptable i.optimizerOptions
      (i.buildRanges c.sources (i.window latest b.progress.lastImported) collected b.states).1 :=
    { maxProducts := able.maxAddresses
      maxSpan := able.maxSpan
      maxQueries := able.maxQueries
      keys := hsub.nodup (((sortBy_perm _ _).map _).nodup_iff.mpr hkeys)
      full := hfull }
  obtain ⟨plan, hplan⟩ : ∃ plan, Plan.choose i.optimizerOptions c.draws (i.buildRanges c.sources
      (i.window latest b.progress.lastImported) collected b.states).1 = .ok plan :=
    ⟨_, Plan.choose_of_check (Plan.check_eq_ok_iff.mpr haccept)⟩
  refine ⟨⟨collected, latest, plan⟩, ?_⟩
  simp only [agenda?, hcollect, hlatest, Except.toOption, Option.bind_eq_bind, Option.bind_some,
    hplan]
  rfl

section Agenda

variable (historical : i.behaviour.mode = .historical)

include historical

/-- A product has one demand at most. -/
theorem keys_buildRanges (sources : Sources) (w : RangeContext)
    (hw : w.behaviour.mode = .historical) (ps : List Product) (states : σ) :
    ((i.buildRanges sources w ps states).1.map (·.key)).Sublist (ps.map (·.key)) := by
  induction ps generalizing states with
  | nil => exact .slnil
  | cons p ps ih =>
    simp only [buildRanges]
    cases hone : (i.productRanges? sources w p states).1 with
    | none => exact (ih _).cons _
    | some d =>
      obtain ⟨s, hdemand⟩ := productRanges?_made historical hone
      rw [Option.toList_some, List.singleton_append, List.map_cons, List.map_cons,
        RangeContext.productRanges?_key hw hdemand]
      exact (ih _).cons_cons _

variable [LawfulImportStateStore σ BlockNumber]

/-- A cycle over the history that finds the head of the chain has an agenda if no two products of
the chain have one key. -/
theorem exists_agenda (able : i.Able) (hlatest : c.sources.latest = .ok latest)
    (hkeys : ((products.filter (·.chain = i.chain)).map (·.key)).Nodup) :
    ∃ g, i.agenda? c products b = some g := by
  refine exists_agenda_of_buildRanges able hlatest hkeys fun ps =>
    ⟨keys_buildRanges historical _ _ historical ps b.states, fun d hd => ?_⟩
  obtain ⟨_, -, _, -, hdemand⟩ := (buildRanges_grows historical rfl).2 d hd
  exact RangeContext.full_valid historical hdemand

end Agenda

variable [RecordSink ρ]

omit [ImportStateStore σ BlockNumber] [RecordSink ρ] in
theorem fetched_of_nil (h : g.products = []) : i.fetched c g = [] := by
  refine List.eq_nil_iff_forall_not_mem.mpr fun f hf => ?_
  obtain ⟨q, -, hp, -⟩ := (FetchedRange.mem_ofQueries (by rw [h]; exact .nil)).mp hf
  rw [h] at hp
  exact List.not_mem_nil hp

/-- A cycle with an agenda that is not called off carries it out. -/
theorem cycle_of_agenda (runs : ∀ t, c.cancelled t = false)
    (hg : i.agenda? c products b = some g) :
    (i.runCycle c products b).1 = .ok (i.resultsOf c g b.records) ∧
      (i.runCycle c products b).2.states = i.folded c g b := by
  obtain ⟨hcollect, hlatest, hplan⟩ := agenda?_eq_some hg
  unfold runCycle runCycleUnder
  simp only [hcollect]
  split
  · next hnil =>
    refine ⟨by rw [resultsOf, fetched_of_nil hnil]; rfl, ?_⟩
    rw [folded, opened, hnil]
    cases i.behaviour.mode <;> rfl
  · have hplan' : Plan.choose i.optimizerOptions c.draws (i.buildRanges c.sources
        (i.window g.latest b.progress.lastImported) g.products b.states).1 = .ok g.plan := hplan
    simp only [RunnerState.enter, runs, Bool.false_eq_true, if_false, hlatest, RunnerState.reach,
      RunnerState.about, RunnerState.log, hplan']
    refine ⟨(execute_eq g _ runs).1, (execute_eq g _ runs).2.2.trans ?_⟩
    unfold folded opened
    cases i.behaviour.mode <;> rfl

section Covered

variable [LawfulImportStateStore σ BlockNumber] {p : Product}
  (hsound : ∀ key, (coverageOf (ImportStateStore.load b.states key)).Sound)

include hsound

theorem sound_cycle (c : Conditions) (products : List Product) (key : String) :
    (coverageOf (ImportStateStore.load (i.runCycle c products b).2.states key)).Sound :=
  CycleRun.sound_after (t := ⟨i, c, products, b.progress, b.records, b.trace⟩) hsound key

/-- A cycle that carries out its agenda settles each of its products. -/
theorem settled_cycle (historical : i.behaviour.mode = .historical)
    (distinct : (products.map (·.id)).Nodup) (runs : ∀ t, c.cancelled t = false)
    (hg : i.agenda? c products b = some g) (hp : p ∈ g.products) :
    Settled i c g (i.failures c g b.records) p
      (coverageOf (ImportStateStore.load b.states p.positionsKey))
      (coverageOf (ImportStateStore.load (i.runCycle c products b).2.states p.positionsKey)) := by
  let t : CycleRun ρ := ⟨i, c, products, b.progress, b.records, b.trace⟩
  have hg' : t.agenda? b.states = some g := hg
  obtain ⟨hproducts, hkeys⟩ := CycleRun.products_of_agenda hg'
  have hresults : t.results b.states = i.resultsOf c g b.records :=
    congrArg (·.toOption.getD []) (cycle_of_agenda runs hg).1
  have hafter := CycleRun.coverage_after (t := t) hsound p.positionsKey
  rw [CycleRun.outcomes_historical historical,
    Cycle.outcomesAt_of_mem (CycleRun.nodup_collected distinct) (hproducts ▸ hp), hresults]
      at hafter
  exact hafter ▸ settled_applyResults hkeys (CycleRun.allotted hsound historical hg').2 hp b.records
    (hsound p.positionsKey) c.now

end Covered

/-! ## Cycle after cycle -/

def stateAfter (i : Runner) (cs : Nat → Conditions) (products : List Product)
    (b : RunnerState BlockNumber σ ρ) : Nat → RunnerState BlockNumber σ ρ
  | 0 => b
  | n + 1 => (i.runCycle (cs n) products (stateAfter i cs products b n)).2

theorem sound_stateAfter [LawfulImportStateStore σ BlockNumber] (cs : Nat → Conditions)
    (products : List Product)
    (hsound : ∀ key, (coverageOf (ImportStateStore.load b.states key)).Sound) (n : Nat) :
    ∀ key, (coverageOf
      (ImportStateStore.load (i.stateAfter cs products b n).states key)).Sound := by
  induction n with
  | zero => exact hsound
  | succ n ih => exact sound_cycle ih (cs n) products

end Runner
end Backfill
