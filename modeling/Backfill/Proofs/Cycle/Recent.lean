import Backfill.Proofs.Cycle.Unread

/-!
# Where a runner of recent blocks goes on

A runner of recent blocks remembers one block: the highest one that it has imported so far, of
whichever product. Each cycle looks at a window right below the head of the chain, and of that only
at what lies above this block. It is one mark for all products. A product that comes later is given
no block at or below the mark, though it may never have been asked for there.

Results:
* `Cycle.beyond_furthest`: what moves the mark.
* `RangeContext.recentRange?_spec`, `RangeContext.recentRange?_eq_none`: the window above the mark.
* `Runner.wanted_recent`, `Runner.results_valid_recent`: what a cycle wants and what results.
* `recent_range_above_imported`: after any cycles, the range that each product is given.
* `other_vault_passed_over`: a vault that is never asked for.
-/
namespace Backfill

open Axis Range

/-! ## The mark -/

/-- A block lies above the mark. -/
def Beyond (last : Option BlockNumber) (b : BlockNumber) : Prop := ∀ l, last = some l → l < b

theorem beyond_none (b : BlockNumber) : Beyond none b := fun _ h => by cases h

theorem beyond_some {l b : BlockNumber} : Beyond (some l) b ↔ l < b := by simp [Beyond]

theorem eq_some_of_beyond {last : Option BlockNumber} {l : BlockNumber}
    (h : ∀ b, Beyond last b ↔ l < b) : last = some l := by
  cases last with
  | none => exact absurd ((h l).mp (beyond_none l)) (UInt64.lt_irrefl l)
  | some k =>
    have hk := h k
    have hl := h l
    simp only [beyond_some, UInt64.lt_iff_toNat_lt] at hk hl
    exact congrArg some (UInt64.toNat_inj.mp (by omega))

namespace Cycle

variable {last : Option BlockNumber} {r : ImportRangeResult BlockNumber}
  {rs rs' : List (ImportRangeResult BlockNumber)} {b : BlockNumber}

theorem furthest_append : furthest last (rs ++ rs') = furthest (furthest last rs) rs' := by
  simp [furthest]

/-- The mark is moved up to the end of each range that has succeeded. -/
theorem beyond_furthest :
    Beyond (furthest last rs) b ↔
      Beyond last b ∧ ∀ r ∈ rs, r.success = true → r.range.last < b := by
  induction rs generalizing last with
  | nil => simp [furthest]
  | cons r rs ih =>
    rw [← List.singleton_append, furthest_append, ih, List.singleton_append, List.forall_mem_cons,
      ← and_assoc]
    refine and_congr_left' ?_
    cases hs : r.success with
    | false => simp [furthest, hs]
    | true =>
      cases last with
      | none => simp [furthest, hs, Beyond]
      | some l =>
        have hmax : ((greatest l r.range.last).toNat : Int) =
            max (l.toNat : Int) (r.range.last.toNat : Int) := coord_greatest l r.range.last
        simp only [furthest, hs, List.filter_cons_of_pos, List.filter_nil, List.map_cons,
          List.map_nil, List.foldl_cons, List.foldl_nil, beyond_some, UInt64.lt_iff_toNat_lt,
          true_imp_iff]
        omega

end Cycle

/-! ## The window above the mark -/

namespace RangeContext

variable {w : RangeContext} {full : Range BlockNumber} {b : BlockNumber} {p : Product}
  {d : ProductRanges BlockNumber}

/-- The window ends at the head, and has every block of it that lies above the mark. -/
theorem recentRange?_spec (h : w.recentRange? = some full) :
    w.head? = some full.last ∧ full.Valid ∧
      ∀ b, b ∈ full ↔ b ≤ full.last ∧ full.last.toNat ≤ b.toNat + w.windowLen ∧
        Beyond w.lastImported b := by
  unfold recentRange? at h
  obtain ⟨head, hhead, h⟩ := Option.bind_eq_some_iff.mp h
  have hdown (n : Nat) :
      ((stepDown head n).toNat : Int) = max 0 ((head.toNat : Int) - (n : Int) * 1) :=
    coord_stepDown head n
  split at h
  · next hlast =>
    cases h
    have hfirst := hdown w.windowLen
    refine ⟨hhead, ?_, fun b => ?_⟩
    · simp only [Range.Valid, coord_block]
      omega
    · simp only [mem_def, coord_block, hlast, UInt64.le_iff_toNat_le, beyond_none, and_true]
      omega
  · next last hlast =>
    split at h
    · cases h
    next hnew =>
    cases h
    have hfirst := hdown (min w.windowLen (head.toNat - (last.toNat + 1)))
    rw [UInt64.le_iff_toNat_le] at hnew
    refine ⟨hhead, ?_, fun b => ?_⟩
    · simp only [Range.Valid, coord_block]
      omega
    · simp only [mem_def, coord_block, hlast, beyond_some, UInt64.le_iff_toNat_le,
        UInt64.lt_iff_toNat_lt]
      omega

theorem recentRange?_eq_none :
    w.recentRange? = none ↔ ∀ head, w.head? = some head → ¬ Beyond w.lastImported head := by
  unfold recentRange?
  cases w.head? with
  | none => simp
  | some head =>
    cases w.lastImported with
    | none => simp [Beyond]
    | some last => simp [beyond_some, UInt64.not_lt]

theorem mem_recentRange? : (∃ full, w.recentRange? = some full ∧ b ∈ full) ↔
    ∃ head, w.head? = some head ∧ b ≤ head ∧ head.toNat ≤ b.toNat + w.windowLen ∧
      Beyond w.lastImported b := by
  constructor
  · rintro ⟨full, hfull, hb⟩
    obtain ⟨hhead, -, hmem⟩ := recentRange?_spec hfull
    exact ⟨full.last, hhead, (hmem b).mp hb⟩
  · rintro ⟨head, hhead, hb⟩
    cases hfull : w.recentRange? with
    | none =>
      refine absurd ?_ (recentRange?_eq_none.mp hfull head hhead)
      exact fun l hl => UInt64.lt_of_lt_of_le (hb.2.2 l hl) hb.1
    | some full =>
      obtain ⟨hlast, -, hmem⟩ := recentRange?_spec hfull
      obtain rfl : full.last = head := Option.some.inj (hlast.symm.trans hhead)
      exact ⟨full, rfl, (hmem b).mpr hb⟩

/-- The part of a range inside the forced bounds, if there are any. -/
def inside? (w : RangeContext) (full : Range BlockNumber) : Option (Range BlockNumber) :=
  match w.behaviour.forced with
  | none => some full
  | some bounds => full.clamp bounds

/-- A product without a state wants the window inside the forced bounds, and nothing else. -/
theorem productRanges?_none (w : RangeContext) (p : Product) :
    w.productRanges? p none = (w.recentRange?.bind w.inside?).map fun full =>
      ⟨p.key, full, [], []⟩ := by
  unfold productRanges? inside?
  cases w.behaviour.mode <;> cases w.behaviour.forced with
  | none => cases w.recentRange? <;> rfl
  | some bounds =>
    cases w.recentRange? with
    | none => rfl
    | some full =>
      simp only [Option.bind_eq_bind, Option.bind_some]
      cases full.clamp bounds <;> rfl

theorem productRanges?_unforced (unforced : w.behaviour.forced = none) (p : Product) :
    w.productRanges? p none = w.recentRange?.map fun full => ⟨p.key, full, [], []⟩ := by
  have hinside : w.inside? = some := by
    funext full
    rw [inside?, unforced]
  rw [productRanges?_none, hinside]
  cases w.recentRange? <;> rfl

theorem inside?_valid {part : Range BlockNumber} (hfull : full.Valid)
    (h : w.inside? full = some part) : part.Valid := by
  unfold inside? at h
  split at h
  · cases h
    exact hfull
  · exact (between?_eq_some.mp h).2

theorem key_productRanges?_none (h : w.productRanges? p none = some d) : d.key = p.key := by
  rw [productRanges?_none] at h
  obtain ⟨part, -, rfl⟩ := Option.map_eq_some_iff.mp h
  rfl

theorem keys_productRanges?_none (w : RangeContext) (ps : List Product) :
    ((ps.filterMap (w.productRanges? · none)).map (·.key)).Sublist (ps.map (·.key)) := by
  induction ps with
  | nil => exact .slnil
  | cons p ps ih =>
    cases h : w.productRanges? p none with
    | none =>
      rw [List.filterMap_cons_none (f := (w.productRanges? · none)) h]
      exact ih.cons _
    | some d =>
      rw [List.filterMap_cons_some (f := (w.productRanges? · none)) h, List.map_cons,
        key_productRanges?_none h]
      exact ih.cons_cons _

theorem proper_productRanges?_none (h : w.productRanges? p none = some d) :
    Plan.ProperRanges d := by
  rw [productRanges?_none] at h
  obtain ⟨part, hpart, rfl⟩ := Option.map_eq_some_iff.mp h
  obtain ⟨full, hfull, hpart⟩ := Option.bind_eq_some_iff.mp hpart
  exact ⟨proper_block.mpr (inside?_valid (recentRange?_spec hfull).2.1 hpart), by simp, by simp⟩

end RangeContext

/-! ## One cycle -/

namespace Runner

variable {σ ρ : Type} [ImportStateStore σ BlockNumber] {i : Runner} {c : Conditions}
  {products : List Product} {b : RunnerState BlockNumber σ ρ} {g : Agenda}

section Recent

variable (recent : i.behaviour.mode = .recent)

include recent

theorem wanted_recent {d : ProductRanges BlockNumber} :
    d ∈ i.wanted c g b ↔ ∃ p ∈ g.products,
      (ImportStateStore.load b.states p.positionsKey).isOk = true ∧
        (i.window g.latest b.progress.lastImported).productRanges? p none = some d := by
  rw [wanted, (buildRanges_recent_eq recent c.sources rfl g.products b.states).1]
  simp only [List.mem_filterMap, List.mem_filter, and_assoc]

theorem allotted_recent (h : i.agenda? c products b = some g) :
    (∀ d ∈ i.wanted c g b, Plan.ProperRanges d) ∧
      Plan.Allotted i.optimizerOptions (i.wanted c g b) g.plan.queries := by
  have hproper : ∀ d ∈ i.wanted c g b, Plan.ProperRanges d := fun d hd => by
    obtain ⟨p, -, -, hdemand⟩ := (wanted_recent recent).mp hd
    exact RangeContext.proper_productRanges?_none hdemand
  exact ⟨hproper, Plan.choose_allotted (agenda?_eq_some h).2.2 fun _ => hproper⟩

variable [RecordSink ρ]

theorem results_valid_recent (h : i.agenda? c products b = some g) (records : ρ) :
    ∀ r ∈ i.resultsOf c g records, r.range.Valid := by
  intro r hr
  obtain ⟨f, hf, hr⟩ := List.mem_flatMap.mp hr
  have hkeys := (Product.collect_eq_ok (agenda?_eq_some h).1).1
  have hsent := (allotted_recent recent h).2.of_perm (c.queryOrder.perm g.plan.queries)
  exact (FetchedRange.results_valid (Cycle.fetched_valid hkeys hsent hf).2 hr).2

theorem valid_of_cycle : ∀ r ∈ (i.runCycle c products b).1.toOption.getD [], r.range.Valid := by
  intro r hr
  have h : i.runCycle c products b = ((i.runCycle c products b).1, (i.runCycle c products b).2) :=
    rfl
  rcases cycle_cases h with hearly | ⟨g, hg, hresults, -, -⟩
  · rw [hearly.results] at hr
    exact absurd hr List.not_mem_nil
  · rw [hresults] at hr
    exact results_valid_recent recent hg b.records r hr

end Recent

variable [RecordSink ρ]

theorem lastImported_cycle (i : Runner) (c : Conditions) (products : List Product)
    (b : RunnerState BlockNumber σ ρ) :
    (i.runCycle c products b).2.progress.lastImported =
      Cycle.furthest b.progress.lastImported ((i.runCycle c products b).1.toOption.getD []) := by
  have h : i.runCycleUnder (fun _ => c.cancelled) c products b =
      ((i.runCycle c products b).1, (i.runCycle c products b).2) := rfl
  rcases runCycleUnder_cases h with hearly | ⟨g, -, hcomplete⟩
  · rw [hearly.results, hearly.lastImported]
    rfl
  · rw [hcomplete.ending, hcomplete.lastImported]
    rfl

end Runner

/-! ## Cycles one after the other -/

/-- A cycle over some products, with what it finds outside and the states that it finds. -/
structure RunnerCycle (σ : Type) where
  conditions : Runner.Conditions
  products : List Product
  states : σ

namespace Runner

variable {σ ρ : Type} [ImportStateStore σ BlockNumber] [RecordSink ρ] {i : Runner}
  {x : RunnerCycle σ} {xs ys : List (RunnerCycle σ)} {b : RunnerState BlockNumber σ ρ}

def cycleAll (i : Runner) (xs : List (RunnerCycle σ)) (b : RunnerState BlockNumber σ ρ) :
    List (Ending BlockNumber × σ) × RunnerState BlockNumber σ ρ :=
  Cycle.sequence (xs.map fun x => (x.states, i.runCycle x.conditions x.products)) b

def resultsAll (i : Runner) (xs : List (RunnerCycle σ)) (b : RunnerState BlockNumber σ ρ) :
    List (ImportRangeResult BlockNumber) :=
  (i.cycleAll xs b).1.flatMap (·.1.toOption.getD [])

def begun (x : RunnerCycle σ) (b : RunnerState BlockNumber σ ρ) : RunnerState BlockNumber σ ρ :=
  { b with states := x.states }

theorem cycleAll_cons :
    (i.cycleAll (x :: xs) b).2 =
      (i.cycleAll xs (i.runCycle x.conditions x.products (begun x b)).2).2 := rfl

theorem resultsAll_cons :
    i.resultsAll (x :: xs) b =
      (i.runCycle x.conditions x.products (begun x b)).1.toOption.getD [] ++
        i.resultsAll xs (i.runCycle x.conditions x.products (begun x b)).2 := rfl

theorem lastImported_cycleAll (i : Runner) (xs : List (RunnerCycle σ))
    (b : RunnerState BlockNumber σ ρ) :
    (i.cycleAll xs b).2.progress.lastImported =
      Cycle.furthest b.progress.lastImported (i.resultsAll xs b) := by
  induction xs generalizing b with
  | nil => rfl
  | cons x xs ih =>
    rw [cycleAll_cons, ih, lastImported_cycle, resultsAll_cons, Cycle.furthest_append]
    rfl

theorem valid_resultsAll (recent : i.behaviour.mode = .recent) (xs : List (RunnerCycle σ))
    (b : RunnerState BlockNumber σ ρ) : ∀ r ∈ i.resultsAll xs b, r.range.Valid := by
  induction xs generalizing b with
  | nil => exact fun _ hr => absurd hr List.not_mem_nil
  | cons x xs ih =>
    intro r hr
    rw [resultsAll_cons] at hr
    exact (List.mem_append.mp hr).elim (valid_of_cycle recent r) (ih _ r)

/-- Some cycle has imported the block, of whichever product. -/
def Imported (i : Runner) (xs : List (RunnerCycle σ)) (b : RunnerState BlockNumber σ ρ)
    (block : BlockNumber) : Prop :=
  ∃ r ∈ i.resultsAll xs b, r.success = true ∧ block ∈ r.range

/-- From a fresh start, what lies above the mark is what lies above all that was imported. -/
theorem beyond_cycleAll (recent : i.behaviour.mode = .recent)
    (fresh : b.progress.lastImported = none) {block : BlockNumber} :
    Beyond (i.cycleAll xs b).2.progress.lastImported block ↔
      ∀ done, i.Imported xs b done → done < block := by
  rw [lastImported_cycleAll, Cycle.beyond_furthest, fresh, and_iff_right (beyond_none block)]
  constructor
  · intro h done ⟨r, hr, hsuccess, hdone⟩
    simp only [mem_def, coord_block] at hdone
    have hlast := h r hr hsuccess
    rw [UInt64.lt_iff_toNat_lt] at hlast ⊢
    omega
  · intro h r hr hsuccess
    exact h r.range.last ⟨r, hr, hsuccess,
      (proper_block.mpr (valid_resultsAll recent xs b r hr)).last_mem⟩

/-- **The mark.** A runner of recent blocks has been through any cycles: with whatever products,
frontiers, answers and states, called off or not. In the next one a product whose state can be
loaded is given the blocks of the window below the head that lie above all blocks imported so far,
of whichever product. It is given every such block and no other. -/
theorem recent_range_above_imported (recent : i.behaviour.mode = .recent)
    (unforced : i.behaviour.forced = none) (fresh : b.progress.lastImported = none)
    (xs : List (RunnerCycle σ)) (sources : Sources) (latest : BlockNumber) {products : List Product}
    {p : Product} (hp : p ∈ products) {states : σ}
    (loads : (ImportStateStore.load states p.positionsKey).isOk = true) (block : BlockNumber) :
    let w := i.window latest (i.cycleAll xs b).2.progress.lastImported
    (∃ d ∈ (i.buildRanges sources w products states).1, d.key = p.key ∧ block ∈ d.full) ↔
      ∃ head, latest.minus? i.behaviour.unsettled = some head ∧ block ≤ head ∧
        head.toNat ≤ block.toNat + min i.limits.maxSpan i.chain.blocksPerHour ∧
        ∀ done, i.Imported xs b done → done < block := by
  intro w
  have hwindow : (∃ full, w.recentRange? = some full ∧ block ∈ full) ↔
      ∃ head, latest.minus? i.behaviour.unsettled = some head ∧ block ≤ head ∧
        head.toNat ≤ block.toNat + min i.limits.maxSpan i.chain.blocksPerHour ∧
        Beyond (i.cycleAll xs b).2.progress.lastImported block := RangeContext.mem_recentRange?
  simp only [beyond_cycleAll recent fresh] at hwindow
  rw [← hwindow, (buildRanges_recent_eq recent sources rfl products states).1]
  simp only [List.mem_filterMap, List.mem_filter,
    RangeContext.productRanges?_unforced (w := w) unforced, Option.map_eq_some_iff]
  constructor
  · rintro ⟨d, ⟨q, -, full, hfull, rfl⟩, -, hblock⟩
    exact ⟨full, hfull, hblock⟩
  · rintro ⟨full, hfull, hblock⟩
    exact ⟨_, ⟨p, ⟨hp, loads⟩, full, hfull, rfl⟩, rfl, hblock⟩

end Runner

/-! ## Two vaults, one after the other -/

namespace RecentVaults

open StrictCycle (product)
open FourCycles (other healthy)

/-- The first vault comes alone. Then both come, and of two queries over [41, 45] one fails. -/
def cycles : List (RunnerCycle (MemoryImportStateStore BlockNumber)) :=
  [⟨healthy 40, [product], ⟨.empty⟩⟩,
    ⟨{ healthy 45 with sources :=
        { (healthy 45).sources with transfers := fun range tokens =>
            if tokens = [product.contract] then .error .timeout
            else (healthy 45).sources.transfers range tokens } },
      [product, other], ⟨.empty⟩⟩]

/-- What the second vault has imported moves the first one on. -/
theorem recent_range_above_imported_vaults :
    runner.resultsAll cycles (initial {}) =
        [⟨"vault", ⟨31, 34⟩, true, 40⟩, ⟨"vault", ⟨36, 40⟩, true, 40⟩,
          ⟨"vault", ⟨35, 35⟩, true, 40⟩,
          ⟨"another vault", ⟨41, 45⟩, true, 45⟩, ⟨"vault", ⟨41, 45⟩, false, 45⟩] ∧
      ∀ block, (∃ d ∈ (runner.buildRanges (healthy 50).sources (runner.window 50 (some 45))
          [product, other] ({} : MemoryImportStateStore BlockNumber)).1, d.key = "vault" ∧
            block ∈ d.full) ↔
        ∃ head, BlockNumber.minus? 50 0 = some head ∧ block ≤ head ∧
          head.toNat ≤ block.toNat + 10 ∧
          ∀ done, runner.Imported cycles (initial {}) done → done < block := by
  have hmark : (runner.cycleAll cycles (initial {})).2.progress.lastImported = some 45 := by
    decide +kernel
  refine ⟨by decide +kernel, fun block => ?_⟩
  have hp : product ∈ [product, other] := List.mem_cons_self ..
  have loads :
      (ImportStateStore.load ({} : MemoryImportStateStore BlockNumber) product.positionsKey).isOk =
        true :=
    rfl
  have h := Runner.recent_range_above_imported (i := runner) (b := initial {}) rfl rfl rfl cycles
    (healthy 50).sources 50 hp loads block
  rw [hmark] at h
  exact h

/-- The second vault comes when the first one has been imported up to the head. Though blocks 30 to
40 lie in the window, and no cycle ever had a result of the second vault, it is given no range. -/
theorem other_vault_passed_over :
    let before := [(⟨healthy 40, [product], {}⟩ : RunnerCycle (MemoryImportStateStore BlockNumber))]
    let w := runner.window 40 (runner.cycleAll before (initial {})).2.progress.lastImported
    (∀ r ∈ runner.resultsAll before (initial {}), r.key ≠ other.key) ∧
      (runner.window 40 none).recentRange? = some ⟨30, 40⟩ ∧
      (runner.buildRanges (healthy 40).sources w [other]
        ({} : MemoryImportStateStore BlockNumber)).1 = [] := by
  decide +kernel

end RecentVaults

end Backfill
