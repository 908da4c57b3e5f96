import Backfill.Proofs.Cycle.Once
import Backfill.Mock.Stores

/-!
# Stores of import states that may fail

A store may refuse to load, save or change a state, and it may forget one. As long as it makes
nothing up, cycles cover nothing that did not succeed. What they do not give up is little: not all
that succeeds need be covered, and a block may succeed in two cycles.

Results:
* `HonestImportStateStore`: stores in memory are honest, and so is one that fails for some keys.
* `buildRanges_honest`, `Cycle.updateStates_honest`: the two steps of a cycle that touch the store.
* `CycleRun.covered_afterAll_honest`: what is covered was covered before or has succeeded.
-/
namespace Backfill

open Axis Range

/-- A store that makes nothing up: under a key there is what was there before or what has been put
there, or there is nothing. -/
class HonestImportStateStore (σ : Type) (α : outParam Type) [ImportStateStore σ α] : Prop where
  load_save : ∀ {states states' : σ} {s : ImportState α},
    ImportStateStore.save states s = .ok states' → ∀ key,
      ImportStateStore.load states' key = ImportStateStore.load states key ∨
        ImportStateStore.load states' key = .ok (some s)
  load_update : ∀ {states states' : σ} {key : String} {change : ImportState α → ImportState α}
    {found : Option (ImportState α)},
    ImportStateStore.update states key change = .ok (found, states') →
      ∀ key', ImportStateStore.load states' key' = ImportStateStore.load states key' ∨ key' = key ∧
        (ImportStateStore.load states' key = .ok none ∨
          ∃ s, ImportStateStore.load states key = .ok (some s) ∧
            ImportStateStore.load states' key = .ok (some (change s)))
  load_reset : ∀ (states : σ) (key key' : String),
    ImportStateStore.load (ImportStateStore.reset states key) key' =
      ImportStateStore.load states key' ∨
      key' = key ∧ ImportStateStore.load (ImportStateStore.reset states key) key = .ok none

instance (α : Type) : HonestImportStateStore (MemoryImportStateStore α) α where
  load_save h key := by
    cases h
    simp only [ImportStateStore.load, Table.get?_put]
    split
    · exact .inr rfl
    · exact .inl rfl
  load_update {states states' key change found} h key' := by
    simp only [ImportStateStore.update] at h
    split at h
    · cases h
      exact .inl rfl
    · next s hs =>
      cases h
      simp only [ImportStateStore.load, Table.get?_put]
      by_cases hkey : key = key'
      · subst hkey
        exact .inr ⟨rfl, .inr ⟨s, by rw [hs], by simp⟩⟩
      · exact .inl (by rw [if_neg hkey])
  load_reset states key key' := by
    simp only [ImportStateStore.load, ImportStateStore.reset, Table.get?_erase]
    by_cases hkey : key = key'
    · exact .inr ⟨hkey.symm, by simp⟩
    · exact .inl (by rw [if_neg hkey])

namespace Unreliable

variable {σ α : Type} [ImportStateStore σ α] [HonestImportStateStore σ α]

/-- To change a state that may have been forgotten just before is honest as well. -/
theorem load_update_vanishing {inner inner' : σ} {key : String} {forgets : Prop}
    [Decidable forgets] {change : ImportState α → ImportState α} {found : Option (ImportState α)}
    (h : ImportStateStore.update (if forgets then ImportStateStore.reset inner key else inner) key
      change = .ok (found, inner')) (key' : String) :
    ImportStateStore.load inner' key' = ImportStateStore.load inner key' ∨ key' = key ∧
      (ImportStateStore.load inner' key = .ok none ∨
        ∃ s, ImportStateStore.load inner key = .ok (some s) ∧
          ImportStateStore.load inner' key = .ok (some (change s))) := by
  have hreset : ∀ key',
      ImportStateStore.load (if forgets then ImportStateStore.reset inner key else inner) key' =
        ImportStateStore.load inner key' ∨ key' = key ∧
        ImportStateStore.load (if forgets then ImportStateStore.reset inner key else inner) key =
          .ok none := by
    intro key'
    split
    · exact HonestImportStateStore.load_reset inner key key'
    · exact .inl rfl
  rcases HonestImportStateStore.load_update h key' with hsame | ⟨rfl, hnone | ⟨s, hs, hs'⟩⟩
  · rcases hreset key' with heq | ⟨rfl, hnone⟩
    · exact .inl (hsame.trans heq)
    · exact .inr ⟨rfl, .inl (hsame.trans hnone)⟩
  · exact .inr ⟨rfl, .inl hnone⟩
  · rcases hreset key' with heq | ⟨-, hnone⟩
    · exact .inr ⟨rfl, .inr ⟨s, heq ▸ hs, hs'⟩⟩
    · rw [hs] at hnone
      cases hnone

end Unreliable

instance {σ α : Type} [ImportStateStore σ α] [HonestImportStateStore σ α] :
    HonestImportStateStore (Unreliable σ) α where
  load_save {u u' s} h key := by
    obtain ⟨inner, hsave, rfl⟩ := Unreliable.save_eq_ok h
    simp only [Unreliable.load_eq]
    split
    · exact .inl rfl
    · exact HonestImportStateStore.load_save hsave key
  load_update {u u' key change found} h key' := by
    obtain ⟨inner', hupdate, rfl⟩ := Unreliable.update_eq_ok h
    simp only [Unreliable.load_eq]
    split
    · exact .inl rfl
    · next hread =>
      rcases Unreliable.load_update_vanishing hupdate key' with hsame | ⟨rfl, hfound⟩
      · exact .inl hsame
      · rw [if_neg hread, if_neg hread]
        exact .inr ⟨rfl, hfound⟩
  load_reset u key key' := by
    simp only [ImportStateStore.reset, Unreliable.load_eq]
    split
    · exact .inl rfl
    · rcases HonestImportStateStore.load_reset u.inner key key' with heq | ⟨rfl, hnone⟩
      · exact .inl heq
      · next hread => exact .inr ⟨rfl, by rw [if_neg hread, hnone]⟩

/-! ## What is added to coverage -/

variable {σ ρ : Type} [ImportStateStore σ BlockNumber]

def AllSound (states : σ) : Prop := ∀ key, (coverageOf (ImportStateStore.load states key)).Sound

/-- From one store to another, blocks are covered at most that are given. -/
def Adds (more : String → BlockNumber → Prop) (states states' : σ) : Prop :=
  AllSound states → AllSound states' ∧ ∀ key b,
    Holds (coverageOf (ImportStateStore.load states' key)).covered b →
      Holds (coverageOf (ImportStateStore.load states key)).covered b ∨ more key b

namespace Adds

variable {more : String → BlockNumber → Prop} {s₁ s₂ s₃ : σ}

theorem refl (s : σ) : Adds more s s := fun hs => ⟨hs, fun _ _ h => .inl h⟩

theorem trans (h : Adds more s₁ s₂) (h' : Adds more s₂ s₃) : Adds more s₁ s₃ := by
  intro hs
  obtain ⟨hs₂, hadd⟩ := h hs
  obtain ⟨hs₃, hadd'⟩ := h' hs₂
  exact ⟨hs₃, fun key b hb => (hadd' key b hb).elim (hadd key b) .inr⟩

/-- Each coverage is left, lost, or has outcomes applied that are among the given ones. -/
theorem of_cases (h : ∀ key, coverageOf (ImportStateStore.load s₂ key) =
      coverageOf (ImportStateStore.load s₁ key) ∨ coverageOf (ImportStateStore.load s₂ key) = {} ∨
      ∃ now os, coverageOf (ImportStateStore.load s₂ key) =
          (coverageOf (ImportStateStore.load s₁ key)).applyResults now os ∧
        ∀ o ∈ os, o.range.Proper ∧ (o.success = true → ∀ b ∈ o.range, more key b)) :
    Adds more s₁ s₂ := by
  intro hs
  refine ⟨fun key => ?_, fun key b hb => ?_⟩
  · rcases h key with heq | heq | ⟨now, os, heq, hos⟩
    · exact heq ▸ hs key
    · exact heq ▸ ImportRanges.sound_empty
    · exact heq ▸ (hs key).applyResults fun o ho => (hos o ho).1
  · rcases h key with heq | heq | ⟨now, os, heq, hos⟩
    · exact .inl (heq ▸ hb)
    · rw [heq] at hb
      simp at hb
    · rw [heq, ImportRanges.holds_covered_applyResults (hs key) (fun o ho => (hos o ho).1)
        (whole_block b)] at hb
      exact hb.imp_right fun ⟨o, ho, hsuccess, hb⟩ => (hos o ho).2 hsuccess b hb

end Adds

/-! ## A cycle on an honest store -/

variable [HonestImportStateStore σ BlockNumber]

section Demands

variable {i : Runner} {sources : Sources} {w : RangeContext} {m : String → BlockNumber → Prop}

/-- To make a state covers nothing, and what a product wants is in order. -/
theorem productRanges?_honest (historical : i.behaviour.mode = .historical) (p : Product)
    (states : σ) :
    Adds m states (i.productRanges? sources w p states).2.1 ∧
      (AllSound states → w.behaviour.mode = .historical →
        ∀ d, (i.productRanges? sources w p states).1 = some d → Plan.ProperRanges d) := by
  have hnothing {d : ProductRanges BlockNumber} (hd : none = some d) :
      Plan.ProperRanges d := by cases hd
  simp only [Runner.productRanges?, historical]
  rcases hload : ImportStateStore.load states p.positionsKey with fault | none | s
  · exact ⟨.refl states, fun _ _ _ => hnothing⟩
  · cases hcreate : Runner.createImportState sources p states with
    | mk s? rest =>
      obtain ⟨made, more⟩ := rest
      rcases createState_cases hcreate with ⟨rfl, rfl⟩ | ⟨origin, time, rfl, hsave⟩
      · exact ⟨.refl _, fun _ _ _ => hnothing⟩
      refine ⟨.of_cases fun key => ?_, fun _ hw d hd =>
        RangeContext.proper_demand hw hd ImportRanges.sound_empty⟩
      rcases HonestImportStateStore.load_save hsave key with heq | heq
      · exact .inl (congrArg coverageOf heq)
      · exact .inr (.inl (congrArg coverageOf heq))
  · refine ⟨.refl states, fun hs hw d hd => RangeContext.proper_demand hw hd ?_⟩
    have hsound := hs p.positionsKey
    rwa [hload] at hsound

theorem buildRanges_honest (historical : i.behaviour.mode = .historical) (ps : List Product)
    (states : σ) :
    Adds m states (i.buildRanges sources w ps states).2.1 ∧
      (AllSound states → w.behaviour.mode = .historical →
        ∀ d ∈ (i.buildRanges sources w ps states).1, Plan.ProperRanges d) := by
  induction ps generalizing states with
  | nil => exact ⟨.refl states, fun _ _ _ hd => absurd hd List.not_mem_nil⟩
  | cons p ps ih =>
    obtain ⟨hadds, hproper⟩ := productRanges?_honest historical p states
    obtain ⟨hadds', hproper'⟩ := ih (i.productRanges? sources w p states).2.1
    refine ⟨hadds.trans hadds', fun hs hw d hd => ?_⟩
    rcases List.mem_append.mp hd with hd | hd
    · exact hproper hs hw d (Option.mem_toList.mp hd)
    · exact hproper' (hadds hs).1 hw d hd

end Demands

/-- To fold outcomes covers at most what has succeeded. -/
theorem Cycle.updateStates_honest (now : UInt64) {results : List (ImportRangeResult BlockNumber)}
    {ps : List Product} {more : String → BlockNumber → Prop}
    (hos : ∀ p ∈ ps, ∀ o ∈ outcomesOf p.key results,
      o.range.Proper ∧ (o.success = true → ∀ b ∈ o.range, more p.positionsKey b)) (states : σ) :
    Adds more states (updateStates now Product.positionsKey results ps states).1 := by
  induction ps generalizing states with
  | nil => exact .refl states
  | cons p ps ih =>
    rw [List.forall_mem_cons] at hos
    have ih := ih hos.2
    cases hout : outcomesOf p.key results with
    | nil =>
      simp only [updateStates, hout]
      exact ih states
    | cons o os =>
      cases hupdate : ImportStateStore.update states p.positionsKey
          (ImportState.applyResults now · (o :: os)) with
      | error fault =>
        simp only [updateStates, hout, hupdate]
        exact ih states
      | ok x =>
        simp only [updateStates, hout, hupdate]
        refine .trans (.of_cases fun key => ?_) (ih x.2)
        rcases HonestImportStateStore.load_update hupdate key with heq | ⟨rfl, hnone | ⟨s, hs, hs'⟩⟩
        · exact .inl (congrArg coverageOf heq)
        · exact .inr (.inl (congrArg coverageOf hnone))
        · refine .inr (.inr ⟨now, o :: os, ?_, hout ▸ hos.1⟩)
          rw [hs, hs']
          rfl

/-! ## Cycles on an honest store -/

namespace CycleRun

variable [RecordSink ρ] {t : CycleRun ρ} {states : σ} {g : Agenda}

omit [RecordSink ρ] in
theorem allotted_honest (hs : AllSound states) (historical : t.runner.behaviour.mode = .historical)
    (hg : t.agenda? states = some g) :
    ∃ limits ds, Plan.Allotted limits ds g.plan.queries :=
  ⟨_, _, Plan.choose_allotted (Runner.agenda?_eq_some hg).2.2 fun _ =>
    (buildRanges_honest (m := fun _ _ => False) historical _ states).2 hs historical⟩

/-- A cycle covers at most what succeeds in it. -/
theorem adds_after (historical : t.runner.behaviour.mode = .historical) :
    Adds (fun key b => ∃ o ∈ t.outcomes states key, o.success = true ∧ b ∈ o.range) states
      (t.after states) := by
  intro hs
  rcases run_cases t states with ⟨-, hafter | ⟨w, ps, hafter⟩⟩ | ⟨g, hg, hresults, hafter⟩
  · rw [hafter]
    exact Adds.refl states hs
  · rw [hafter]
    exact (buildRanges_honest historical ps states).1 hs
  obtain ⟨hproducts, hkeys⟩ := products_of_agenda hg
  obtain ⟨limits, ds, hplan⟩ := allotted_honest hs historical hg
  have hsent := hplan.of_perm (t.conditions.queryOrder.perm g.plan.queries)
  rw [hafter, Runner.folded, historical]
  refine Adds.trans (buildRanges_honest historical g.products states).1
    (Cycle.updateStates_honest t.conditions.now (fun p hp o ho => ⟨?_, fun hsuccess b hb => ?_⟩)
      _) hs
  · exact Cycle.outcomes_valid hkeys hsent o ho
  · refine ⟨o, ?_, hsuccess, hb⟩
    rw [outcomes_historical historical, hresults]
    exact List.mem_flatMap.mpr ⟨p, List.mem_filter.mpr ⟨hproducts ▸ hp, by simp⟩, ho⟩

variable {ts : List (CycleRun ρ)} {p : Product} {b : BlockNumber}

theorem sound_afterAll_honest (hs : AllSound states)
    (historical : ∀ t ∈ ts, t.runner.behaviour.mode = .historical) :
    AllSound (afterAll ts states) := by
  induction ts generalizing states with
  | nil => exact hs
  | cons t ts ih =>
    rw [List.forall_mem_cons] at historical
    exact ih (adds_after historical.1 hs).1 historical.2

/-- **Nothing made up.** On an honest store a block of a product is covered in the end only if it
was so from the start or has succeeded in some cycle. -/
theorem covered_afterAll_honest (hs : AllSound states)
    (historical : ∀ t ∈ ts, t.runner.behaviour.mode = .historical)
    (distinct : ∀ t ∈ ts, (t.products.map (·.id)).Nodup)
    (h : Holds (coverageOf (ImportStateStore.load (afterAll ts states) p.positionsKey)).covered b) :
    Holds (coverageOf (ImportStateStore.load states p.positionsKey)).covered b ∨
      ∃ before t later, ts = before ++ t :: later ∧
        Holds (t.imported p (afterAll before states)) b := by
  induction ts generalizing states with
  | nil => exact .inl h
  | cons t ts ih =>
    rw [List.forall_mem_cons] at historical distinct
    obtain ⟨hs', hadds⟩ := adds_after historical.1 hs
    rcases ih hs' historical.2 distinct.2 h with hb | ⟨before, u, later, rfl, hu⟩
    · refine (hadds _ b hb).imp_right fun ho => ⟨[], t, ts, rfl, ?_⟩
      rw [afterAll, ← ranges_outcomes distinct.1 historical.1, RangeOutcome.holds_ranges]
      exact ho
    · exact .inr ⟨t :: before, u, later, rfl, hu⟩

end CycleRun

end Backfill
