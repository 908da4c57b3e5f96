import Backfill.ImportState.Basic
import Backfill.Proofs.Range.Sets

/-!
# What outcomes make of a coverage

An outcome acts on two lists at once: a success adds to what is covered and takes from what waits, a
failure adds to what waits as far as it is not covered. `Sound` is what all of them keep: both lists
are in normal form, and no position is in both.

Results:
* `Proper.applyResults_perm`: outcomes come to the same in any order, whatever coverage they are
  applied to.
* `reached_sound`: every coverage reached from the empty one is sound, and no step forgets a
  position.
* `applyResults_closed`: any number of outcomes comes to one union and one difference, so neither
  their order nor their repetition matters.
-/
namespace Backfill

open Axis Range

variable {α : Type} [Axis α]

/-- The ranges of the outcomes that came out so. -/
def RangeOutcome.ranges (success : Bool) (os : List (RangeOutcome α)) : List (Range α) :=
  (os.filter (·.success == success)).map (·.range)

theorem RangeOutcome.holds_ranges {success : Bool} {os : List (RangeOutcome α)} {a : α} :
    Holds (ranges success os) a ↔ ∃ o ∈ os, o.success = success ∧ a ∈ o.range := by
  simp only [Holds, ranges, List.mem_map, List.mem_filter, beq_iff_eq]
  constructor
  · rintro ⟨r, ⟨o, ⟨ho, hs⟩, rfl⟩, ha⟩
    exact ⟨o, ho, hs, ha⟩
  · rintro ⟨o, ho, hs, ha⟩
    exact ⟨o.range, ⟨o, ⟨ho, hs⟩, rfl⟩, ha⟩

omit [Axis α] in
theorem RangeOutcome.ranges_sublist (success : Bool) (os : List (RangeOutcome α)) :
    (ranges success os).Sublist (os.map (·.range)) := List.filter_sublist.map _

theorem RangeOutcome.ranges_proper {success : Bool} {os : List (RangeOutcome α)}
    (h : ∀ o ∈ os, o.range.Proper) : ∀ r ∈ ranges success os, r.Proper := by
  intro r hr
  obtain ⟨o, ho, rfl⟩ := List.mem_map.mp hr
  exact h o (List.mem_filter.mp ho).1

attribute [ext] ImportRanges

namespace ImportRanges

/-- Both lists are in normal form, and nothing that is covered waits. -/
structure Sound (c : ImportRanges α) : Prop where
  covered : Normal c.covered
  toRetry : Normal c.toRetry
  disjoint : ∀ a, Whole a → Holds c.covered a → ¬ Holds c.toRetry a

theorem Sound.of_empty {c : ImportRanges α} (hc : c.covered = []) (hr : c.toRetry = []) : c.Sound :=
  ⟨hc ▸ .nil, hr ▸ .nil, by simp [hc]⟩

theorem sound_empty : Sound ({} : ImportRanges α) := .of_empty rfl rfl

/-- All ranges are proper. They may overlap and come in any order, and what is covered may wait. -/
structure Proper (c : ImportRanges α) : Prop where
  covered : ∀ r ∈ c.covered, r.Proper
  toRetry : ∀ r ∈ c.toRetry, r.Proper

theorem Sound.toProper {c : ImportRanges α} (hc : c.Sound) : c.Proper :=
  ⟨hc.covered.proper, hc.toRetry.proper⟩

/-! ## One outcome -/

section Apply

variable {now : UInt64} {c : ImportRanges α} {o o' : RangeOutcome α} {a : α}

private theorem append_proper {rs : List (Range α)} {r : Range α} (h : ∀ s ∈ rs, s.Proper)
    (hr : r.Proper) : ∀ s ∈ rs ++ [r], s.Proper := fun s hs =>
  (List.mem_append.mp hs).elim (h s) fun hs => List.mem_singleton.mp hs ▸ hr

private theorem singleton_proper {r : Range α} (hr : r.Proper) : ∀ s ∈ [r], s.Proper :=
  fun _ hs => List.mem_singleton.mp hs ▸ hr

@[simp] theorem lastImport_applyResult : (c.applyResult now o).lastImport = now := by
  unfold applyResult
  split <;> rfl

theorem covered_applyResult : (c.applyResult now o).covered =
    if o.success then merge (c.covered ++ [o.range]) else c.covered := by
  unfold applyResult
  split <;> rfl

namespace Proper

variable (hc : c.Proper) (ho : o.range.Proper)

include hc ho

theorem holds_covered_applyResult (ha : Whole a) :
    Holds (c.applyResult now o).covered a ↔ Holds c.covered a ∨ o.success = true ∧ a ∈ o.range := by
  rw [covered_applyResult]
  split
  · next hs => simp [holds_merge (append_proper hc.covered ho) ha, hs]
  · next hs => simp [hs]

theorem holds_toRetry_applyResult (ha : Whole a) :
    Holds (c.applyResult now o).toRetry a ↔
      if o.success then Holds c.toRetry a ∧ a ∉ o.range
      else (Holds c.toRetry a ∨ a ∈ o.range) ∧ ¬ Holds c.covered a := by
  have hadd := append_proper hc.toRetry ho
  unfold ImportRanges.applyResult
  split
  · simp [holds_exclude hc.toRetry (singleton_proper ho) ha]
  · simp [holds_exclude (normal_merge hadd).proper hc.covered ha, holds_merge hadd ha]

theorem normal_toRetry_applyResult : Normal (c.applyResult now o).toRetry := by
  unfold ImportRanges.applyResult
  split
  · exact normal_exclude hc.toRetry (singleton_proper ho)
  · exact normal_exclude (normal_merge (append_proper hc.toRetry ho)).proper hc.covered

theorem applyResult : (c.applyResult now o).Proper where
  covered := by
    rw [covered_applyResult]
    split
    · exact (normal_merge (append_proper hc.covered ho)).proper
    · exact hc.covered
  toRetry := (hc.normal_toRetry_applyResult ho).proper

/-- Two outcomes may change places. -/
theorem apply_comm (ho' : o'.range.Proper) :
    (c.applyResult now o).applyResult now o' = (c.applyResult now o').applyResult now o := by
  have hnext : (c.applyResult now o).Proper := hc.applyResult ho
  have hnext' : (c.applyResult now o').Proper := hc.applyResult ho'
  have hcovered : ((c.applyResult now o).applyResult now o').covered =
      ((c.applyResult now o').applyResult now o).covered := by
    simp only [covered_applyResult]
    cases o.success <;> cases o'.success
    · rfl
    · rfl
    · rfl
    · have hadd := append_proper hc.covered ho
      have hadd' := append_proper hc.covered ho'
      have hboth := append_proper (normal_merge hadd).proper ho'
      have hboth' := append_proper (normal_merge hadd').proper ho
      refine (normal_merge hboth).ext (normal_merge hboth') fun a ha => ?_
      rw [if_pos rfl, if_pos rfl, holds_merge hboth ha, holds_merge hboth' ha, holds_append,
        holds_append, holds_merge hadd ha, holds_merge hadd' ha, holds_append, holds_append]
      exact or_right_comm
  have htoRetry : ((c.applyResult now o).applyResult now o').toRetry =
      ((c.applyResult now o').applyResult now o).toRetry := by
    refine (hnext.normal_toRetry_applyResult ho').ext (hnext'.normal_toRetry_applyResult ho)
      fun a ha => ?_
    rw [hnext.holds_toRetry_applyResult ho' ha, hnext'.holds_toRetry_applyResult ho ha,
      hc.holds_toRetry_applyResult ho ha, hc.holds_toRetry_applyResult ho' ha,
      hc.holds_covered_applyResult ho ha, hc.holds_covered_applyResult ho' ha]
    cases o.success <;> cases o'.success <;> grind
  exact ImportRanges.ext (by rw [lastImport_applyResult, lastImport_applyResult]) hcovered htoRetry

end Proper

variable (hc : c.Sound) (ho : o.range.Proper)

include hc ho

theorem holds_covered_applyResult (ha : Whole a) :
    Holds (c.applyResult now o).covered a ↔ Holds c.covered a ∨ o.success = true ∧ a ∈ o.range :=
  hc.toProper.holds_covered_applyResult ho ha

theorem holds_toRetry_applyResult (ha : Whole a) :
    Holds (c.applyResult now o).toRetry a ↔
      (Holds c.toRetry a ∨ o.success = false ∧ a ∈ o.range) ∧
        ¬ Holds (c.applyResult now o).covered a := by
  have hdis := hc.disjoint a ha
  rw [holds_covered_applyResult hc ho ha, hc.toProper.holds_toRetry_applyResult ho ha]
  cases o.success <;> grind

theorem Sound.applyResult : (c.applyResult now o).Sound where
  covered := by
    rw [covered_applyResult]
    split
    · exact normal_merge (append_proper hc.covered.proper ho)
    · exact hc.covered
  toRetry := hc.toProper.normal_toRetry_applyResult ho
  disjoint a ha hm hm' := ((holds_toRetry_applyResult hc ho ha).mp hm').2 hm

end Apply

/-! ## Any number of outcomes -/

section ApplyAll

variable {now : UInt64} {c : ImportRanges α} {os : List (RangeOutcome α)} {a : α}

theorem applyResults_cons (now : UInt64) (c : ImportRanges α) (o : RangeOutcome α)
    (os : List (RangeOutcome α)) :
    c.applyResults now (o :: os) = (c.applyResult now o).applyResults now os := rfl

theorem Proper.applyResults (hc : c.Proper) (hos : ∀ o ∈ os, o.range.Proper) :
    (c.applyResults now os).Proper := by
  induction os generalizing c with
  | nil => exact hc
  | cons o os ih =>
    rw [List.forall_mem_cons] at hos
    exact ih (hc.applyResult hos.1) hos.2

/-- Outcomes come to the same in any order, whatever coverage they are applied to. -/
theorem Proper.applyResults_perm (hc : c.Proper) {os' : List (RangeOutcome α)} (h : os.Perm os')
    (hos : ∀ o ∈ os, o.range.Proper) : c.applyResults now os = c.applyResults now os' := by
  induction h generalizing c with
  | nil => rfl
  | cons o _ ih =>
    rw [List.forall_mem_cons] at hos
    exact ih (hc.applyResult hos.1) hos.2
  | swap o o' os =>
    simp only [List.forall_mem_cons] at hos
    simp only [applyResults_cons, hc.apply_comm hos.2.1 hos.1]
  | trans h _ ih ih' => exact (ih hc hos).trans (ih' hc fun o ho => hos o (h.mem_iff.mpr ho))

/-- When outcomes are applied makes no difference to the ranges. -/
theorem applyResults_now (c : ImportRanges α) (os : List (RangeOutcome α))
    (last now now' : UInt64) :
    ({ c with lastImport := last }.applyResults now' os).covered = (c.applyResults now os).covered ∧
      ({ c with lastImport := last }.applyResults now' os).toRetry =
        (c.applyResults now os).toRetry := by
  induction os generalizing c last with
  | nil => exact ⟨rfl, rfl⟩
  | cons o os ih =>
    have hstep : ({ c with lastImport := last } : ImportRanges α).applyResult now' o =
        { c.applyResult now o with lastImport := now' } := by
      unfold ImportRanges.applyResult
      split <;> rfl
    rw [applyResults_cons, applyResults_cons, hstep]
    exact ih (c.applyResult now o) now'

variable (hc : c.Sound) (hos : ∀ o ∈ os, o.range.Proper)

include hc hos

theorem Sound.applyResults : (c.applyResults now os).Sound := by
  induction os generalizing c with
  | nil => exact hc
  | cons o os ih =>
    rw [List.forall_mem_cons] at hos
    exact ih (hc.applyResult hos.1) hos.2

theorem holds_covered_applyResults (ha : Whole a) :
    Holds (c.applyResults now os).covered a ↔
      Holds c.covered a ∨ ∃ o ∈ os, o.success = true ∧ a ∈ o.range := by
  induction os generalizing c with
  | nil => simp [applyResults]
  | cons o os ih =>
    rw [List.forall_mem_cons] at hos
    rw [applyResults_cons, ih (hc.applyResult hos.1) hos.2, holds_covered_applyResult hc hos.1 ha]
    simp only [List.mem_cons, exists_eq_or_imp, or_assoc]

/-- A step cannot bring back what a later one covers, so only the last coverage counts. -/
theorem holds_toRetry_applyResults (ha : Whole a) :
    Holds (c.applyResults now os).toRetry a ↔
      (Holds c.toRetry a ∨ ∃ o ∈ os, o.success = false ∧ a ∈ o.range) ∧
        ¬ Holds (c.applyResults now os).covered a := by
  induction os generalizing c with
  | nil =>
    have hdis := hc.disjoint a ha
    simp only [applyResults, List.foldl_nil, List.not_mem_nil, false_and, exists_false, or_false]
    exact ⟨fun h => ⟨h, fun h' => hdis h' h⟩, And.left⟩
  | cons o os ih =>
    rw [List.forall_mem_cons] at hos
    have hkept : ¬ Holds ((c.applyResult now o).applyResults now os).covered a →
        ¬ Holds (c.applyResult now o).covered a := by
      rw [holds_covered_applyResults (hc.applyResult hos.1) hos.2 ha]
      exact fun h h' => h (.inl h')
    rw [applyResults_cons, ih (hc.applyResult hos.1) hos.2, holds_toRetry_applyResult hc hos.1 ha]
    simp only [List.mem_cons, exists_eq_or_imp]
    constructor
    · rintro ⟨(⟨h, -⟩ | h), h'⟩
      · exact ⟨h.elim .inl fun h => .inr (.inl h), h'⟩
      · exact ⟨.inr (.inr h), h'⟩
    · rintro ⟨h | h | h, h'⟩
      · exact ⟨.inl ⟨.inl h, hkept h'⟩, h'⟩
      · exact ⟨.inl ⟨.inr h, hkept h'⟩, h'⟩
      · exact ⟨.inr h, h'⟩

end ApplyAll

/-! ## Steps and runs -/

/-- What can happen to a coverage: one outcome, or several, at any time. -/
inductive Step (c : ImportRanges α) : ImportRanges α → Prop where
  | one (now : UInt64) (o : RangeOutcome α) (valid : o.range.Valid) : Step c (c.applyResult now o)
  | several (now : UInt64) (os : List (RangeOutcome α)) (valid : ∀ o ∈ os, o.range.Valid) :
      Step c (c.applyResults now os)

/-- A coverage reached from the empty one by any number of steps. -/
inductive Reached : ImportRanges α → Prop where
  | empty : Reached {}
  | step {c c' : ImportRanges α} (before : Reached c) (next : Step c c') : Reached c'

variable {c c' : ImportRanges BlockNumber}

theorem Sound.step (hc : c.Sound) (h : Step c c') : c'.Sound := by
  cases h with
  | one now o valid => exact hc.applyResult (proper_block.mpr valid)
  | several now os valid => exact hc.applyResults fun o ho => proper_block.mpr (valid o ho)

theorem Reached.sound (h : Reached c) : c.Sound := by
  induction h with
  | empty => exact sound_empty
  | step _ hstep ih => exact ih.step hstep

/-- One outcome is a list of one, so what holds of lists holds of every step. -/
theorem Step.exists_applyResults (h : Step c c') :
    ∃ now os, (∀ o ∈ os, o.range.Proper) ∧ c' = c.applyResults now os := by
  cases h with
  | one now o valid => exact ⟨now, [o], by simpa using valid, rfl⟩
  | several now os valid => exact ⟨now, os, fun o ho => proper_block.mpr (valid o ho), rfl⟩

theorem Step.keeps (h : Step c c') (hc : c.Sound) (b : BlockNumber) :
    (Holds c.covered b → Holds c'.covered b) ∧
      (Holds c.covered b ∨ Holds c.toRetry b → Holds c'.covered b ∨ Holds c'.toRetry b) := by
  obtain ⟨now, os, hos, rfl⟩ := h.exists_applyResults
  have hkeep : Holds c.covered b → Holds (c.applyResults now os).covered b := fun h =>
    (holds_covered_applyResults hc hos (whole_block b)).mpr (.inl h)
  refine ⟨hkeep, fun h => ?_⟩
  by_cases hnow : Holds (c.applyResults now os).covered b
  · exact .inl hnow
  · have hwaits : Holds c.toRetry b := h.resolve_left fun h' => hnow (hkeep h')
    exact .inr ((holds_toRetry_applyResults hc hos (whole_block b)).mpr ⟨.inl hwaits, hnow⟩)

/-- **Invariant.** Whatever outcomes brought a coverage about, both its lists are in normal form,
no block is in both, and no further step takes a block from what is covered, or from what is
covered or waits. -/
theorem reached_sound (h : Reached c) :
    Normal c.covered ∧ Normal c.toRetry ∧ (∀ b, ¬ (Holds c.covered b ∧ Holds c.toRetry b)) ∧
      ∀ c', Step c c' → ∀ b,
        (Holds c.covered b → Holds c'.covered b) ∧
          (Holds c.covered b ∨ Holds c.toRetry b → Holds c'.covered b ∨ Holds c'.toRetry b) :=
  have hc := h.sound
  ⟨hc.covered, hc.toRetry, fun b hb => hc.disjoint b (whole_block b) hb.1 hb.2,
    fun _ hstep b => hstep.keeps hc b⟩

/-- A failure up to the last block, then a success in the middle of it. -/
theorem reached_sound_at_top :
    let c := (({} : ImportRanges BlockNumber).applyResult 1
      ⟨⟨5, 18446744073709551615⟩, false⟩).applyResult 2
      ⟨⟨7, 9⟩, true⟩
    Reached c ∧ c.covered = [⟨7, 9⟩] ∧ c.toRetry = [⟨5, 6⟩, ⟨10, 18446744073709551615⟩] ∧
      Normal c.toRetry ∧ ∀ b, ¬ (Holds c.covered b ∧ Holds c.toRetry b) := by
  intro c
  have hreached : Reached c :=
    .step (.step .empty (.one 1 ⟨⟨5, 18446744073709551615⟩, false⟩ (by decide)))
      (.one 2 ⟨⟨7, 9⟩, true⟩ (by decide))
  have h := reached_sound hreached
  exact ⟨hreached, by decide, by decide, h.2.1, h.2.2.1⟩

/-! ## Outcomes in any order -/

/-- **Closed form.** Outcomes applied one after the other come to one union and one difference.
The same outcomes in another order, or some of them repeated, leave the same lists. -/
theorem applyResults_closed (hc : c.Sound) {os : List (RangeOutcome BlockNumber)}
    (valid : ∀ o ∈ os, o.range.Valid) (now : UInt64) :
    (c.applyResults now os).covered = merge (c.covered ++ RangeOutcome.ranges true os) ∧
      (c.applyResults now os).toRetry =
        exclude (c.toRetry ++ RangeOutcome.ranges false os) (c.applyResults now os).covered ∧
      ∀ (now' : UInt64) (os' : List (RangeOutcome BlockNumber)), (∀ o, o ∈ os' ↔ o ∈ os) →
        (c.applyResults now' os').covered = (c.applyResults now os).covered ∧
          (c.applyResults now' os').toRetry = (c.applyResults now os).toRetry := by
  have hos : ∀ o ∈ os, o.range.Proper := fun o ho => proper_block.mpr (valid o ho)
  have hproper : ∀ {rs : List (Range BlockNumber)} (success : Bool), Normal rs →
      ∀ r ∈ rs ++ RangeOutcome.ranges success os, r.Proper := by
    intro rs success hrs r hr
    rcases List.mem_append.mp hr with hr | hr
    · exact hrs.proper r hr
    · exact RangeOutcome.ranges_proper hos r hr
  have hnow : (c.applyResults now os).Sound := hc.applyResults hos
  refine ⟨?_, ?_, fun now' os' hsame => ?_⟩
  · refine hnow.covered.ext (normal_merge (hproper true hc.covered)) fun b hb => ?_
    rw [holds_covered_applyResults hc hos hb, holds_merge (hproper true hc.covered) hb,
      holds_append, RangeOutcome.holds_ranges]
  · refine hnow.toRetry.ext
      (normal_exclude (hproper false hc.toRetry) hnow.covered.proper) fun b hb => ?_
    rw [holds_toRetry_applyResults hc hos hb,
      holds_exclude (hproper false hc.toRetry) hnow.covered.proper hb, holds_append,
      RangeOutcome.holds_ranges]
  · have hos' : ∀ o ∈ os', o.range.Proper := fun o ho => hos o ((hsame o).mp ho)
    have hnow' : (c.applyResults now' os').Sound := hc.applyResults hos'
    have hcovered : (c.applyResults now' os').covered = (c.applyResults now os).covered := by
      refine hnow'.covered.ext hnow.covered fun b hb => ?_
      simp only [holds_covered_applyResults hc hos' hb, holds_covered_applyResults hc hos hb, hsame]
    refine ⟨hcovered, hnow'.toRetry.ext hnow.toRetry fun b hb => ?_⟩
    simp only [holds_toRetry_applyResults hc hos' hb, holds_toRetry_applyResults hc hos hb,
      hsame, hcovered]

/-- A failure before and after a success of the same blocks, at either end of the axis. -/
theorem applyResults_closed_overlapping :
    let c : ImportRanges BlockNumber := { covered := [⟨0, 3⟩], toRetry := [⟨8, 9⟩] }
    let os : List (RangeOutcome BlockNumber) :=
      [⟨⟨2, 18446744073709551615⟩, false⟩, ⟨⟨4, 8⟩, true⟩, ⟨⟨0, 6⟩, false⟩]
    c.Sound ∧ (∀ o ∈ os, o.range.Valid) ∧ (c.applyResults 1 os).covered = [⟨0, 8⟩] ∧
      (c.applyResults 1 os).toRetry = [⟨9, 18446744073709551615⟩] ∧
      (c.applyResults 2 (os.reverse ++ os)).toRetry = (c.applyResults 1 os).toRetry := by
  intro c os
  have hc : c.Sound := by
    refine ⟨.singleton (by simp; decide), .singleton (by simp; decide), fun b _ hb hb' => ?_⟩
    simp only [c, holds_cons, holds_nil, or_false, mem_def, coord_block] at hb hb'
    have : (3 : BlockNumber).toNat = 3 ∧ (8 : BlockNumber).toNat = 8 := by decide
    omega
  have hv : ∀ o ∈ os, o.range.Valid := by decide
  refine ⟨hc, hv, by decide, by decide, ?_⟩
  exact ((applyResults_closed hc hv 1).2.2 2 (os.reverse ++ os) (by simp)).2

end ImportRanges
end Backfill
