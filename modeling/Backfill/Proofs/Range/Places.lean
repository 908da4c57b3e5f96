import Backfill.ImportState.Basic
import Backfill.Proofs.Range.Grid

/-!
# Ranges by the steps that they meet

Every position of an axis lies in some step, also one off the grid, and `place` tells in which.
Neighbours are fused only when no step lies between them. So a step that a union meets is met by one
of its parts, whatever the positions, and a step that is covered was covered before, or has
succeeded. Ranges need neither be valid nor end on the grid for that.

Results:
* `Range.exists_meets_of_merge`: the steps of a union.
* `ImportRanges.exists_meets_of_applyResults`: the steps that are covered.
-/
namespace Backfill

open Axis

namespace Range

variable {α : Type} [Axis α] {r : Range α} {rs : List (Range α)} {a b : α} {n : Int}

theorem place_mono (h : coord a ≤ coord b) : place a ≤ place b :=
  Int.ediv_le_ediv (unit_pos (α := α)) h

theorem place_stepUp_le (a : α) (steps : Nat) : place (stepUp a steps) ≤ place a + steps := by
  have hle : coord (stepUp a steps) ≤ coord a + steps * unit α := by
    rw [coord_stepUp]
    exact Int.min_le_right ..
  have hdiv := Int.ediv_le_ediv (unit_pos (α := α)) hle
  rwa [Int.add_mul_ediv_right _ _ (Int.ne_of_gt unit_pos)] at hdiv

/-- The range reaches from the `n`-th step or below it to that step or above it. -/
def Meets (r : Range α) (n : Int) : Prop := place r.first ≤ n ∧ n ≤ place r.last

theorem meets_of_mem (h : a ∈ r) : r.Meets (place a) := ⟨place_mono h.1, place_mono h.2⟩

theorem exists_meets_of_fuseFrom (h : ∃ t ∈ fuseFrom 1 r rs, t.Meets n) :
    ∃ t ∈ r :: rs, t.Meets n := by
  induction rs generalizing r with
  | nil => exact h
  | cons s rs ih =>
    rw [fuseFrom] at h
    split at h
    · next hclose =>
      obtain ⟨t, ht, hn⟩ := ih h
      rcases List.mem_cons.mp ht with rfl | ht
      · obtain ⟨hfirst, hlast⟩ := hn
        by_cases hle : n ≤ place r.last
        · exact ⟨r, List.mem_cons_self, hfirst, hle⟩
        · -- above the first range it is the second one that it grew by
          have hnext := Int.le_trans (place_mono hclose) (place_stepUp_le r.last 1)
          dsimp only at hlast
          unfold greatest at hlast
          split at hlast
          · exact ⟨s, List.mem_cons_of_mem _ List.mem_cons_self, by omega, hlast⟩
          · exact absurd hlast hle
      · exact ⟨t, List.mem_cons_of_mem _ (List.mem_cons_of_mem _ ht), hn⟩
    · obtain ⟨t, ht, hn⟩ := h
      rcases List.mem_cons.mp ht with rfl | ht
      · exact ⟨t, List.mem_cons_self, hn⟩
      · obtain ⟨t, ht, hn⟩ := ih ⟨t, ht, hn⟩
        exact ⟨t, List.mem_cons_of_mem _ ht, hn⟩

theorem exists_meets_of_merge (h : ∃ t ∈ merge rs, t.Meets n) : ∃ t ∈ rs, t.Meets n := by
  suffices hsorted : ∃ t ∈ sort rs, t.Meets n by
    obtain ⟨t, ht, hn⟩ := hsorted
    exact ⟨t, mem_sortBy.mp ht, hn⟩
  unfold merge mergeWithin at h
  generalize sort rs = rs at h
  cases rs with
  | nil => exact h
  | cons r rs => exact exists_meets_of_fuseFrom h

end Range

namespace ImportRanges

variable {α : Type} [Axis α] {c : ImportRanges α} {n : Int}

/-- A step that is covered was covered before, or is one of an outcome that succeeds. -/
theorem exists_meets_of_applyResults (now : UInt64) {os : List (RangeOutcome α)}
    (h : ∃ t ∈ (c.applyResults now os).covered, t.Meets n) :
    (∃ t ∈ c.covered, t.Meets n) ∨ ∃ o ∈ os, o.success = true ∧ o.range.Meets n := by
  induction os generalizing c with
  | nil => exact .inl h
  | cons o os ih =>
    rcases ih h with ⟨t, ht, hn⟩ | ⟨o', ho', hn⟩
    · unfold ImportRanges.applyResult at ht
      split at ht
      · next hsuccess =>
        obtain ⟨t, ht, hn⟩ := Range.exists_meets_of_merge ⟨t, ht, hn⟩
        rcases List.mem_append.mp ht with ht | ht
        · exact .inl ⟨t, ht, hn⟩
        · exact .inr ⟨o, List.mem_cons_self, hsuccess, List.mem_singleton.mp ht ▸ hn⟩
      · exact .inl ⟨t, ht, hn⟩
    · exact .inr ⟨o', List.mem_cons_of_mem _ ho', hn⟩

end ImportRanges
end Backfill
