import Backfill.Plan.Choice
import Backfill.Proofs.ImportState.ImportRanges
import Backfill.Proofs.Range.Pieces

/-!
# Ranges on a grid of slots

The axis may be cut into slots of `len` places, the first of which begins at its origin. A range is
aligned if it is made of whole slots. No operation on lists of ranges knows the grid, but each of
them takes its ends from the ranges that it is given, or from next to them. So what is made of
aligned ranges is aligned. A range that is cut from above into pieces of one slot's length is cut
into its slots.

Results:
* `aligned_merge`, `aligned_exclude`: the operations on lists.
* `slot_of_pieces`: pieces from above are slots.
* `ImportRanges.Aligned.applyResults`: what outcomes make of a coverage.
* `Plan.slot_of_piecesFor`: what a product is asked for.
-/
namespace Backfill

open Axis

namespace Range

variable {α : Type} [Axis α] {len : Nat} {r s : Range α} {rs ss : List (Range α)}

/-- Made of whole slots: it begins where one begins, and ends where one ends. -/
structure Aligned (len : Nat) (r : Range α) : Prop where
  proper : r.Proper
  first : (len : Int) ∣ place r.first
  last : (len : Int) ∣ place r.last + 1

structure Slot (len : Nat) (r : Range α) : Prop extends Aligned len r where
  size : place r.last + 1 = place r.first + len

/-! ## Union and difference -/

/-- A range that takes in another one ends with one of them. -/
theorem Aligned.grow (hr : r.Aligned len) (hs : s.Aligned len) :
    Aligned len ⟨r.first, greatest r.last s.last⟩ where
  proper := by
    have hvalid := hr.proper.valid
    refine ⟨hr.proper.first, whole_greatest hr.proper.last hs.proper.last, ?_⟩
    rw [Valid, coord_greatest]
    exact Int.le_trans hvalid (Int.le_max_left ..)
  first := hr.first
  last := by
    change (len : Int) ∣ place (greatest r.last s.last) + 1
    unfold greatest
    split
    · exact hs.last
    · exact hr.last

theorem aligned_fuseFrom (gap : Nat) (hr : r.Aligned len) (hrs : ∀ s ∈ rs, s.Aligned len) :
    ∀ t ∈ fuseFrom gap r rs, t.Aligned len := by
  induction rs generalizing r with
  | nil =>
    intro t ht
    rw [fuseFrom, List.mem_singleton] at ht
    exact ht ▸ hr
  | cons s rs ih =>
    rw [List.forall_mem_cons] at hrs
    rw [fuseFrom]
    split
    · exact ih (hr.grow hrs.1) hrs.2
    · exact List.forall_mem_cons.mpr ⟨hr, ih hrs.1 hrs.2⟩

theorem aligned_merge (h : ∀ r ∈ rs, r.Aligned len) : ∀ r ∈ merge rs, r.Aligned len := by
  have hsort : ∀ r ∈ sort rs, r.Aligned len := fun r hr => h r (mem_sortBy.mp hr)
  unfold merge mergeWithin
  generalize sort rs = rs at hsort
  cases rs with
  | nil => exact fun t ht => absurd ht List.not_mem_nil
  | cons r rs =>
    rw [List.forall_mem_cons] at hsort
    exact aligned_fuseFrom 1 hsort.1 hsort.2

/-- What holes leave of a range ends where it does, or right before or after a hole. -/
theorem aligned_cut (hr : r.Aligned len) (hss : ∀ s ∈ ss, s.Aligned len) :
    ∀ t ∈ cut r ss, t.Aligned len := by
  induction ss generalizing r with
  | nil =>
    intro t ht
    rw [cut, List.mem_singleton] at ht
    exact ht ▸ hr
  | cons s ss ih =>
    rw [List.forall_mem_cons] at hss
    have hs := hss.1
    rw [cut]
    split
    · exact fun t ht => List.mem_singleton.mp ht ▸ hr
    intro t ht
    rcases List.mem_append.mp ht with ht | ht
    · split at ht
      · next hroom =>
        obtain rfl := List.mem_singleton.mp ht
        obtain ⟨hw, hp⟩ := prev_of_lt hr.proper.first hs.proper.first hroom
        have hlt := (place_lt_place hr.proper.first hs.proper.first).mpr hroom
        have hends : (len : Int) ∣ place (prev s.first) + 1 := by
          rw [hp, Int.sub_add_cancel]
          exact hs.first
        exact ⟨⟨hr.proper.first, hw, (place_le_place hr.proper.first hw).mp (by omega)⟩,
          hr.first, hends⟩
      · exact absurd ht List.not_mem_nil
    · split at ht
      · next hroom =>
        obtain ⟨hw, hp⟩ := next_of_lt hs.proper.last hr.proper.last hroom
        have hlt := (place_lt_place hs.proper.last hr.proper.last).mpr hroom
        have hrest : Aligned len ⟨next s.last, r.last⟩ :=
          ⟨⟨hw, hr.proper.last, (place_le_place hw hr.proper.last).mp (by omega)⟩,
            hp ▸ hs.last, hr.last⟩
        exact ih hrest hss.2 t ht
      · exact absurd ht List.not_mem_nil

theorem aligned_exclude (hrs : ∀ r ∈ rs, r.Aligned len) (hss : ∀ s ∈ ss, s.Aligned len) :
    ∀ t ∈ exclude rs ss, t.Aligned len := by
  intro t ht
  obtain ⟨r, hr, ht⟩ := List.mem_flatMap.mp ht
  exact aligned_cut (aligned_merge hrs r hr)
    (fun s hs => aligned_merge hss s ((List.dropWhile_sublist _).subset hs)) t ht

/-! ## Pieces -/

theorem Aligned.len_le (hr : r.Aligned len) : place r.first + len ≤ place r.last + 1 := by
  have hle := hr.proper.place_le
  have hdvd : (len : Int) ∣ place r.last + 1 - place r.first := Int.dvd_sub hr.last hr.first
  have := Int.le_of_dvd (by omega) hdvd
  omega

/-- **Pieces are slots.** Pieces of one slot's length, taken from the end of an aligned range, are
its slots: the last piece begins where a slot does, and what is left ends where one does. -/
theorem slot_of_pieces (hlen : 0 < len) (n : Nat) (hr : r.Aligned len) :
    ∀ t ∈ pieces .descending len r n, t.Slot len := by
  induction n generalizing r with
  | zero => exact fun t ht => absurd ht List.not_mem_nil
  | succ n ih =>
    obtain ⟨hw, hp⟩ := piece_first hr.proper (len - 1)
    have hlong := hr.len_le
    simp only [pieces, piecesDown] at ih ⊢
    generalize greatest (stepDown r.last (len - 1)) r.first = first at hw hp
    have hfirst : place first = place r.last + 1 - len := by omega
    have haligned : (len : Int) ∣ place first := by
      rw [hfirst]
      exact Int.dvd_sub hr.last (Int.dvd_refl _)
    have hpiece : Slot len ⟨first, r.last⟩ :=
      { proper := ⟨hw, hr.proper.last, (place_le_place hw hr.proper.last).mp (by omega)⟩
        first := haligned
        last := hr.last
        size := by dsimp only; omega }
    refine List.forall_mem_cons.mpr ⟨hpiece, ?_⟩
    split
    · next hroom =>
      obtain ⟨hw', hp'⟩ := prev_of_lt hr.proper.first hw hroom
      have hlt := (place_lt_place hr.proper.first hw).mpr hroom
      have hends : (len : Int) ∣ place (prev first) + 1 := by
        rw [hp', Int.sub_add_cancel]
        exact haligned
      exact ih ⟨⟨hr.proper.first, hw', (place_le_place hr.proper.first hw').mp (by omega)⟩,
        hr.first, hends⟩
    · exact fun t ht => absurd ht List.not_mem_nil

theorem slot_of_firstPieces (hlen : 0 < len) (n : Nat) (hrs : ∀ r ∈ rs, r.Aligned len) :
    ∀ t ∈ firstPieces .descending len n rs, t.Slot len := by
  have hall : ∀ r ∈ (merge rs).reverse, r.Aligned len := fun r hr =>
    aligned_merge hrs r (List.mem_reverse.mp hr)
  unfold firstPieces
  generalize (merge rs).reverse = rs at hall
  induction rs generalizing n with
  | nil => exact fun t ht => absurd ht List.not_mem_nil
  | cons r rs ih =>
    rw [List.forall_mem_cons] at hall
    intro t ht
    rcases List.mem_append.mp ht with ht | ht
    · exact slot_of_pieces hlen n hall.1 t ht
    · exact ih _ hall.2 t ht

end Range

/-! ## Coverage -/

namespace ImportRanges

variable {α : Type} [Axis α] {len : Nat} {c : ImportRanges α}

structure Aligned (len : Nat) (c : ImportRanges α) : Prop where
  covered : ∀ r ∈ c.covered, r.Aligned len
  toRetry : ∀ r ∈ c.toRetry, r.Aligned len

theorem aligned_empty (len : Nat) : Aligned len ({} : ImportRanges α) :=
  ⟨fun _ h => absurd h List.not_mem_nil, fun _ h => absurd h List.not_mem_nil⟩

namespace Aligned

open Range

theorem applyResult (hc : c.Aligned len) {o : RangeOutcome α} (ho : o.range.Aligned len)
    (now : UInt64) : (c.applyResult now o).Aligned len := by
  have hone : ∀ r ∈ [o.range], r.Aligned len := fun r hr => List.mem_singleton.mp hr ▸ ho
  unfold ImportRanges.applyResult
  split
  · exact ⟨aligned_merge fun r hr => (List.mem_append.mp hr).elim (hc.covered r) (hone r),
      aligned_exclude hc.toRetry hone⟩
  · refine ⟨hc.covered, aligned_exclude (aligned_merge fun r hr => ?_) hc.covered⟩
    exact (List.mem_append.mp hr).elim (hc.toRetry r) (hone r)

theorem applyResults (hc : c.Aligned len) {os : List (RangeOutcome α)}
    (hos : ∀ o ∈ os, o.range.Aligned len) (now : UInt64) : (c.applyResults now os).Aligned len := by
  induction os generalizing c with
  | nil => exact hc
  | cons o os ih =>
    rw [List.forall_mem_cons] at hos
    exact ih (hc.applyResult hos.1 now) hos.2

end Aligned
end ImportRanges

/-! ## What a product is asked for -/

namespace Plan

variable {α : Type} [Axis α] {limits : Limits} {d : ProductRanges α}

/-- A product with a demand of whole slots is asked for single slots. -/
theorem slot_of_piecesFor (hspan : 0 < limits.maxSpan) (hfull : d.full.Aligned limits.maxSpan)
    (hcovered : ∀ r ∈ d.covered, r.Aligned limits.maxSpan)
    (htoRetry : ∀ r ∈ d.toRetry, r.Aligned limits.maxSpan) :
    ∀ r ∈ piecesFor limits d, r.Slot limits.maxSpan := by
  have hwhole : ∀ r ∈ [d.full], r.Aligned limits.maxSpan := fun r hr =>
    List.mem_singleton.mp hr ▸ hfull
  have hfresh : ∀ r ∈ d.computeNeeded limits.ignoreState, r.Aligned limits.maxSpan := by
    unfold ProductRanges.computeNeeded
    split
    · exact hwhole
    · exact Range.aligned_exclude hwhole fun r hr =>
        (List.mem_append.mp hr).elim (hcovered r) (htoRetry r)
  have hpieces := Range.slot_of_firstPieces hspan limits.maxQueries hfresh
  unfold piecesFor
  split
  · exact hpieces
  · intro r hr
    rcases List.mem_append.mp hr with hr | hr
    · exact hpieces r hr
    · exact Range.slot_of_firstPieces hspan _ htoRetry r hr

end Plan
end Backfill
