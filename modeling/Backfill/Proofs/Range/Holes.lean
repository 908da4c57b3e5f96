import Backfill.Proofs.Range.Sets

/-!
# Holes that are filled

Merging over holes fuses two neighbours when fewer than `gap` positions lie between them. What it
gains are the positions of such holes and nothing else: the two ends of a hole are held by the list,
and everything between them is missing. A result that leaves `gap` positions free between its ranges
has no hole of fewer, so a list of positions has one such result only.

Results:
* `holds_mergeWithin_iff`: what merging over holes holds.
* `mergeWithin_congr`: it depends on the positions alone.
* `holes_filled`: both for lists of blocks, with the spacing of the result.
-/
namespace Backfill

open Axis

@[simp] theorem Axis.place_block (b : BlockNumber) : place b = b.toNat := Int.ediv_one _

namespace Range

variable {α : Type} [Axis α] {gap : Nat} {r s : Range α} {rs ss rest : List (Range α)} {a p q : α}

/-! ## Holes -/

/-- Fewer than `gap` positions lie between two positions of a list, and it holds none of them. -/
structure Hole (gap : Nat) (rs : List (Range α)) (p q : α) : Prop where
  whole_low : Whole p
  whole_high : Whole q
  low : Holds rs p
  high : Holds rs q
  missing : ∀ a, Whole a → place p < place a → place a < place q → ¬ Holds rs a
  short : place q ≤ place p + gap

def Bridged (gap : Nat) (rs : List (Range α)) (a : α) : Prop :=
  ∃ p q, Hole gap rs p q ∧ place p < place a ∧ place a < place q

theorem Bridged.congr (h : ∀ a, Whole a → (Holds rs a ↔ Holds ss a)) (hb : Bridged gap rs a) :
    Bridged gap ss a := by
  obtain ⟨p, q, hole, hbetween⟩ := hb
  refine ⟨p, q, { hole with low := ?_, high := ?_, missing := ?_ }, hbetween⟩
  · exact (h p hole.whole_low).mp hole.low
  · exact (h q hole.whole_high).mp hole.high
  · intro b hb hlow hhigh hm
    exact hole.missing b hb hlow hhigh ((h b hb).mpr hm)

/-! ## Fusing -/

/-- The ends of a hole in what a grown range belongs to are held by one of the two ranges or by the
others: next to such an end lies a position that the grown range does not hold. -/
theorem Hole.ungrown (hr : r.Proper) (hs : s.Proper) (hfirst : place r.first ≤ place s.first)
    (hole : Hole gap (grown r s :: rest) p q) (hroom : place p + 1 < place q) :
    Hole gap (r :: s :: rest) p q := by
  have hsub : ∀ a, Whole a → Holds (r :: s :: rest) a → Holds (grown r s :: rest) a := by
    intro a ha hm
    simp only [holds_cons, mem_grown hr hs hfirst ha] at hm ⊢
    rcases hm with hm | hm | hm
    · exact .inl (.inl hm)
    · exact .inl (.inr (.inl hm))
    · exact .inr hm
  obtain ⟨hp, hq, hlow, hhigh, hmissing, hshort⟩ := hole
  have hlt : coord p < coord q := (place_lt_place hp hq).mp (by omega)
  obtain ⟨hnext, hplace⟩ := next_of_lt hp hq hlt
  obtain ⟨hprev, hplace'⟩ := prev_of_lt hp hq hlt
  have hupper := hmissing _ hnext (by omega) (by omega)
  have hlower := hmissing _ hprev (by omega) (by omega)
  simp only [holds_cons, mem_grown hr hs hfirst hnext, not_or] at hupper
  simp only [holds_cons, mem_grown hr hs hfirst hprev, not_or] at hlower
  refine ⟨hp, hq, ?_, ?_, fun a ha h h' hm => hmissing a ha h h' (hsub a ha hm), hshort⟩
  · simp only [holds_cons, mem_grown hr hs hfirst hp] at hlow ⊢
    rcases hlow with (hm | hm | hm) | hm
    · exact .inl hm
    · exact .inr (.inl hm)
    · -- the position above it would lie between the two ranges as well, or in the second
      have hin := hs.mem_iff hnext
      have hle := hs.place_le
      by_cases hend : place (next p) < place s.first
      · exact absurd ⟨by omega, hend⟩ hupper.1.2.2
      · exact absurd (hin.mpr ⟨by omega, by omega⟩) hupper.1.2.1
    · exact .inr (.inr hm)
  · simp only [holds_cons, mem_grown hr hs hfirst hq] at hhigh ⊢
    rcases hhigh with (hm | hm | hm) | hm
    · exact .inl hm
    · exact .inr (.inl hm)
    · have hin := hr.mem_iff hprev
      have hle := hr.place_le
      by_cases hend : place r.last < place (prev q)
      · exact absurd ⟨hend, by omega⟩ hlower.1.2.2
      · exact absurd (hin.mpr ⟨by omega, by omega⟩) hlower.1.1
    · exact .inr (.inr hm)

/-- Between the first range and the next lies a hole: whatever follows begins above it. -/
theorem Ascending.hole (h : Ascending (r :: s :: rest))
    (hnear : place s.first ≤ place r.last + gap) :
    Hole gap (r :: s :: rest) r.last s.first where
  whole_low := h.head.last
  whole_high := h.tail.head.first
  low := by simp [h.head.last_mem]
  high := by simp [h.tail.head.first_mem]
  short := hnear
  missing := by
    rintro b hb hlow hhigh ⟨t, ht, hbt⟩
    rw [(h.proper t ht).mem_iff hb] at hbt
    rcases List.mem_cons.mp ht with rfl | ht
    · omega
    · rcases List.mem_cons.mp ht with rfl | ht
      · omega
      · have := h.tail.first_le ht
        omega

/-- The holes behind a range that ends below the next one are holes of the whole list. -/
theorem Hole.cons (h : Ascending (r :: s :: rest)) (hfar : place r.last < place s.first)
    (hole : Hole gap (s :: rest) p q) : Hole gap (r :: s :: rest) p q := by
  refine { hole with low := ?_, high := ?_, missing := fun b hb hlow hhigh hm => ?_ }
  · exact (holds_cons ..).mpr (.inr hole.low)
  · exact (holds_cons ..).mpr (.inr hole.high)
  · rcases (holds_cons ..).mp hm with hm | hm
    · -- the lower end of the hole lies above the first range
      obtain ⟨t, ht, hpt⟩ := hole.low
      rw [(h.tail.proper t ht).mem_iff hole.whole_low] at hpt
      rw [h.head.mem_iff hb] at hm
      have hst : place s.first ≤ place t.first := by
        rcases List.mem_cons.mp ht with rfl | ht
        · exact Int.le_refl _
        · exact h.tail.first_le ht
      omega
    · exact hole.missing b hb hlow hhigh hm

/-- What fusing holds is held before, or lies in a hole. -/
theorem holds_or_bridged_of_fuseFrom (h : Ascending (r :: rest)) (ha : Whole a)
    (hm : Holds (fuseFrom gap r rest) a) :
    Holds (r :: rest) a ∨ Bridged gap (r :: rest) a := by
  induction rest generalizing r with
  | nil => exact .inl hm
  | cons s rest ih =>
    have hfirst := h.first_le (List.mem_cons_self ..)
    rw [fuseFrom] at hm
    split at hm
    · next hnear =>
      rw [le_coord_stepUp h.tail.head.first h.head.last] at hnear
      rcases ih h.grow hm with hm | ⟨p, q, hole, hlow, hhigh⟩
      · simp only [holds_cons, mem_grown h.head h.tail.head hfirst ha] at hm ⊢
        rcases hm with (hm | hm | hm) | hm
        · exact .inl (.inl hm)
        · exact .inl (.inr (.inl hm))
        · exact .inr ⟨r.last, s.first, h.hole hnear, hm⟩
        · exact .inl (.inr (.inr hm))
      · exact .inr ⟨p, q, hole.ungrown h.head h.tail.head hfirst (by omega), hlow, hhigh⟩
    · next hfar =>
      rw [le_coord_stepUp h.tail.head.first h.head.last] at hfar
      rcases (holds_cons ..).mp hm with hm | hm
      · exact .inl (by simp [hm])
      · rcases ih h.tail hm with hm | ⟨p, q, hole, hlow, hhigh⟩
        · exact .inl ((holds_cons ..).mpr (.inr hm))
        · exact .inr ⟨p, q, hole.cons h (by omega), hlow, hhigh⟩

/-! ## Spaced lists -/

theorem Spaced.mono {n : Nat} (h : Spaced gap rs) (hn : n ≤ gap) : Spaced n rs where
  proper := h.proper
  apart := h.apart.imp fun {r s} hlt => by
    have hle : (n : Int) * unit α ≤ gap * unit α :=
      Int.mul_le_mul_of_nonneg_right (by omega) (Int.le_of_lt unit_pos)
    unfold Apart at hlt ⊢
    omega

/-- A list that leaves `gap` positions free has no hole of fewer. -/
theorem Spaced.holds_between (h : Spaced gap rs) (hp : Whole p) (hq : Whole q) (ha : Whole a)
    (hlow : Holds rs p) (hhigh : Holds rs q) (hshort : place q ≤ place p + gap)
    (hpa : place p < place a) (haq : place a < place q) : Holds rs a := by
  induction rs with
  | nil => exact absurd hlow (holds_nil p)
  | cons r rs ih =>
    rw [holds_cons, h.head.mem_iff hp] at hlow
    rw [holds_cons, h.head.mem_iff hq] at hhigh
    rw [holds_cons, h.head.mem_iff ha]
    rcases hlow with hlow | hlow
    · rcases hhigh with hhigh | hhigh
      · exact .inl (by omega)
      · have := h.place_lt_of_holds hq hhigh
        omega
    · have hplow := h.place_lt_of_holds hp hlow
      rcases hhigh with hhigh | hhigh
      · omega
      · exact .inr (ih h.tail hlow hhigh)

/-! ## Merging over holes -/

section Merge

variable (h : ∀ r ∈ rs, r.Proper)

include h

/-- Merging over holes gains the holes of fewer than `gap` positions. -/
theorem holds_mergeWithin_iff (ha : Whole a) :
    Holds (mergeWithin gap rs) a ↔ Holds rs a ∨ Bridged gap rs a := by
  constructor
  · intro hm
    have hasc := ascending_sort h
    have hsame : ∀ a, Whole a → (Holds (sort rs) a ↔ Holds rs a) := fun a _ =>
      Holds.of_perm (sortBy_perm precedes rs)
    rw [← hsame a ha]
    suffices hsorted : Holds (sort rs) a ∨ Bridged gap (sort rs) a from
      hsorted.imp_right (Bridged.congr hsame)
    unfold mergeWithin fuse at hm
    split at hm
    · exact absurd hm (holds_nil a)
    · next heq => exact heq ▸ holds_or_bridged_of_fuseFrom (heq ▸ hasc) ha hm
  · rintro (hm | ⟨p, q, hole, hlow, hhigh⟩)
    · exact holds_mergeWithin gap h ha hm
    · exact (spaced_mergeWithin gap h).holds_between hole.whole_low hole.whole_high ha
        (holds_mergeWithin gap h hole.whole_low hole.low)
        (holds_mergeWithin gap h hole.whole_high hole.high) hole.short hlow hhigh

theorem mergeWithin_congr (hss : ∀ s ∈ ss, s.Proper) (hgap : 1 ≤ gap)
    (hsame : ∀ a, Whole a → (Holds rs a ↔ Holds ss a)) :
    mergeWithin gap rs = mergeWithin gap ss := by
  have hnormal : Normal (mergeWithin gap rs) := (spaced_mergeWithin gap h).mono hgap
  have hnormal' : Normal (mergeWithin gap ss) := (spaced_mergeWithin gap hss).mono hgap
  refine hnormal.ext hnormal' fun a ha => ?_
  rw [holds_mergeWithin_iff h ha, holds_mergeWithin_iff hss ha, hsame a ha]
  refine or_congr_right ⟨Bridged.congr hsame, Bridged.congr fun b hb => (hsame b hb).symm⟩

end Merge

/-! ## Blocks -/

/-- **Merging.** The result is sorted, with at least `gap` blocks missing between two ranges. It
holds the blocks of the list and those in holes of fewer than `gap` blocks, of which there are none
if only neighbours are fused, and depends on the blocks of the list alone. -/
theorem holes_filled {rs : List (Range BlockNumber)} {gap : Nat} (h : ∀ r ∈ rs, r.Valid)
    (hgap : 1 ≤ gap) :
    (∀ t ∈ mergeWithin gap rs, t.Valid) ∧
    (mergeWithin gap rs).Pairwise
      (fun t u => t.first < u.first ∧ t.last.toNat + gap < u.first.toNat) ∧
    (∀ b, Holds (mergeWithin gap rs) b ↔ Holds rs b ∨ Bridged gap rs b) ∧
    (∀ b, Holds (merge rs) b ↔ Holds rs b) ∧
    ∀ ss : List (Range BlockNumber), (∀ s ∈ ss, s.Valid) → (∀ b, Holds rs b ↔ Holds ss b) →
      mergeWithin gap rs = mergeWithin gap ss ∧ merge rs = merge ss := by
  have hrs : ∀ r ∈ rs, r.Proper := fun r hr => proper_block.mpr (h r hr)
  have hspaced := spaced_mergeWithin gap hrs
  have hvalid : ∀ t ∈ mergeWithin gap rs, t.Valid := fun t ht => (hspaced.proper t ht).valid
  refine ⟨hvalid, ?_, fun b => holds_mergeWithin_iff hrs (whole_block b),
    fun b => holds_merge hrs (whole_block b), fun ss hss hsame => ?_⟩
  · refine hspaced.apart.imp_of_mem fun {t u} ht hu hlt => ?_
    have hle := (hspaced.proper t ht).place_le
    rw [apart_iff (hspaced.proper t ht) (hspaced.proper u hu)] at hlt
    simp only [place_block] at hle hlt
    exact ⟨UInt64.lt_iff_toNat_lt.mpr (by omega), by omega⟩
  · have hss' : ∀ s ∈ ss, s.Proper := fun s hs => proper_block.mpr (hss s hs)
    exact ⟨mergeWithin_congr hrs hss' hgap fun b _ => hsame b,
      mergeWithin_congr hrs hss' (Nat.le_refl 1) fun b _ => hsame b⟩

namespace BothEnds

def blocks : List (Range BlockNumber) :=
  [⟨18446744073709551612, 18446744073709551615⟩, ⟨3, 4⟩, ⟨0, 0⟩, ⟨3, 3⟩]

/-- The two blocks between the first one and the next are filled in, and those before the last four
are not. -/
theorem holes_filled_at_ends :
    (∀ r ∈ blocks, r.Valid) ∧ 1 ≤ 3 ∧
      mergeWithin 3 blocks = [⟨0, 4⟩, ⟨18446744073709551612, 18446744073709551615⟩] ∧
      Bridged 3 blocks 2 ∧
      mergeWithin 3 blocks =
        mergeWithin 3 [⟨0, 0⟩, ⟨18446744073709551612, 18446744073709551615⟩, ⟨3, 4⟩] := by
  have hvalid : ∀ r ∈ blocks, r.Valid := by decide
  have hmerged :
      mergeWithin 3 blocks = [⟨0, 4⟩, ⟨18446744073709551612, 18446744073709551615⟩] := by
    decide
  obtain ⟨-, -, hholds, -, hsame⟩ := holes_filled hvalid (by decide : 1 ≤ 3)
  refine ⟨hvalid, by decide, hmerged, ?_, (hsame _ (by decide) fun b => ?_).1⟩
  · have hmissing : ¬ Holds blocks 2 := by simp [blocks, mem_def]
    refine ((hholds 2).mp ?_).resolve_left hmissing
    rw [hmerged]
    simp [mem_def]
  · have hthree : coord (3 : BlockNumber) = 3 := rfl
    have hfour : coord (4 : BlockNumber) = 4 := rfl
    simp only [blocks, holds_cons, holds_nil, or_false, mem_def]
    omega

end BothEnds

end Range
end Backfill
