import Backfill.Range.Algebra

/-!
# Ranges on the grid of steps

Walking moves by whole steps, so the laws of range lists are laws about the positions that lie a
whole number of steps from the origin of the axis. Every block is such a position, and every
instant of a whole millisecond. There `place` counts the steps, and each comparison of the list
operations is one of places.

A list stands for the positions that its ranges hold. It is in normal form when its ranges are
sorted and leave a position free between neighbours.

Results:
* `Normal.ext`: two lists in normal form that hold the same positions are equal.
-/
namespace Backfill

namespace Axis

variable {α : Type} [Axis α] {a b : α}

def Whole (a : α) : Prop := unit α ∣ coord a

instance (a : α) : Decidable (Whole a) := inferInstanceAs (Decidable (unit α ∣ coord a))

def place (a : α) : Int := coord a / unit α

theorem coord_eq_place (h : Whole a) : coord a = place a * unit α := (Int.ediv_mul_cancel h).symm

theorem place_le_place (ha : Whole a) (hb : Whole b) : place a ≤ place b ↔ coord a ≤ coord b := by
  rw [coord_eq_place ha, coord_eq_place hb]
  exact (Int.mul_le_mul_right unit_pos).symm

theorem place_lt_place (ha : Whole a) (hb : Whole b) : place a < place b ↔ coord a < coord b := by
  rw [coord_eq_place ha, coord_eq_place hb]
  exact (Int.mul_lt_mul_right unit_pos).symm

theorem eq_of_place_eq (ha : Whole a) (hb : Whole b) (h : place a = place b) : a = b := by
  apply coord_inj
  rw [coord_eq_place ha, coord_eq_place hb, h]

/-- The end of the axis does not matter: no position lies beyond it. -/
theorem le_coord_stepUp (ha : Whole a) (hb : Whole b) (n : Nat) :
    coord a ≤ coord (stepUp b n) ↔ place a ≤ place b + n := by
  have htop := (coord_mem a).2
  have hmul : coord a ≤ coord b + n * unit α ↔ place a ≤ place b + n := by
    rw [coord_eq_place ha, coord_eq_place hb, ← Int.add_mul]
    exact Int.mul_le_mul_right unit_pos
  rw [coord_stepUp, ← hmul]
  omega

theorem unit_le_of_lt (ha : Whole a) (hb : Whole b) (h : coord a < coord b) :
    coord a + unit α ≤ coord b := by
  have hp : place a + 1 ≤ place b := (place_lt_place ha hb).mpr h
  have := (Int.mul_le_mul_right (unit_pos (α := α))).mpr hp
  rwa [Int.add_mul, Int.one_mul, ← coord_eq_place ha, ← coord_eq_place hb] at this

theorem coord_next_of_lt (ha : Whole a) (hb : Whole b) (h : coord a < coord b) :
    coord (next a) = coord a + unit α := by
  have hle := unit_le_of_lt ha hb h
  have htop := (coord_mem b).2
  rw [coord_next]
  omega

theorem coord_prev_of_lt (ha : Whole a) (hb : Whole b) (h : coord a < coord b) :
    coord (prev b) = coord b - unit α := by
  have hle := unit_le_of_lt ha hb h
  have hbot := (coord_mem a).1
  rw [coord_prev]
  omega

theorem next_of_lt (ha : Whole a) (hb : Whole b) (h : coord a < coord b) :
    Whole (next a) ∧ place (next a) = place a + 1 := by
  have hc := coord_next_of_lt ha hb h
  refine ⟨?_, ?_⟩
  · rw [Whole, hc]
    exact Int.dvd_add ha (Int.dvd_refl _)
  · rw [place, hc, Int.add_ediv_of_dvd_left ha, Int.ediv_self (Int.ne_of_gt unit_pos)]
    rfl

theorem prev_of_lt (ha : Whole a) (hb : Whole b) (h : coord a < coord b) :
    Whole (prev b) ∧ place (prev b) = place b - 1 := by
  have hc := coord_prev_of_lt ha hb h
  refine ⟨?_, ?_⟩
  · rw [Whole, hc]
    exact Int.dvd_sub hb (Int.dvd_refl _)
  · rw [place, hc, Int.sub_ediv_of_dvd _ (Int.dvd_refl _), Int.ediv_self (Int.ne_of_gt unit_pos)]
    rfl

theorem whole_greatest (ha : Whole a) (hb : Whole b) : Whole (greatest a b) := by
  unfold greatest; split <;> assumption

theorem whole_least (ha : Whole a) (hb : Whole b) : Whole (least a b) := by
  unfold least; split <;> assumption

theorem place_greatest (ha : Whole a) (hb : Whole b) :
    place (greatest a b) = max (place a) (place b) := by
  have hle := place_le_place ha hb
  unfold greatest
  split <;> omega

theorem place_least (ha : Whole a) (hb : Whole b) :
    place (least a b) = min (place a) (place b) := by
  have hle := place_le_place ha hb
  unfold least
  split <;> omega

@[simp] theorem whole_block (b : BlockNumber) : Whole b := Int.one_dvd _

@[simp] theorem coord_block (b : BlockNumber) : coord b = b.toNat := rfl

end Axis

namespace Range

open Axis

variable {α : Type} [Axis α]

/-! ## Single ranges -/

/-- Valid, with both ends on the grid. -/
structure Proper (r : Range α) : Prop where
  first : Whole r.first
  last : Whole r.last
  valid : r.Valid

instance (r : Range α) : Decidable r.Proper :=
  decidable_of_iff (Whole r.first ∧ Whole r.last ∧ r.Valid)
    ⟨fun h => ⟨h.1, h.2.1, h.2.2⟩, fun h => ⟨h.first, h.last, h.valid⟩⟩

theorem Proper.place_le {r : Range α} (h : r.Proper) : place r.first ≤ place r.last :=
  (place_le_place h.first h.last).mpr h.valid

theorem Proper.mem_iff {r : Range α} (h : r.Proper) {a : α} (ha : Whole a) :
    a ∈ r ↔ place r.first ≤ place a ∧ place a ≤ place r.last := by
  rw [mem_def, place_le_place h.first ha, place_le_place ha h.last]

theorem Proper.first_mem {r : Range α} (h : r.Proper) : r.first ∈ r := ⟨Int.le_refl _, h.valid⟩

theorem Proper.last_mem {r : Range α} (h : r.Proper) : r.last ∈ r := ⟨h.valid, Int.le_refl _⟩

@[simp] theorem proper_block {r : Range BlockNumber} : r.Proper ↔ r.Valid :=
  ⟨Proper.valid, fun h => ⟨whole_block _, whole_block _, h⟩⟩

/-! ## Lists -/

def Holds (rs : List (Range α)) (a : α) : Prop := ∃ r ∈ rs, a ∈ r

@[simp] theorem holds_nil (a : α) : ¬ Holds [] a := by simp [Holds]

@[simp] theorem holds_cons (r : Range α) (rs : List (Range α)) (a : α) :
    Holds (r :: rs) a ↔ a ∈ r ∨ Holds rs a := by simp [Holds]

@[simp] theorem holds_append (rs ss : List (Range α)) (a : α) :
    Holds (rs ++ ss) a ↔ Holds rs a ∨ Holds ss a := by
  simp only [Holds, List.mem_append, or_and_right, exists_or]

theorem holds_flatMap {β : Type} (xs : List β) (f : β → List (Range α)) (a : α) :
    Holds (xs.flatMap f) a ↔ ∃ x ∈ xs, Holds (f x) a := by
  simp only [Holds, List.mem_flatMap]
  constructor
  · rintro ⟨r, ⟨x, hx, hr⟩, ha⟩
    exact ⟨x, hx, r, hr, ha⟩
  · rintro ⟨x, hx, r, hr, ha⟩
    exact ⟨r, ⟨x, hx, hr⟩, ha⟩

theorem Holds.of_perm {rs ss : List (Range α)} (h : rs.Perm ss) {a : α} :
    Holds rs a ↔ Holds ss a := by
  simp only [Holds, h.mem_iff]

/-- At least `gap` positions lie free between the first range and the second. -/
def Apart (gap : Nat) (r s : Range α) : Prop := coord r.last + gap * unit α < coord s.first

theorem apart_iff {gap : Nat} {r s : Range α} (hr : r.Proper) (hs : s.Proper) :
    Apart gap r s ↔ place r.last + gap < place s.first := by
  rw [Apart, coord_eq_place hr.last, coord_eq_place hs.first, ← Int.add_mul]
  exact Int.mul_lt_mul_right unit_pos

/-- Sorted, with at least `gap` positions free between neighbours. -/
structure Spaced (gap : Nat) (rs : List (Range α)) : Prop where
  proper : ∀ r ∈ rs, r.Proper
  apart : rs.Pairwise (Apart gap)

abbrev Normal (rs : List (Range α)) : Prop := Spaced 1 rs

namespace Spaced

variable {gap : Nat} {r : Range α} {rs : List (Range α)}

theorem nil : Spaced gap ([] : List (Range α)) := ⟨by simp, .nil⟩

theorem head (h : Spaced gap (r :: rs)) : r.Proper := h.proper r (by simp)

theorem tail (h : Spaced gap (r :: rs)) : Spaced gap rs :=
  ⟨fun s hs => h.proper s (List.mem_cons_of_mem _ hs), (List.pairwise_cons.mp h.apart).2⟩

theorem place_lt_of_mem (h : Spaced gap (r :: rs)) {s : Range α} (hs : s ∈ rs) :
    place r.last + gap < place s.first :=
  (apart_iff h.head (h.tail.proper s hs)).mp ((List.pairwise_cons.mp h.apart).1 s hs)

theorem place_lt_of_holds (h : Spaced gap (r :: rs)) {a : α} (ha : Whole a) (hm : Holds rs a) :
    place r.last + gap < place a := by
  obtain ⟨s, hs, has⟩ := hm
  have hlt := h.place_lt_of_mem hs
  have := ((h.tail.proper s hs).mem_iff ha).mp has
  omega

theorem cons (hr : r.Proper) (h : Spaced gap rs)
    (hlt : ∀ s ∈ rs, place r.last + gap < place s.first) : Spaced gap (r :: rs) := by
  refine ⟨?_, List.pairwise_cons.mpr ⟨fun s hs => ?_, h.apart⟩⟩
  · intro s hs
    rcases List.mem_cons.mp hs with rfl | hs
    · exact hr
    · exact h.proper s hs
  · exact (apart_iff hr (h.proper s hs)).mpr (hlt s hs)

theorem append {ss : List (Range α)} (hr : Spaced gap rs) (hs : Spaced gap ss)
    (hlt : ∀ r ∈ rs, ∀ s ∈ ss, place r.last + gap < place s.first) : Spaced gap (rs ++ ss) := by
  refine ⟨fun t ht => ?_, List.pairwise_append.mpr ⟨hr.apart, hs.apart, fun r h s h' => ?_⟩⟩
  · rcases List.mem_append.mp ht with ht | ht
    · exact hr.proper t ht
    · exact hs.proper t ht
  · exact (apart_iff (hr.proper r h) (hs.proper s h')).mpr (hlt r h s h')

theorem singleton (hr : r.Proper) : Spaced gap [r] := cons hr nil (by simp)

end Spaced

/-! ## The normal form is unique -/

private theorem Normal.head_first_le {r s : Range α} {rs ss : List (Range α)}
    (hr : Normal (r :: rs)) (hs : Normal (s :: ss))
    (h : ∀ a, Whole a → Holds (r :: rs) a → Holds (s :: ss) a) : place s.first ≤ place r.first := by
  have hheld := h r.first hr.head.first (by simp [hr.head.first_mem])
  rcases (holds_cons s ss _).mp hheld with hm | hm
  · exact ((hs.head.mem_iff hr.head.first).mp hm).1
  · have := hs.place_lt_of_holds hr.head.first hm
    have := hs.head.place_le
    omega

/-- The heads of two lists in normal form end at the same position: the one that ended earlier
would leave out the position after it. -/
private theorem Normal.head_last_le {r s : Range α} {rs ss : List (Range α)}
    (hr : Normal (r :: rs)) (hs : Normal (s :: ss)) (hfirst : place r.first = place s.first)
    (h : ∀ a, Whole a → Holds (s :: ss) a → Holds (r :: rs) a) : place s.last ≤ place r.last := by
  apply Int.not_lt.mp
  intro hlt
  have hlt' := (place_lt_place hr.head.last hs.head.last).mp hlt
  obtain ⟨hw, hp⟩ := next_of_lt hr.head.last hs.head.last hlt'
  have hle := hr.head.place_le
  have hmem : next r.last ∈ s := (hs.head.mem_iff hw).mpr ⟨by omega, by omega⟩
  rcases (holds_cons r rs _).mp (h _ hw (by simp [hmem])) with hm | hm
  · have := ((hr.head.mem_iff hw).mp hm).2
    omega
  · have := hr.place_lt_of_holds hw hm
    omega

/-- A list in normal form is determined by the positions that it holds. -/
theorem Normal.ext {rs ss : List (Range α)} (hr : Normal rs) (hs : Normal ss)
    (h : ∀ a, Whole a → (Holds rs a ↔ Holds ss a)) : rs = ss := by
  induction rs generalizing ss with
  | nil =>
    cases ss with
    | nil => rfl
    | cons s ss => simpa [hs.head.first_mem] using h s.first hs.head.first
  | cons r rs ih =>
    cases ss with
    | nil => simpa [hr.head.first_mem] using h r.first hr.head.first
    | cons s ss =>
      have hfirst : place r.first = place s.first :=
        Int.le_antisymm (hs.head_first_le hr fun a ha => (h a ha).mpr)
          (hr.head_first_le hs fun a ha => (h a ha).mp)
      have hlast : place r.last = place s.last :=
        Int.le_antisymm (hs.head_last_le hr hfirst.symm fun a ha => (h a ha).mp)
          (hr.head_last_le hs hfirst fun a ha => (h a ha).mpr)
      have hrs : r = s := by
        cases r
        cases s
        congr
        · exact eq_of_place_eq hr.head.first hs.head.first hfirst
        · exact eq_of_place_eq hr.head.last hs.head.last hlast
      subst hrs
      congr 1
      apply ih hr.tail hs.tail
      intro a ha
      -- what the tails hold lies above the common head
      have hcons := h a ha
      simp only [holds_cons, hr.head.mem_iff ha] at hcons
      constructor
      · intro hm
        have := hr.place_lt_of_holds ha hm
        exact (hcons.mp (.inr hm)).resolve_left (by omega)
      · intro hm
        have := hs.place_lt_of_holds ha hm
        exact (hcons.mpr (.inr hm)).resolve_left (by omega)

end Range
end Backfill
