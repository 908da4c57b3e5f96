import Backfill.Proofs.Range.Sets
import Backfill.Range.Pieces

/-!
# Pieces are parts

Cutting, in either direction and however few pieces are taken, gives parts: proper ranges inside
what was cut, no two of which share a position. So a position that two parts hold tells that they
are one.

Results:
* `pieces_succ`: what one step of cutting takes off and leaves, the same way for both directions.
* `parts_pieces`, `parts_firstPieces`, `parts_splitAll`: every way of cutting gives parts.
* `Parts.eq_of_mem`: two parts with a position in common are equal.
* `holds_piecesDown`: the highest positions are cut first.
* `holds_split`, `holds_splitAll`: splitting loses no position.
-/
namespace Backfill.Range

open Axis

variable {α : Type} [Axis α] {a : α}

def Separate (r s : Range α) : Prop := ∀ a, Whole a → a ∈ r → a ∉ s

theorem Separate.symm {r s : Range α} (h : Separate r s) : Separate s r :=
  fun a ha hs hr => h a ha hr hs

theorem Separate.of_place_lt {r s : Range α} (hr : r.Proper) (hs : s.Proper)
    (h : place r.last < place s.first) : Separate r s := by
  intro a ha hm hm'
  rw [hr.mem_iff ha] at hm
  rw [hs.mem_iff ha] at hm'
  omega

/-- Proper ranges of positions that satisfy `P`, pairwise separate. -/
structure Parts (P : α → Prop) (rs : List (Range α)) : Prop where
  proper : ∀ r ∈ rs, r.Proper
  inside : ∀ r ∈ rs, ∀ a, Whole a → a ∈ r → P a
  separate : rs.Pairwise Separate

namespace Parts

variable {P Q : α → Prop} {rs ss : List (Range α)}

theorem nil : Parts P ([] : List (Range α)) := ⟨by simp, by simp, .nil⟩

theorem mono (h : Parts P rs) (hPQ : ∀ a, Whole a → P a → Q a) : Parts Q rs :=
  ⟨h.proper, fun r hr a ha hm => hPQ a ha (h.inside r hr a ha hm), h.separate⟩

theorem append (h : Parts P rs) (h' : Parts Q ss) (hPQ : ∀ a, Whole a → P a → ¬ Q a) :
    Parts (fun a => P a ∨ Q a) (rs ++ ss) where
  proper r hr := (List.mem_append.mp hr).elim (h.proper r) (h'.proper r)
  inside r hr a ha hm :=
    (List.mem_append.mp hr).imp (fun hr => h.inside r hr a ha hm) fun hr => h'.inside r hr a ha hm
  separate := by
    refine List.pairwise_append.mpr ⟨h.separate, h'.separate, fun r hr s hs a ha hm hm' => ?_⟩
    exact hPQ a ha (h.inside r hr a ha hm) (h'.inside s hs a ha hm')

theorem cons {r : Range α} (hr : r.Proper) (hP : ∀ a, Whole a → a ∈ r → P a) (h : Parts Q rs)
    (hQ : ∀ a, Whole a → a ∈ r → ¬ Q a) : Parts (fun a => P a ∨ Q a) (r :: rs) := by
  have hone : Parts (· ∈ r) [r] := ⟨by simpa, by simp, by simp⟩
  exact (hone.append h hQ).mono fun a ha => Or.imp_left (hP a ha)

theorem tail {r : Range α} (h : Parts P (r :: rs)) : Parts P rs where
  proper s hs := h.proper s (List.mem_cons_of_mem _ hs)
  inside s hs := h.inside s (List.mem_cons_of_mem _ hs)
  separate := (List.pairwise_cons.mp h.separate).2

theorem reverse (h : Parts P rs) : Parts P rs.reverse where
  proper r hr := h.proper r (List.mem_reverse.mp hr)
  inside r hr := h.inside r (List.mem_reverse.mp hr)
  separate := List.pairwise_reverse.mpr (h.separate.imp Separate.symm)

theorem of_perm (h : Parts P rs) (hp : rs.Perm ss) : Parts P ss where
  proper r hr := h.proper r (hp.mem_iff.mpr hr)
  inside r hr := h.inside r (hp.mem_iff.mpr hr)
  separate := hp.pairwise h.separate Separate.symm

theorem sublist (h : Parts P rs) (hs : ss.Sublist rs) : Parts P ss where
  proper r hr := h.proper r (hs.subset hr)
  inside r hr := h.inside r (hs.subset hr)
  separate := h.separate.sublist hs

theorem append_rest (h : Parts P rs) (h' : Parts (fun a => P a ∧ ¬ Holds rs a) ss) :
    Parts P (rs ++ ss) := by
  have hown : Parts (fun a => P a ∧ Holds rs a) rs :=
    ⟨h.proper, fun r hr a ha hm => ⟨h.inside r hr a ha hm, r, hr, hm⟩, h.separate⟩
  exact (hown.append h' fun a _ hm hm' => hm'.2 hm.2).mono fun a _ hm => hm.elim And.left And.left

/-- Parts that share a position are one. -/
theorem eq_of_mem (h : Parts P rs) {r s : Range α} (hr : r ∈ rs) (hs : s ∈ rs) (ha : Whole a)
    (hm : a ∈ r) (hm' : a ∈ s) : r = s := by
  induction rs with
  | nil => exact absurd hr (by simp)
  | cons t rs ih =>
    have hsep := (List.pairwise_cons.mp h.separate).1
    rcases List.mem_cons.mp hr, List.mem_cons.mp hs with ⟨rfl | hr', rfl | hs'⟩
    · rfl
    · exact absurd hm' (hsep s hs' a ha hm)
    · exact absurd hm (hsep r hr' a ha hm')
    · exact ih h.tail hr' hs'

end Parts

theorem Spaced.parts {gap : Nat} {rs : List (Range α)} (h : Spaced gap rs) :
    Parts (Holds rs) rs where
  proper := h.proper
  inside r hr a _ hm := ⟨r, hr, hm⟩
  separate := h.apart.imp_of_mem fun {r s} hr hs hlt => by
    have hlt := (apart_iff (h.proper r hr) (h.proper s hs)).mp hlt
    exact .of_place_lt (h.proper r hr) (h.proper s hs) (by omega)

/-! ## One range -/

/-- The last position of a piece from below: the axis may end before it, but the range ends
earlier. -/
theorem piece_last {r : Range α} (hr : r.Proper) (n : Nat) :
    Whole (least (stepUp r.first n) r.last) ∧
      place (least (stepUp r.first n) r.last) = min (place r.first + n) (place r.last) := by
  have hreach := le_coord_stepUp hr.last hr.first n
  by_cases h : coord r.last ≤ coord (stepUp r.first n)
  · have heq : least (stepUp r.first n) r.last = r.last := by
      apply coord_inj
      rw [coord_least]
      omega
    rw [heq]
    exact ⟨hr.last, by omega⟩
  · have htop := (coord_mem r.last).2
    have hc : coord (stepUp r.first n) = coord r.first + n * unit α := by
      rw [coord_stepUp] at h ⊢
      omega
    have hw : Whole (stepUp r.first n) := by
      rw [Whole, hc]
      exact Int.dvd_add hr.first (Int.dvd_mul_left ..)
    have hp : place (stepUp r.first n) = place r.first + n := by
      rw [place, hc, Int.add_mul_ediv_right _ _ (Int.ne_of_gt unit_pos)]
      rfl
    refine ⟨whole_least hw hr.last, ?_⟩
    rw [place_least hw hr.last, hp]

/-- The first position of a piece from above. -/
theorem piece_first {r : Range α} (hr : r.Proper) (n : Nat) :
    Whole (greatest (stepDown r.last n) r.first) ∧
      place (greatest (stepDown r.last n) r.first) = max (place r.last - n) (place r.first) := by
  have hc : coord r.first < coord r.last - n * unit α ↔ place r.first < place r.last - n := by
    rw [coord_eq_place hr.first, coord_eq_place hr.last, ← Int.sub_mul]
    exact Int.mul_lt_mul_right unit_pos
  have hbot := (coord_mem r.first).1
  by_cases h : coord r.first < coord r.last - n * unit α
  · have hs : coord (stepDown r.last n) = coord r.last - n * unit α := by
      rw [coord_stepDown]
      omega
    have hw : Whole (stepDown r.last n) := by
      rw [Whole, hs]
      exact Int.dvd_sub hr.last (Int.dvd_mul_left ..)
    have hp : place (stepDown r.last n) = place r.last - n := by
      rw [place, hs, Int.sub_eq_add_neg, ← Int.neg_mul,
        Int.add_mul_ediv_right _ _ (Int.ne_of_gt unit_pos)]
      rfl
    refine ⟨whole_greatest hw hr.first, ?_⟩
    rw [place_greatest hw hr.first, hp]
  · have heq : greatest (stepDown r.last n) r.first = r.first := by
      apply coord_inj
      rw [coord_greatest, coord_stepDown]
      omega
    rw [heq]
    exact ⟨hr.first, by omega⟩

theorem size_eq_place {r : Range α} (hr : r.Proper) :
    (r.size : Int) = place r.last - place r.first := by
  have hle := hr.place_le
  rw [size, distance, coord_eq_place hr.first, coord_eq_place hr.last, ← Int.sub_mul,
    Int.mul_ediv_cancel _ (Int.ne_of_gt unit_pos)]
  omega

/-- A full piece `s` of a range, and the rest of it. -/
structure FullPiece (len : Nat) (r s rest : Range α) : Prop where
  proper : s.Proper
  rest_proper : rest.Proper
  whole : ∀ a, Whole a → (a ∈ r ↔ a ∈ s ∨ a ∈ rest)
  separate : Separate s rest
  full : s.size = len - 1
  shorter : rest.size < r.size

def Order.Before (order : Order) (a b : α) : Prop :=
  match order with
  | .ascending => coord a < coord b
  | .descending => coord b < coord a

def Order.nearEnd (order : Order) (r : Range α) : α :=
  match order with
  | .ascending => r.first
  | .descending => r.last

def Order.farEnd (order : Order) (r : Range α) : α :=
  match order with
  | .ascending => r.last
  | .descending => r.first

/-- A full piece that comes before the rest of its range. -/
structure FirstPiece (order : Order) (len : Nat) (r s rest : Range α) : Prop
    extends FullPiece len r s rest where
  before : order.Before (order.farEnd s) (order.nearEnd rest)
  farEnd : order.farEnd rest = order.farEnd r
  sizes : r.size = s.size + 1 + rest.size

private theorem cut_up {len : Nat} {r : Range α} (hr : r.Proper) {last : α} (hw : Whole last)
    (hp : place last = min (place r.first + (len - 1 : Nat)) (place r.last))
    (hroom : coord last < coord r.last) :
    FirstPiece .ascending len r ⟨r.first, last⟩ ⟨next last, r.last⟩ := by
  have hle := hr.place_le
  have hlt := (place_lt_place hw hr.last).mpr hroom
  obtain ⟨hw', hp'⟩ := next_of_lt hw hr.last hroom
  have hpiece : Proper ⟨r.first, last⟩ :=
    ⟨hr.first, hw, (place_le_place hr.first hw).mp (by omega)⟩
  have hrest : Proper ⟨next last, r.last⟩ :=
    ⟨hw', hr.last, (place_le_place hw' hr.last).mp (by omega)⟩
  have hsize := size_eq_place hr
  have hsize' := size_eq_place hpiece
  have hsize'' := size_eq_place hrest
  simp only [hp'] at hsize' hsize''
  refine ⟨⟨hpiece, hrest, fun a ha => ?_, .of_place_lt hpiece hrest (by simp only; omega),
    by omega, by omega⟩, (place_lt_place hw hw').mp (by omega), rfl, by omega⟩
  rw [hr.mem_iff ha, hpiece.mem_iff ha, hrest.mem_iff ha]
  simp only [hp']
  omega

private theorem cut_down {len : Nat} {r : Range α} (hr : r.Proper) {first : α} (hw : Whole first)
    (hp : place first = max (place r.last - (len - 1 : Nat)) (place r.first))
    (hroom : coord r.first < coord first) :
    FirstPiece .descending len r ⟨first, r.last⟩ ⟨r.first, prev first⟩ := by
  have hle := hr.place_le
  have hlt := (place_lt_place hr.first hw).mpr hroom
  obtain ⟨hw', hp'⟩ := prev_of_lt hr.first hw hroom
  have hpiece : Proper ⟨first, r.last⟩ :=
    ⟨hw, hr.last, (place_le_place hw hr.last).mp (by omega)⟩
  have hrest : Proper ⟨r.first, prev first⟩ :=
    ⟨hr.first, hw', (place_le_place hr.first hw').mp (by omega)⟩
  have hsize := size_eq_place hr
  have hsize' := size_eq_place hpiece
  have hsize'' := size_eq_place hrest
  simp only [hp'] at hsize' hsize''
  refine ⟨⟨hpiece, hrest, fun a ha => ?_,
    (Separate.of_place_lt hrest hpiece (by simp only; omega)).symm, by omega, by omega⟩,
    (place_lt_place hw' hw).mp (by omega), rfl, by omega⟩
  rw [hr.mem_iff ha, hpiece.mem_iff ha, hrest.mem_iff ha]
  simp only [hp']
  omega

/-- **One step.** A range that is short enough is its own last piece. From any other, a full piece
is cut, and further pieces come from the rest. -/
theorem pieces_succ (order : Order) (len n : Nat) {r : Range α} (hr : r.Proper) :
    (r.size ≤ len - 1 ∧ pieces order len r (n + 1) = [r]) ∨
      ∃ s rest, FirstPiece order len r s rest ∧
        pieces order len r (n + 1) = s :: pieces order len rest n := by
  have hle := hr.place_le
  have hsize := size_eq_place hr
  cases order with
  | ascending =>
    obtain ⟨hw, hp⟩ := piece_last hr (len - 1)
    simp only [pieces, piecesUp]
    generalize least (stepUp r.first (len - 1)) r.last = last at hw hp
    by_cases hroom : coord last < coord r.last
    · exact .inr ⟨_, _, cut_up hr hw hp hroom, by rw [if_pos hroom]⟩
    · rw [← place_lt_place hw hr.last] at hroom
      obtain rfl := eq_of_place_eq hw hr.last (by omega)
      exact .inl ⟨by omega, by rw [if_neg (Int.lt_irrefl _)]⟩
  | descending =>
    obtain ⟨hw, hp⟩ := piece_first hr (len - 1)
    simp only [pieces, piecesDown]
    generalize greatest (stepDown r.last (len - 1)) r.first = first at hw hp
    by_cases hroom : coord r.first < coord first
    · exact .inr ⟨_, _, cut_down hr hw hp hroom, by rw [if_pos hroom]⟩
    · rw [← place_lt_place hr.first hw] at hroom
      obtain rfl := eq_of_place_eq hw hr.first (by omega)
      exact .inl ⟨by omega, by rw [if_neg (Int.lt_irrefl _)]⟩

theorem parts_self {r : Range α} (hr : r.Proper) : Parts (· ∈ r) [r] :=
  ⟨by simpa, by simp, by simp⟩

theorem parts_pieces (order : Order) (len : Nat) {r : Range α} (hr : r.Proper) (n : Nat) :
    Parts (· ∈ r) (pieces order len r n) := by
  induction n generalizing r with
  | zero => cases order <;> exact .nil
  | succ n ih =>
    rcases pieces_succ order len n hr with ⟨-, heq⟩ | ⟨s, rest, hcut, heq⟩
    · rw [heq]
      exact parts_self hr
    · rw [heq]
      refine (.mono (.cons hcut.proper (P := (· ∈ s)) (fun a ha hm => hm) (ih hcut.rest_proper)
        hcut.separate) fun a ha hm => ?_)
      rwa [hcut.whole a ha]

/-! ## Enough pieces -/

/-- The rest gets shorter with each piece, so as many pieces as a range has positions leave nothing
of it. -/
theorem holds_pieces (order : Order) (len : Nat) {r : Range α} (hr : r.Proper) {n : Nat}
    (hn : r.size < n) (ha : Whole a) (hm : a ∈ r) : Holds (pieces order len r n) a := by
  induction n generalizing r with
  | zero => omega
  | succ n ih =>
    rcases pieces_succ order len n hr with ⟨-, heq⟩ | ⟨s, rest, hcut, heq⟩
    · rw [heq]
      simpa using hm
    · rw [heq, holds_cons]
      have hshorter := hcut.shorter
      rcases (hcut.whole a ha).mp hm with hm | hm
      · exact .inl hm
      · exact .inr (ih hcut.rest_proper (by omega) hm)

/-- The first pieces from above hold the highest positions, as many as fit into them. -/
theorem holds_piecesDown {len : Nat} (hlen : 0 < len) {r : Range α} (hr : r.Proper) (n : Nat)
    (ha : Whole a) :
    Holds (pieces .descending len r n) a ↔ a ∈ r ∧ place r.last - place a < n * len := by
  induction n generalizing r with
  | zero =>
    simp only [pieces, piecesDown, holds_nil, false_iff, not_and]
    intro hm
    have := (hr.mem_iff ha).mp hm
    omega
  | succ n ih =>
    obtain ⟨hw, hp⟩ := piece_first hr (len - 1)
    simp only [pieces, piecesDown] at ih ⊢
    generalize greatest (stepDown r.last (len - 1)) r.first = first at hw hp
    have hroom' := place_lt_place hr.first hw
    have hmore : (0 : Int) ≤ n * len := Int.mul_nonneg (Int.natCast_nonneg n)
        (Int.natCast_nonneg len)
    rw [Int.natCast_succ, Int.add_mul, Int.one_mul]
    generalize (n * len : Int) = more at ih hmore ⊢
    split
    · next hroom =>
      have hcut := cut_down hr hw hp hroom
      have hlast := (prev_of_lt hr.first hw hroom).2
      have hpiece := hcut.proper.mem_iff ha
      have hrest := hcut.rest_proper.mem_iff ha
      rw [holds_cons, ih hcut.rest_proper, hcut.whole a ha, hpiece, hrest]
      simp only [hlast]
      omega
    · next hroom =>
      have hmem := hr.mem_iff ha
      obtain rfl := eq_of_place_eq hw hr.first (by omega)
      rw [holds_cons, hmem]
      simp only [holds_nil, or_false]
      omega

theorem holds_split (len : Nat) {r : Range α} (hr : r.Proper) (ha : Whole a) :
    Holds (split len r) a ↔ a ∈ r := by
  constructor
  · rintro ⟨s, hs, hm⟩
    exact (parts_pieces .ascending len hr _).inside s hs a ha hm
  · exact holds_pieces .ascending len hr (Nat.lt_add_of_pos_right (by decide)) ha

theorem holds_splitAll (len : Nat) {rs : List (Range α)} (h : ∀ r ∈ rs, r.Proper)
    (ha : Whole a) : Holds (splitAll len rs) a ↔ Holds rs a := by
  rw [splitAll, holds_flatMap]
  exact exists_congr fun r => and_congr_right fun hr => holds_split len (h r hr) ha

/-! ## Several ranges -/

/-- Parts of separate ranges are separate. -/
theorem Parts.refine_map {β : Type} {xs : List β} {g : β → Range α} {P Q : α → Prop}
    (h : Parts P (xs.map g)) {f : β → List (Range α)}
    (hf : ∀ x ∈ xs, Parts (fun a => a ∈ g x ∧ Q a) (f x)) : Parts Q (xs.flatMap f) where
  proper t ht := by
    obtain ⟨x, hx, ht⟩ := List.mem_flatMap.mp ht
    exact (hf x hx).proper t ht
  inside t ht a ha hm := by
    obtain ⟨x, hx, ht⟩ := List.mem_flatMap.mp ht
    exact ((hf x hx).inside t ht a ha hm).2
  separate := by
    refine List.pairwise_flatMap.mpr ⟨fun x hx => (hf x hx).separate, ?_⟩
    refine (List.pairwise_map.mp h.separate).imp_of_mem fun {x y} hx hy hsep => ?_
    intro t ht u hu a ha hm hm'
    exact hsep a ha ((hf x hx).inside t ht a ha hm).1 ((hf y hy).inside u hu a ha hm').1

theorem Parts.refine {rs : List (Range α)} {P Q : α → Prop} (h : Parts P rs)
    {f : Range α → List (Range α)} (hf : ∀ r ∈ rs, Parts (fun a => a ∈ r ∧ Q a) (f r)) :
    Parts Q (rs.flatMap f) :=
  Parts.refine_map (g := id) (by simpa using h) hf

theorem parts_splitAll (len : Nat) {rs : List (Range α)} {P : α → Prop} (h : Parts P rs) :
    Parts (Holds rs) (splitAll len rs) :=
  h.refine fun r hr =>
    (parts_pieces .ascending len (h.proper r hr) _).mono fun _ _ hm => ⟨hm, r, hr, hm⟩

theorem parts_piecesOfAll (order : Order) (len : Nat) {rs : List (Range α)} {P : α → Prop}
    (h : Parts P rs) (n : Nat) : Parts (Holds rs) (piecesOfAll order len rs n) := by
  induction rs generalizing n with
  | nil => exact .nil
  | cons r rs ih =>
    have hsep := (List.pairwise_cons.mp h.separate).1
    have hhead := parts_pieces order len (h.proper r (List.mem_cons_self ..)) n
    refine (hhead.append (ih h.tail _) fun a ha hm ⟨s, hs, hm'⟩ => ?_).mono fun a _ h => by
      simpa using h
    exact hsep s hs a ha hm hm'

theorem parts_firstPieces (order : Order) (len n : Nat) {rs : List (Range α)}
    (h : ∀ r ∈ rs, r.Proper) : Parts (Holds rs) (firstPieces order len n rs) := by
  have hmerge := (normal_merge h).parts
  cases order with
  | ascending =>
    exact (parts_piecesOfAll _ len hmerge n).mono fun a ha hm => (holds_merge h ha).mp hm
  | descending =>
    refine (parts_piecesOfAll _ len hmerge.reverse n).mono fun a ha hm => ?_
    exact (holds_merge h ha).mp ((Holds.of_perm (List.reverse_perm _)).mp hm)

end Backfill.Range
