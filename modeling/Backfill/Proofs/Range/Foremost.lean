import Mathlib.Algebra.Order.Floor.Div
import Mathlib.GroupTheory.GroupAction.Ring
import Backfill.Proofs.Range.Counts

/-!
# The first pieces in an order

Pieces are taken from below or from above. Either way the pieces that are taken come before those
that are not, so a budget keeps the first positions of what is cut, however long the pieces are.
Only the last piece of a range can be short: it ends where the range does.

Results:
* `foremost_pieces`, `foremost_piecesOfAll`, `foremost_firstPieces`: the pieces of one range, of
  several, and of any.
* `full_or_farEnd_of_mem_pieces`: which pieces can be short.
* `length_pieces`, `length_firstPieces`: how many pieces there are.
* `exists_all_pieces`: every range of blocks, upside down or not, has a last piece.
* `first_pieces_taken`: all of it for lists of blocks.
-/
namespace Backfill.Range

open Axis

variable {α : Type} [Axis α] {order : Order} {len n : Nat} {r s : Range α} {rs ss : List (Range α)}
  {P Q : α → Prop} {a : α}

/-! ## Positions in an order -/

theorem Proper.nearEnd_mem (hr : r.Proper) (order : Order) : order.nearEnd r ∈ r :=
  match order with
  | .ascending => hr.first_mem
  | .descending => hr.last_mem

theorem Proper.farEnd_mem (hr : r.Proper) (order : Order) : order.farEnd r ∈ r :=
  match order with
  | .ascending => hr.last_mem
  | .descending => hr.first_mem

theorem Proper.whole_nearEnd (hr : r.Proper) (order : Order) : Whole (order.nearEnd r) :=
  match order with
  | .ascending => hr.first
  | .descending => hr.last

theorem Proper.whole_farEnd (hr : r.Proper) (order : Order) : Whole (order.farEnd r) :=
  match order with
  | .ascending => hr.last
  | .descending => hr.first

theorem Order.before_of_mem (h : order.Before (order.farEnd r) (order.nearEnd s)) {b : α}
    (ha : a ∈ r) (hb : b ∈ s) : order.Before a b :=
  match order with
  | .ascending => Int.lt_of_le_of_lt ha.2 (Int.lt_of_lt_of_le h hb.1)
  | .descending => Int.lt_of_le_of_lt hb.2 (Int.lt_of_lt_of_le h ha.1)

theorem Order.Before.ne {b : α} (h : order.Before a b) : a ≠ b := by
  rintro rfl
  cases order <;> exact Int.lt_irrefl _ h

/-- Proper ranges of positions that satisfy `P`, one after the other in an order, that leave out
none before one of their own. -/
structure Foremost (order : Order) (P : α → Prop) (rs : List (Range α)) : Prop where
  proper : ∀ r ∈ rs, r.Proper
  inside : ∀ a, Whole a → Holds rs a → P a
  ordered : rs.Pairwise fun r s => order.Before (order.farEnd r) (order.nearEnd s)
  foremost : ∀ a b, Whole a → Whole b → P a → Holds rs b → ¬ order.Before b a → Holds rs a

namespace Foremost

theorem congr (h : Foremost order P rs) (hPQ : ∀ a, Whole a → (P a ↔ Q a)) :
    Foremost order Q rs where
  proper := h.proper
  inside a ha hm := (hPQ a ha).mp (h.inside a ha hm)
  ordered := h.ordered
  foremost a b ha hb hQ := h.foremost a b ha hb ((hPQ a ha).mpr hQ)

theorem nil : Foremost order P ([] : List (Range α)) :=
  ⟨by simp, fun a _ hm => absurd hm (holds_nil a), .nil,
    fun _ b _ _ _ hm => absurd hm (holds_nil b)⟩

theorem singleton (hr : r.Proper) : Foremost order (· ∈ r) [r] :=
  ⟨by simpa, by simp, List.pairwise_singleton _ _, fun a _ _ _ hm _ _ => by simpa using hm⟩

/-- What comes later is taken once all that comes before it has been. -/
theorem append (h : Foremost order P rs) (h' : Foremost order Q ss)
    (hbefore : ∀ a b, Whole a → Whole b → P a → Q b → order.Before a b)
    (hall : ss ≠ [] → ∀ a, Whole a → P a → Holds rs a) :
    Foremost order (fun a => P a ∨ Q a) (rs ++ ss) where
  proper r hr := (List.mem_append.mp hr).elim (h.proper r) (h'.proper r)
  inside a ha hm := ((holds_append ..).mp hm).imp (h.inside a ha) (h'.inside a ha)
  ordered := by
    refine List.pairwise_append.mpr ⟨h.ordered, h'.ordered, fun r hr s hs => ?_⟩
    have hfar := (h.proper r hr).whole_farEnd order
    have hnear := (h'.proper s hs).whole_nearEnd order
    exact hbefore _ _ hfar hnear (h.inside _ hfar ⟨r, hr, (h.proper r hr).farEnd_mem order⟩)
      (h'.inside _ hnear ⟨s, hs, (h'.proper s hs).nearEnd_mem order⟩)
  foremost a b ha hb hm hheld hle := by
    rw [holds_append] at hheld ⊢
    rcases hm with hm | hm <;> rcases hheld with hheld | hheld
    · exact .inl (h.foremost a b ha hb hm hheld hle)
    · obtain ⟨s, hs, -⟩ := hheld
      exact .inl (hall (List.ne_nil_of_mem hs) a ha hm)
    · exact absurd (hbefore b a hb ha (h.inside b hb hheld) hm) hle
    · exact .inr (h'.foremost a b ha hb hm hheld hle)

theorem separate (h : Foremost order P rs) : rs.Pairwise Separate :=
  h.ordered.imp fun hlt _ _ hm hm' => (Order.before_of_mem hlt hm hm').ne rfl

end Foremost

/-! ## Pieces of one range -/

theorem foremost_pieces (order : Order) (len n : Nat) (hr : r.Proper) :
    Foremost order (· ∈ r) (pieces order len r n) := by
  induction n generalizing r with
  | zero => cases order <;> exact .nil
  | succ n ih =>
    rcases pieces_succ order len n hr with ⟨-, heq⟩ | ⟨s, rest, hcut, heq⟩
    · rw [heq]
      exact .singleton hr
    · rw [heq]
      have hone : Foremost order (· ∈ s) [s] := .singleton hcut.proper
      refine (hone.append (ih hcut.rest_proper) ?_ ?_).congr fun a ha => (hcut.whole a ha).symm
      · exact fun a b _ _ hm hm' => Order.before_of_mem hcut.before hm hm'
      · exact fun _ a _ hm => by simpa using hm

/-- A piece that is not full ends its range. -/
theorem full_or_farEnd_of_mem_pieces (hr : r.Proper) (hs : s ∈ pieces order len r n) :
    s.size = len - 1 ∨ order.farEnd s = order.farEnd r := by
  induction n generalizing r with
  | zero => cases order <;> exact absurd hs List.not_mem_nil
  | succ n ih =>
    rcases pieces_succ order len n hr with ⟨-, heq⟩ | ⟨t, rest, hcut, heq⟩
    · rw [heq, List.mem_singleton] at hs
      exact .inr (hs ▸ rfl)
    · rw [heq] at hs
      rcases List.mem_cons.mp hs with rfl | hs
      · exact .inl hcut.full
      · rw [← hcut.farEnd]
        exact ih hcut.rest_proper hs

/-- A range that is upside down is its only piece. -/
theorem pieces_of_not_valid (order : Order) (len n : Nat) (hr : ¬ r.Valid) :
    pieces order len r (n + 1) = [r] := by
  unfold Valid at hr
  have hroom : (0 : Int) ≤ (len - 1 : Nat) * unit α :=
    Int.mul_nonneg (Int.natCast_nonneg _) (Int.le_of_lt unit_pos)
  cases order with
  | ascending =>
    have htop := (coord_mem r.first).2
    have hlast : least (stepUp r.first (len - 1)) r.last = r.last := by
      apply coord_inj
      rw [coord_least, coord_stepUp]
      omega
    simp only [pieces, piecesUp, hlast, if_neg (Int.lt_irrefl _)]
  | descending =>
    have hbottom := (coord_mem r.last).1
    have hfirst : greatest (stepDown r.last (len - 1)) r.first = r.first := by
      apply coord_inj
      rw [coord_greatest, coord_stepDown]
      omega
    simp only [pieces, piecesDown, hfirst, if_neg (Int.lt_irrefl _)]

/-- A range has as many pieces as its positions fill. -/
theorem length_pieces (order : Order) (hlen : 0 < len) (n : Nat) (hr : r.Proper) :
    (pieces order len r n).length = min n ((r.size + 1) ⌈/⌉ len) := by
  induction n generalizing r with
  | zero => cases order <;> simp [pieces, piecesUp, piecesDown]
  | succ n ih =>
    rcases pieces_succ order len n hr with ⟨hshort, heq⟩ | ⟨s, rest, hcut, heq⟩
    · have hone : (r.size + 1) ⌈/⌉ len = 1 := by
        rw [Nat.ceilDiv_eq_add_pred_div]
        exact Nat.div_eq_of_lt_le (by omega) (by omega)
      rw [heq, hone, List.length_singleton]
      omega
    · have hfull := hcut.full
      have hsizes := hcut.sizes
      have hmore : (r.size + 1) ⌈/⌉ len = (rest.size + 1) ⌈/⌉ len + 1 := by
        rw [Nat.ceilDiv_eq_add_pred_div, Nat.ceilDiv_eq_add_pred_div, ← Nat.add_div_right _ hlen]
        congr 1
        omega
      rw [heq, List.length_cons, ih hcut.rest_proper, hmore]
      omega

theorem holds_pieces_of_lt (order : Order) (hr : r.Proper)
    (hlt : (pieces order len r n).length < n) (ha : Whole a) (hm : a ∈ r) :
    Holds (pieces order len r n) a := by
  -- a budget with room for every position takes no more
  obtain ⟨more, hmore, hroom⟩ : ∃ more, n ≤ more ∧ r.size < more :=
    ⟨n + (r.size + 1), by omega, by omega⟩
  have htake : pieces order len r n = (pieces order len r more).take n := pieces_take hmore
  have hall := holds_pieces order len hr hroom ha hm
  rw [htake, List.length_take] at hlt
  rwa [htake, List.take_of_length_le (by omega)]

/-! ## Pieces of several ranges -/

theorem mem_piecesOfAll (hs : s ∈ piecesOfAll order len rs n) :
    ∃ r ∈ rs, ∃ m, s ∈ pieces order len r m := by
  induction rs generalizing n with
  | nil => exact absurd hs List.not_mem_nil
  | cons r rs ih =>
    rcases List.mem_append.mp hs with hs | hs
    · exact ⟨r, List.mem_cons_self, n, hs⟩
    · obtain ⟨t, ht, m, hs⟩ := ih hs
      exact ⟨t, List.mem_cons_of_mem _ ht, m, hs⟩

/-- Ranges that lie one after the other are taken in turn. -/
theorem foremost_piecesOfAll (order : Order) (len n : Nat) (hproper : ∀ r ∈ rs, r.Proper)
    (hordered : rs.Pairwise fun r s => order.Before (order.farEnd r) (order.nearEnd s)) :
    Foremost order (Holds rs) (piecesOfAll order len rs n) := by
  induction rs generalizing n with
  | nil => exact .nil
  | cons r rs ih =>
    rw [List.forall_mem_cons] at hproper
    rw [List.pairwise_cons] at hordered
    have hhead := foremost_pieces order len n hproper.1
    have hrest := ih (n - (pieces order len r n).length) hproper.2 hordered.2
    refine (hhead.append hrest ?_ ?_).congr fun a _ => (holds_cons r rs a).symm
    · rintro a b - - hm ⟨s, hs, hm'⟩
      exact Order.before_of_mem (hordered.1 s hs) hm hm'
    · -- the budget has not been used up if there are pieces of other ranges
      intro hsome a ha hm
      refine holds_pieces_of_lt order hproper.1 ?_ ha hm
      have hle := (length_piecesOfAll_le order len (n - (pieces order len r n).length) hproper.2).1
      have hpos := List.length_pos_iff.mpr hsome
      omega

-- sums begin with the zero of the core library
attribute [local instance(high)] Zero.ofOfNat0

theorem length_piecesOfAll (order : Order) (hlen : 0 < len) (n : Nat) (h : ∀ r ∈ rs, r.Proper) :
    (piecesOfAll order len rs n).length =
      min n (rs.map fun r => (r.size + 1) ⌈/⌉ len).sum := by
  induction rs generalizing n with
  | nil => simp [piecesOfAll]
  | cons r rs ih =>
    rw [List.forall_mem_cons] at h
    rw [piecesOfAll, List.length_append, ih _ h.2, length_pieces order hlen n h.1, List.map_cons,
      List.sum_cons]
    omega

/-! ## Pieces of merged ranges -/

section FirstPieces

variable (h : ∀ r ∈ rs, r.Proper)

include h

private theorem ordered_merge :
    (merge rs).Pairwise fun r s => Order.Before .ascending (Order.farEnd .ascending r)
      (Order.nearEnd .ascending s) := by
  have hmerge := normal_merge h
  refine hmerge.apart.imp_of_mem fun {r s} hr hs hapart => ?_
  have hplace := (apart_iff (hmerge.proper r hr) (hmerge.proper s hs)).mp hapart
  exact (place_lt_place (hmerge.proper r hr).last (hmerge.proper s hs).first).mp (by omega)

/-- The first pieces have the first positions of what is cut. -/
theorem foremost_firstPieces (order : Order) (len n : Nat) :
    Foremost order (Holds rs) (firstPieces order len n rs) := by
  have hproper := (normal_merge h).proper
  have hordered := ordered_merge h
  cases order with
  | ascending =>
    exact (foremost_piecesOfAll .ascending len n hproper hordered).congr fun a ha =>
      holds_merge h ha
  | descending =>
    have hback : ∀ r ∈ (merge rs).reverse, r.Proper := by simpa using hproper
    refine (foremost_piecesOfAll .descending len n hback
      (List.pairwise_reverse.mpr hordered)).congr fun a ha => ?_
    rw [Holds.of_perm (List.reverse_perm _), holds_merge h ha]

theorem length_firstPieces (order : Order) (hlen : 0 < len) (n : Nat) :
    (firstPieces order len n rs).length =
      min n ((merge rs).map fun r => (r.size + 1) ⌈/⌉ len).sum := by
  have hproper := (normal_merge h).proper
  cases order with
  | ascending => exact length_piecesOfAll .ascending hlen n hproper
  | descending =>
    have hback : ∀ r ∈ (merge rs).reverse, r.Proper := by simpa using hproper
    rw [firstPieces, length_piecesOfAll .descending hlen n hback, List.map_reverse,
      List.sum_reverse]

theorem holds_firstPieces_of_lt (hlt : (firstPieces order len n rs).length < n)
    (ha : Whole a) (hm : Holds rs a) : Holds (firstPieces order len n rs) a := by
  rw [← firstPieces_of_lt hlt (Nat.le_add_right n (steps (merge rs) + (merge rs).length))]
  exact holds_firstPieces h (Nat.le_add_left ..) ha hm

theorem holds_firstPieces_of_le (hlen : 0 < len)
    (hn : ((merge rs).map fun r => (r.size + 1) ⌈/⌉ len).sum ≤ n) (ha : Whole a)
    (hm : Holds rs a) : Holds (firstPieces order len n rs) a := by
  -- one piece more would not be used up
  have hlength := length_firstPieces h order hlen (n + 1)
  have hlt : (firstPieces order len (n + 1) rs).length < n + 1 := by omega
  have htake : firstPieces order len n rs = (firstPieces order len (n + 1) rs).take n := by
    cases order <;> exact piecesOfAll_take (Nat.le_succ n)
  rw [htake, List.take_of_length_le (by omega)]
  exact holds_firstPieces_of_lt h hlt ha hm

theorem full_or_farEnd_of_mem_firstPieces (hs : s ∈ firstPieces order len n rs) :
    ∃ r ∈ merge rs, (∀ a, Whole a → a ∈ s → a ∈ r) ∧
      (s.size = len - 1 ∨ order.farEnd s = order.farEnd r) := by
  obtain ⟨r, hr, m, hs⟩ : ∃ r ∈ merge rs, ∃ m, s ∈ pieces order len r m := by
    cases order with
    | ascending => exact mem_piecesOfAll hs
    | descending => simpa using mem_piecesOfAll hs
  have hproper := (normal_merge h).proper r hr
  exact ⟨r, hr, (parts_pieces order len hproper m).inside s hs,
    full_or_farEnd_of_mem_pieces hproper hs⟩

end FirstPieces

/-! ## Blocks -/

/-- Taking pieces of a range of blocks comes to an end: the pieces are those of one list. -/
theorem exists_all_pieces (order : Order) (hlen : 0 < len) (r : Range BlockNumber) :
    ∃ all : List (Range BlockNumber),
      all.length = (r.size + 1) ⌈/⌉ len ∧ ∀ m, pieces order len r m = all.take m := by
  have hlength : ∀ m, (pieces order len r m).length = min m ((r.size + 1) ⌈/⌉ len) := by
    intro m
    by_cases hr : r.Valid
    · exact length_pieces order hlen m (proper_block.mpr hr)
    · have hone : (r.size + 1) ⌈/⌉ len = 1 := by
        have hsize : r.size = 0 := by
          simp only [Valid, coord_block] at hr
          simp only [size, distance, coord_block, Axis.unit, Int.ediv_one]
          omega
        rw [hsize, Nat.ceilDiv_eq_add_pred_div]
        exact Nat.div_eq_of_lt_le (by omega) (by omega)
      cases m with
      | zero => cases order <;> simp [pieces, piecesUp, piecesDown]
      | succ m =>
        rw [pieces_of_not_valid order len m hr, hone, List.length_singleton]
        omega
  generalize (r.size + 1) ⌈/⌉ len = count at hlength
  refine ⟨pieces order len r count, by rw [hlength, Nat.min_self], fun m => ?_⟩
  by_cases hm : m ≤ count
  · exact pieces_take hm
  · have htake : pieces order len r count = (pieces order len r m).take count :=
      pieces_take (by omega)
    have hsame : (pieces order len r m).take count = pieces order len r m :=
      List.take_of_length_le (by rw [hlength]; omega)
    rw [htake, hsame, List.take_of_length_le (by rw [hlength]; omega)]

/-- **First pieces.** A budget of pieces takes, in either order, the first blocks of the list: the
pieces follow one another in the order and leave out no block before one of their own. None has more
blocks than allowed, and one that has fewer ends its merged range. If the budget has room for all
pieces of the merged ranges, no block is left out. Every range, also one that is upside down or one
of all blocks, has a last piece. -/
theorem first_pieces_taken {rs : List (Range BlockNumber)} {len : Nat} (h : ∀ r ∈ rs, r.Valid)
    (hlen : 1 ≤ len) (order : Order) (n : Nat) :
    let found := firstPieces order len n rs
    (∀ s ∈ found, s.Valid ∧ {b | b ∈ s}.ncard ≤ len) ∧ found.length ≤ n ∧
    found.Pairwise Separate ∧ Foremost order (Holds rs) found ∧
    (((merge rs).map fun r => {b | b ∈ r}.ncard ⌈/⌉ len).sum ≤ n →
      ∀ b, Holds rs b → Holds found b) ∧
    (∀ s ∈ found, {b | b ∈ s}.ncard < len →
      ∃ r ∈ merge rs, (∀ b ∈ s, b ∈ r) ∧ order.farEnd s = order.farEnd r) ∧
    ∀ r : Range BlockNumber, ∃ all : List (Range BlockNumber),
      all.length = (r.size + 1) ⌈/⌉ len ∧ ∀ m, pieces order len r m = all.take m := by
  have hproper : ∀ r ∈ rs, r.Proper := fun r hr => proper_block.mpr (h r hr)
  have hforemost := foremost_firstPieces hproper order len n
  have hvalid : ∀ s ∈ firstPieces order len n rs, s.Valid := fun s hs =>
    (hforemost.proper s hs).valid
  intro found
  refine ⟨fun s hs => ⟨hvalid s hs, ?_⟩, (length_firstPieces_le hproper order len n).1,
    hforemost.separate, hforemost, fun hn b hb => ?_, fun s hs hshort => ?_,
    exists_all_pieces order hlen⟩
  · have hsize := size_firstPieces hproper hs
    rw [ncard_range (hvalid s hs)]
    omega
  · have hcounts : ((merge rs).map fun r => {b | b ∈ r}.ncard ⌈/⌉ len) =
        (merge rs).map fun r => (r.size + 1) ⌈/⌉ len :=
      List.map_congr_left fun r hr => by rw [ncard_range ((normal_merge hproper).proper r hr).valid]
    rw [hcounts] at hn
    exact holds_firstPieces_of_le hproper hlen hn (whole_block b) hb
  · obtain ⟨r, hr, hin, hend⟩ := full_or_farEnd_of_mem_firstPieces hproper hs
    rw [ncard_range (hvalid s hs)] at hshort
    exact ⟨r, hr, fun b hb => hin b (whole_block b) hb, hend.resolve_left (by omega)⟩

namespace UpToTop

def blocks : List (Range BlockNumber) :=
  [⟨18446744073709551606, 18446744073709551615⟩, ⟨4, 6⟩, ⟨0, 3⟩]

/-- Pieces of four blocks: the three highest, all five, and the four pieces of a quarter of all
blocks each. -/
theorem first_pieces_taken_from_top :
    (∀ r ∈ blocks, r.Valid) ∧ 1 ≤ 4 ∧
      firstPieces .descending 4 3 blocks =
        [⟨18446744073709551612, 18446744073709551615⟩,
          ⟨18446744073709551608, 18446744073709551611⟩,
          ⟨18446744073709551606, 18446744073709551607⟩] ∧
      Foremost .descending (Holds blocks) (firstPieces .descending 4 3 blocks) ∧
      ((merge blocks).map fun r => {b | b ∈ r}.ncard ⌈/⌉ 4).sum ≤ 5 ∧
      (∀ b, Holds blocks b → Holds (firstPieces .ascending 4 5 blocks) b) ∧
      1 ≤ 4611686018427387904 ∧
      ∃ all : List (Range BlockNumber), all.length = 4 ∧
        ∀ m, pieces .ascending 4611686018427387904 ⟨0, 18446744073709551615⟩ m = all.take m := by
  have hvalid : ∀ r ∈ blocks, r.Valid := by decide
  have hmerged : merge blocks = [⟨0, 6⟩, ⟨18446744073709551606, 18446744073709551615⟩] := by decide
  have hroom : ((merge blocks).map fun r => {b | b ∈ r}.ncard ⌈/⌉ 4).sum ≤ 5 := by
    rw [hmerged, List.map_cons, List.map_cons, List.map_nil, ncard_range (by decide),
      ncard_range (by decide)]
    decide
  obtain ⟨-, -, -, hforemost, -⟩ := first_pieces_taken hvalid (by decide : 1 ≤ 4) .descending 3
  obtain ⟨-, -, -, -, hall, -⟩ := first_pieces_taken hvalid (by decide : 1 ≤ 4) .ascending 5
  obtain ⟨-, -, -, -, -, -, hlast⟩ := first_pieces_taken hvalid
    (by decide : 1 ≤ 4611686018427387904) .ascending 0
  exact ⟨hvalid, by decide, by decide, hforemost, hroom, hall hroom, by decide,
    hlast ⟨0, 18446744073709551615⟩⟩

end UpToTop

end Backfill.Range
