import Mathlib.Data.Set.Card
import Mathlib.Order.Interval.Finset.Nat
import Backfill.Proofs.Range.Pieces

/-!
# Counting pieces and blocks

A list has a budget of pieces, and a piece has a bounded length. Whoever can afford a piece for each
position of the merged ranges gets all of them.

The size of a range is the number of its steps, one less than it has blocks. So the sizes of parts
fall short of the blocks that they hold by as many as there are parts.

Results:
* `size_firstPieces`, `length_firstPieces_le`: pieces keep to a length and to a budget.
* `firstPieces_of_lt`: a budget that is not used up might as well be larger.
* `holds_firstPieces`: a budget that is large enough loses no position.
* `ncard_holds`: how many blocks parts hold.
-/
namespace Backfill.Range

open Axis

variable {α : Type} [Axis α] {order : Order} {len n : Nat} {r s : Range α} {rs ss : List (Range α)}

/-! ## Sizes together -/

-- sums begin with the zero of the core library
attribute [local instance(high)] Zero.ofOfNat0

def steps (rs : List (Range α)) : Nat := (rs.map size).sum

@[simp] theorem steps_nil : steps ([] : List (Range α)) = 0 := rfl

@[simp] theorem steps_cons : steps (r :: rs) = r.size + steps rs := List.sum_cons

@[simp] theorem steps_append : steps (rs ++ ss) = steps rs + steps ss := by
  induction rs with
  | nil => simp
  | cons r rs ih =>
    rw [List.cons_append, steps_cons, steps_cons, ih]
    omega

theorem steps_perm (h : rs.Perm ss) : steps rs = steps ss := by
  induction h with
  | nil => rfl
  | cons r _ ih => simp [ih]
  | swap r s rs =>
    simp only [steps_cons]
    omega
  | trans _ _ ih ih' => exact ih.trans ih'

theorem totalSize_eq (rs : List (Range α)) : totalSize rs = UInt64.ofNat (steps rs) := by
  induction rs with
  | nil => rfl
  | cons r rs ih =>
    rw [totalSize, List.map_cons, List.sum_cons, ← totalSize, ih, steps_cons, UInt64.ofNat_add]

theorem toNat_totalSize (h : steps rs < 2 ^ 64) : (totalSize rs).toNat = steps rs := by
  rw [totalSize_eq, UInt64.toNat_ofNat_of_lt' h]

theorem totalSize_perm (h : rs.Perm ss) : totalSize rs = totalSize ss := by
  rw [totalSize_eq, totalSize_eq, steps_perm h]

theorem totalSize_flatMap {β : Type} (xs : List β) (f : β → List (Range α)) :
    totalSize (xs.flatMap f) = (xs.map fun x => totalSize (f x)).sum := by
  induction xs with
  | nil => rfl
  | cons x xs ih =>
    rw [List.flatMap_cons, totalSize_eq, steps_append, UInt64.ofNat_add, ← totalSize_eq,
      ← totalSize_eq, ih, List.map_cons, List.sum_cons]

/-! ## Pieces of one range -/

theorem size_pieces (hr : r.Proper) (hs : s ∈ pieces order len r n) : s.size ≤ len - 1 := by
  induction n generalizing r with
  | zero => cases order <;> exact absurd hs (by simp [pieces, piecesUp, piecesDown])
  | succ n ih =>
    rcases pieces_succ order len n hr with ⟨hle, heq⟩ | ⟨t, rest, hfull, heq⟩
    · rw [heq, List.mem_singleton] at hs
      rwa [hs]
    · rw [heq] at hs
      rcases List.mem_cons.mp hs with rfl | hs
      · exact Nat.le_of_eq hfull.full
      · exact ih hfull.rest_proper hs

theorem length_pieces_le (order : Order) (len n : Nat) (hr : r.Proper) :
    (pieces order len r n).length ≤ n ∧ (pieces order len r n).length ≤ r.size + 1 := by
  induction n generalizing r with
  | zero => cases order <;> simp [pieces, piecesUp, piecesDown]
  | succ n ih =>
    rcases pieces_succ order len n hr with ⟨-, heq⟩ | ⟨t, rest, hfull, heq⟩
    · rw [heq, List.length_singleton]
      omega
    · have hrest := ih hfull.rest_proper
      have hshorter := hfull.shorter
      rw [heq, List.length_cons]
      omega

/-! ## Pieces of several ranges -/

theorem size_piecesOfAll (h : ∀ r ∈ rs, r.Proper) (hs : s ∈ piecesOfAll order len rs n) :
    s.size ≤ len - 1 := by
  induction rs generalizing n with
  | nil => exact absurd hs (by simp [piecesOfAll])
  | cons r rs ih =>
    rw [List.forall_mem_cons] at h
    rcases List.mem_append.mp hs with hs | hs
    · exact size_pieces h.1 hs
    · exact ih h.2 hs

theorem length_piecesOfAll_le (order : Order) (len n : Nat) (h : ∀ r ∈ rs, r.Proper) :
    (piecesOfAll order len rs n).length ≤ n ∧
      (piecesOfAll order len rs n).length ≤ steps rs + rs.length := by
  induction rs generalizing n with
  | nil => simp [piecesOfAll]
  | cons r rs ih =>
    rw [List.forall_mem_cons] at h
    have hhead := length_pieces_le order len n h.1
    have hrest := ih (n - (pieces order len r n).length) h.2
    simp only [piecesOfAll, List.length_append, steps_cons, List.length_cons]
    omega

/-- A range has at most one piece for each of its positions. -/
theorem holds_piecesOfAll (h : ∀ r ∈ rs, r.Proper) (hn : steps rs + rs.length ≤ n) {a : α}
    (ha : Whole a) (hm : Holds rs a) : Holds (piecesOfAll order len rs n) a := by
  induction rs generalizing n with
  | nil => exact absurd hm (holds_nil a)
  | cons r rs ih =>
    rw [List.forall_mem_cons] at h
    rw [steps_cons, List.length_cons] at hn
    have hhead := (length_pieces_le order len n h.1).2
    rw [piecesOfAll, holds_append]
    rcases (holds_cons r rs a).mp hm with hm | hm
    · exact .inl (holds_pieces order len h.1 (by omega) ha hm)
    · exact .inr (ih h.2 (by omega) hm)

theorem size_splitAll (h : ∀ r ∈ rs, r.Proper) (hs : s ∈ splitAll len rs) : s.size ≤ len - 1 := by
  obtain ⟨r, hr, hs⟩ := List.mem_flatMap.mp hs
  rw [split] at hs
  exact size_pieces (h r hr) (show s ∈ pieces .ascending len r r.pieceBound from hs)

/-! ## Budgets -/

/-- A smaller budget takes the first of the pieces. -/
theorem pieces_take {m : Nat} (h : n ≤ m) :
    pieces order len r n = (pieces order len r m).take n := by
  induction n generalizing r m with
  | zero => cases order <;> simp [pieces, piecesUp, piecesDown]
  | succ n ih =>
    obtain ⟨m, rfl⟩ := Nat.exists_eq_add_of_lt h
    cases order with
    | ascending =>
      simp only [pieces, piecesUp, List.take_succ_cons] at ih ⊢
      split
      · rw [ih (Nat.le_add_right n m)]
      · rw [List.take_nil]
    | descending =>
      simp only [pieces, piecesDown, List.take_succ_cons] at ih ⊢
      split
      · rw [ih (Nat.le_add_right n m)]
      · rw [List.take_nil]

theorem piecesOfAll_take {m : Nat} (h : n ≤ m) :
    piecesOfAll order len rs n = (piecesOfAll order len rs m).take n := by
  induction rs generalizing n m with
  | nil => simp [piecesOfAll]
  | cons r rs ih =>
    have hhead : pieces order len r n = (pieces order len r m).take n := pieces_take h
    have hleft : n - (pieces order len r n).length = n - (pieces order len r m).length := by
      rw [hhead, List.length_take]
      omega
    have hrest := ih (Nat.sub_le_sub_right h (pieces order len r m).length)
    rw [piecesOfAll, piecesOfAll, List.take_append, ← hhead, hleft, hrest]

theorem firstPieces_of_lt {m : Nat} (hlt : (firstPieces order len n rs).length < n) (h : n ≤ m) :
    firstPieces order len m rs = firstPieces order len n rs := by
  have htake : firstPieces order len n rs = (firstPieces order len m rs).take n := by
    cases order <;> exact piecesOfAll_take h
  rw [htake, List.length_take] at hlt
  rw [htake, List.take_of_length_le (by omega)]

section FirstPieces

variable (h : ∀ r ∈ rs, r.Proper)

include h

theorem size_firstPieces (hs : s ∈ firstPieces order len n rs) : s.size ≤ len - 1 := by
  have hmerge := (normal_merge h).proper
  cases order with
  | ascending => exact size_piecesOfAll hmerge hs
  | descending => exact size_piecesOfAll (by simpa using hmerge) hs

theorem length_firstPieces_le (order : Order) (len n : Nat) :
    (firstPieces order len n rs).length ≤ n ∧
      (firstPieces order len n rs).length ≤ steps (merge rs) + (merge rs).length := by
  have hmerge := (normal_merge h).proper
  cases order with
  | ascending => exact length_piecesOfAll_le _ len n hmerge
  | descending =>
    have hback : ∀ r ∈ (merge rs).reverse, r.Proper := by simpa using hmerge
    have hle := length_piecesOfAll_le .descending len n hback
    rwa [steps_perm (List.reverse_perm _), List.length_reverse] at hle

theorem holds_firstPieces (hn : steps (merge rs) + (merge rs).length ≤ n) {a : α}
    (ha : Whole a) (hm : Holds rs a) : Holds (firstPieces order len n rs) a := by
  have hmerge := (normal_merge h).proper
  have hm := (holds_merge h ha).mpr hm
  cases order with
  | ascending => exact holds_piecesOfAll hmerge hn ha hm
  | descending =>
    refine holds_piecesOfAll (by simpa using hmerge) ?_ ha
      ((Holds.of_perm (List.reverse_perm _)).mpr hm)
    rwa [steps_perm (List.reverse_perm _), List.length_reverse]

end FirstPieces

/-! ## Positions -/

/-- A position lies in one part at most. -/
theorem Parts.countP_contains_le {P : α → Prop} (h : Parts P rs) {a : α} (ha : Whole a) :
    rs.countP (·.contains a) ≤ 1 := by
  induction rs with
  | nil => simp
  | cons r rs ih =>
    have hseparate := (List.pairwise_cons.mp h.separate).1
    by_cases hm : a ∈ r
    · have hrest : rs.countP (·.contains a) = 0 := by
        rw [List.countP_eq_zero]
        exact fun s hs hc => hseparate s hs a ha hm (contains_iff.mp hc)
      rw [List.countP_cons, hrest, if_pos (contains_iff.mpr hm)]
    · rw [List.countP_cons, if_neg fun hc => hm (contains_iff.mp hc)]
      exact ih h.tail

theorem Parts.countP_eq {P Q : α → Prop} (h : Parts P rs) (h' : Parts Q ss) {a : α} (ha : Whole a)
    (hsame : Holds rs a ↔ Holds ss a) :
    rs.countP (·.contains a) = ss.countP (·.contains a) := by
  have hpos : ∀ rs : List (Range α), 0 < rs.countP (·.contains a) ↔ Holds rs a := by
    intro rs
    simp only [List.countP_pos_iff, contains_iff, Holds]
  have hle := h.countP_contains_le ha
  have hle' := h'.countP_contains_le ha
  have hiff := (hpos rs).trans (hsame.trans (hpos ss).symm)
  omega

/-! ## Blocks -/

instance : Finite BlockNumber :=
  Finite.of_injective (fun b => (⟨b.toNat, b.toNat_lt⟩ : Fin (2 ^ 64))) fun _ _ h =>
    UInt64.toNat_inj.mp (Fin.mk.inj h)

theorem ncard_range {r : Range BlockNumber} (h : r.Valid) : {b | b ∈ r}.ncard = r.size + 1 := by
  have hnumbers : UInt64.toNat '' {b : BlockNumber | b ∈ r} =
      Finset.Icc r.first.toNat r.last.toNat := by
    ext n
    simp only [Set.mem_image, Set.mem_ofPred_eq, mem_def, coord_block, Finset.coe_Icc, Set.mem_Icc]
    constructor
    · rintro ⟨b, hb, rfl⟩
      omega
    · intro hn
      have htop := r.last.toNat_lt
      have heq : (UInt64.ofNat n).toNat = n := by
        rw [UInt64.toNat_ofNat']
        omega
      exact ⟨UInt64.ofNat n, by omega, heq⟩
  have hsize := size_eq_place (proper_block.mpr h)
  simp only [place, coord_block, Axis.unit, Int.ediv_one] at hsize
  have hle : r.first.toNat ≤ r.last.toNat := Int.ofNat_le.mp h
  rw [← Set.ncard_image_of_injective _ (fun _ _ h => UInt64.toNat_inj.mp h), hnumbers,
    Set.ncard_coe_finset, Nat.card_Icc]
  omega

/-- **Blocks.** Parts hold as many blocks as their sizes together, and one more for each part. -/
theorem ncard_holds {rs : List (Range BlockNumber)} {P : BlockNumber → Prop} (h : Parts P rs) :
    {b | Holds rs b}.ncard = steps rs + rs.length := by
  induction rs with
  | nil => simp
  | cons r rs ih =>
    have hseparate := (List.pairwise_cons.mp h.separate).1
    have hsplit : {b | Holds (r :: rs) b} = {b | b ∈ r} ∪ {b | Holds rs b} := by
      ext b
      simp
    have hdisjoint : Disjoint {b | b ∈ r} {b | Holds rs b} := by
      rw [Set.disjoint_left]
      rintro b hb ⟨s, hs, hb'⟩
      exact hseparate s hs b (whole_block b) hb hb'
    rw [hsplit, Set.ncard_union_eq hdisjoint, ncard_range
      (h.proper r (List.mem_cons_self ..)).valid,
      ih h.tail, steps_cons, List.length_cons]
    omega

end Backfill.Range
