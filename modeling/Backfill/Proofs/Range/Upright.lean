import Backfill.Proofs.ImportState.ImportRanges
import Backfill.Proofs.Range.Pieces
import Backfill.Time.Instant

/-!
# Ranges off the grid

Instants are ordered to the nanosecond and walked in milliseconds. A union or an intersection takes
its ends from the ranges that it is given, so it is the right way round wherever they lie. A
difference and a piece may end a step from such an end: where less than a step is left over, the
step leads past the other end. Such a range is the wrong way round, by less than a step. It still
begins no lower than the lowest range it is made of, and ends no higher than the highest. On the
grid nothing less than a step can be left over.

Results:
* `between_merge`, `between_clamp`, `between_cut`, `between_pieces`: each operation.
* `ImportRanges.Upright.applyResult`: what an outcome makes of a coverage.
* `upright`: all operations together, off the grid and on it.
-/
namespace Backfill

open Axis

namespace Range

variable {α : Type} [Axis α] {gap len : Nat} {slack : Int} {b r s t : Range α}
  {rs ss rest holes : List (Range α)}

/-- The wrong way round by less than a step, if at all. -/
def AlmostValid (r : Range α) : Prop := coord r.first < coord r.last + unit α

theorem Valid.almostValid (h : r.Valid) : r.AlmostValid := by
  have hunit := unit_pos (α := α)
  unfold Valid at h
  unfold AlmostValid
  omega

/-- Lies between the ends of `b`, and is the wrong way round by at most `slack`. -/
structure Between (b : Range α) (slack : Int) (r : Range α) : Prop where
  inside : b.Encloses r
  order : coord r.first ≤ coord r.last + slack

theorem Between.valid (h : Between b 0 r) : r.Valid := by
  have := h.order
  unfold Valid
  omega

theorem Between.almostValid (h : Between b (unit α - 1) r) : r.AlmostValid := by
  have := h.order
  unfold AlmostValid
  omega

/-- Begins no lower than the lowest range of a list, and ends no higher than the highest. -/
def Spanned (rs : List (Range α)) (t : Range α) : Prop := ∃ c, cover rs = some c ∧ c.Encloses t

theorem exists_cover {ts : List (Range α)} (h : ∀ r ∈ rs, coord r.first ≤ coord r.last + slack)
    (hempty : rs = [] → ts = [])
    (hts : ∀ b, (∀ r ∈ rs, Between b slack r) → ∀ t ∈ ts, Between b slack t) (ht : t ∈ ts) :
    ∃ c, cover rs = some c ∧ Between c slack t := by
  have hne : rs ≠ [] := fun hrs => List.ne_nil_of_mem ht (hempty hrs)
  obtain ⟨r, rest, rfl⟩ := List.exists_cons_of_ne_nil hne
  obtain ⟨c, hc⟩ : ∃ c, cover (r :: rest) = some c := ⟨_, rfl⟩
  have hall := (encloses_cover hc c).mp (.refl c)
  exact ⟨c, hc, hts c (fun s hs => ⟨hall s hs, h s hs⟩) t ht⟩

/-! ## Union -/

theorem between_fuseFrom (hr : Between b slack r) (hrest : ∀ s ∈ rest, Between b slack s) :
    ∀ t ∈ fuseFrom gap r rest, Between b slack t := by
  induction rest generalizing r with
  | nil => exact fun t ht => List.mem_singleton.mp ht ▸ hr
  | cons s rest ih =>
    rw [List.forall_mem_cons] at hrest
    rw [fuseFrom]
    split
    · refine ih ⟨⟨hr.inside.1, ?_⟩, ?_⟩ hrest.2
      · have hlast := hr.inside.2
        have hlast' := hrest.1.inside.2
        rw [coord_greatest]
        omega
      · have horder := hr.order
        dsimp only
        rw [coord_greatest]
        omega
    · exact List.forall_mem_cons.mpr ⟨hr, ih hrest.1 hrest.2⟩

theorem between_merge (h : ∀ r ∈ rs, Between b slack r) : ∀ t ∈ merge rs, Between b slack t := by
  have hsort : ∀ r ∈ sort rs, Between b slack r := fun r hr => h r (mem_sortBy.mp hr)
  unfold merge mergeWithin
  generalize sort rs = rs at hsort
  cases rs with
  | nil => exact fun t ht => absurd ht List.not_mem_nil
  | cons r rest =>
    rw [List.forall_mem_cons] at hsort
    exact between_fuseFrom hsort.1 hsort.2

theorem exists_cover_merge (h : ∀ r ∈ rs, coord r.first ≤ coord r.last + slack)
    (ht : t ∈ merge rs) :
    ∃ c, cover rs = some c ∧ Between c slack t :=
  exists_cover h (by rintro rfl; rfl) (fun _ => between_merge) ht

theorem merge_valid (h : ∀ r ∈ rs, r.Valid) (ht : t ∈ merge rs) : t.Valid ∧ Spanned rs t := by
  have horder : ∀ r ∈ rs, coord r.first ≤ coord r.last + 0 := fun r hr => by
    rw [Int.add_zero]
    exact h r hr
  obtain ⟨c, hc, hbetween⟩ := exists_cover_merge horder ht
  exact ⟨hbetween.valid, c, hc, hbetween.inside⟩

theorem AlmostValid.order (h : r.AlmostValid) : coord r.first ≤ coord r.last + (unit α - 1) := by
  unfold AlmostValid at h
  omega

theorem merge_almostValid (h : ∀ r ∈ rs, r.AlmostValid) (ht : t ∈ merge rs) : t.AlmostValid := by
  obtain ⟨c, -, hbetween⟩ := exists_cover_merge (fun r hr => (h r hr).order) ht
  exact hbetween.almostValid

/-- Each of the merged ranges ends before the next one begins, also off the grid. -/
theorem ascending_fuseFrom (h : (r :: rest).Pairwise fun r s => coord r.first ≤ coord s.first) :
    (fuseFrom gap r rest).Pairwise (fun t u => coord t.last < coord u.first) ∧
      ∀ t ∈ fuseFrom gap r rest, coord r.first ≤ coord t.first := by
  induction rest generalizing r with
  | nil => exact ⟨List.pairwise_singleton .., fun t ht => List.mem_singleton.mp ht ▸ Int.le_refl _⟩
  | cons s rest ih =>
    rw [List.pairwise_cons, List.forall_mem_cons] at h
    obtain ⟨⟨hrs, hr⟩, hs⟩ := h
    rw [fuseFrom]
    split
    · exact ih (List.pairwise_cons.mpr ⟨hr, (List.pairwise_cons.mp hs).2⟩)
    · next hfar =>
      obtain ⟨hasc, hge⟩ := ih hs
      have hstep : coord r.last ≤ coord (stepUp r.last gap) := by
        have htop := (coord_mem r.last).2
        have hroom : 0 ≤ (gap : Int) * unit α :=
          Int.mul_nonneg (Int.natCast_nonneg gap) (Int.le_of_lt unit_pos)
        rw [coord_stepUp]
        omega
      refine ⟨List.pairwise_cons.mpr ⟨fun t ht => ?_, hasc⟩, List.forall_mem_cons.mpr
        ⟨Int.le_refl _, fun t ht => Int.le_trans hrs (hge t ht)⟩⟩
      have := hge t ht
      omega

theorem ascending_merge (rs : List (Range α)) :
    (merge rs).Pairwise fun t u => coord t.last < coord u.first := by
  have hsort : (sort rs).Pairwise fun r s => coord r.first ≤ coord s.first := by
    refine (pairwise_sortBy precedes_total precedes_trans rs).imp fun {r s} hle => ?_
    simp only [precedes, Bool.or_eq_true, Bool.and_eq_true, decide_eq_true_eq, beq_iff_eq] at hle
    omega
  unfold merge mergeWithin
  generalize sort rs = rs at hsort
  cases rs with
  | nil => exact .nil
  | cons r rest => exact (ascending_fuseFrom hsort).1

/-! ## Intersection -/

/-- A common part is always the right way round. -/
theorem between_clamp (hr : b.Encloses r) (h : r.clamp s = some t) : Between b 0 t := by
  obtain ⟨rfl, hvalid⟩ := between?_eq_some.mp h
  refine ⟨⟨?_, ?_⟩, ?_⟩
  · have hfirst := hr.1
    rw [coord_greatest]
    omega
  · have hlast := hr.2
    rw [coord_least]
    omega
  · rw [Int.add_zero]
    exact hvalid

/-- A sweep is made of common parts. -/
theorem exists_clamp_of_sweep (h : t ∈ sweep rs ss) : ∃ r ∈ rs, ∃ s ∈ ss, r.clamp s = some t := by
  fun_induction sweep rs ss with
  | case1 r rs s ss ih1 ih2 =>
    rcases List.mem_append.mp h with h | h
    · exact ⟨r, List.mem_cons_self, s, List.mem_cons_self, Option.mem_toList.mp h⟩
    · split at h
      · obtain ⟨r, hr, s, hs, hclamp⟩ := ih1 h
        exact ⟨r, List.mem_cons_of_mem _ hr, s, hs, hclamp⟩
      · obtain ⟨r, hr, s, hs, hclamp⟩ := ih2 h
        exact ⟨r, hr, s, List.mem_cons_of_mem _ hs, hclamp⟩
  | case2 => exact absurd h List.not_mem_nil

theorem intersect_valid (hrs : ∀ r ∈ rs, r.Valid) (ht : t ∈ intersect rs ss) :
    t.Valid ∧ Spanned rs t := by
  obtain ⟨r, hr, s, -, hclamp⟩ := exists_clamp_of_sweep ht
  obtain ⟨-, c, hc, hinside⟩ := merge_valid hrs hr
  have hbetween := between_clamp hinside hclamp
  exact ⟨hbetween.valid, c, hc, hbetween.inside⟩

/-! ## Difference -/

/-- What is left before a hole ends a step below it, and what is left behind one begins a step above
it: less than a step may have been left. -/
theorem between_cut (hr : Between b (unit α - 1) r)
    (hholes : ∀ h ∈ holes, coord b.first ≤ coord h.last) :
    ∀ t ∈ cut r holes, Between b (unit α - 1) t := by
  induction holes generalizing r with
  | nil => exact fun t ht => List.mem_singleton.mp ht ▸ hr
  | cons hole holes ih =>
    rw [List.forall_mem_cons] at hholes
    have hunit := unit_pos (α := α)
    obtain ⟨⟨hfirst, hlast⟩, horder⟩ := hr
    rw [cut]
    split
    · exact fun t ht => List.mem_singleton.mp ht ▸ ⟨⟨hfirst, hlast⟩, horder⟩
    · next hmeets =>
      intro t ht
      rcases List.mem_append.mp ht with ht | ht
      · split at ht
        · next hroom =>
          obtain rfl := List.mem_singleton.mp ht
          have hprev := coord_prev hole.first
          have hbottom := (coord_mem hole.first).1
          exact ⟨⟨hfirst, by dsimp only; omega⟩, by dsimp only; omega⟩
        · exact absurd ht List.not_mem_nil
      · split at ht
        · next hroom =>
          have hnext := coord_next hole.last
          have htop := (coord_mem hole.last).2
          have hleft : Between b (unit α - 1) ⟨next hole.last, r.last⟩ :=
            ⟨⟨by dsimp only; omega, hlast⟩, by dsimp only; omega⟩
          exact ih hleft hholes.2 t ht
        · exact absurd ht List.not_mem_nil

/-- The holes that are not passed over end in the range or above it. -/
theorem first_le_of_mem_dropWhile (hvalid : ∀ h ∈ holes, h.Valid)
    (hasc : holes.Pairwise fun h h' => coord h.last < coord h'.first) :
    ∀ h ∈ holes.dropWhile fun h => coord h.last < coord r.first,
      coord r.first ≤ coord h.last := by
  induction holes with
  | nil => exact fun h hh => absurd hh List.not_mem_nil
  | cons hole holes ih =>
    rw [List.forall_mem_cons] at hvalid
    rw [List.pairwise_cons] at hasc
    rw [List.dropWhile_cons]
    split
    · exact ih hvalid.2 hasc.2
    · next hreach =>
      have hle : coord r.first ≤ coord hole.last := by simpa using hreach
      refine List.forall_mem_cons.mpr ⟨hle, fun h hh => ?_⟩
      have hbegins := hasc.1 h hh
      have hends : coord h.first ≤ coord h.last := hvalid.2 h hh
      omega

theorem between_exclude (hrs : ∀ r ∈ rs, Between b (unit α - 1) r) (hss : ∀ s ∈ ss, s.Valid) :
    ∀ t ∈ exclude rs ss, Between b (unit α - 1) t := by
  intro t ht
  obtain ⟨r, hr, ht⟩ := List.mem_flatMap.mp ht
  have hmerged := between_merge hrs r hr
  have hholes : ∀ h ∈ merge ss, h.Valid := fun h hh => (merge_valid hss hh).1
  refine between_cut hmerged (fun h hh => ?_) t ht
  exact Int.le_trans hmerged.inside.1 (first_le_of_mem_dropWhile hholes (ascending_merge ss) h hh)

/-- Holes turn what is left of a range round by less than a step, if at all. -/
theorem exclude_almostValid (hrs : ∀ r ∈ rs, r.AlmostValid) (hss : ∀ s ∈ ss, s.Valid)
    (ht : t ∈ exclude rs ss) : t.AlmostValid ∧ Spanned rs t := by
  obtain ⟨c, hc, ht⟩ := exists_cover (fun r hr => (hrs r hr).order) (by rintro rfl; rfl)
    (fun _ hbetween => between_exclude hbetween hss) ht
  exact ⟨ht.almostValid, c, hc, ht.inside⟩

/-! ## Pieces -/

/-- The piece after the one that ends at `last` begins a step above it: less than a step may be
left. -/
theorem between_piecesUp (hr : Between b (unit α - 1) r) (n : Nat) :
    ∀ t ∈ piecesUp len r n, Between b (unit α - 1) t := by
  induction n generalizing r with
  | zero => exact fun t ht => absurd ht List.not_mem_nil
  | succ n ih =>
    have hunit := unit_pos (α := α)
    obtain ⟨⟨hfirst, hlast⟩, horder⟩ := hr
    have hroom : 0 ≤ ((len - 1 : Nat) : Int) * unit α :=
      Int.mul_nonneg (Int.natCast_nonneg _) (Int.le_of_lt hunit)
    have hup := coord_stepUp r.first (len - 1)
    have htop := (coord_mem r.first).2
    have hends := coord_least (stepUp r.first (len - 1)) r.last
    simp only [piecesUp]
    generalize least (stepUp r.first (len - 1)) r.last = last at hends
    refine List.forall_mem_cons.mpr
      ⟨⟨⟨hfirst, by dsimp only; omega⟩, by dsimp only; omega⟩, fun t ht => ?_⟩
    split at ht
    · next hmore =>
      have hnext := coord_next last
      have htop' := (coord_mem last).2
      have hleft : Between b (unit α - 1) ⟨next last, r.last⟩ :=
        ⟨⟨by dsimp only; omega, hlast⟩, by dsimp only; omega⟩
      exact ih hleft t ht
    · exact absurd ht List.not_mem_nil

theorem between_piecesDown (hr : Between b (unit α - 1) r) (n : Nat) :
    ∀ t ∈ piecesDown len r n, Between b (unit α - 1) t := by
  induction n generalizing r with
  | zero => exact fun t ht => absurd ht List.not_mem_nil
  | succ n ih =>
    have hunit := unit_pos (α := α)
    obtain ⟨⟨hfirst, hlast⟩, horder⟩ := hr
    have hroom : 0 ≤ ((len - 1 : Nat) : Int) * unit α :=
      Int.mul_nonneg (Int.natCast_nonneg _) (Int.le_of_lt hunit)
    have hdown := coord_stepDown r.last (len - 1)
    have hbottom := (coord_mem r.last).1
    have hbegins := coord_greatest (stepDown r.last (len - 1)) r.first
    simp only [piecesDown]
    generalize greatest (stepDown r.last (len - 1)) r.first = first at hbegins
    refine List.forall_mem_cons.mpr
      ⟨⟨⟨by dsimp only; omega, hlast⟩, by dsimp only; omega⟩, fun t ht => ?_⟩
    split at ht
    · next hmore =>
      have hprev := coord_prev first
      have hbottom' := (coord_mem first).1
      have hleft : Between b (unit α - 1) ⟨r.first, prev first⟩ :=
        ⟨⟨hfirst, by dsimp only; omega⟩, by dsimp only; omega⟩
      exact ih hleft t ht
    · exact absurd ht List.not_mem_nil

theorem between_pieces (order : Order) (hr : Between b (unit α - 1) r) (n : Nat) :
    ∀ t ∈ pieces order len r n, Between b (unit α - 1) t :=
  match order with
  | .ascending => between_piecesUp hr n
  | .descending => between_piecesDown hr n

theorem between_piecesOfAll (order : Order) (hrs : ∀ r ∈ rs, Between b (unit α - 1) r) (n : Nat) :
    ∀ t ∈ piecesOfAll order len rs n, Between b (unit α - 1) t := by
  induction rs generalizing n with
  | nil => exact fun t ht => absurd ht List.not_mem_nil
  | cons r rs ih =>
    rw [List.forall_mem_cons] at hrs
    intro t ht
    rcases List.mem_append.mp ht with ht | ht
    · exact between_pieces order hrs.1 n t ht
    · exact ih hrs.2 _ t ht

theorem between_firstPieces (order : Order) (n : Nat)
    (hrs : ∀ r ∈ rs, Between b (unit α - 1) r) :
    ∀ t ∈ firstPieces order len n rs, Between b (unit α - 1) t := by
  have hmerged := between_merge hrs
  cases order with
  | ascending => exact between_piecesOfAll .ascending hmerged n
  | descending =>
    exact between_piecesOfAll .descending (fun r hr => hmerged r (List.mem_reverse.mp hr)) n

theorem firstPieces_almostValid {order : Order} {n : Nat} (hrs : ∀ r ∈ rs, r.AlmostValid)
    (ht : t ∈ firstPieces order len n rs) : t.AlmostValid ∧ Spanned rs t := by
  have hempty : rs = [] → firstPieces order len n rs = [] := by
    rintro rfl
    cases order <;> rfl
  obtain ⟨c, hc, ht⟩ := exists_cover (fun r hr => (hrs r hr).order) hempty
    (fun _ => between_firstPieces order n) ht
  exact ⟨ht.almostValid, c, hc, ht.inside⟩

theorem split_almostValid (hr : r.AlmostValid) (ht : t ∈ split len r) :
    t.AlmostValid ∧ r.Encloses t := by
  have hbetween := between_piecesUp ⟨.refl r, hr.order⟩ _ t ht
  exact ⟨hbetween.almostValid, hbetween.inside⟩

end Range

/-! ## Coverage -/

namespace ImportRanges

open Range

variable {α : Type} [Axis α] {c : ImportRanges α} {o : RangeOutcome α}

/-- What is covered is the right way round, and what waits is the wrong way round by less than a
step, if at all. -/
structure Upright (c : ImportRanges α) : Prop where
  covered : ∀ r ∈ c.covered, r.Valid
  toRetry : ∀ r ∈ c.toRetry, r.AlmostValid

theorem Upright.applyResult (hc : c.Upright) (ho : o.range.Valid) (now : UInt64) :
    (c.applyResult now o).Upright := by
  unfold ImportRanges.applyResult
  split
  · refine ⟨fun r hr => (merge_valid (fun s hs => ?_) hr).1, fun r hr => ?_⟩
    · rcases List.mem_append.mp hs with hs | hs
      · exact hc.covered s hs
      · exact List.mem_singleton.mp hs ▸ ho
    · exact (exclude_almostValid hc.toRetry
        (fun s hs => List.mem_singleton.mp hs ▸ ho) hr).1
  · refine ⟨hc.covered, fun r hr => ?_⟩
    refine (exclude_almostValid (fun s hs => merge_almostValid (fun q hq => ?_) hs) hc.covered hr).1
    rcases List.mem_append.mp hq with hq | hq
    · exact hc.toRetry q hq
    · exact List.mem_singleton.mp hq ▸ ho.almostValid

end ImportRanges

/-! ## All operations -/

namespace Range

section

variable {α : Type} [Axis α] {rs ss : List (Range α)}

/-- **The right way round.** Ranges that are valid, with their ends anywhere: unions and
intersections are valid, differences and pieces are the wrong way round by less than a step, if at
all, and none reaches beyond the ranges that it is made of. So outcomes leave what is covered valid,
and what waits almost. On the grid, where all blocks lie, everything stays valid. -/
theorem upright (hrs : ∀ r ∈ rs, r.Valid) (hss : ∀ s ∈ ss, s.Valid) :
    (∀ t ∈ merge rs, t.Valid ∧ Spanned rs t) ∧
    (∀ t ∈ intersect rs ss, t.Valid ∧ Spanned rs t) ∧
    (∀ t ∈ exclude rs ss, t.AlmostValid ∧ Spanned rs t) ∧
    (∀ r ∈ rs, ∀ len, ∀ t ∈ split len r, t.AlmostValid ∧ r.Encloses t) ∧
    (∀ order len n, ∀ t ∈ firstPieces order len n rs, t.AlmostValid ∧ Spanned rs t) ∧
    ((∀ r ∈ rs, r.Proper) → (∀ s ∈ ss, s.Proper) →
      (∀ t ∈ exclude rs ss, t.Valid) ∧ (∀ r ∈ rs, ∀ len, ∀ t ∈ split len r, t.Valid) ∧
        ∀ order len n, ∀ t ∈ firstPieces order len n rs, t.Valid) ∧
    ∀ (c : ImportRanges α) (o : RangeOutcome α) (now : UInt64),
      (c.Upright → o.range.Valid → (c.applyResult now o).Upright) ∧
        (c.Proper → o.range.Proper →
          ∀ r ∈ (c.applyResult now o).covered ++ (c.applyResult now o).toRetry, r.Valid) := by
  have halmost : ∀ r ∈ rs, r.AlmostValid := fun r hr => (hrs r hr).almostValid
  refine ⟨fun t ht => merge_valid hrs ht, fun t ht => intersect_valid hrs ht,
    fun t ht => exclude_almostValid halmost hss ht,
    fun r hr len t ht => split_almostValid (halmost r hr) ht,
    fun order len n t ht => firstPieces_almostValid halmost ht, fun hrs hss => ⟨?_, ?_, ?_⟩,
    fun c o now => ⟨fun hc ho => hc.applyResult ho now, fun hc ho r hr => ?_⟩⟩
  · exact fun t ht => ((normal_exclude hrs hss).proper t ht).valid
  · exact fun r hr len t ht => ((parts_pieces .ascending len (hrs r hr) _).proper t ht).valid
  · exact fun order len n t ht => ((parts_firstPieces order len n hrs).proper t ht).valid
  · have happly : (c.applyResult now o).Proper := hc.applyResult ho
    exact ((List.mem_append.mp hr).elim (happly.covered r) (happly.toRetry r)).valid

end

namespace HalfStep

def half (n : Fin 21) : Instant := ⟨n * 500000, by omega, by omega⟩

def whole : Range Instant := ⟨half 0, half 20⟩

def hole : Range Instant := ⟨half 1, half 2⟩

def blocks : Range BlockNumber := ⟨0, 3⟩

/-- A hole off the grid leaves less than a step, and a hole among blocks does not. -/
theorem upright_around_holes :
    (∀ r ∈ [whole], r.Valid) ∧ (∀ s ∈ [hole], s.Valid) ∧ ¬ hole.Proper ∧
      (∀ t ∈ exclude [whole] [hole], t.AlmostValid ∧ Spanned [whole] t) ∧
      (∀ r ∈ [blocks], r.Proper) ∧ (∀ s ∈ [point (1 : BlockNumber)], s.Proper) ∧
      (∀ t ∈ exclude [blocks] [point 1], t.Valid) ∧
      exclude [blocks] [point 1] = [point 0, ⟨2, 3⟩] := by
  have hwhole : ∀ r ∈ [whole], r.Valid := by decide
  have hhole : ∀ s ∈ [hole], s.Valid := by decide
  have hblocks : ∀ r ∈ [blocks], r.Proper := by decide
  have hpoint : ∀ s ∈ [point (1 : BlockNumber)], s.Proper := by decide
  obtain ⟨-, -, halmost, -⟩ := upright hwhole hhole
  obtain ⟨-, -, -, -, -, hgrid, -⟩ :=
    upright (fun r hr => (hblocks r hr).valid) fun s hs => (hpoint s hs).valid
  exact ⟨hwhole, hhole, by decide, halmost, hblocks, hpoint, (hgrid hblocks hpoint).1, by decide⟩

/-- What half a millisecond leaves of ten is upside down, so is a second piece of half a
millisecond, and so is what waits after a success. -/
theorem half_step_upside_down :
    whole.Valid ∧ hole.Valid ∧
      (∃ t ∈ exclude [whole] [hole], ¬ t.Valid) ∧
      (∃ t ∈ split 1 ⟨half 0, half 1⟩, ¬ t.Valid) ∧
      (∃ t ∈ firstPieces .descending 1 2 [⟨half 0, half 1⟩], ¬ t.Valid) ∧
      ∃ t ∈ (({ toRetry := [whole] } : ImportRanges Instant).applyResult 1 ⟨hole, true⟩).toRetry,
        ¬ t.Valid := by
  decide

end HalfStep

end Range
end Backfill
