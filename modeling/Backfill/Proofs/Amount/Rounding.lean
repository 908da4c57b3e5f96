import Mathlib.Algebra.Order.Ring.Nat
import Mathlib.Order.Basic
import Mathlib.Tactic.Positivity
import Backfill.Amount.Decimal

/-!
# Which digits of an amount are kept

An amount is written out with all its fraction digits and read with as many of them as a decimal has
room for. What is read is the amount to the nearest number with that many digits, a half away from
zero. Rounding up can need a bit more than there is; then one digit fewer has room, and the number
that is read is the nearest one with that many. So it is the rounded numbers alone that decide how
many digits are kept.

Results:
* `ofChars?_unitChars`: what is read of an amount that was written out.
* `Kept`, `ofScaled?_eq_some`: how many digits are kept, and which number they are.
* `ofText?_text`: a decimal is read as it was written.
* `ofScaled?_neg`, `normal_neg`: the opposite amount.
-/
namespace Backfill.Decimal

open Text

variable {value : Int} {n digits k s t : Nat} {d e : Decimal}

/-! ## Text -/

theorem ofDigits?_point (negative : Bool) {whole fraction : List Char}
    (hwhole : ∀ c ∈ whole, c.isDigit = true) (hne : whole ≠ [])
    (hfraction : ∀ c ∈ fraction, c.isDigit = true) :
    ofDigits? negative (whole ++ '.' :: fraction) =
      ofScaled? (withSign negative (Nat.ofDigitChars 10 (whole ++ fraction) 0))
        fraction.length := by
  have htake : (whole ++ '.' :: fraction).takeWhile Char.isDigit = whole := by
    rw [List.takeWhile_append_of_pos hwhole, List.takeWhile_cons, if_neg (by decide),
      List.append_nil]
  have hdigits : whole ++ fraction ≠ [] ∧ (whole ++ fraction).all Char.isDigit := by
    refine ⟨fun h => hne (List.append_eq_nil_iff.mp h).1, List.all_eq_true.mpr fun c hc => ?_⟩
    exact (List.mem_append.mp hc).elim (hwhole c) (hfraction c)
  simp only [ofDigits?, htake, List.drop_left, if_pos (List.all_eq_true.mpr hfraction),
    natOfDigits?, if_pos hdigits, Option.bind_some]

theorem length_rest (decimals : Nat) (hn : n < 10 ^ decimals) :
    (paddedDigits decimals n).length = max decimals 1 := by
  cases decimals with
  | zero =>
    obtain rfl : n = 0 := Nat.lt_one_iff.mp hn
    rfl
  | succ decimals =>
    rw [length_paddedDigits _ decimals.succ_pos hn, Nat.max_eq_left decimals.succ_pos]

theorem ofDigitChars_unitChars (n decimals : Nat) :
    Nat.ofDigitChars 10
        (Nat.toDigits 10 (n / 10 ^ decimals) ++ paddedDigits decimals (n % 10 ^ decimals)) 0 =
      n * 10 ^ (max decimals 1 - decimals) := by
  rw [Nat.ofDigitChars_append, Nat.ofDigitChars_ten_toDigits, Nat.ofDigitChars_eq_ofDigitChars_zero,
    ofDigitChars_paddedDigits, length_rest decimals (Nat.mod_lt _ (by positivity))]
  cases decimals with
  | zero => simp [Nat.mod_one, Nat.mul_comm]
  | succ decimals =>
    rw [Nat.max_eq_left decimals.succ_pos, Nat.sub_self, Nat.pow_zero, Nat.mul_one, Nat.div_add_mod]

theorem withSign_natAbs (value : Int) : withSign (value < 0) value.natAbs = value := by
  by_cases h : value < 0
  · rw [withSign, if_pos (decide_eq_true h)]
    omega
  · rw [withSign, if_neg (by simpa using h)]
    omega

theorem withSign_mul (negative : Bool) (n m : Nat) :
    withSign negative (n * m) = withSign negative n * m := by
  cases negative with
  | true => simp [withSign]
  | false => simp [withSign]

/-- Nothing but a sign is taken for one. -/
theorem ofChars?_of_isDigit {c : Char} (h : c.isDigit = true) (cs : List Char) :
    ofChars? (c :: cs) = ofDigits? false (c :: cs) := by
  rw [ofChars?.eq_def]
  split
  · next heq =>
    obtain ⟨rfl, -⟩ := List.cons.inj heq
    exact absurd h (by decide)
  · next heq =>
    obtain ⟨rfl, -⟩ := List.cons.inj heq
    exact absurd h (by decide)
  · rfl

/-- What is read of an amount that was written out. -/
theorem ofChars?_unitChars (value : Int) (decimals : Nat) :
    ofChars? (unitChars value decimals) =
      ofScaled? (value * 10 ^ (max decimals 1 - decimals)) (max decimals 1) := by
  have hpow : ((10 : Int) ^ decimals).natAbs = 10 ^ decimals := by
    rw [Int.natAbs_pow]
    rfl
  have hwhole : (value.tdiv (10 ^ decimals)).natAbs = value.natAbs / 10 ^ decimals := by
    rw [Int.natAbs_tdiv, hpow]
    rfl
  have hrest : (value.tmod (10 ^ decimals)).natAbs = value.natAbs % 10 ^ decimals := by
    rw [Int.natAbs_tmod, hpow]
  have hdigit : ∀ c ∈ Nat.toDigits 10 (value.natAbs / 10 ^ decimals), c.isDigit = true :=
    fun c hc => Nat.isDigit_of_mem_toDigits (by decide) (by decide) hc
  have hread : ofDigits? (value < 0) (Nat.toDigits 10 (value.natAbs / 10 ^ decimals) ++
      '.' :: paddedDigits decimals (value.natAbs % 10 ^ decimals)) =
        ofScaled? (value * 10 ^ (max decimals 1 - decimals)) (max decimals 1) := by
    rw [ofDigits?_point _ hdigit Nat.toDigits_ne_nil fun c hc => isDigit_of_mem_paddedDigits hc,
      ofDigitChars_unitChars, length_rest decimals (Nat.mod_lt _ (by positivity)), withSign_mul,
      withSign_natAbs, Nat.cast_pow, Nat.cast_ofNat]
  rw [unitChars, hwhole, hrest, ← hread]
  by_cases hneg : value < 0
  · rw [if_pos hneg, decide_eq_true hneg, List.append_assoc, List.singleton_append, ofChars?]
  · obtain ⟨c, cs, hcs⟩ := List.exists_cons_of_ne_nil
      (Nat.toDigits_ne_nil (b := 10) (n := value.natAbs / 10 ^ decimals))
    have hc : c.isDigit = true := hdigit c (hcs ▸ List.mem_cons_self)
    rw [if_neg hneg, decide_eq_false hneg, List.nil_append, hcs, List.cons_append,
      ofChars?_of_isDigit hc]

/-! ## Rounding -/

/-- `n / 10 ^ k` to the nearest integer, a half up. -/
def rounded (n k : Nat) : Nat := (n + 10 ^ k / 2) / 10 ^ k

theorem rounded_zero (n : Nat) : rounded n 0 = n := by simp [rounded]

theorem rounded_succ (n k : Nat) : rounded n (k + 1) = (n / 10 ^ k + 5) / 10 := by
  have hhalf : 10 ^ (k + 1) / 2 = 5 * 10 ^ k := by omega
  rw [rounded, hhalf, Nat.pow_succ, ← Nat.div_div_eq_div_mul,
    Nat.add_mul_div_right _ _ (by positivity)]

theorem div_le_rounded (n k : Nat) : n / 10 ^ k ≤ rounded n k :=
  Nat.div_le_div_right (Nat.le_add_right ..)

theorem rounded_le (n k : Nat) : rounded n k ≤ n / 10 ^ k + 1 := by
  have hpos : 0 < 10 ^ k := by positivity
  rw [rounded, ← Nat.add_div_right n hpos]
  exact Nat.div_le_div_right (Nat.add_le_add_left (Nat.div_le_self ..) n)

theorem rounded_anti (n k j : Nat) : rounded n (k + j) ≤ rounded n k := by
  induction j with
  | zero => exact Nat.le_refl _
  | succ j ih =>
    have := div_le_rounded n (k + j)
    rw [← Nat.add_assoc, rounded_succ]
    omega

theorem div_add_eq_rounded (n : Nat) (hk : 0 < k) :
    n / 10 ^ k + (if 5 ≤ n / 10 ^ (k - 1) % 10 then 1 else 0) = rounded n k := by
  obtain ⟨k, rfl⟩ := Nat.exists_eq_succ_of_ne_zero (Nat.ne_of_gt hk)
  rw [rounded_succ, Nat.succ_sub_one, Nat.pow_succ, ← Nat.div_div_eq_div_mul]
  split
  · omega
  · omega

/-- No integer is nearer. -/
theorem rounded_bounds (n k : Nat) :
    2 * (rounded n k * 10 ^ k) ≤ 2 * n + 10 ^ k ∧ 2 * n < 2 * (rounded n k * 10 ^ k) + 10 ^ k := by
  cases k with
  | zero =>
    rw [rounded_zero]
    omega
  | succ k =>
    have hpow : 10 ^ (k + 1) = 2 * (10 ^ (k + 1) / 2) := by omega
    have hlow : rounded n (k + 1) * 10 ^ (k + 1) ≤ n + 10 ^ (k + 1) / 2 := Nat.div_mul_le_self ..
    have hhigh : n + 10 ^ (k + 1) / 2 < (rounded n (k + 1) + 1) * 10 ^ (k + 1) :=
      Nat.lt_mul_of_div_lt (Nat.lt_succ_self _) (by positivity)
    rw [Nat.succ_mul] at hhigh
    omega

theorem rounded_lt_iff (n k m : Nat) :
    rounded n k < m ↔ 2 * n + 10 ^ k < 2 * (m * 10 ^ k) := by
  have hbounds := rounded_bounds n k
  constructor
  · intro h
    have := Nat.mul_le_mul_right (10 ^ k) (Nat.succ_le_of_lt h)
    rw [Nat.succ_mul] at this
    omega
  · intro h
    have : rounded n k * 10 ^ k < m * 10 ^ k := by omega
    exact Nat.lt_of_mul_lt_mul_right this

/-! ## Digits that are kept -/

/-- The number with most fraction digits, `digits` at most, among those that are rounded and fit. -/
structure Kept (value : Int) (digits : Nat) (d : Decimal) : Prop where
  scale_le : d.scale ≤ digits
  coefficient : d.coefficient =
    withSign (value < 0) (rounded value.natAbs (digits - d.scale))
  greatest : ∀ t, d.scale < t → t ≤ min digits 28 →
    2 ^ 96 ≤ rounded value.natAbs (digits - t)

/-- How many digits have room before rounding. -/
theorem room?_spec (n digits most : Nat) :
    match room? n digits most with
    | none => 2 ^ 96 ≤ n / 10 ^ digits
    | some kept => kept ≤ most ∧ n / 10 ^ (digits - kept) < 2 ^ 96 ∧
        ∀ t, kept < t → t ≤ most → 2 ^ 96 ≤ n / 10 ^ (digits - t) := by
  induction most with
  | zero =>
    by_cases h : n / 10 ^ (digits - 0) < 2 ^ 96
    · rw [room?, if_pos h]
      exact ⟨Nat.le_refl 0, h, fun t ht hmost => by omega⟩
    · rw [room?, if_neg h]
      exact Nat.le_of_not_lt h
  | succ most ih =>
    by_cases h : n / 10 ^ (digits - (most + 1)) < 2 ^ 96
    · rw [room?, if_pos h]
      exact ⟨Nat.le_refl _, h, fun t ht hmost => by omega⟩
    · rw [room?, if_neg h]
      cases hroom : room? n digits most with
      | none => simpa only [hroom] using ih
      | some kept =>
        simp only [hroom] at ih
        obtain ⟨hle, hfits, hgreatest⟩ := ih
        refine ⟨by omega, hfits, fun t ht hmost => ?_⟩
        obtain rfl | hlt := Nat.eq_or_lt_of_le hmost
        · exact Nat.le_of_not_lt h
        · exact hgreatest t ht (by omega)

theorem natAbs_withSign (negative : Bool) (n : Nat) : (withSign negative n).natAbs = n := by
  cases negative with
  | true => simp [withSign]
  | false => simp [withSign]

theorem exists_kept (hs : s ≤ digits) (hmost : s ≤ 28)
    (hfits : rounded value.natAbs (digits - s) < 2 ^ 96)
    (hgreatest : ∀ t, s < t → t ≤ min digits 28 → 2 ^ 96 ≤ rounded value.natAbs (digits - t)) :
    ∃ d, ofParts? (withSign (value < 0) (rounded value.natAbs (digits - s))) s = some d ∧
      Kept value digits d := by
  have h : (withSign (value < 0) (rounded value.natAbs (digits - s))).natAbs < 2 ^ 96 ∧ s ≤ 28 := by
    rw [natAbs_withSign]
    exact ⟨hfits, hmost⟩
  exact ⟨_, dif_pos h, hs, rfl, hgreatest⟩

/-- A digit is given up where rounding takes one bit too many. -/
theorem carried?_spec (hs : s < digits) (hmost : s ≤ 28)
    (hroom : value.natAbs / 10 ^ (digits - s) < 2 ^ 96)
    (hgreatest : ∀ t, s < t → t ≤ min digits 28 → 2 ^ 96 ≤ rounded value.natAbs (digits - t)) :
    match carried? (value < 0) (rounded value.natAbs (digits - s)) s with
    | none => 2 ^ 96 ≤ rounded value.natAbs digits
    | some d => Kept value digits d := by
  by_cases hfits : rounded value.natAbs (digits - s) < 2 ^ 96
  · obtain ⟨d, hd, hkept⟩ := exists_kept (Nat.le_of_lt hs) hmost hfits hgreatest
    rw [carried?.eq_def, if_pos hfits, hd]
    exact hkept
  · rw [carried?.eq_def, if_neg hfits]
    cases s with
    | zero => exact Nat.le_of_not_lt hfits
    | succ s =>
      have hdrop : digits - s = digits - (s + 1) + 1 := by omega
      -- only the largest number that fits can outgrow its bits by rounding
      have hfull : value.natAbs / 10 ^ (digits - (s + 1)) = 2 ^ 96 - 1 ∧
          rounded value.natAbs (digits - (s + 1)) = 2 ^ 96 := by
        have := rounded_le value.natAbs (digits - (s + 1))
        omega
      have hshort : rounded value.natAbs (digits - s) =
          (rounded value.natAbs (digits - (s + 1)) + 4) / 10 := by
        rw [hdrop, rounded_succ, hfull.1, hfull.2]
      have hless : rounded value.natAbs (digits - s) < 2 ^ 96 := by
        rw [hshort, hfull.2]
        decide
      have hmore : ∀ t, s < t → t ≤ min digits 28 →
          2 ^ 96 ≤ rounded value.natAbs (digits - t) := by
        intro t ht htmost
        obtain rfl | hlt := Nat.eq_or_lt_of_le (Nat.succ_le_of_lt ht)
        · exact Nat.le_of_not_lt hfits
        · exact hgreatest t hlt htmost
      obtain ⟨d, hd, hkept⟩ :=
        exists_kept (by omega : s ≤ digits) (Nat.le_of_succ_le hmost) hless hmore
      simp only [← hshort, hd]
      exact hkept

/-- How many digits are kept, and which number they are. -/
theorem ofScaled?_spec (value : Int) (digits : Nat) :
    match ofScaled? value digits with
    | none => 2 ^ 96 ≤ rounded value.natAbs digits
    | some d => Kept value digits d := by
  have hroom := room?_spec value.natAbs digits (min digits 28)
  rw [ofScaled?]
  cases hkept : room? value.natAbs digits (min digits 28) with
  | none =>
    simp only [hkept] at hroom
    exact Nat.le_trans hroom (div_le_rounded ..)
  | some kept =>
    simp only [hkept] at hroom
    obtain ⟨hle, hfits, hgreatest⟩ := hroom
    have hmost : kept ≤ 28 := Nat.le_trans hle (Nat.min_le_right ..)
    have hbig : ∀ t, kept < t → t ≤ min digits 28 → 2 ^ 96 ≤ rounded value.natAbs (digits - t) :=
      fun t ht hmost => Nat.le_trans (hgreatest t ht hmost) (div_le_rounded ..)
    by_cases hall : kept = digits
    · subst hall
      have hrounded : rounded value.natAbs (kept - kept) = value.natAbs := by
        rw [Nat.sub_self, rounded_zero]
      rw [Nat.sub_self, Nat.pow_zero, Nat.div_one, ← hrounded] at hfits
      obtain ⟨d, hd, h⟩ := exists_kept (Nat.le_refl kept) hmost hfits hbig
      rw [hrounded, withSign_natAbs] at hd
      simp only [if_true, hd]
      exact h
    · have hlt : kept < digits := Nat.lt_of_le_of_ne (Nat.le_trans hle (Nat.min_le_left ..)) hall
      have h := carried?_spec hlt hmost hfits hbig
      simp only [if_neg hall, div_add_eq_rounded _ (Nat.sub_pos_of_lt hlt)]
      exact h

theorem Kept.rounded_lt (h : Kept value digits d) :
    rounded value.natAbs (digits - d.scale) < 2 ^ 96 := by
  rw [← natAbs_withSign (value < 0) (rounded _ _), ← h.coefficient]
  exact d.coefficient_lt

theorem Kept.whole_lt (h : Kept value digits d) : rounded value.natAbs digits < 2 ^ 96 := by
  have hle := rounded_anti value.natAbs (digits - d.scale) d.scale
  rw [Nat.sub_add_cancel h.scale_le] at hle
  exact Nat.lt_of_le_of_lt hle h.rounded_lt

/-- Only one number is kept. -/
theorem Kept.unique (hd : Kept value digits d) (he : Kept value digits e) : d = e := by
  have hscale : d.scale = e.scale := by
    rcases Nat.lt_trichotomy d.scale e.scale with h | h | h
    · have := hd.greatest e.scale h (Nat.le_min.mpr ⟨he.scale_le, e.scale_le⟩)
      exact absurd he.rounded_lt (Nat.not_lt.mpr this)
    · exact h
    · have := he.greatest d.scale h (Nat.le_min.mpr ⟨hd.scale_le, d.scale_le⟩)
      exact absurd hd.rounded_lt (Nat.not_lt.mpr this)
  have hcoefficient : d.coefficient = e.coefficient := by
    rw [hd.coefficient, he.coefficient, hscale]
  cases d
  cases e
  cases hscale
  cases hcoefficient
  rfl

theorem ofScaled?_eq_some : ofScaled? value digits = some d ↔ Kept value digits d := by
  have hspec := ofScaled?_spec value digits
  constructor
  · intro h
    simpa only [h] using hspec
  · intro h
    cases heq : ofScaled? value digits with
    | some e =>
      simp only [heq] at hspec
      rw [hspec.unique h]
    | none =>
      simp only [heq] at hspec
      exact absurd h.whole_lt (Nat.not_lt.mpr hspec)

theorem ofScaled?_self (d : Decimal) : ofScaled? d.coefficient d.scale = some d :=
  ofScaled?_eq_some.mpr
    { scale_le := Nat.le_refl _
      coefficient := by rw [Nat.sub_self, rounded_zero, withSign_natAbs]
      greatest := fun t ht hmost => by omega }

/-! ## Written and read -/

theorem ofDigits?_whole (negative : Bool) {whole : List Char}
    (hwhole : ∀ c ∈ whole, c.isDigit = true) (hne : whole ≠ []) :
    ofDigits? negative whole = ofScaled? (withSign negative (Nat.ofDigitChars 10 whole 0)) 0 := by
  have htake : whole.takeWhile Char.isDigit = whole := by
    rw [← List.append_nil whole, List.takeWhile_append_of_pos hwhole, List.takeWhile_nil]
  have hdigits : whole ≠ [] ∧ whole.all Char.isDigit := ⟨hne, List.all_eq_true.mpr hwhole⟩
  simp only [ofDigits?, htake, List.drop_length, List.append_nil, natOfDigits?, if_pos hdigits,
    Option.bind_some, List.length_nil]

/-- A decimal is read as it was written, with all its fraction digits. -/
theorem ofText?_text (d : Decimal) : ofText? d.text = some d := by
  obtain ⟨ds, hds⟩ : ∃ ds, ds = paddedDigits (d.scale + 1) d.coefficient.natAbs := ⟨_, rfl⟩
  have hdigit : ∀ c ∈ ds, c.isDigit = true := fun c hc => isDigit_of_mem_paddedDigits (hds ▸ hc)
  have hvalue : Nat.ofDigitChars 10 ds 0 = d.coefficient.natAbs := by
    rw [hds, ofDigitChars_paddedDigits]
  have hlength : d.scale < ds.length := by
    rw [hds, paddedDigits, List.length_append, List.length_replicate]
    omega
  have hwhole : ds.take (ds.length - d.scale) ≠ [] := by
    rw [Ne, List.take_eq_nil_iff, not_or]
    exact ⟨by omega, List.ne_nil_of_length_pos (by omega)⟩
  have hread : ofDigits? (d.coefficient < 0) (ds.take (ds.length - d.scale) ++
      if d.scale = 0 then [] else '.' :: ds.drop (ds.length - d.scale)) = some d := by
    by_cases hscale : d.scale = 0
    · rw [if_pos hscale, List.append_nil, hscale, Nat.sub_zero, List.take_length,
        ofDigits?_whole _ hdigit (List.ne_nil_of_length_pos (by omega)), hvalue, withSign_natAbs,
        ← hscale, ofScaled?_self]
    · rw [if_neg hscale, ofDigits?_point _ (fun c hc => hdigit c (List.mem_of_mem_take hc)) hwhole
        (fun c hc => hdigit c (List.mem_of_mem_drop hc)), List.take_append_drop, hvalue,
        withSign_natAbs, List.length_drop, Nat.sub_sub_self (Nat.le_of_lt hlength), ofScaled?_self]
  rw [ofText?, text, String.toList_ofList, ← hds, List.append_assoc]
  by_cases hneg : d.coefficient < 0
  · rw [if_pos hneg, List.singleton_append, ofChars?, ← hread, decide_eq_true hneg]
  · obtain ⟨c, rest, hfirst⟩ := List.exists_cons_of_ne_nil hwhole
    have hc : c.isDigit = true := hdigit c (List.mem_of_mem_take (hfirst ▸ List.mem_cons_self))
    rw [if_neg hneg, List.nil_append, ← hread, hfirst, List.cons_append, ofChars?_of_isDigit hc,
      decide_eq_false hneg]

/-! ## Signs -/

def neg (d : Decimal) : Decimal where
  coefficient := -d.coefficient
  scale := d.scale
  coefficient_lt := (Int.natAbs_neg _).symm ▸ d.coefficient_lt
  scale_le := d.scale_le

theorem neg_neg (d : Decimal) : d.neg.neg = d := by
  rw [neg, neg]
  simp only [Int.neg_neg]

theorem withSign_neg (value : Int) (k : Nat) :
    withSign (-value < 0) (rounded value.natAbs k) =
      -withSign (value < 0) (rounded value.natAbs k) := by
  rcases lt_trichotomy value 0 with h | rfl | h
  · simp [withSign, h, Int.not_lt.mpr (Int.le_of_lt h)]
  · have hzero : rounded 0 k = 0 := by
      rw [rounded, Nat.zero_add]
      exact Nat.div_eq_of_lt (Nat.div_lt_self (by positivity) (by decide))
    simp [withSign, hzero]
  · simp [withSign, h, Int.not_lt.mpr (Int.le_of_lt h)]

theorem Kept.neg (h : Kept value digits d) : Kept (-value) digits d.neg where
  scale_le := h.scale_le
  coefficient := by
    have : d.neg.coefficient = -d.coefficient := rfl
    rw [this, h.coefficient, Int.natAbs_neg, withSign_neg]
    rfl
  greatest := by
    rw [Int.natAbs_neg]
    exact h.greatest

theorem ofScaled?_neg (value : Int) (digits : Nat) :
    ofScaled? (-value) digits = (ofScaled? value digits).map neg := by
  ext d
  rw [ofScaled?_eq_some, Option.map_eq_some_iff]
  constructor
  · intro h
    exact ⟨d.neg, ofScaled?_eq_some.mpr (Int.neg_neg value ▸ h.neg), neg_neg d⟩
  · rintro ⟨e, he, rfl⟩
    exact (ofScaled?_eq_some.mp he).neg

theorem trim_neg (c : Int) (s : Nat) : trim (-c) s = (-(trim c s).1, (trim c s).2) := by
  induction s generalizing c with
  | zero => rfl
  | succ s ih =>
    rw [trim, trim]
    by_cases h : c % 10 = 0
    · rw [if_pos h, if_pos (by omega), Int.neg_tdiv, ih]
    · rw [if_neg h, if_neg (by omega)]

theorem normal_neg (d : Decimal) : d.neg.normal = d.normal.neg := by
  simp only [normal, neg, trim_neg]

end Backfill.Decimal
