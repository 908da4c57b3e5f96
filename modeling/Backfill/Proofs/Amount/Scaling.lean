import Mathlib.Algebra.Order.Field.Rat
import Mathlib.Data.Nat.Find
import Mathlib.Order.Bounds.Basic
import Mathlib.Tactic.FieldSimp
import Mathlib.Tactic.Linarith
import Backfill.Proofs.Amount.Rounding

/-!
# Amounts are scaled to the nearest decimal

A number `x` has room with `s` fraction digits if it fits in 96 bits once it is rounded to them, so
if `|x| * 10 ^ s` stays below `2 ^ 96 - 1 / 2`. The limits of a decimal leave it the most digits,
28 at most, with which it has room. An amount is rounded to those, or has no more digits than they
are and keeps its value. A number that is a decimal has room with the digits of that decimal, so it
lies among the numbers with as many digits as are left, and the nearest one of them is that number.

Results:
* `Leaves`: how many digits the limits leave a number.
* `Rounds`, `Scaled`: a decimal for a number, and what becomes of a number.
* `Nearest`: the nearest number with the most digits that have room.
* `amounts_to_nearest`: what becomes of an amount, with and without a sign.
-/
namespace Backfill.Decimal

variable {value : Int} {n digits k s t : Nat} {x : ℚ} {d e : Decimal}

/-! ## Values -/

def toRat (d : Decimal) : ℚ := d.coefficient / 10 ^ d.scale

/-- With `s` fraction digits the number fits in 96 bits, once it is rounded. -/
def Room (x : ℚ) (s : Nat) : Prop := |x| * 10 ^ s < 2 ^ 96 - 1 / 2

/-- The most fraction digits that the limits of a decimal leave the number. -/
def Leaves (x : ℚ) (s : Nat) : Prop := IsGreatest {s | s ≤ 28 ∧ Room x s} s

/-- The decimal stands for the number as well as the limits allow. -/
structure Rounds (x : ℚ) (d : Decimal) : Prop where
  /-- No zero ends the fraction. -/
  trimmed : d.scale = 0 ∨ ¬ (10 : Int) ∣ d.coefficient
  /-- A number that is a decimal is exact. -/
  exact : (∃ e : Decimal, e.toRat = x) → d.toRat = x
  /-- No number is off by more than half a unit of the last digit that the limits leave. -/
  close : ∃ s, Leaves x s ∧ d.scale ≤ s ∧ |d.toRat - x| ≤ 1 / 2 / 10 ^ s

/-- What becomes of a number: it has a decimal if its whole part fits, once it is rounded. -/
structure Scaled {ε : Type} (x : ℚ) (r : Except ε Decimal) : Prop where
  fails_iff : (∃ fault, r = .error fault) ↔ 2 ^ 96 - 1 / 2 ≤ |x|
  rounds : ∀ d, r = .ok d → Rounds x d

theorem Room.anti (h : Room x t) (hs : s ≤ t) : Room x s := by
  refine lt_of_le_of_lt ?_ h
  exact mul_le_mul_of_nonneg_left (pow_le_pow_right₀ (by norm_num) hs) (abs_nonneg x)

theorem exists_leaves (h : Room x s) (hs : s ≤ 28) : ∃ t, Leaves x t ∧ s ≤ t := by
  classical
  refine ⟨Nat.findGreatest (Room x) 28, ⟨⟨Nat.findGreatest_le 28, ?_⟩, ?_⟩, ?_⟩
  · exact Nat.findGreatest_spec hs h
  · rintro t ⟨ht, hroom⟩
    exact Nat.le_findGreatest ht hroom
  · exact Nat.le_findGreatest hs h

theorem room_toRat (e : Decimal) : Room e.toRat e.scale := by
  have hlt : ((e.coefficient.natAbs : Nat) : ℚ) + 1 ≤ 2 ^ 96 := by
    exact_mod_cast Nat.succ_le_of_lt e.coefficient_lt
  have habs : |e.toRat| * 10 ^ e.scale = (e.coefficient.natAbs : ℚ) := by
    rw [toRat, abs_div, abs_of_pos (by positivity : (0 : ℚ) < 10 ^ e.scale),
      div_mul_cancel₀ _ (by positivity), Nat.cast_natAbs, Int.cast_abs]
  rw [Room, habs]
  linarith

theorem toRat_eq_units (hd : d.scale ≤ s) : ∃ n : Int, d.toRat = n / 10 ^ s := by
  refine ⟨d.coefficient * 10 ^ (s - d.scale), ?_⟩
  rw [toRat, eq_div_iff (by positivity), ← Nat.sub_add_cancel hd, pow_add]
  push_cast
  rw [Nat.add_sub_cancel]
  field_simp

/-- Two decimals with at most `s` fraction digits that are within half a unit of the last one are
equal. -/
theorem toRat_eq_of_close (hd : d.scale ≤ s) (he : e.scale ≤ s)
    (h : |d.toRat - e.toRat| ≤ 1 / 2 / 10 ^ s) : d.toRat = e.toRat := by
  have hpos : (0 : ℚ) < 10 ^ s := by positivity
  obtain ⟨n, hn⟩ := toRat_eq_units hd
  obtain ⟨m, hm⟩ := toRat_eq_units he
  rw [hn, hm, ← sub_div, abs_div, abs_of_pos hpos, div_le_div_iff_of_pos_right hpos,
    ← Int.cast_sub, ← Int.cast_abs] at h
  have hlt : |n - m| < 1 := by
    have : ((|n - m| : Int) : ℚ) < 1 := by linarith
    exact_mod_cast this
  rw [hn, hm, Int.sub_eq_zero.mp (Int.abs_lt_one_iff.mp hlt)]

theorem exact_of_close (hs : Leaves x s) (hd : d.scale ≤ s) (h : |d.toRat - x| ≤ 1 / 2 / 10 ^ s) :
    (∃ e : Decimal, e.toRat = x) → d.toRat = x := by
  rintro ⟨e, rfl⟩
  exact toRat_eq_of_close hd (hs.2 ⟨e.scale_le, room_toRat e⟩) h

theorem natAbs_div_pow (value : Int) (digits : Nat) :
    |(value : ℚ) / 10 ^ digits| = value.natAbs / 10 ^ digits := by
  rw [abs_div, abs_of_pos (by positivity : (0 : ℚ) < 10 ^ digits), Nat.cast_natAbs, Int.cast_abs]

/-- Up to the digits of an amount there is room if the rounded number fits. -/
theorem room_iff (hs : s ≤ digits) :
    Room (value / 10 ^ digits) s ↔ rounded value.natAbs (digits - s) < 2 ^ 96 := by
  have hpow : (10 : ℚ) ^ digits = 10 ^ (digits - s) * 10 ^ s := by
    rw [← pow_add, Nat.sub_add_cancel hs]
  have hscaled : |(value : ℚ) / 10 ^ digits| * 10 ^ s = value.natAbs / 10 ^ (digits - s) := by
    rw [natAbs_div_pow, hpow]
    field_simp
  have hcast : rounded value.natAbs (digits - s) < 2 ^ 96 ↔
      2 * (value.natAbs : ℚ) + 10 ^ (digits - s) < 2 * (2 ^ 96 * 10 ^ (digits - s)) := by
    rw [rounded_lt_iff]
    exact_mod_cast Iff.rfl
  rw [Room, hscaled, hcast, div_lt_iff₀ (by positivity)]
  constructor
  · intro h
    linarith
  · intro h
    linarith

/-! ## The nearest number with the most digits -/

/-- Of the numbers with room and at most `digits` fraction digits, the decimal has the most digits
and is the nearest with that many. -/
structure Nearest (value : Int) (digits : Nat) (d : Decimal) : Prop where
  scale_le : d.scale ≤ digits
  exact : d.scale = digits → d.toRat = value / 10 ^ digits
  close : |d.toRat - value / 10 ^ digits| ≤ 1 / 2 / 10 ^ d.scale
  room : Room (value / 10 ^ digits) d.scale
  greatest : ∀ t, d.scale < t → t ≤ min digits 28 → ¬ Room (value / 10 ^ digits) t

/-- How far a decimal is off, from the digits of it and of the number. -/
theorem abs_toRat_sub {negative : Bool} {m : Nat} (hs : d.scale ≤ digits)
    (hcoefficient : d.coefficient = withSign negative m) (hvalue : value = withSign negative n) :
    |d.toRat - value / 10 ^ digits| =
      |(m : ℚ) * 10 ^ (digits - d.scale) - n| / 10 ^ (digits - d.scale) / 10 ^ d.scale := by
  have hpow : (10 : ℚ) ^ digits = 10 ^ (digits - d.scale) * 10 ^ d.scale := by
    rw [← pow_add, Nat.sub_add_cancel hs]
  have hdiff : d.toRat - value / 10 ^ digits =
      (d.coefficient * 10 ^ (digits - d.scale) - value) /
        (10 ^ (digits - d.scale) * 10 ^ d.scale) := by
    rw [toRat, hpow]
    field_simp
  have hunits : |(d.coefficient : ℚ) * 10 ^ (digits - d.scale) - value| =
      |(m : ℚ) * 10 ^ (digits - d.scale) - n| := by
    rw [hcoefficient, hvalue]
    cases negative with
    | true =>
      simp only [withSign, if_true, Int.cast_neg, Int.cast_natCast]
      rw [abs_sub_comm, neg_mul, neg_sub_neg]
    | false => rfl
  rw [hdiff, abs_div, hunits, abs_of_pos (by positivity :
    (0 : ℚ) < 10 ^ (digits - d.scale) * 10 ^ d.scale), div_div]

/-- A decimal is near if its digits are the nearest ones. -/
theorem close_of_bounds {negative : Bool} {m : Nat} (hs : d.scale ≤ digits)
    (hcoefficient : d.coefficient = withSign negative m) (hvalue : value = withSign negative n)
    (hlow : 2 * (m * 10 ^ (digits - d.scale)) ≤ 2 * n + 10 ^ (digits - d.scale))
    (hhigh : 2 * n ≤ 2 * (m * 10 ^ (digits - d.scale)) + 10 ^ (digits - d.scale)) :
    |d.toRat - value / 10 ^ digits| ≤ 1 / 2 / 10 ^ d.scale := by
  have hlow : 2 * ((m : ℚ) * 10 ^ (digits - d.scale)) ≤ 2 * n + 10 ^ (digits - d.scale) := by
    exact_mod_cast hlow
  have hhigh : 2 * (n : ℚ) ≤ 2 * (m * 10 ^ (digits - d.scale)) + 10 ^ (digits - d.scale) := by
    exact_mod_cast hhigh
  rw [abs_toRat_sub hs hcoefficient hvalue]
  refine div_le_div_of_nonneg_right ?_ (by positivity)
  rw [div_le_iff₀ (by positivity), abs_le]
  constructor
  · linarith
  · linarith

theorem Nearest.leaves_scale (h : Nearest value digits d) (hne : d.scale ≠ digits) :
    Leaves (value / 10 ^ digits) d.scale := by
  have hlt : d.scale < digits := Nat.lt_of_le_of_ne h.scale_le hne
  refine ⟨⟨d.scale_le, h.room⟩, fun t ⟨ht, hroom⟩ => Nat.le_of_not_lt fun hmore => ?_⟩
  rcases Nat.le_total t digits with hle | hle
  · exact h.greatest t hmore (Nat.le_min.mpr ⟨hle, ht⟩) hroom
  · exact h.greatest digits hlt (Nat.le_min.mpr ⟨Nat.le_refl _, Nat.le_trans hle ht⟩)
      (hroom.anti hle)

theorem Nearest.leaves (h : Nearest value digits d) :
    ∃ s, Leaves (value / 10 ^ digits) s ∧ d.scale ≤ s ∧
      |d.toRat - value / 10 ^ digits| ≤ 1 / 2 / 10 ^ s := by
  by_cases hall : d.scale = digits
  · obtain ⟨s, hs, hle⟩ := exists_leaves h.room d.scale_le
    refine ⟨s, hs, hle, ?_⟩
    rw [h.exact hall, sub_self, abs_zero]
    positivity
  · exact ⟨d.scale, h.leaves_scale hall, Nat.le_refl _, h.close⟩

theorem Kept.nearest (h : Kept value digits d) : Nearest value digits d where
  scale_le := h.scale_le
  exact hall := by rw [toRat, h.coefficient, hall, Nat.sub_self, rounded_zero, withSign_natAbs]
  close := by
    obtain ⟨hlow, hhigh⟩ := rounded_bounds value.natAbs (digits - d.scale)
    exact close_of_bounds h.scale_le h.coefficient (withSign_natAbs value).symm hlow hhigh.le
  room := (room_iff h.scale_le).mpr h.rounded_lt
  greatest t ht hmost hroom := by
    have hfits := (room_iff (Nat.le_trans hmost (Nat.min_le_left ..))).mp hroom
    exact absurd hfits (Nat.not_lt.mpr (h.greatest t ht hmost))

/-! ## Trailing zeros -/

theorem trim_value (c : Int) (s : Nat) :
    ((trim c s).1 : ℚ) / 10 ^ (trim c s).2 = c / 10 ^ s := by
  induction s generalizing c with
  | zero => rfl
  | succ s ih =>
    rw [trim]
    by_cases h : c % 10 = 0
    · obtain ⟨q, rfl⟩ := Int.dvd_of_emod_eq_zero h
      rw [if_pos h, ih, Int.mul_tdiv_cancel_left q (by decide), pow_succ]
      push_cast
      field_simp
    · rw [if_neg h]

theorem trim_trimmed (c : Int) (s : Nat) :
    (trim c s).2 = 0 ∨ ¬ (10 : Int) ∣ (trim c s).1 := by
  induction s generalizing c with
  | zero => exact .inl rfl
  | succ s ih =>
    rw [trim]
    by_cases h : c % 10 = 0
    · rw [if_pos h]
      exact ih _
    · rw [if_neg h]
      exact .inr fun hdvd => h (Int.emod_eq_zero_of_dvd hdvd)

theorem toRat_normal (d : Decimal) : d.normal.toRat = d.toRat := trim_value ..

/-! ## Amounts -/

theorem Nearest.rounds (h : Nearest value digits d) : Rounds (value / 10 ^ digits) d.normal := by
  obtain ⟨s, hs, hle, hclose⟩ := h.leaves
  have hscale : d.normal.scale ≤ s := Nat.le_trans (trim_bounds ..).2 hle
  rw [← toRat_normal] at hclose
  exact ⟨trim_trimmed .., exact_of_close hs hscale hclose, s, hs, hscale, hclose⟩

/-- What becomes of a number, whatever is reported of one that does not fit. -/
theorem scaled_of_nearest {ε : Type} (fault : ε) {r? : Option Decimal}
    (h : match r? with
      | none => 2 ^ 96 ≤ rounded value.natAbs digits
      | some d => Nearest value digits d) :
    Scaled (value / 10 ^ digits) (match r? with
      | some d => .ok d.normal
      | none => .error fault) := by
  cases r? with
  | none =>
    have hroom : Room (value / 10 ^ digits) 0 ↔ rounded value.natAbs (digits - 0) < 2 ^ 96 :=
      room_iff (Nat.zero_le digits)
    rw [Room, pow_zero, mul_one, Nat.sub_zero] at hroom
    have hbig : 2 ^ 96 - 1 / 2 ≤ |(value : ℚ) / 10 ^ digits| :=
      not_lt.mp fun hlt => absurd (hroom.mp hlt) (Nat.not_lt.mpr h)
    exact ⟨iff_of_true ⟨fault, rfl⟩ hbig, fun d hd => nomatch hd⟩
  | some d =>
    have hroom : Room (value / 10 ^ digits) 0 := h.room.anti (Nat.zero_le _)
    rw [Room, pow_zero, mul_one] at hroom
    refine ⟨iff_of_false (fun hfault => nomatch hfault) (not_le.mpr hroom), fun e he => ?_⟩
    cases he
    exact h.rounds

theorem scaled_ofScaled? {ε : Type} (fault : ε) (value : Int) (digits : Nat) :
    Scaled (value / 10 ^ digits) (match ofScaled? value digits with
      | some d => .ok d.normal
      | none => .error fault) := by
  refine scaled_of_nearest fault ?_
  have hspec := ofScaled?_spec value digits
  cases h : ofScaled? value digits with
  | none => simpa only [h] using hspec
  | some d =>
    simp only [h] at hspec
    exact hspec.nearest

theorem unitChars_value (value : Int) (decimals : Nat) :
    ((value * 10 ^ (max decimals 1 - decimals) : Int) : ℚ) / 10 ^ max decimals 1 =
      value / 10 ^ decimals := by
  have hpow : (10 : ℚ) ^ max decimals 1 = 10 ^ (max decimals 1 - decimals) * 10 ^ decimals := by
    rw [← pow_add, Nat.sub_add_cancel (Nat.le_max_left ..)]
  rw [hpow]
  push_cast
  field_simp

theorem scaled_ofUnits (value : Nat) {decimals : Nat} (h : decimals ≤ 77) :
    Scaled (value / 10 ^ decimals) (ofUnits value decimals) := by
  rw [ofUnits, if_pos h, ofChars?_unitChars, ← Int.cast_natCast value, ← unitChars_value]
  exact scaled_ofScaled? ..

theorem scaled_ofSignedUnits (value : Int) {decimals : Nat} (h : decimals ≤ 76) :
    Scaled (value / 10 ^ decimals) (ofSignedUnits value decimals) := by
  rw [ofSignedUnits, if_pos h, ofChars?_unitChars, ← unitChars_value]
  exact scaled_ofScaled? ..

theorem toOption_ofSignedUnits_neg (value : Int) {decimals : Nat} (h : decimals ≤ 76) :
    (ofSignedUnits (-value) decimals).toOption =
      (ofSignedUnits value decimals).toOption.map neg := by
  rw [ofSignedUnits, ofSignedUnits, if_pos h, if_pos h, ofChars?_unitChars, ofChars?_unitChars,
    Int.neg_mul, ofScaled?_neg]
  cases ofScaled? (value * 10 ^ (max decimals 1 - decimals)) (max decimals 1) with
  | none => rfl
  | some d => exact congrArg some (normal_neg d)

/-- **Amounts are scaled to the nearest decimal.** An amount whose decimals are in range, with or
without a sign, has a decimal unless it is too large for one, and that stands for the amount as well
as a decimal can. The opposite amount has the opposite decimal, or none either. -/
theorem amounts_to_nearest :
    (∀ value decimals : Nat, decimals ≤ 77 →
      Scaled (value / 10 ^ decimals) (ofUnits value decimals)) ∧
    ∀ (value : Int) (decimals : Nat), decimals ≤ 76 →
      Scaled (value / 10 ^ decimals) (ofSignedUnits value decimals) ∧
      (ofSignedUnits (-value) decimals).toOption =
        (ofSignedUnits value decimals).toOption.map neg := by
  refine ⟨fun value decimals h => scaled_ofUnits value h, fun value decimals h => ?_⟩
  exact ⟨scaled_ofSignedUnits value h, toOption_ofSignedUnits_neg value h⟩

/-- Rounding the 29th digit of this amount up takes one bit too many, so its 28th digit is given
up. -/
theorem carry_gives_up_digit :
    ofSignedUnits (-792281625142643375935439503355) 29 =
        .ok ⟨-7922816251426433759354395034, 27, by decide, by decide⟩ ∧
      Scaled ((-792281625142643375935439503355 : Int) / 10 ^ 29)
        (ofSignedUnits (-792281625142643375935439503355) 29) :=
  ⟨by decide, (amounts_to_nearest.2 _ 29 (by decide)).1⟩

end Backfill.Decimal
