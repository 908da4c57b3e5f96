import Backfill.Proofs.Amount.Scaling

/-!
# Amounts at a rate

A product of two decimals is a number with as many fraction digits as both have together, and goes
the way of any number: it keeps the digits that have room and is rounded to the nearest with so
many. Only a half is treated in another way. A token amount goes away from zero, a product to the
even digit. With the rule for a half there is but one decimal that stands for a number, so the rules
say what an amount and what a product is without a word on how they are computed.

Results:
* `RoundsAway`, `RoundsEven`: the rules for a half, each of which leaves one decimal.
* `mul?_spec`, `scaled_atRate`: what becomes of a product.
* `ofUnits_eq_ok`, `ofSignedUnits_eq_ok`, `atRate_eq_ok`: amounts and products by the rules alone.
-/
namespace Backfill.Decimal

variable {value : Int} {n digits k s : Nat} {x : ℚ} {d e : Decimal}

/-! ## Which of two decimals -/

/-- A half goes away from zero: no decimal that stands for the number is farther from it. -/
def HalfAway (x : ℚ) (d : Decimal) : Prop := ∀ e, Rounds x e → |e.toRat| ≤ |d.toRat|

/-- A half goes to the even digit: if another decimal stands for the number as well, the last digit
that the limits leave is even. -/
def HalfEven (x : ℚ) (d : Decimal) : Prop :=
  ∀ e s, Rounds x e → e.toRat ≠ d.toRat → Leaves x s → ∃ k : Int, d.toRat = (2 * k : Int) / 10 ^ s

def RoundsAway (x : ℚ) (d : Decimal) : Prop := Rounds x d ∧ HalfAway x d

def RoundsEven (x : ℚ) (d : Decimal) : Prop := Rounds x d ∧ HalfEven x d

/-- A decimal for a number, in units of the last digit that the limits leave. -/
theorem Rounds.units (h : Rounds x d) (hs : Leaves x s) :
    ∃ n : Int, d.toRat = n / 10 ^ s ∧ |n - x * 10 ^ s| ≤ 1 / 2 := by
  obtain ⟨s', hs', hle, hclose⟩ := h.close
  obtain rfl : s' = s := hs'.unique hs
  obtain ⟨n, hn⟩ := toRat_eq_units hle
  refine ⟨n, hn, ?_⟩
  have hpos : (0 : ℚ) < 10 ^ s' := by positivity
  have hdiff : (n : ℚ) - x * 10 ^ s' = (d.toRat - x) * 10 ^ s' := by
    rw [hn]
    field_simp
  rw [hdiff, abs_mul, abs_of_pos hpos]
  exact (le_div_iff₀ hpos).mp hclose

/-- Without zeros at the end of the fraction a number is written in one way. -/
theorem eq_of_toRat_eq (hd : d.scale = 0 ∨ ¬ (10 : Int) ∣ d.coefficient)
    (he : e.scale = 0 ∨ ¬ (10 : Int) ∣ e.coefficient) (h : d.toRat = e.toRat) : d = e := by
  have hcross : d.coefficient * 10 ^ e.scale = e.coefficient * 10 ^ d.scale := by
    rw [toRat, toRat, div_eq_div_iff (by positivity) (by positivity)] at h
    exact_mod_cast h
  have longer {d e : Decimal} (he : e.scale = 0 ∨ ¬ (10 : Int) ∣ e.coefficient)
      (hcross : d.coefficient * 10 ^ e.scale = e.coefficient * 10 ^ d.scale) :
      e.scale ≤ d.scale := by
    refine Nat.le_of_not_lt fun hlt => ?_
    obtain ⟨j, hj⟩ := Nat.exists_eq_add_of_lt hlt
    rw [hj, Nat.add_assoc, pow_add, mul_left_comm, mul_comm e.coefficient] at hcross
    have hten : e.coefficient = 10 * (d.coefficient * 10 ^ j) := by
      rw [← Int.eq_of_mul_eq_mul_left (by positivity) hcross, pow_succ, ← mul_assoc, mul_comm]
    exact he.elim (by omega) fun hnot => hnot ⟨_, hten⟩
  have hscale := Nat.le_antisymm (longer hd hcross.symm) (longer he hcross)
  rw [hscale] at hcross
  cases d
  cases e
  cases hscale
  cases Int.eq_of_mul_eq_mul_right (by positivity) hcross
  rfl

/-- A number is rounded to one decimal if a half goes away from zero. -/
theorem RoundsAway.unique (h : RoundsAway x d) (h' : RoundsAway x e) : d = e := by
  obtain ⟨⟨hd, hda⟩, he, hea⟩ := And.intro h h'
  refine eq_of_toRat_eq hd.trimmed he.trimmed ?_
  obtain ⟨s, hs, -⟩ := hd.close
  obtain ⟨n, hn, hnx⟩ := hd.units hs
  obtain ⟨m, hm, hmx⟩ := he.units hs
  have habs : |n| = |m| := by
    have h := le_antisymm (hea d hd) (hda e he)
    rw [hn, hm, abs_div, abs_div, div_left_inj' (by positivity)] at h
    exact_mod_cast h
  rcases abs_eq_abs.mp habs with rfl | rfl
  · rw [hn, hm]
  -- two opposite numbers that are as near can only be zero
  · have hnear : |(m : ℚ)| ≤ 1 / 2 := by
      rw [abs_le] at hnx hmx ⊢
      push_cast at hnx
      constructor
      · linarith
      · linarith
    have hlt : |m| < 1 := by
      have : ((|m| : Int) : ℚ) < 1 := by
        push_cast
        linarith
      exact_mod_cast this
    rw [hn, hm, Int.abs_lt_one_iff.mp hlt, neg_zero]

/-- And to one if a half goes to the even digit. -/
theorem RoundsEven.unique (h : RoundsEven x d) (h' : RoundsEven x e) : d = e := by
  obtain ⟨⟨hd, hde⟩, he, hee⟩ := And.intro h h'
  refine eq_of_toRat_eq hd.trimmed he.trimmed ?_
  by_contra hne
  obtain ⟨s, hs, -⟩ := hd.close
  obtain ⟨n, hn, hnx⟩ := hd.units hs
  obtain ⟨m, hm, hmx⟩ := he.units hs
  obtain ⟨k, hk⟩ := hde e s he (Ne.symm hne) hs
  obtain ⟨l, hl⟩ := hee d s hd hne hs
  have hpos : (10 : ℚ) ^ s ≠ 0 := by positivity
  have hnk : n = 2 * k := by exact_mod_cast (div_left_inj' hpos).mp (hn.symm.trans hk)
  have hml : m = 2 * l := by exact_mod_cast (div_left_inj' hpos).mp (hm.symm.trans hl)
  have hnear : |n - m| ≤ 1 := by
    have : |(n : ℚ) - m| ≤ 1 := by
      rw [abs_le] at hnx hmx ⊢
      constructor
      · linarith
      · linarith
    exact_mod_cast this
  have hsame : n = m := by
    rw [abs_le] at hnear
    omega
  exact hne (by rw [hn, hm, hsame])

/-- What becomes of a number, by the rules. -/
theorem Scaled.eq_ok_iff {ε : Type} {r : Except ε Decimal} {half : ℚ → Decimal → Prop}
    (h : Scaled x r) (hhalf : ∀ d, r = .ok d → half x d)
    (hunique : ∀ {d e}, Rounds x d ∧ half x d → Rounds x e ∧ half x e → d = e) :
    r = .ok d ↔ Rounds x d ∧ half x d := by
  constructor
  · intro hr
    exact ⟨h.rounds d hr, hhalf d hr⟩
  · rintro ⟨hrounds, hd⟩
    cases hr : r with
    | error fault =>
      obtain ⟨s, hs, -⟩ := hrounds.close
      have hbig := h.fails_iff.mp ⟨fault, hr⟩
      have hroom : Room x 0 := hs.1.2.anti (Nat.zero_le s)
      rw [Room, pow_zero, mul_one] at hroom
      exact absurd hbig (not_le.mpr hroom)
    | ok e => rw [hunique ⟨h.rounds e hr, hhalf e hr⟩ ⟨hrounds, hd⟩]

/-! ## Token amounts -/

/-- What is kept of an amount is away from zero. -/
theorem Kept.halfAway (h : Kept value digits d) : HalfAway (value / 10 ^ digits) d.normal := by
  intro e he
  rw [toRat_normal]
  by_cases hall : d.scale = digits
  · have hd := h.nearest.exact hall
    rw [he.exact ⟨d, hd⟩, hd]
  · obtain ⟨n, hn, hnx⟩ := he.units (h.nearest.leaves_scale hall)
    have hpow : (10 : ℚ) ^ digits = 10 ^ (digits - d.scale) * 10 ^ d.scale := by
      rw [← pow_add, Nat.sub_add_cancel h.scale_le]
    have hscaled : |(value : ℚ) / 10 ^ digits * 10 ^ d.scale| =
        value.natAbs / 10 ^ (digits - d.scale) := by
      rw [abs_mul, natAbs_div_pow, abs_of_pos (by positivity : (0 : ℚ) < 10 ^ d.scale), hpow]
      field_simp
    have hcoefficient : |d.coefficient| = (rounded value.natAbs (digits - d.scale) : Int) := by
      rw [h.coefficient, Int.abs_eq_natAbs, natAbs_withSign]
    have hhigh : (value.natAbs : ℚ) / 10 ^ (digits - d.scale) <
        rounded value.natAbs (digits - d.scale) + 1 / 2 := by
      have : 2 * (value.natAbs : ℚ) < 2 * (rounded value.natAbs (digits - d.scale) *
          10 ^ (digits - d.scale)) + 10 ^ (digits - d.scale) := by
        exact_mod_cast (rounded_bounds value.natAbs (digits - d.scale)).2
      rw [div_lt_iff₀ (by positivity)]
      linarith
    have hle : |n| ≤ |d.coefficient| := by
      have hlt : ((|n| : Int) : ℚ) < (rounded value.natAbs (digits - d.scale) : Int) + 1 := by
        have := abs_sub_abs_le_abs_sub (n : ℚ) (value / 10 ^ digits * 10 ^ d.scale)
        rw [hscaled] at this
        push_cast
        linarith
      rw [hcoefficient]
      exact Int.lt_add_one_iff.mp (by exact_mod_cast hlt)
    rw [hn, toRat, abs_div, abs_div, div_le_div_iff_of_pos_right (by positivity)]
    exact_mod_cast hle

theorem ofScaled?_halfAway {ε : Type} {fault : ε} (h : (match ofScaled? value digits with
    | some d => Except.ok d.normal
    | none => .error fault) = .ok d) : HalfAway (value / 10 ^ digits) d := by
  split at h
  · next hscaled =>
    cases h
    exact (ofScaled?_eq_some.mp hscaled).halfAway
  · cases h

/-- What becomes of an amount, without a word on how: it is the nearest decimal, and a half goes
away from zero. -/
theorem ofUnits_eq_ok {value decimals : Nat} :
    ofUnits value decimals = .ok d ↔ decimals ≤ 77 ∧ RoundsAway (value / 10 ^ decimals) d := by
  by_cases h : decimals ≤ 77
  · rw [and_iff_right h]
    refine (scaled_ofUnits value h).eq_ok_iff (fun d hd => ?_) RoundsAway.unique
    rw [ofUnits, if_pos h, ofChars?_unitChars] at hd
    rw [← Int.cast_natCast value, ← unitChars_value]
    exact ofScaled?_halfAway hd
  · rw [ofUnits, if_neg h]
    exact iff_of_false (fun hd => by cases hd) fun hd => h hd.1

theorem ofSignedUnits_eq_ok {value : Int} {decimals : Nat} :
    ofSignedUnits value decimals = .ok d ↔
      decimals ≤ 76 ∧ RoundsAway (value / 10 ^ decimals) d := by
  by_cases h : decimals ≤ 76
  · rw [and_iff_right h]
    refine (scaled_ofSignedUnits value h).eq_ok_iff (fun d hd => ?_) RoundsAway.unique
    rw [ofSignedUnits, if_pos h, ofChars?_unitChars] at hd
    rw [← unitChars_value]
    exact ofScaled?_halfAway hd
  · rw [ofSignedUnits, if_neg h]
    exact iff_of_false (fun hd => by cases hd) fun hd => h hd.1

/-! ## Products -/

theorem divideToEven_bounds (n : Nat) (hk : 0 < k) :
    2 * (divideToEven n k * k) ≤ 2 * n + k ∧ 2 * n ≤ 2 * (divideToEven n k * k) + k := by
  have hdiv : n / k * k + n % k = n := Nat.div_add_mod' n k
  have hmod := Nat.mod_lt n hk
  simp only [divideToEven]
  split
  · rw [Nat.add_one_mul (n / k)]
    omega
  · omega

/-- Where two integers are as near, it is the even one. -/
theorem divideToEven_even (hk : 0 < k) (h : 2 * (divideToEven n k * k) = 2 * n + k ∨
    2 * n = 2 * (divideToEven n k * k) + k) : 2 ∣ divideToEven n k := by
  have hdiv : n / k * k + n % k = n := Nat.div_add_mod' n k
  have hmod := Nat.mod_lt n hk
  simp only [divideToEven] at h ⊢
  split at h
  · next hup =>
    rw [Nat.add_one_mul (n / k)] at h
    rw [if_pos hup]
    omega
  · next hdown =>
    rw [if_neg hdown]
    omega

theorem divideToEven_one (n : Nat) : divideToEven n 1 = n := by
  simp [divideToEven, Nat.mod_one]

/-- A half up to an even bound is rounded up to it. -/
theorem divideToEven_lt_iff {m : Nat} (hk : 0 < k) (hm : 2 ∣ m) :
    divideToEven n k < m ↔ 2 * n + k < 2 * (m * k) := by
  obtain ⟨hlow, hhigh⟩ := divideToEven_bounds n hk
  constructor
  · intro h
    have hle := Nat.mul_le_mul_right k (Nat.succ_le_of_lt h)
    rw [Nat.succ_eq_add_one, Nat.add_one_mul (divideToEven n k)] at hle
    refine lt_of_le_of_ne (by omega) fun heq => ?_
    have hlast : (divideToEven n k + 1) * k = m * k := by
      rw [Nat.add_one_mul (divideToEven n k)]
      omega
    have hsucc : divideToEven n k + 1 = m := Nat.eq_of_mul_eq_mul_right hk hlast
    have heven := divideToEven_even (n := n) hk (.inr (by omega))
    omega
  · intro h
    exact Nat.lt_of_mul_lt_mul_right (a := k) (by omega)

theorem divideToEven_pow_lt_iff (n k : Nat) :
    divideToEven n (10 ^ k) < 2 ^ 96 ↔ rounded n k < 2 ^ 96 := by
  rw [divideToEven_lt_iff (by positivity) (by decide), rounded_lt_iff]

theorem divideToEven_le (n k : Nat) : divideToEven n k ≤ n / k + 1 := by
  simp only [divideToEven]
  split <;> omega

/-- Only the largest number that fits can outgrow its bits by rounding. -/
theorem divideToEven_eq_of_not_fits (hfloor : n / 10 ^ k < 2 ^ 96)
    (h : ¬ divideToEven n (10 ^ k) < 2 ^ 96) :
    n / 10 ^ k = 2 ^ 96 - 1 ∧ divideToEven n (10 ^ k) = 2 ^ 96 := by
  have hbig : 2 ^ 96 ≤ rounded n k := Nat.le_of_not_lt (mt (divideToEven_pow_lt_iff n k).mpr h)
  have hfloor' : n / 10 ^ k = 2 ^ 96 - 1 := by
    have := rounded_le n k
    omega
  have hle := divideToEven_le n (10 ^ k)
  exact ⟨hfloor', by omega⟩

/-- How many digits are lost before rounding, if there are no more than `fuel` too many. -/
theorem excess_spec (n : Nat) {least fuel : Nat} (h : n / 10 ^ (least + fuel) < 2 ^ 96) :
    least ≤ excess n least fuel ∧ n / 10 ^ excess n least fuel < 2 ^ 96 ∧
      ∀ k, least ≤ k → k < excess n least fuel → 2 ^ 96 ≤ n / 10 ^ k := by
  induction fuel generalizing least with
  | zero => exact ⟨Nat.le_refl _, h, fun k hk hlt => absurd hk (Nat.not_le.mpr hlt)⟩
  | succ fuel ih =>
    rw [excess]
    by_cases hfits : n / 10 ^ least < 2 ^ 96
    · rw [if_pos hfits]
      exact ⟨Nat.le_refl _, hfits, fun k hk hlt => absurd hk (Nat.not_le.mpr hlt)⟩
    · rw [if_neg hfits]
      have hshort : n / 10 ^ (least + 1 + fuel) < 2 ^ 96 := by rwa [Nat.succ_add]
      obtain ⟨hle, hlast, hmore⟩ := ih hshort
      refine ⟨Nat.le_of_succ_le hle, hlast, fun k hk hlt => ?_⟩
      obtain rfl | hk := Nat.eq_or_lt_of_le hk
      · exact Nat.le_of_not_lt hfits
      · exact hmore k hk hlt

theorem withSign_bne (a b : Int) :
    withSign (decide (a < 0) != decide (b < 0)) (a.natAbs * b.natAbs) = a * b := by
  rcases lt_or_ge a 0 with ha | ha <;> rcases lt_or_ge b 0 with hb | hb <;>
    simp [withSign, ha, hb, not_lt.mpr, abs_of_neg, abs_of_nonneg]

/-- The nearest number with the most digits, where a half went to the even digit. -/
structure NearestEven (value : Int) (digits : Nat) (d : Decimal) : Prop
    extends Nearest value digits d where
  even : |d.toRat - value / 10 ^ digits| = 1 / 2 / 10 ^ d.scale → 2 ∣ d.coefficient

/-- Nearest digits with the most of them that have room are a decimal. -/
theorem exists_nearestEven {negative : Bool} {m : Nat} (hvalue : value = withSign negative n)
    (hs : s ≤ digits) (hmost : s ≤ 28) (hm : m < 2 ^ 96)
    (hroom : rounded n (digits - s) < 2 ^ 96)
    (hlow : 2 * (m * 10 ^ (digits - s)) ≤ 2 * n + 10 ^ (digits - s))
    (hhigh : 2 * n ≤ 2 * (m * 10 ^ (digits - s)) + 10 ^ (digits - s))
    (heven : 2 * (m * 10 ^ (digits - s)) = 2 * n + 10 ^ (digits - s) ∨
      2 * n = 2 * (m * 10 ^ (digits - s)) + 10 ^ (digits - s) → 2 ∣ m)
    (hgreatest : ∀ t, s < t → t ≤ min digits 28 → 2 ^ 96 ≤ rounded n (digits - t)) :
    ∃ d, ofParts? (withSign negative m) s = some d ∧ NearestEven value digits d := by
  have hnatAbs : value.natAbs = n := by rw [hvalue, natAbs_withSign]
  have h : (withSign negative m).natAbs < 2 ^ 96 ∧ s ≤ 28 := by
    rw [natAbs_withSign]
    exact ⟨hm, hmost⟩
  refine ⟨⟨withSign negative m, s, h.1, h.2⟩, dif_pos h,
    { scale_le := hs
      exact := fun hall => ?_
      close := close_of_bounds hs rfl hvalue hlow hhigh
      room := (room_iff hs).mpr (by rwa [hnatAbs])
      greatest := fun t ht ht' hroom => ?_
      even := fun htie => ?_ }⟩
  · have hall : s = digits := hall
    subst hall
    rw [Nat.sub_self, Nat.pow_zero] at hlow hhigh
    obtain rfl : m = n := by omega
    rw [toRat, hvalue]
  · have hfits := (room_iff (Nat.le_trans ht' (Nat.min_le_left ..))).mp hroom
    rw [hnatAbs] at hfits
    exact absurd hfits (Nat.not_lt.mpr (hgreatest t ht ht'))
  · rw [abs_toRat_sub (m := m) hs rfl hvalue, div_left_inj' (by positivity),
      div_eq_iff (by positivity)] at htie
    have hdvd : 2 ∣ m := by
      refine heven ?_
      rcases abs_eq (by positivity) |>.mp htie with h | h
      · refine .inl ?_
        have : 2 * ((m : ℚ) * 10 ^ (digits - s)) = 2 * n + 10 ^ (digits - s) := by linarith
        exact_mod_cast this
      · refine .inr ?_
        have : 2 * (n : ℚ) = 2 * (m * 10 ^ (digits - s)) + 10 ^ (digits - s) := by linarith
        exact_mod_cast this
    exact Int.natCast_dvd.mpr (by rwa [natAbs_withSign])

/-- A digit is given up where rounding takes one bit too many. -/
theorem carried?_nearestEven {negative : Bool} (hvalue : value = withSign negative n)
    (hs : s ≤ digits) (hmost : s ≤ 28) (hfloor : n / 10 ^ (digits - s) < 2 ^ 96)
    (hgreatest : ∀ t, s < t → t ≤ min digits 28 → 2 ^ 96 ≤ rounded n (digits - t)) :
    match carried? negative (divideToEven n (10 ^ (digits - s))) s with
    | none => 2 ^ 96 ≤ rounded n digits
    | some d => NearestEven value digits d := by
  have hpos : 0 < 10 ^ (digits - s) := by positivity
  obtain ⟨hlow, hhigh⟩ := divideToEven_bounds n hpos
  by_cases hfits : divideToEven n (10 ^ (digits - s)) < 2 ^ 96
  · obtain ⟨d, hd, hnearest⟩ := exists_nearestEven hvalue hs hmost hfits
      ((divideToEven_pow_lt_iff n _).mp hfits) hlow hhigh (divideToEven_even hpos) hgreatest
    rw [carried?.eq_def, if_pos hfits, hd]
    exact hnearest
  · have hbig : 2 ^ 96 ≤ rounded n (digits - s) :=
      Nat.le_of_not_lt (mt (divideToEven_pow_lt_iff n _).mpr hfits)
    rw [carried?.eq_def, if_neg hfits]
    cases s with
    | zero => exact hbig
    | succ s =>
      obtain ⟨hlast, hup⟩ := divideToEven_eq_of_not_fits hfloor hfits
      have hdrop : digits - s = digits - (s + 1) + 1 := by omega
      have hshort : rounded n (digits - s) =
          (divideToEven n (10 ^ (digits - (s + 1))) + 4) / 10 := by
        rw [hdrop, rounded_succ, hlast, hup]
      have heven : 2 ∣ rounded n (digits - s) := by
        rw [hshort, hup]
        decide
      have hless : rounded n (digits - s) < 2 ^ 96 := by
        rw [hshort, hup]
        decide
      have hmore : ∀ t, s < t → t ≤ min digits 28 → 2 ^ 96 ≤ rounded n (digits - t) := by
        intro t ht htmost
        obtain rfl | hlt := Nat.eq_or_lt_of_le (Nat.succ_le_of_lt ht)
        · exact hbig
        · exact hgreatest t hlt htmost
      obtain ⟨hlow, hhigh⟩ := rounded_bounds n (digits - s)
      obtain ⟨d, hd, hnearest⟩ := exists_nearestEven hvalue (Nat.le_of_succ_le hs)
        (Nat.le_of_succ_le hmost) hless hless hlow hhigh.le (fun _ => heven) hmore
      simp only [← hshort, hd]
      exact hnearest

/-- What becomes of a product that is not zero: it is nothing if its whole part does not fit. -/
theorem mul?_spec {a b : Decimal} (h : a.coefficient * b.coefficient ≠ 0) :
    match mul? a b with
    | none => 2 ^ 96 ≤ rounded (a.coefficient * b.coefficient).natAbs (a.scale + b.scale)
    | some d => NearestEven (a.coefficient * b.coefficient) (a.scale + b.scale) d := by
  obtain ⟨n, hn⟩ : ∃ n, n = a.coefficient.natAbs * b.coefficient.natAbs := ⟨_, rfl⟩
  obtain ⟨digits, hdigits⟩ : ∃ digits, digits = a.scale + b.scale := ⟨_, rfl⟩
  obtain ⟨lost, hlost⟩ : ∃ lost, lost = excess n (digits - 28) 60 := ⟨_, rfl⟩
  have hvalue := (withSign_bne a.coefficient b.coefficient).symm
  have hnatAbs : (a.coefficient * b.coefficient).natAbs = n := by rw [Int.natAbs_mul, hn]
  have hzero : n ≠ 0 := by
    rw [← hnatAbs]
    exact Int.natAbs_ne_zero.mpr h
  have hshort : n / 10 ^ (digits - 28 + 60) < 2 ^ 96 := by
    have hlt : n < 2 ^ 96 * 2 ^ 96 :=
      hn ▸ Nat.mul_lt_mul'' a.coefficient_lt b.coefficient_lt
    have hpow : 10 ^ 60 ≤ 10 ^ (digits - 28 + 60) := Nat.pow_le_pow_right (by decide) (by omega)
    exact Nat.lt_of_le_of_lt (Nat.div_le_div_left hpow (by decide)) (by omega)
  obtain ⟨hleast, hfloor, hmore⟩ := excess_spec n hshort
  rw [← hlost] at hleast hfloor hmore
  have hround : (if lost = 0 then n else divideToEven n (10 ^ lost)) =
      divideToEven n (10 ^ lost) := by
    split
    · next h => rw [h, Nat.pow_zero, divideToEven_one]
    · rfl
  simp only [mul?, ← hn, ← hdigits, ← hlost, if_neg hzero, hround, hnatAbs]
  by_cases hall : digits < lost
  · rw [if_pos hall]
    exact Nat.le_trans (hmore digits (by omega) hall) (div_le_rounded ..)
  · rw [if_neg hall]
    have hback : digits - (digits - lost) = lost := by omega
    rw [← hn] at hvalue
    have hspec := carried?_nearestEven (s := digits - lost) hvalue (Nat.sub_le ..) (by omega)
      (by rwa [hback]) fun t ht hmost =>
        Nat.le_trans (hmore (digits - t) (by omega) (by omega)) (div_le_rounded ..)
    rwa [hback] at hspec

theorem NearestEven.halfEven (h : NearestEven value digits d) :
    HalfEven (value / 10 ^ digits) d.normal := by
  intro e s he hne hs
  rw [toRat_normal] at hne ⊢
  have hall : d.scale ≠ digits := by
    intro hall
    exact hne (by rw [he.exact ⟨d, h.exact hall⟩, h.exact hall])
  obtain rfl : s = d.scale := hs.unique (h.leaves_scale hall)
  obtain ⟨s, hs', hle, hclose⟩ := he.close
  obtain rfl : s = d.scale := hs'.unique hs
  obtain ⟨n, hn⟩ := toRat_eq_units hle
  -- the other decimal is a unit away, so the number is half way between the two
  have hunit : 2 * (1 / 2 / 10 ^ d.scale) ≤ |e.toRat - d.toRat| := by
    have hpos : (0 : ℚ) < 10 ^ d.scale := by positivity
    have hdiff : n ≠ d.coefficient := by
      rintro rfl
      exact hne hn
    have hone : (1 : ℚ) ≤ |(n : ℚ) - d.coefficient| := by
      exact_mod_cast Int.one_le_abs (sub_ne_zero.mpr hdiff)
    rw [hn, toRat, ← sub_div, abs_div, abs_of_pos hpos, le_div_iff₀ hpos]
    field_simp
    linarith
  have htie : |d.toRat - value / 10 ^ digits| = 1 / 2 / 10 ^ d.scale := by
    refine le_antisymm h.close ?_
    have := abs_sub_le e.toRat (value / 10 ^ digits) d.toRat
    rw [abs_sub_comm (value / 10 ^ digits : ℚ) d.toRat] at this
    linarith
  obtain ⟨k, hk⟩ := h.even htie
  exact ⟨k, by rw [toRat, hk]⟩

theorem toRat_mul_toRat (a b : Decimal) :
    a.toRat * b.toRat = (a.coefficient * b.coefficient : Int) / 10 ^ (a.scale + b.scale) := by
  rw [toRat, toRat, div_mul_div_comm, ← pow_add, Int.cast_mul]

theorem rounds_of_toRat_eq (htrimmed : d.scale = 0 ∨ ¬ (10 : Int) ∣ d.coefficient)
    (h : d.toRat = x) : Rounds x d := by
  obtain ⟨s, hs, hle⟩ := exists_leaves (h ▸ room_toRat d) d.scale_le
  refine ⟨htrimmed, fun _ => h, s, hs, hle, ?_⟩
  rw [h, sub_self, abs_zero]
  positivity

/-- What becomes of an amount at a rate. -/
theorem scaled_atRate (amount rate : Decimal) :
    Scaled (amount.toRat * rate.toRat) (amount.atRate rate) ∧
      ∀ d, amount.atRate rate = .ok d → HalfEven (amount.toRat * rate.toRat) d := by
  rw [atRate, toRat_mul_toRat]
  by_cases hzero : amount.coefficient * rate.coefficient = 0
  · have hmul : mul? amount rate = some ⟨0, 0, by decide, by decide⟩ := by
      have hn : amount.coefficient.natAbs * rate.coefficient.natAbs = 0 := by
        rw [← Int.natAbs_mul, hzero]
        rfl
      simp only [mul?, hn, if_true]
      rfl
    have hrat : toRat ⟨0, 0, by decide, by decide⟩ = 0 := by simp [toRat]
    rw [hmul, hzero, Int.cast_zero, zero_div]
    refine ⟨⟨iff_of_false (by rintro ⟨_, ⟨⟩⟩) (by norm_num), fun d hd => ?_⟩, ?_⟩
    · cases hd
      exact rounds_of_toRat_eq (.inl rfl) hrat
    · intro d hd e s he hne
      cases hd
      exact absurd ((he.exact ⟨_, hrat⟩).trans hrat.symm) hne
  · have hspec := mul?_spec hzero
    refine ⟨scaled_of_nearest _ ?_, fun d hd => ?_⟩
    · cases h : mul? amount rate with
      | none => simpa only [h] using hspec
      | some d =>
        simp only [h] at hspec
        exact hspec.toNearest
    · split at hd
      · next h =>
        cases hd
        simp only [h] at hspec
        exact hspec.halfEven
      · cases hd

/-- What becomes of an amount at a rate, without a word on how: it is the decimal nearest to the
product, and a half goes to the even digit. -/
theorem atRate_eq_ok {amount rate : Decimal} :
    amount.atRate rate = .ok d ↔ RoundsEven (amount.toRat * rate.toRat) d :=
  (scaled_atRate amount rate).1.eq_ok_iff (scaled_atRate amount rate).2 RoundsEven.unique

end Backfill.Decimal
