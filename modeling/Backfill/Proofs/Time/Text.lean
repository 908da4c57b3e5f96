import Mathlib.Data.Option.Basic
import Backfill.Proofs.Time.Calendar
import Backfill.Time.Text

/-!
# Instants are read as they were written

Every number of a time is written in at least as many digits as its place has. The reader takes at
most that many, except for a year with a sign and for the digits of a fraction, which end where no
digit follows. A moment of a leap second is written as the second 60, and no other is.

Results:
* `field?_padded`, `year?_yearText`, `fraction?_fractionText`: the numbers of a time.
* `ofParts?_parts`: a stamp is put together from its date and time of day.
* `ofText?_spell`: a stamp is read as it was written.
* `Instant.ofText?_text`, `Instant.ofText?_tableText`: so is an instant.
-/
namespace Backfill.Stamp

open Time Text

/-! ## Numbers -/

theorem toList_padded (width n : Nat) : (padded width n).toList = paddedDigits width n := by
  rw [padded, String.toList_ofList]

theorem isDigit_of_mem_padded {width n : Nat} {c : Char} (h : c ∈ (padded width n).toList) :
    c.isDigit = true :=
  isDigit_of_mem_paddedDigits (toList_padded width n ▸ h)

theorem ofDigitChars_padded (width n : Nat) :
    Nat.ofDigitChars 10 (padded width n).toList 0 = n := by
  rw [toList_padded, ofDigitChars_paddedDigits]

theorem length_padded (width : Nat) {n : Nat} (hwidth : 0 < width) (hn : n < 10 ^ width) :
    (padded width n).toList.length = width := by
  rw [toList_padded, length_paddedDigits width hwidth hn]

theorem padded_ne_nil (width n : Nat) : (padded width n).toList ≠ [] := by
  rw [toList_padded]
  exact paddedDigits_ne_nil width n

private theorem not_blank_of_isDigit {c : Char} (h : c.isDigit = true) : isBlank c = false := by
  have hlow : 48 ≤ c.toNat := (toNat_le_of_isDigit h).1
  have hhigh : c.toNat ≤ 57 := (toNat_le_of_isDigit h).2
  simp [isBlank]
  omega

theorem skipBlanks_padded (width n : Nat) (rest : List Char) :
    skipBlanks ((padded width n).toList ++ rest) = (padded width n).toList ++ rest := by
  obtain ⟨c, cs, hcs⟩ := List.exists_cons_of_ne_nil (padded_ne_nil width n)
  have hc : c.isDigit = true := isDigit_of_mem_padded (hcs ▸ List.mem_cons_self)
  rw [hcs, List.cons_append, skipBlanks_cons (not_blank_of_isDigit hc)]

/-- A run of digits is read whole if the place ends with it, or the digits do. -/
theorem number?_padded {width place n : Nat} (rest : List Char)
    (hfits : (padded place n).toList.length ≤ width)
    (hends : (padded place n).toList.length = width ∨ ∀ c ∈ rest.head?, c.isDigit = false) :
    number? width ((padded place n).toList ++ rest) = some (n, rest) := by
  have hdigits : ((((padded place n).toList ++ rest).take width).takeWhile Char.isDigit) =
      (padded place n).toList := by
    have hmore :
        (rest.take (width - (padded place n).toList.length)).takeWhile Char.isDigit = [] := by
      rcases hends with h | h
      · rw [h, Nat.sub_self, List.take_zero, List.takeWhile_nil]
      · cases rest with
        | nil => rw [List.take_nil, List.takeWhile_nil]
        | cons c rest =>
          cases width - (padded place n).toList.length with
          | zero => rw [List.take_zero, List.takeWhile_nil]
          | succ k =>
            rw [List.take_succ_cons, List.takeWhile_cons, if_neg (by simp [h c rfl])]
    rw [List.take_append, List.take_of_length_le hfits,
      List.takeWhile_append_of_pos fun c hc => isDigit_of_mem_padded hc, hmore, List.append_nil]
  simp only [number?, hdigits, padded_ne_nil, if_false, ofDigitChars_padded, List.drop_left]

theorem field?_padded {n : Nat} (hn : n < 100) (rest : List Char) :
    field? 2 ((padded 2 n).toList ++ rest) = some (n, rest) := by
  have hlength := length_padded 2 (by decide) hn
  rw [field?, skipBlanks_padded, number?_padded rest (Nat.le_of_eq hlength) (.inl hlength)]

theorem separator?_cons {c : Char} (hc : isBlank c = false) (rest : List Char) :
    separator? c (c :: rest) = some rest := by
  simp only [separator?, skipBlanks_cons hc, if_true]

/-- A year is read up to the hyphen behind it. -/
theorem year?_yearText (y : Int) (rest : List Char) :
    year? ((yearText y).toList ++ '-' :: rest) = some (y, '-' :: rest) := by
  have hhyphen : ∀ c ∈ ('-' :: rest).head?, c.isDigit = false := by
    intro c hc
    rw [← Option.some.inj hc]
    rfl
  rw [yearText]
  split
  · next hy =>
    -- no sign: the first character is a digit
    have hlength := length_padded 4 (n := y.toNat) (by decide) (by omega)
    have hnumber := number?_padded ('-' :: rest) (Nat.le_of_eq hlength) (.inl hlength)
    obtain ⟨c, cs, hcs⟩ := List.exists_cons_of_ne_nil (padded_ne_nil 4 y.toNat)
    have hc : c.isDigit = true := isDigit_of_mem_padded (hcs ▸ List.mem_cons_self)
    have hsign : c ≠ '-' ∧ c ≠ '+' := by
      constructor <;> rintro rfl <;> exact absurd hc (by decide)
    have hvalue : (y.toNat : Int) = y := by omega
    rw [year?, skipBlanks_padded]
    rw [hcs, List.cons_append] at hnumber ⊢
    split
    · next h => exact absurd (List.cons.inj h).1 hsign.1
    · next h => exact absurd (List.cons.inj h).1 hsign.2
    · simp only [hnumber, Option.map_some, hvalue]
  · next hy =>
    have hnumber : number? ((padded 4 y.natAbs).toList ++ '-' :: rest).length
        ((padded 4 y.natAbs).toList ++ '-' :: rest) = some (y.natAbs, '-' :: rest) :=
      number?_padded _ (by rw [List.length_append]; omega) (.inr hhyphen)
    by_cases hneg : y < 0
    · have hminus : isBlank '-' = false := by decide
      have hvalue : -(y.natAbs : Int) = y := by omega
      rw [if_pos hneg, String.toList_append, List.append_assoc, show "-".toList = ['-'] from rfl,
        List.singleton_append]
      simp only [year?, skipBlanks_cons hminus, hnumber, Option.map_some, hvalue]
    · have hplus : isBlank '+' = false := by decide
      have hvalue : (y.natAbs : Int) = y := by omega
      rw [if_neg hneg, String.toList_append, List.append_assoc, show "+".toList = ['+'] from rfl,
        List.singleton_append]
      simp only [year?, skipBlanks_cons hplus, hnumber, Option.map_some, hvalue]

/-- The digits of a fraction, of which there are at most nine. -/
private theorem fraction?_padded {width n : Nat} (hwidth : 0 < width ∧ width ≤ 9)
    (hn : n < 10 ^ width) {rest : List Char} (hrest : ∀ c ∈ rest.head?, c.isDigit = false) :
    fraction? (("." ++ padded width n).toList ++ rest) = some (n * 10 ^ (9 - width), rest) := by
  have hlength := length_padded width hwidth.1 hn
  have hends : rest.takeWhile Char.isDigit = [] := by
    cases rest with
    | nil => rfl
    | cons c rest => rw [List.takeWhile_cons, if_neg (by simp [hrest c rfl])]
  have hdigits : ((padded width n).toList ++ rest).takeWhile Char.isDigit =
      (padded width n).toList := by
    rw [List.takeWhile_append_of_pos fun c hc => isDigit_of_mem_padded hc, hends, List.append_nil]
  have hkept : (padded width n).toList.take 9 = (padded width n).toList :=
    List.take_of_length_le (by omega)
  rw [String.toList_append, List.append_assoc, show ".".toList = ['.'] from rfl,
    List.singleton_append]
  simp only [fraction?, hdigits, padded_ne_nil, if_false, hkept, ofDigitChars_padded, hlength]
  rw [List.drop_left' hlength]

/-- What closes a time: no digit comes next, no point, and the offset is none. -/
structure Closes (after : List Char) : Prop where
  digitless : ∀ c ∈ after.head?, c.isDigit = false
  pointless : ∀ rest, after ≠ '.' :: rest
  offset : offset? (skipBlanks after) = some (0, [])

theorem closes_mark : Closes "Z".toList where
  digitless := by simp
  pointless := by simp
  offset := rfl

theorem closes_offset : Closes "+00:00".toList where
  digitless := by simp
  pointless := by simp
  offset := by decide

/-- A fraction is read up to what closes the time, whether it has digits or not. -/
theorem fraction?_fractionText {n : Nat} (hn : n < 1000000000) {rest : List Char}
    (hrest : Closes rest) : fraction? ((fractionText n).toList ++ rest) = some (n, rest) := by
  have hletter := hrest.digitless
  rw [fractionText]
  split
  · next h =>
    rw [h]
    exact fraction?.eq_2 rest hrest.pointless
  split
  · rw [fraction?_padded (by decide) (by omega) hletter]
    congr 2
    omega
  split
  · rw [fraction?_padded (by decide) (by omega) hletter]
    congr 2
    omega
  · rw [fraction?_padded (by decide) (by omega) hletter]
    congr 2
    omega

/-! ## Stamps -/

private theorem ofNanos?_nanos (t : Instant) : Instant.ofNanos? t.nanos = some t :=
  dif_pos ⟨t.first_le, t.le_last⟩

/-- A stamp is put together from its date and time of day. -/
theorem ofParts?_parts (s : Stamp) {seconds : Int} {second : Nat}
    (hseconds : seconds = s.instant.nanos / 1000000000)
    (hsecond : second = (seconds % 86400).toNat) :
    ofParts? (Date.ofDayNumber (seconds / 86400)) (second / 3600) (second / 60 % 60)
      (second % 60 + s.leap.toNat) (s.instant.nanos % 1000000000).toNat 0 = some s := by
  obtain ⟨t, leap, hlast⟩ := s
  dsimp only at hseconds ⊢
  have hleap : decide (second % 60 + leap.toNat = 60) = leap := by
    cases leap with
    | false =>
      rw [decide_eq_false_iff_not, Bool.toNat_false]
      omega
    | true =>
      have := hlast rfl
      rw [decide_eq_true_eq, Bool.toNat_true]
      omega
  have hsecond60 : second % 60 + leap.toNat ≤ 60 := by
    have := Bool.toNat_le leap
    omega
  have hcivil : (Date.ofDayNumber (seconds / 86400)).dayNumber * 86400 +
      (second / 3600 : Nat) * 3600 + (second / 60 % 60 : Nat) * 60 +
      ((second % 60 + leap.toNat : Nat) - (leap.toNat : Int)) = seconds := by
    rw [Date.dayNumber_ofDayNumber]
    omega
  have hnanos : seconds * 1000000000 + (t.nanos % 1000000000).toNat = t.nanos := by omega
  have hguard : guard (second / 3600 < 24 ∧ second / 60 % 60 < 60 ∧ second % 60 + leap.toNat ≤ 60 ∧
      (0 : Int).natAbs < 86400) = some () :=
    if_pos ⟨by omega, by omega, hsecond60, by decide⟩
  rw [ofParts?, hguard]
  simp only [hleap, hcivil, Int.sub_zero, hnanos, ofNanos?_nanos, bind, Option.bind]
  exact dif_pos hlast

/-- A stamp is read as it was written, with either of the two spellings of no offset. -/
theorem ofText?_spell (s : Stamp) {after : String} (hafter : Closes after.toList) :
    ofText? (s.spell "T" after) = some s := by
  obtain ⟨seconds, hseconds⟩ : ∃ n, n = s.instant.nanos / 1000000000 := ⟨_, rfl⟩
  obtain ⟨second, hsecond⟩ : ∃ n, n = (seconds % 86400).toNat := ⟨_, rfl⟩
  obtain ⟨date, hdate⟩ : ∃ d, d = Date.ofDayNumber (seconds / 86400) := ⟨_, rfl⟩
  have hmonth := Date.month_ofDayNumber (seconds / 86400)
  have hday := Date.day_ofDayNumber (seconds / 86400)
  have hleap := Bool.toNat_le s.leap
  have htext : (s.spell "T" after).toList = (yearText date.year).toList ++
      '-' :: ((padded 2 date.month).toList ++
      '-' :: ((padded 2 date.day).toList ++
      'T' :: ((padded 2 (second / 3600)).toList ++
      ':' :: ((padded 2 (second / 60 % 60)).toList ++
      ':' :: ((padded 2 (second % 60 + s.leap.toNat)).toList ++
      ((fractionText (s.instant.nanos % 1000000000).toNat).toList ++ after.toList)))))) := by
    have hseparators : "-".toList = ['-'] ∧ "T".toList = ['T'] ∧ ":".toList = [':'] :=
      ⟨rfl, rfl, rfl⟩
    simp only [spell, dateText, clockText, ← hseconds, ← hsecond, ← hdate, hseparators,
      String.toList_append, List.append_assoc, List.cons_append, List.nil_append]
  rw [← hdate] at hmonth hday
  have hhyphen : isBlank '-' = false := by decide
  have hcolon : isBlank ':' = false := by decide
  have hparts := ofParts?_parts s hseconds hsecond
  rw [← hdate] at hparts
  have hdated : Date.ofParts? date.year date.month date.day = some date := by
    rw [hdate, Date.ofParts?_ofDayNumber]
  simp only [ofText?, htext, year?_yearText, separator?_cons hhyphen, separator?_cons hcolon,
    field?_padded (show date.month < 100 by omega), field?_padded (show date.day < 100 by omega),
    field?_padded (show second / 3600 < 100 by omega),
    field?_padded (show second / 60 % 60 < 100 by omega),
    field?_padded (show second % 60 + s.leap.toNat < 100 by omega),
    fraction?_fractionText (show (s.instant.nanos % 1000000000).toNat < 1000000000 by omega) hafter,
    hafter.offset, hdated, hparts, bind, Option.bind]
  rfl

end Backfill.Stamp

namespace Backfill

-- the fraction has as many digits as it needs, and a leap second stays one
example : (Stamp.ofText? "2016-12-31T23:59:60.5Z").map Stamp.text =
    some "2016-12-31T23:59:60.500Z" := by decide +kernel

theorem Instant.ofText?_text (t : Instant) : Instant.ofText? t.text = some t := by
  rw [Instant.ofText?, Instant.text, Stamp.text, Stamp.ofText?_spell _ Stamp.closes_mark]
  rfl

theorem Instant.ofText?_tableText (t : Instant) : Instant.ofText? t.tableText = some t := by
  rw [Instant.ofText?, Instant.tableText, Stamp.ofText?_spell _ Stamp.closes_offset]
  rfl

end Backfill
