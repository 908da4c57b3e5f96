import Mathlib.Data.List.TakeWhile
import Backfill.Range.Text

/-!
# Which texts name a range

Blanks, digits and the two separators begin with different characters, so a text has the form
`FROM-TO` or `FROM..TO` in at most one way, and reading from the left finds it. A digit counts in
the form whatever its script, and its run is a count only in ASCII and only below `2 ^ 64`. So a
text fails in one of three ways, and each of them is a property of the text alone.

Results:
* `ends?_eq_some`: the two runs found are those of the form.
* `countOf_eq_ok`: a run of digits is a count if it is ASCII and fits.
* `ofText_outcomes`: the text of a range, and the texts of each of the faults.
-/
namespace Backfill

open Text Axis

namespace Text

/-! ## Digits -/

/-- What holds of ten characters from each zero on holds of every digit. -/
theorem of_isDecimalDigit {p : Char → Bool}
    (h : ∀ first ∈ digitZeros, ∀ k < 10, p (Char.ofNat (first + k)) = true) {c : Char}
    (hc : isDecimalDigit c = true) : p c = true := by
  obtain ⟨first, hfirst, hbounds⟩ := List.any_eq_true.mp hc
  simp only [Bool.and_eq_true, decide_eq_true_eq] at hbounds
  have hp := h first hfirst (c.toNat - first) (by omega)
  rwa [Nat.add_sub_cancel' hbounds.1, Char.ofNat_toNat] at hp

theorem plain_of_isDecimalDigit {c : Char} (hc : isDecimalDigit c = true) :
    isBlank c = false ∧ c ≠ '-' ∧ c ≠ '.' ∧ c ≠ '+' := by
  have h := of_isDecimalDigit
    (p := fun c => !isBlank c && c != '-' && c != '.' && c != '+') (by decide +kernel) hc
  simpa [and_assoc] using h

theorem le_ofDigitChars (ds : List Char) (n : Nat) : n ≤ Nat.ofDigitChars 10 ds n := by
  induction ds generalizing n with
  | nil => exact Nat.le_refl n
  | cons c ds ih =>
    have := ih (10 * n + (c.toNat - '0'.toNat))
    rw [Nat.ofDigitChars_cons]
    omega

/-- Every number on the way is below the bound exactly when the last one is. -/
theorem walk_eq_ok {bits : Nat} (ds : List Char) {n m : Nat} (hn : n < 2 ^ bits) :
    countOf.walk bits ds n = .ok m ↔
      (∀ c ∈ ds, c.isDigit = true) ∧ Nat.ofDigitChars 10 ds n = m ∧ m < 2 ^ bits := by
  induction ds generalizing n with
  | nil =>
    simp only [countOf.walk, Except.ok.injEq, Nat.ofDigitChars_nil, List.not_mem_nil,
      false_implies, implies_true, true_and]
    exact ⟨fun h => ⟨h, h ▸ hn⟩, And.left⟩
  | cons c ds ih =>
    rw [countOf.walk, List.forall_mem_cons, Nat.ofDigitChars_cons, Nat.mul_comm 10 n]
    by_cases hc : c.isDigit = true
    · by_cases hnext : n * 10 + (c.toNat - '0'.toNat) < 2 ^ bits
      · simp only [hc, if_true, if_pos hnext, ih hnext, true_and]
      · have := le_ofDigitChars ds (n * 10 + (c.toNat - '0'.toNat))
        simp only [hc, if_true, if_neg hnext, reduceCtorEq, true_and, false_iff]
        omega
    · simp [hc]

end Text

/-! ## The form -/

namespace Range

def Blanks (gap : List Char) : Prop := ∀ c ∈ gap, isBlank c = true

structure Run (digit : Char → Bool) (ds : List Char) : Prop where
  ne_nil : ds ≠ []
  digits : ∀ c ∈ ds, digit c = true

/-- A text of the form `FROM-TO` or `FROM..TO`, with blanks around the runs. -/
inductive Form (digit : Char → Bool) (first last : List Char) : List Char → Prop where
  | intro {before left separator right after : List Char} (runFirst : Run digit first)
      (runLast : Run digit last) (separates : separator = ['-'] ∨ separator = ['.', '.'])
      (blankBefore : Blanks before) (blankLeft : Blanks left) (blankRight : Blanks right)
      (blankAfter : Blanks after) :
      Form digit first last (before ++ first ++ left ++ separator ++ right ++ last ++ after)

theorem Run.mono {p q : Char → Bool} {ds : List Char} (h : Run p ds)
    (himp : ∀ c ∈ ds, p c = true → q c = true) : Run q ds :=
  ⟨h.ne_nil, fun c hc => himp c hc (h.digits c hc)⟩

theorem Form.mono {p q : Char → Bool} {first last cs : List Char} (h : Form p first last cs)
    (himp : ∀ c ∈ first ++ last, p c = true → q c = true) : Form q first last cs := by
  cases h with
  | intro hfirst hlast hsep hbefore hleft hright hafter =>
    exact .intro (hfirst.mono fun c hc => himp c (List.mem_append_left _ hc))
      (hlast.mono fun c hc => himp c (List.mem_append_right _ hc)) hsep hbefore hleft hright hafter

theorem Form.runs {digit : Char → Bool} {first last cs : List Char}
    (h : Form digit first last cs) : Run digit first ∧ Run digit last := by
  cases h with
  | intro hfirst hlast => exact ⟨hfirst, hlast⟩

/-! ## Finding the runs -/

theorem exists_blanks (cs : List Char) : ∃ gap, Blanks gap ∧ cs = gap ++ skipBlanks cs :=
  ⟨cs.takeWhile isBlank, fun _ => List.mem_takeWhile_imp, List.takeWhile_append_dropWhile.symm⟩

theorem skipBlanks_append {gap : List Char} (h : Blanks gap) (cs : List Char) :
    skipBlanks (gap ++ cs) = skipBlanks cs :=
  List.dropWhile_append_of_pos h

theorem skipBlanks_blanks {gap : List Char} (h : Blanks gap) : skipBlanks gap = [] :=
  List.dropWhile_eq_nil_iff.mpr h

theorem skipBlanks_run {ds : List Char} (h : Run isDecimalDigit ds) (rest : List Char) :
    skipBlanks (ds ++ rest) = ds ++ rest := by
  obtain ⟨c, ds, rfl⟩ := List.exists_cons_of_ne_nil h.ne_nil
  exact skipBlanks_cons (plain_of_isDecimalDigit (h.digits c List.mem_cons_self)).1 _

def NoDigit (cs : List Char) : Prop := ∀ c ∈ cs.head?, isDecimalDigit c = false

theorem NoDigit.blanks_append {gap cs : List Char} (h : NoDigit cs) (hgap : Blanks gap) :
    NoDigit (gap ++ cs) := by
  cases gap with
  | nil => exact h
  | cons b gap =>
    rintro c ⟨rfl⟩
    refine Bool.eq_false_iff.mpr fun hc => ?_
    have := hgap b List.mem_cons_self
    rw [(plain_of_isDecimalDigit hc).1] at this
    exact Bool.false_ne_true this

theorem Run.span {ds rest : List Char} (h : Run isDecimalDigit ds) (hrest : NoDigit rest) :
    (ds ++ rest).takeWhile isDecimalDigit = ds ∧ (ds ++ rest).dropWhile isDecimalDigit = rest := by
  rw [List.takeWhile_append_of_pos h.digits, List.dropWhile_append_of_pos h.digits]
  cases rest with
  | nil => exact ⟨List.append_nil ds, rfl⟩
  | cons c rest =>
    have hc : ¬ isDecimalDigit c = true := by simp [hrest c rfl]
    rw [List.takeWhile_cons_of_neg hc, List.dropWhile_cons_of_neg hc]
    exact ⟨List.append_nil ds, rfl⟩

theorem ends?_of_form {first last cs : List Char} (h : Form isDecimalDigit first last cs) :
    ends? cs = some (first, last) := by
  cases h with
  | @intro before left separator right after hfirst hlast hsep hbefore hleft hright hafter =>
    have hsepDigit : NoDigit (separator ++ (right ++ (last ++ after))) := by
      rcases hsep with rfl | rfl <;> rintro c ⟨rfl⟩ <;> decide
    have hsepBlank : skipBlanks (separator ++ (right ++ (last ++ after))) =
        separator ++ (right ++ (last ++ after)) := by
      rcases hsep with rfl | rfl <;> exact skipBlanks_cons (by decide) _
    have hnil : NoDigit [] := fun _ hc => nomatch hc
    have hafterDigit : NoDigit after := by
      simpa using hnil.blanks_append hafter
    have hspanFirst := hfirst.span (hsepDigit.blanks_append hleft)
    have hspanLast := hlast.span hafterDigit
    simp only [ends?, List.append_assoc, skipBlanks_append hbefore, skipBlanks_run hfirst,
      hspanFirst.1, hspanFirst.2, skipBlanks_append hleft, hsepBlank]
    rcases hsep with rfl | rfl <;>
      simp [skipBlanks_append hright, skipBlanks_run hlast, hspanLast.1, hspanLast.2,
        skipBlanks_blanks hafter, hfirst.ne_nil, hlast.ne_nil]

theorem run_takeWhile {digit : Char → Bool} {cs : List Char} (h : cs.takeWhile digit ≠ []) :
    Run digit (cs.takeWhile digit) :=
  ⟨h, fun _ => List.mem_takeWhile_imp⟩

theorem form_of_ends? {first last cs : List Char} (h : ends? cs = some (first, last)) :
    Form isDecimalDigit first last cs := by
  simp only [ends?] at h
  split at h
  · cases h
  next rest hcut =>
    split at h
    next hruns =>
      obtain ⟨hfirst, hlast, hend⟩ := hruns
      obtain ⟨rfl, rfl⟩ := Prod.mk.inj (Option.some.inj h)
      obtain ⟨separator, hsep, hcs⟩ : ∃ separator, (separator = ['-'] ∨ separator = ['.', '.']) ∧
          skipBlanks ((skipBlanks cs).dropWhile isDecimalDigit) = separator ++ rest := by
        split at hcut
        next hcs => exact ⟨['-'], .inl rfl, by rw [hcs, ← Option.some.inj hcut]; rfl⟩
        next hcs => exact ⟨['.', '.'], .inr rfl, by rw [hcs, ← Option.some.inj hcut]; rfl⟩
        next => cases hcut
      obtain ⟨before, hbefore, hcsBefore⟩ := exists_blanks cs
      obtain ⟨left, hleft, hcsLeft⟩ := exists_blanks ((skipBlanks cs).dropWhile isDecimalDigit)
      obtain ⟨right, hright, hcsRight⟩ := exists_blanks rest
      have htext : cs = before ++ (skipBlanks cs).takeWhile isDecimalDigit ++ left ++ separator ++
          right ++ (skipBlanks rest).takeWhile isDecimalDigit ++
          (skipBlanks rest).dropWhile isDecimalDigit := by
        calc cs = before ++ skipBlanks cs := hcsBefore
          _ = before ++ ((skipBlanks cs).takeWhile isDecimalDigit ++
                (left ++ (separator ++ (right ++ skipBlanks rest)))) := by
            rw [← hcsRight, ← hcs, ← hcsLeft, List.takeWhile_append_dropWhile]
          _ = _ := by
            simp only [List.append_assoc, List.takeWhile_append_dropWhile]
      have hform := Form.intro (run_takeWhile hfirst) (run_takeWhile hlast) hsep hbefore hleft
        hright (List.dropWhile_eq_nil_iff.mp hend)
      rwa [← htext] at hform
    · cases h

theorem ends?_eq_some {first last cs : List Char} :
    ends? cs = some (first, last) ↔ Form isDecimalDigit first last cs :=
  ⟨form_of_ends?, ends?_of_form⟩

theorem form_isDigit_iff {first last ds es cs : List Char} (h : ends? cs = some (first, last)) :
    Form Char.isDigit ds es cs ↔
      (ds = first ∧ es = last) ∧ ∀ c ∈ first ++ last, c.isDigit = true := by
  constructor
  · intro hform
    have hends := ends?_eq_some.mpr (hform.mono fun _ _ => isDecimalDigit_of_isDigit)
    obtain ⟨rfl, rfl⟩ := Prod.mk.inj (Option.some.inj (hends.symm.trans h))
    obtain ⟨hfirst, hlast⟩ := hform.runs
    exact ⟨⟨rfl, rfl⟩, List.forall_mem_append.mpr ⟨hfirst.digits, hlast.digits⟩⟩
  · rintro ⟨⟨rfl, rfl⟩, hdigits⟩
    exact (ends?_eq_some.mp h).mono fun c hc _ => hdigits c hc

theorem exists_form_iff {first last cs : List Char} (h : ends? cs = some (first, last))
    (p : List Char → List Char → Prop) :
    (∃ ds es, Form Char.isDigit ds es cs ∧ p ds es) ↔
      (∀ c ∈ first ++ last, c.isDigit = true) ∧ p first last := by
  simp only [form_isDigit_iff h]
  constructor
  · rintro ⟨ds, es, ⟨⟨rfl, rfl⟩, hdigits⟩, hp⟩
    exact ⟨hdigits, hp⟩
  · rintro ⟨hdigits, hp⟩
    exact ⟨first, last, ⟨⟨rfl, rfl⟩, hdigits⟩, hp⟩

/-! ## Reading the runs -/

def numberOf (ds : List Char) : Nat := Nat.ofDigitChars 10 ds 0

theorem countOf_eq_ok {bits : Nat} {ds : List Char} {n : Nat} (h : Run isDecimalDigit ds) :
    countOf bits ds = .ok n ↔ (∀ c ∈ ds, c.isDigit = true) ∧ numberOf ds = n ∧ n < 2 ^ bits := by
  obtain ⟨c, cs, rfl⟩ := List.exists_cons_of_ne_nil h.ne_nil
  have hc : c ≠ '+' := (plain_of_isDecimalDigit (h.digits c List.mem_cons_self)).2.2.2
  have hwalk : countOf bits (c :: cs) = countOf.walk bits (c :: cs) 0 := by
    simp [countOf, hc]
  rw [hwalk, walk_eq_ok (c :: cs) (Nat.two_pow_pos bits), numberOf]

def Counts (ds : List Char) : Prop := (∀ c ∈ ds, c.isDigit = true) ∧ numberOf ds < 2 ^ 64

theorem blockOf_of_counts {ds : List Char} (h : Run isDecimalDigit ds) (hcounts : Counts ds) :
    blockOf ds = .ok (UInt64.ofNat (numberOf ds)) := by
  rw [blockOf, (countOf_eq_ok h).mpr ⟨hcounts.1, rfl, hcounts.2⟩]

theorem blockOf_of_not_counts {ds : List Char} (h : Run isDecimalDigit ds)
    (hcounts : ¬ Counts ds) : ∃ cause, blockOf ds = .error (.count cause) := by
  rw [blockOf]
  cases hcount : countOf 64 ds with
  | error cause => exact ⟨cause, rfl⟩
  | ok n =>
    obtain ⟨hdigits, rfl, hfits⟩ := (countOf_eq_ok h).mp hcount
    exact absurd ⟨hdigits, hfits⟩ hcounts

/-- Two block numbers are the ends of a range, or the wrong way round. -/
theorem ofText_of_counts {text : String} {first last : List Char}
    (h : ends? text.toList = some (first, last)) (hfirst : Counts first) (hlast : Counts last) :
    ofText text =
      if numberOf first ≤ numberOf last then
        .ok ⟨UInt64.ofNat (numberOf first), UInt64.ofNat (numberOf last)⟩
      else .error (.invalid (toString (numberOf first)) (toString (numberOf last))) := by
  obtain ⟨runFirst, runLast⟩ := (ends?_eq_some.mp h).runs
  have htoNat {ds : List Char} (hds : Counts ds) :
      (UInt64.ofNat (numberOf ds)).toNat = numberOf ds :=
    UInt64.toNat_ofNat_of_lt' hds.2
  have hends : ofText text =
      ofEnds (UInt64.ofNat (numberOf first)) (UInt64.ofNat (numberOf last)) := by
    simp only [ofText, h, blockOf_of_counts runFirst hfirst, blockOf_of_counts runLast hlast]
    rfl
  have hle : coord (UInt64.ofNat (numberOf first)) ≤ coord (UInt64.ofNat (numberOf last)) ↔
      numberOf first ≤ numberOf last := by
    change ((UInt64.ofNat (numberOf first)).toNat : Int) ≤ (UInt64.ofNat (numberOf last)).toNat ↔ _
    rw [htoNat hfirst, htoNat hlast, Int.ofNat_le]
  have hshown {ds : List Char} (hds : Counts ds) :
      Shown.display (UInt64.ofNat (numberOf ds)) = toString (numberOf ds) :=
    congrArg toString (htoNat hds)
  rw [hends, ofEnds, between?, hshown hfirst, hshown hlast]
  by_cases h : numberOf first ≤ numberOf last
  · rw [if_pos (hle.mpr h), if_pos h]
  · rw [if_neg (mt hle.mp h), if_neg h]

theorem ofText_of_not_counts {text : String} {first last : List Char}
    (h : ends? text.toList = some (first, last)) (hcounts : ¬ (Counts first ∧ Counts last)) :
    ∃ cause, ofText text = .error (.count cause) := by
  obtain ⟨runFirst, runLast⟩ := (ends?_eq_some.mp h).runs
  by_cases hfirst : Counts first
  · obtain ⟨cause, hcause⟩ := blockOf_of_not_counts runLast fun hlast => hcounts ⟨hfirst, hlast⟩
    exact ⟨cause, by simp only [ofText, h, blockOf_of_counts runFirst hfirst, hcause]; rfl⟩
  · obtain ⟨cause, hcause⟩ := blockOf_of_not_counts runFirst hfirst
    exact ⟨cause, by simp only [ofText, h, hcause]; rfl⟩

/-- The text of a range names its ends in ASCII digits, in order and below `2 ^ 64`. Every other
text fails. The ends are the wrong way round if nothing else is wrong. An end is no count if the
text has the form only with digits of other scripts, or if a number is too large. Any other text
does not have the form. -/
theorem ofText_outcomes (text : String) :
    (∀ r, ofText text = .ok r ↔
      ∃ first last, Form Char.isDigit first last text.toList ∧ numberOf first < 2 ^ 64 ∧
        numberOf last < 2 ^ 64 ∧ numberOf first ≤ numberOf last ∧
        r = ⟨UInt64.ofNat (numberOf first), UInt64.ofNat (numberOf last)⟩) ∧
    (∀ shownFirst shownLast, ofText text = .error (.invalid shownFirst shownLast) ↔
      ∃ first last, Form Char.isDigit first last text.toList ∧ numberOf first < 2 ^ 64 ∧
        numberOf last < 2 ^ 64 ∧ numberOf last < numberOf first ∧
        shownFirst = toString (numberOf first) ∧ shownLast = toString (numberOf last)) ∧
    ((∃ cause, ofText text = .error (.count cause)) ↔
      ((∃ first last, Form isDecimalDigit first last text.toList) ∧
        ¬ ∃ first last, Form Char.isDigit first last text.toList) ∨
      ∃ first last, Form Char.isDigit first last text.toList ∧
        (2 ^ 64 ≤ numberOf first ∨ 2 ^ 64 ≤ numberOf last)) ∧
    (∀ shown, ofText text = .error (.form shown) ↔
      shown = text ∧ ¬ ∃ first last, Form isDecimalDigit first last text.toList) := by
  cases h : ends? text.toList with
  | none =>
    have hform (ds es) : ¬ Form isDecimalDigit ds es text.toList := fun hform =>
      Option.some_ne_none _ ((ends?_eq_some.mpr hform).symm.trans h)
    have hascii (ds es) : ¬ Form Char.isDigit ds es text.toList := fun hascii =>
      hform ds es (hascii.mono fun _ _ => isDecimalDigit_of_isDigit)
    have hread : ofText text = .error (.form text) := by rw [ofText, h]
    simp [hread, hform, hascii, eq_comm]
  | some ends =>
    obtain ⟨first, last⟩ := ends
    have hform : ∃ ds es, Form isDecimalDigit ds es text.toList := ⟨first, last, ends?_eq_some.mp h⟩
    have hascii := exists_form_iff h fun _ _ => True
    simp only [and_true] at hascii
    -- with the runs at hand, whether they are ASCII and fit decides between three of the outcomes
    simp only [exists_form_iff h, hascii, hform, true_and, not_true, and_false, iff_false]
    have hcounts : Counts first ∧ Counts last ↔ (∀ c ∈ first ++ last, c.isDigit = true) ∧
        numberOf first < 2 ^ 64 ∧ numberOf last < 2 ^ 64 := by
      rw [List.forall_mem_append, Counts, Counts, and_and_and_comm]
    by_cases hends : Counts first ∧ Counts last
    · have hread := ofText_of_counts h hends.1 hends.2
      obtain ⟨hdigits, hfirst, hlast⟩ := hcounts.mp hends
      by_cases hle : numberOf first ≤ numberOf last
      · rw [if_pos hle] at hread
        grind
      · rw [if_neg hle] at hread
        grind
    · obtain ⟨cause, hread⟩ := ofText_of_not_counts h hends
      rw [hcounts] at hends
      grind

-- the form in another script
example : ofText "٣-٤" = .error (.count .invalidDigit) := by decide +kernel

end Range
end Backfill
