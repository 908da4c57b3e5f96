import Backfill.Numbers
import Backfill.Proofs.Json.Layouts

/-!
# Numbers are read as they were written

A number is the one value that ends only with what comes after it. So it is read back where nothing
comes after it that would go on with it: the end of the text, a blank, a comma, or the end of a list
or record.

Results:
* `Follows`: what may come after a value, as it does in a list or record however it is laid out.
* `number_integerText`: an integer of 64 bits.
-/
namespace Backfill.Json

/-! ## What may follow -/

/-- What may follow a value in a document: nothing, a blank, a comma, or the end of a list or
record. -/
def Follows (rest : List UInt8) : Prop :=
  ∀ b ∈ rest.head?, isBlank b = true ∨ b = octet ',' ∨ b = octet ']' ∨ b = octet '\x7d'

section Follows

variable {gap rest : List UInt8}

theorem follows_nil : Follows [] := by simp [Follows]

theorem follows_comma (rest : List UInt8) : Follows (octet ',' :: rest) :=
  fun _ hb => .inr (.inl (Option.some.inj hb).symm)

theorem follows_list_end (rest : List UInt8) : Follows (octet ']' :: rest) :=
  fun _ hb => .inr (.inr (.inl (Option.some.inj hb).symm))

theorem follows_record_end (rest : List UInt8) : Follows (octet '\x7d' :: rest) :=
  fun _ hb => .inr (.inr (.inr (Option.some.inj hb).symm))

theorem Blanks.follows (hgap : Blanks gap) (h : Follows rest) : Follows (gap ++ rest) := by
  cases gap with
  | nil => exact h
  | cons b gap =>
    intro c hc
    obtain rfl := Option.some.inj hc
    exact .inl (hgap _ List.mem_cons_self)

theorem Before.follows (h : Before false gap) (rest : List UInt8) : Follows (gap ++ rest) := by
  cases h with
  | next hblank _ =>
    rw [List.append_assoc]
    exact hblank.follows (follows_comma _)

theorem WrittenItems.follows {vs : List Value} (hw : WrittenItems false vs gap)
    (h : Follows rest) : Follows (gap ++ rest) := by
  cases hw with
  | nil => exact h
  | cons comma _ _ =>
    rw [List.append_assoc]
    exact comma.follows _

theorem WrittenMembers.follows {ms : List (String × Value)} (hw : WrittenMembers false ms gap)
    (h : Follows rest) : Follows (gap ++ rest) := by
  cases hw with
  | nil => exact h
  | cons comma _ _ _ _ =>
    rw [List.append_assoc]
    exact comma.follows _

end Follows

/-! ## Numbers -/

private theorem ascii_of_isDigit {c : Char} (h : c.isDigit = true) : c.toNat ≤ 0x7f := by
  have h9 := (Text.toNat_le_of_isDigit h).2
  have : '9'.toNat = 57 := rfl
  omega

theorem isDigit_octet {c : Char} (h : c.isDigit = true) : isDigit (octet c) = true := by
  simp only [isDigit, Bool.and_eq_true, decide_eq_true_eq, UInt8.le_iff_toNat_le,
    toNat_octet (ascii_of_isDigit h)]
  exact Text.toNat_le_of_isDigit h

theorem digitsValue_map {ds : List Char} (h : ∀ c ∈ ds, c.isDigit = true) :
    digitsValue (ds.map octet) = Nat.ofDigitChars 10 ds 0 := by
  unfold digitsValue Nat.ofDigitChars
  generalize 0 = init
  induction ds generalizing init with
  | nil => rfl
  | cons c ds ih =>
    rw [List.forall_mem_cons] at h
    rw [List.map_cons, List.foldl_cons, List.foldl_cons, ih h.2, toNat_octet (ascii_of_isDigit h.1),
      Nat.mul_comm]

/-- Only zero is written with a leading zero. -/
theorem head_toDigits {n : Nat} (h : 0 < n) : ∃ c cs, Nat.toDigits 10 n = c :: cs ∧ c ≠ '0' := by
  induction n using Nat.strongRecOn with
  | ind n ih =>
    by_cases hn : n < 10
    · rw [Nat.toDigits_of_lt_base hn]
      refine ⟨_, [], rfl, ?_⟩
      have hall : ∀ m < 10, 0 < m → m.digitChar ≠ '0' := by decide
      exact hall n hn h
    · rw [Nat.toDigits_of_base_le (by decide) (by omega)]
      obtain ⟨c, cs, hcs, hc⟩ := ih (n / 10) (by omega) (by omega)
      exact ⟨c, cs ++ [(n % 10).digitChar], by rw [hcs, List.cons_append], hc⟩

section Numbers

variable {rest : List UInt8}

theorem Follows.ends {b : UInt8} (h : Follows (b :: rest)) :
    isDigit b = false ∧ b ≠ octet '.' ∧ b ≠ octet 'e' ∧ b ≠ octet 'E' := by
  have hb := h b rfl
  simp only [isBlank, Bool.or_eq_true, decide_eq_true_eq, or_assoc] at hb
  rcases hb with rfl | rfl | rfl | rfl | rfl | rfl | rfl <;> decide

private theorem takeWhile_rest (h : Follows rest) : rest.takeWhile isDigit = [] := by
  cases rest with
  | nil => rfl
  | cons b rest => rw [List.takeWhile_cons, if_neg (by simp [h.ends.1])]

private theorem dropWhile_rest (h : Follows rest) : rest.dropWhile isDigit = rest := by
  cases rest with
  | nil => rfl
  | cons b rest => rw [List.dropWhile_cons, if_neg (by simp [h.ends.1])]

/-- The digits of a number are its whole part. -/
theorem wholePart_digits (n : Nat) (h : Follows rest) :
    wholePart ((Nat.toDigits 10 n).map octet ++ rest) =
      .ok ((Nat.toDigits 10 n).map octet, rest) := by
  rcases Nat.eq_zero_or_pos n with rfl | hn
  · cases rest with
    | nil => rfl
    | cons b rest => simp [wholePart, h.ends.1]
  · obtain ⟨c, cs, hcs, hc⟩ := head_toDigits hn
    have hdigit : ∀ d ∈ c :: cs, d.isDigit = true := fun d hd =>
      Nat.isDigit_of_mem_toDigits (by decide) (by decide) (hcs ▸ hd)
    rw [List.forall_mem_cons] at hdigit
    have hall : ∀ b ∈ cs.map octet, isDigit b = true := by
      intro b hb
      obtain ⟨d, hd, rfl⟩ := List.mem_map.mp hb
      exact isDigit_octet (hdigit.2 d hd)
    have hzero := octet_ne (ascii_of_isDigit hdigit.1) (by decide) hc
    rw [hcs, List.map_cons, List.cons_append, wholePart.eq_def]
    dsimp only
    rw [if_neg hzero, if_pos (isDigit_octet hdigit.1), List.takeWhile_append_of_pos hall,
      takeWhile_rest h, List.dropWhile_append_of_pos hall, dropWhile_rest h, List.append_nil]

theorem fractionPart_rest (h : Follows rest) : fractionPart rest = .ok (none, rest) := by
  cases rest with
  | nil => rfl
  | cons b rest =>
    simp only [fractionPart, h.ends.2.1, if_false]

theorem exponentPart_rest (h : Follows rest) : exponentPart rest = .ok (none, rest) := by
  cases rest with
  | nil => rfl
  | cons b rest =>
    simp only [exponentPart, h.ends.2.2.1, h.ends.2.2.2, or_self, if_false]

/-- An integer of 64 bits is read as it was written. -/
theorem number_integerText {n : Int} (hlow : -2 ^ 63 ≤ n) (hhigh : n < 2 ^ 64) (h : Follows rest) :
    number (octets (Value.integerText n) ++ rest) = .ok (.integer n, rest) := by
  have hdigits : ∀ c ∈ Nat.toDigits 10 n.natAbs, c.isDigit = true := fun c hc =>
    Nat.isDigit_of_mem_toDigits (by decide) (by decide) hc
  have hvalue : digitsValue ((Nat.toDigits 10 n.natAbs).map octet) = n.natAbs := by
    rw [digitsValue_map hdigits, Nat.ofDigitChars_ten_toDigits]
  have hwhole := wholePart_digits n.natAbs h
  have hfraction := fractionPart_rest h
  have hexponent := exponentPart_rest h
  rw [Value.integerText, octets_ofList, List.flatMap_append,
    flatMap_ascii fun c hc => ascii_of_isDigit (hdigits c hc)]
  generalize hm : n.natAbs = m at hdigits hvalue hwhole ⊢
  by_cases hn : n < 0
  · have hminus : String.utf8EncodeChar '-' = [octet '-'] := utf8EncodeChar_ascii (by decide)
    rw [if_pos hn, List.flatMap_singleton, hminus, List.append_assoc, List.singleton_append]
    have hint : 0 < m ∧ m ≤ 2 ^ 63 := by omega
    simp [number, hwhole, hfraction, hexponent, hvalue, hint, bind, Except.bind, pure, Except.pure]
    omega
  · -- the first octet is a digit, and so no sign
    rw [if_neg hn, List.flatMap_nil, List.nil_append]
    obtain ⟨c, cs, hcs⟩ := List.exists_cons_of_ne_nil
      (Nat.toDigits_ne_nil (n := m) (b := 10))
    have hsign : octet c ≠ octet '-' := by
      have hc : c.isDigit = true := hdigits c (hcs ▸ List.mem_cons_self)
      refine octet_ne (ascii_of_isDigit hc) (by decide) ?_
      rintro rfl
      exact absurd hc (by decide)
    have hint : m < 2 ^ 64 := by omega
    rw [hcs] at hwhole hvalue ⊢
    simp only [List.map_cons, List.cons_append] at hwhole hvalue ⊢
    simp [number, hsign, hwhole, hfraction, hexponent, hvalue, hint, bind, Except.bind, pure,
      Except.pure]
    omega

end Numbers

/-- An integer begins with a sign or a digit. -/
theorem octets_integerText (n : Int) : ∃ b bs, octets (Value.integerText n) = b :: bs ∧
    (b = octet '-' ∨ isDigit b = true) := by
  rw [Value.integerText, octets_ofList, List.flatMap_append]
  by_cases hn : n < 0
  · rw [if_pos hn]
    exact ⟨octet '-', _, rfl, .inl rfl⟩
  · obtain ⟨c, cs, hcs⟩ := List.exists_cons_of_ne_nil
      (Nat.toDigits_ne_nil (n := n.natAbs) (b := 10))
    have hc : c.isDigit = true :=
      Nat.isDigit_of_mem_toDigits (by decide) (by decide) (hcs ▸ List.mem_cons_self)
    rw [if_neg hn, hcs, List.flatMap_cons, utf8EncodeChar_ascii (ascii_of_isDigit hc)]
    exact ⟨octet c, _, rfl, .inr (isDigit_octet hc)⟩

end Backfill.Json
