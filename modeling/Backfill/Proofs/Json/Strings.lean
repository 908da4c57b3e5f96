import Backfill.Json.Reader

/-!
# Strings are read as they were written

A string is written between quotes, with escapes for quotes, backslashes and controls, and every
other character as its UTF-8 octets. It is read octet by octet. That cannot mistake a part of a
character for a quote or a backslash, because the octets of a character are a single ASCII octet, or
none of them is one.

Results:
* `octets_append`, `octets_ofList`: the octets of a text, piece by piece.
* `Spells.char`: a character is spelled by the text it is written as.
* `quoted_read`: a text between quotes is read as that text, whatever follows.
-/
namespace Backfill.Json

/-! ## Octets -/

def octets (s : String) : List UInt8 := s.toUTF8.toList

private theorem toList_loop (bs : ByteArray) (i : Nat) (r : List UInt8) :
    ByteArray.toList.loop bs i r = r.reverse ++ bs.data.toList.drop i := by
  fun_induction ByteArray.toList.loop bs i r with
  | case1 i r h ih =>
    have h' : i < bs.data.toList.length := h
    rw [ih, List.drop_eq_getElem_cons h']
    simp [ByteArray.get!, h]
  | case2 i r h =>
    have h' : bs.data.toList.length ≤ i := Nat.le_of_not_lt h
    simp [List.drop_eq_nil_of_le h']

theorem octets_eq (s : String) : octets s = s.toList.flatMap String.utf8EncodeChar := by
  have h : s.toByteArray.data.toList = s.toList.flatMap String.utf8EncodeChar := by
    rw [← String.utf8Encode_toList, List.utf8Encode, List.toList_data_toByteArray]
  rw [octets, String.toUTF8_eq_toByteArray, ByteArray.toList, toList_loop]
  simpa using h

theorem octets_append (s t : String) : octets (s ++ t) = octets s ++ octets t := by
  simp only [octets_eq, String.toList_append, List.flatMap_append]

theorem octets_ofList (cs : List Char) :
    octets (String.ofList cs) = cs.flatMap String.utf8EncodeChar := by
  rw [octets_eq, String.toList_ofList]

theorem fromUTF8?_octets (s : String) : String.fromUTF8? ⟨(octets s).toArray⟩ = some s := by
  have h : (⟨(octets s).toArray⟩ : ByteArray) = s.toByteArray := by
    apply ByteArray.ext
    apply Array.ext'
    rw [octets_eq, ← String.utf8Encode_toList, List.utf8Encode, List.toList_data_toByteArray]
  rw [h, String.fromUTF8?, dif_pos s.isValidUTF8]
  rfl

/-- The octets of a character that is not ASCII are none of ASCII. -/
theorem le_of_mem_utf8EncodeChar {c : Char} (hc : 0x7f < c.toNat) :
    ∀ b ∈ String.utf8EncodeChar c, 0x80 ≤ b.toNat := by
  have hc' : ¬ c.val.toNat ≤ 0x7f := Nat.not_le_of_lt hc
  intro b hb
  simp only [String.utf8EncodeChar, hc', if_false] at hb
  split at hb
  · simp only [List.mem_cons, List.not_mem_nil, or_false] at hb
    rcases hb with rfl | rfl <;> (rw [UInt8.toNat_ofNat']; omega)
  · split at hb
    · simp only [List.mem_cons, List.not_mem_nil, or_false] at hb
      rcases hb with rfl | rfl | rfl <;> (rw [UInt8.toNat_ofNat']; omega)
    · have := c.valid
      simp only [List.mem_cons, List.not_mem_nil, or_false] at hb
      rcases hb with rfl | rfl | rfl | rfl <;> (rw [UInt8.toNat_ofNat']; omega)

theorem utf8EncodeChar_ascii {c : Char} (hc : c.toNat ≤ 0x7f) :
    String.utf8EncodeChar c = [octet c] := by
  have hc' : c.val.toNat ≤ 0x7f := hc
  simp only [String.utf8EncodeChar, hc', if_true]
  congr 1

theorem flatMap_ascii {cs : List Char} (h : ∀ c ∈ cs, c.toNat ≤ 0x7f) :
    cs.flatMap String.utf8EncodeChar = cs.map octet := by
  induction cs with
  | nil => rfl
  | cons c cs ih =>
    rw [List.forall_mem_cons] at h
    rw [List.flatMap_cons, utf8EncodeChar_ascii h.1, ih h.2]
    rfl

theorem octets_ascii {s : String} (h : ∀ c ∈ s.toList, c.toNat ≤ 0x7f) :
    octets s = s.toList.map octet := by
  rw [octets_eq, flatMap_ascii h]

theorem toNat_octet {c : Char} (hc : c.toNat ≤ 0x7f) : (octet c).toNat = c.toNat := by
  have hc' : c.val.toNat ≤ 0x7f := hc
  simp only [octet, Char.toUInt8, UInt32.toNat_toUInt8]
  change c.val.toNat % 2 ^ 8 = c.val.toNat
  omega

theorem octet_ne {c d : Char} (hc : c.toNat ≤ 0x7f) (hd : d.toNat ≤ 0x7f) (hne : c ≠ d) :
    octet c ≠ octet d := by
  intro heq
  have hnat := congrArg UInt8.toNat heq
  rw [toNat_octet hc, toNat_octet hd] at hnat
  exact hne (Char.ext (UInt32.toNat_inj.mp hnat))

/-! ## Strings -/

/-- After an opening quote, octets spell `out` up to a closing quote, and leave `after`. -/
def Spells (bs out after : List UInt8) : Prop :=
  ∀ fuel, bs.length < fuel → stringOctets fuel bs = .ok (out, after)

namespace Spells

variable {bs out after : List UInt8}

theorem quote (after : List UInt8) : Spells (octet '"' :: after) [] after := by
  intro fuel hfuel
  obtain ⟨fuel, rfl⟩ : ∃ n, fuel = n + 1 := ⟨fuel - 1, by omega⟩
  simp [stringOctets]

theorem plain (h : Spells bs out after) {b : UInt8} (hquote : b ≠ octet '"')
    (hslash : b ≠ octet '\\') (hcontrol : ¬ b < 0x20) : Spells (b :: bs) (b :: out) after := by
  intro fuel hfuel
  obtain ⟨fuel, rfl⟩ : ∃ n, fuel = n + 1 := ⟨fuel - 1, by omega⟩
  rw [List.length_cons] at hfuel
  simp [stringOctets, hquote, hslash, hcontrol, h fuel (by omega), bind, Except.bind, pure,
    Except.pure]

theorem short (h : Spells bs out after) {e : UInt8} {c : Char} (he : e ≠ octet 'u')
    (hc : shortEscape? e = some c) :
    Spells (octet '\\' :: e :: bs) (String.utf8EncodeChar c ++ out) after := by
  intro fuel hfuel
  obtain ⟨fuel, rfl⟩ : ∃ n, fuel = n + 1 := ⟨fuel - 1, by omega⟩
  simp only [List.length_cons] at hfuel
  have : octet '\\' ≠ octet '"' := by decide
  simp [stringOctets, this, he, hc, h fuel (by omega), bind, Except.bind, pure, Except.pure]

theorem numeric (h : Spells bs out after) {s : List UInt8} {c : Char}
    (hc : numericEscape s = .ok (c, bs)) (hlen : bs.length ≤ s.length) :
    Spells (octet '\\' :: octet 'u' :: s) (String.utf8EncodeChar c ++ out) after := by
  intro fuel hfuel
  obtain ⟨fuel, rfl⟩ : ∃ n, fuel = n + 1 := ⟨fuel - 1, by omega⟩
  simp only [List.length_cons] at hfuel
  have : octet '\\' ≠ octet '"' := by decide
  simp [stringOctets, this, hc, h fuel (by omega), bind, Except.bind, pure, Except.pure]

theorem plains (h : Spells bs out after) {more : List UInt8} (hmore : ∀ b ∈ more, 0x80 ≤ b.toNat) :
    Spells (more ++ bs) (more ++ out) after := by
  induction more with
  | nil => exact h
  | cons b more ih =>
    rw [List.forall_mem_cons] at hmore
    refine (ih hmore.2).plain ?_ ?_ ?_
    · rintro rfl
      exact absurd hmore.1 (by decide)
    · rintro rfl
      exact absurd hmore.1 (by decide)
    · rw [UInt8.lt_iff_toNat_lt]
      have : (0x20 : UInt8).toNat = 32 := rfl
      omega

private theorem fourHex_append {bs : List UInt8} {a b c d : Nat}
    (h : bs.map hexValue? = [some a, some b, some c, some d]) (rest : List UInt8) :
    fourHex (bs ++ rest) = .ok (a * 4096 + b * 256 + c * 16 + d, rest) := by
  rcases bs with _ | ⟨_, _ | ⟨_, _ | ⟨_, _ | ⟨_, _ | _⟩⟩⟩⟩ <;>
    simp only [List.map_cons, List.map_nil, List.cons.injEq, List.cons_ne_nil, and_false, and_true,
      reduceCtorEq] at h
  obtain ⟨ha, hb, hc, hd⟩ := h
  simp [fourHex, ha, hb, hc, hd]

private theorem hexValue?_fourHex : ∀ n < 0x20,
    ((Value.fourHex n).flatMap String.utf8EncodeChar).map hexValue? =
      [some 0, some 0, some (n / 16), some (n % 16)] := by
  decide +kernel

/-- A character is spelled by the text it is written as. -/
theorem char (h : Spells bs out after) (c : Char) :
    Spells ((Value.charText c).flatMap String.utf8EncodeChar ++ bs)
      (String.utf8EncodeChar c ++ out) after := by
  unfold Value.charText
  split
  · subst_vars; exact h.short (e := octet '"') (by decide) (by decide)
  split
  · subst_vars; exact h.short (e := octet '\\') (by decide) (by decide)
  split
  · subst_vars; exact h.short (e := octet 'b') (by decide) (by decide)
  split
  · subst_vars; exact h.short (e := octet 'f') (by decide) (by decide)
  split
  · subst_vars; exact h.short (e := octet 'n') (by decide) (by decide)
  split
  · subst_vars; exact h.short (e := octet 'r') (by decide) (by decide)
  split
  · subst_vars; exact h.short (e := octet 't') (by decide) (by decide)
  split
  · next hcontrol =>
    refine h.numeric (s := (Value.fourHex c.toNat).flatMap String.utf8EncodeChar ++ bs) ?_
      (by simp)
    have hn : c.toNat < 0xD800 ∨ 0xE000 ≤ c.toNat := by omega
    have hvalue : 0 * 4096 + 0 * 256 + c.toNat / 16 * 16 + c.toNat % 16 = c.toNat := by omega
    have hread := fourHex_append (hexValue?_fourHex _ hcontrol) bs
    rw [hvalue] at hread
    simp only [numericEscape, hread, bind, Except.bind, hn, if_true, pure, Except.pure,
      Char.ofNat_toNat]
  · next hquote hslash _ _ _ _ _ hcontrol =>
    rw [List.flatMap_singleton]
    by_cases hc : c.toNat ≤ 0x7f
    · rw [utf8EncodeChar_ascii hc]
      refine h.plain (octet_ne hc (by decide) hquote) (octet_ne hc (by decide) hslash) ?_
      rw [UInt8.lt_iff_toNat_lt, toNat_octet hc]
      exact hcontrol
    · exact h.plains (le_of_mem_utf8EncodeChar (by omega))

theorem string (s : String) (after : List UInt8) :
    Spells ((s.toList.flatMap Value.charText).flatMap String.utf8EncodeChar ++ octet '"' :: after)
      (octets s) after := by
  rw [octets_eq]
  induction s.toList with
  | nil => exact .quote after
  | cons c cs ih =>
    simpa only [List.flatMap_cons, List.flatMap_append, List.append_assoc] using ih.char c

end Spells

theorem quoted_read (s : String) : ∃ bs, octets (Value.quoted s) = octet '"' :: bs ∧
    ∀ after, stringBody (bs ++ after) = .ok (s, after) := by
  refine ⟨(s.toList.flatMap Value.charText).flatMap String.utf8EncodeChar ++ [octet '"'], ?_,
    fun after => ?_⟩
  · rw [Value.quoted, octets_ofList]
    have hquote : String.utf8EncodeChar '"' = [octet '"'] := utf8EncodeChar_ascii (by decide)
    simp [hquote]
  · have h := Spells.string s after _ (Nat.lt_succ_self _)
    rw [List.append_assoc, List.singleton_append]
    simp only [stringBody, h, bind, Except.bind, fromUTF8?_octets, pure, Except.pure]

end Backfill.Json
