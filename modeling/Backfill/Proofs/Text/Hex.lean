import Mathlib.Data.Nat.Digits.Defs
import Mathlib.Data.List.Forall2
import Backfill.Text.Hex

/-!
# The numbers of hexadecimal texts

A quantity names the number of its digits, however many there are and whatever their case. The
leading octets of data are the number of the digits that they are written with. A number that is
written as data of so many octets is read back from it.

Results:
* `Names`, `LeadingWord`: the number of a quantity, and the number of the first 32 octets of data.
* `ofHexQuantity?_eq_some`: how a quantity is read.
* `leadingWord_of_ofHexData?`: how data is read.
* `ofHexWord?_hexData`: data is read as it was written.
-/
namespace Backfill.Text

variable {text : String} {c : Char} {cs : List Char} {ds : List Nat} {bs : List UInt8}
  {d k m n : Nat}

/-- The values of the digits of a text, which follow `0x`. -/
def Digits (text : String) (ds : List Nat) : Prop :=
  ∃ cs, text.toList = '0' :: 'x' :: cs ∧ List.Forall₂ (fun c d => hexDigit? c = some d) cs ds

def ofHighest (ds : List Nat) : Nat := Nat.ofDigits 16 ds.reverse

def Names (text : String) (n : Nat) : Prop := ∃ ds, Digits text ds ∧ ds ≠ [] ∧ n = ofHighest ds

/-- A text begins with a number of 32 octets. -/
def LeadingWord (text : String) (n : Nat) : Prop :=
  ∃ ds, Digits text ds ∧ 64 ≤ ds.length ∧ n = ofHighest (ds.take 64)

theorem ofHighest_cons (d : Nat) (ds : List Nat) :
    ofHighest (d :: ds) = d * 16 ^ ds.length + ofHighest ds := by
  rw [ofHighest, List.reverse_cons, Nat.ofDigits_append, Nat.ofDigits_singleton,
    List.length_reverse, ofHighest]
  ring

theorem hexDigit?_lt (h : hexDigit? c = some d) : d < 16 := by
  unfold hexDigit? at h
  simp only [Char.le_def, UInt32.le_iff_toNat_le] at h
  split at h
  · next hc =>
    have : c.toNat ≤ 57 := hc.2
    simp at h
    omega
  · split at h
    · next hc =>
      have : c.toNat ≤ 102 := hc.2
      simp at h
      omega
    · split at h
      · next hc =>
        have : c.toNat ≤ 70 := hc.2
        simp at h
        omega
      · cases h

/-! ## Quantities -/

/-- A run of digits, after some that stand for `m`. -/
theorem foldl_hexDigit (cs : List Char) (m n : Nat) :
    cs.foldl (fun n c => n.bind fun n => (hexDigit? c).map (n * 16 + ·)) (some m) = some n ↔
      ∃ ds, List.Forall₂ (fun c d => hexDigit? c = some d) cs ds ∧
        n = m * 16 ^ ds.length + ofHighest ds := by
  have hnone (cs : List Char) : cs.foldl
      (fun n c => n.bind fun n => (hexDigit? c).map (n * 16 + ·)) (none : Option Nat) = none := by
    induction cs with
    | nil => rfl
    | cons c cs ih => exact ih
  induction cs generalizing m with
  | nil =>
    constructor
    · intro h
      cases h
      exact ⟨[], .nil, by simp [ofHighest]⟩
    · rintro ⟨ds, hds, rfl⟩
      cases hds
      simp [ofHighest]
  | cons c cs ih =>
    rw [List.foldl_cons, Option.bind_some]
    cases hc : hexDigit? c with
    | none =>
      rw [Option.map_none, hnone]
      refine iff_of_false (by simp) ?_
      rintro ⟨ds, hds, -⟩
      cases hds with
      | cons hd _ =>
        rw [hc] at hd
        cases hd
    | some d =>
      have hvalue (ds : List Nat) : (m * 16 + d) * 16 ^ ds.length + ofHighest ds =
          m * 16 ^ (d :: ds).length + ofHighest (d :: ds) := by
        rw [ofHighest_cons, List.length_cons]
        ring
      refine (ih (m * 16 + d)).trans ?_
      constructor
      · rintro ⟨ds, hds, rfl⟩
        exact ⟨d :: ds, .cons hc hds, hvalue ds⟩
      · rintro ⟨ds, hds, rfl⟩
        cases hds with
        | @cons _ d' _ ds hd hds =>
          rw [hc] at hd
          obtain rfl := Option.some.inj hd
          exact ⟨ds, hds, (hvalue ds).symm⟩

theorem hexValue?_eq_some : hexValue? cs = some n ↔
    ∃ ds, List.Forall₂ (fun c d => hexDigit? c = some d) cs ds ∧ n = ofHighest ds := by
  rw [hexValue?, foldl_hexDigit]
  simp only [Nat.zero_mul, Nat.zero_add]

/-- A quantity is read as the number that it names. -/
theorem ofHexQuantity?_eq_some : ofHexQuantity? text = some n ↔ Names text n := by
  unfold ofHexQuantity?
  split
  · next c cs htext =>
    rw [hexValue?_eq_some]
    constructor
    · rintro ⟨ds, hds, rfl⟩
      refine ⟨ds, ⟨_, htext, hds⟩, ?_, rfl⟩
      rintro rfl
      cases hds
    · rintro ⟨ds, ⟨cs', htext', hds⟩, -, rfl⟩
      rw [htext] at htext'
      cases htext'
      exact ⟨ds, hds, rfl⟩
  · next hshape =>
    refine iff_of_false (by simp) ?_
    rintro ⟨ds, ⟨cs, htext, hds⟩, hne, -⟩
    cases hds with
    | nil => exact hne rfl
    | cons _ _ => exact hshape _ _ htext

/-! ## Data -/

theorem foldl_octets (bs : List UInt8) (m : Nat) :
    bs.foldl (fun n b => n * 256 + b.toNat) m = m * 256 ^ bs.length + bigEndian bs := by
  induction bs generalizing m with
  | nil => simp [bigEndian]
  | cons b bs ih =>
    rw [bigEndian, List.foldl_cons, List.foldl_cons, ih, ih (0 * 256 + _), List.length_cons]
    ring

theorem bigEndian_cons (b : UInt8) (bs : List UInt8) :
    bigEndian (b :: bs) = b.toNat * 256 ^ bs.length + bigEndian bs := by
  rw [bigEndian, List.foldl_cons, foldl_octets, Nat.zero_mul, Nat.zero_add]

theorem ofHighest_octet (a b : Nat) (hlength : ds.length = 2 * k)
    (ha : a < 16) (hb : b < 16) :
    ofHighest (a :: b :: ds) = (UInt8.ofNat (a * 16 + b)).toNat * 256 ^ k + ofHighest ds := by
  have hoctet : (UInt8.ofNat (a * 16 + b)).toNat = a * 16 + b := by
    rw [UInt8.toNat_ofNat']
    omega
  have hpow : 256 ^ k = 16 ^ (2 * k) := by rw [Nat.pow_mul]
  rw [ofHighest_cons, ofHighest_cons, hoctet, hpow, List.length_cons, hlength]
  ring

/-- Octets are read from two digits each. -/
theorem octetsOfPairs?_eq_some (h : octetsOfPairs? cs = some bs) :
    ∃ ds, List.Forall₂ (fun c d => hexDigit? c = some d) cs ds ∧ ds.length = 2 * bs.length ∧
      ∀ k, bigEndian (bs.take k) = ofHighest (ds.take (2 * k)) := by
  fun_induction octetsOfPairs? cs generalizing bs with
  | case1 =>
    cases h
    exact ⟨[], .nil, rfl, fun k => by simp [bigEndian, ofHighest]⟩
  | case2 a b rest x y more hmore hy hx ih =>
    obtain rfl := Option.some.inj h
    obtain ⟨ds, hds, hlength, htake⟩ := ih hmore
    refine ⟨x :: y :: ds, .cons hx (.cons hy hds), ?_, fun k => ?_⟩
    · rw [List.length_cons, List.length_cons, List.length_cons, hlength]
      omega
    · cases k with
      | zero => rfl
      | succ k =>
        have hshort : (ds.take (2 * k)).length = 2 * (more.take k).length := by
          rw [List.length_take, List.length_take, hlength]
          omega
        have htwo : 2 * (k + 1) = 2 * k + 1 + 1 := by omega
        rw [htwo, List.take_succ_cons, List.take_succ_cons, List.take_succ_cons, bigEndian_cons,
          ofHighest_octet x y hshort (hexDigit?_lt hx) (hexDigit?_lt hy), htake]
  | case3 => cases h
  | case4 => cases h

theorem leadingWord_of_ofHexData? (h : ofHexData? text = some bs) (hlength : 32 ≤ bs.length) :
    LeadingWord text (bigEndian (bs.take 32)) := by
  unfold ofHexData? at h
  split at h
  · next cs htext =>
    obtain ⟨ds, hds, hcount, hvalue⟩ := octetsOfPairs?_eq_some h
    exact ⟨ds, ⟨cs, htext, hds⟩, by omega, hvalue 32⟩
  · cases h

/-! ## Words -/

theorem hexDigit?_digitChar : ∀ d < 16, hexDigit? d.digitChar = some d := by decide

theorem hexValue?_append (cs : List Char) (c : Char) :
    hexValue? (cs ++ [c]) =
      (hexValue? cs).bind fun n => (hexDigit? c).map (n * 16 + ·) := by
  rw [hexValue?, List.foldl_append]
  rfl

/-- The digits of a number stand for it. -/
theorem hexValue?_toDigits (n : Nat) : hexValue? (Nat.toDigits 16 n) = some n := by
  induction n using Nat.strongRecOn with
  | ind n ih =>
    by_cases hn : n < 16
    · rw [Nat.toDigits_of_lt_base hn, ← List.nil_append [n.digitChar], hexValue?_append,
        hexDigit?_digitChar n hn]
      simp [hexValue?]
    · have hlast : n % 16 < 16 := Nat.mod_lt _ (by decide)
      rw [Nat.toDigits_of_base_le (by decide) (by omega), hexValue?_append,
        ih (n / 16) (by omega), hexDigit?_digitChar _ hlast]
      simp only [Option.bind_some, Option.map_some, Option.some.injEq]
      omega

theorem hexValue?_hexDigits (width n : Nat) : hexValue? (hexDigits width n) = some n := by
  rw [hexDigits]
  induction width - (Nat.toDigits 16 n).length with
  | zero => exact hexValue?_toDigits n
  | succ k ih => exact ih

theorem length_hexDigits {width : Nat} (hwidth : 0 < width) (hn : n < 16 ^ width) :
    (hexDigits width n).length = width := by
  have := (Nat.length_toDigits_le_iff (b := 16) (by decide) hwidth).mpr hn
  rw [hexDigits, List.length_append, List.length_replicate]
  omega

theorem isSome_of_hexValue? (h : hexValue? cs = some n) : ∀ c ∈ cs, (hexDigit? c).isSome := by
  obtain ⟨ds, hds, -⟩ := hexValue?_eq_some.mp h
  clear h
  induction hds with
  | nil => simp
  | cons hd _ ih =>
    rw [List.forall_mem_cons]
    exact ⟨by rw [hd]; rfl, ih⟩

theorem not_isHexBlank (h : (hexDigit? c).isSome) : isHexBlank c = false := by
  rw [Bool.eq_false_iff]
  intro hblank
  simp only [isHexBlank, Bool.or_eq_true, decide_eq_true_eq] at hblank
  rcases hblank with ((rfl | rfl) | rfl) | rfl <;> exact absurd h (by decide)

/-- A number of that many octets is read as the data that it is written as. -/
theorem ofHexWord?_hexData {octets : Nat} (hoctets : 0 < octets) (hn : n < 16 ^ (2 * octets)) :
    ofHexWord? octets (hexData octets n) = some n := by
  have hvalue := hexValue?_hexDigits (2 * octets) n
  have hlength := length_hexDigits (by omega) hn
  have hdigits := isSome_of_hexValue? hvalue
  have hall : (hexDigits (2 * octets) n).all (hexDigit? · |>.isSome) = true :=
    List.all_eq_true.mpr hdigits
  have hfilter : (hexDigits (2 * octets) n).filter (!isHexBlank ·) = hexDigits (2 * octets) n :=
    List.filter_eq_self.mpr fun c hc => by rw [not_isHexBlank (hdigits c hc)]; rfl
  have hhalf : 2 * octets / 2 = octets := by omega
  have htake : (hexDigits (2 * octets) n).take (2 * octets) = hexDigits (2 * octets) n :=
    List.take_of_length_le hlength.le
  simp only [ofHexWord?, hexData, String.toList_ofList, withoutMark, hlength, hfilter, hall, hhalf,
    htake, hvalue, if_true, Nat.sub_self, Nat.pow_zero, Nat.mul_one, Option.map_some]

end Backfill.Text
