import Backfill.Numbers

/-!
# Decimals

Amounts and share prices are decimals with at most 28 fraction digits and 96 bits of digits
altogether. A number that needs more digits is rounded to those that fit; one whose whole part does
not fit has no decimal. Zero has no sign.
-/
namespace Backfill

/-- The number `coefficient / 10 ^ scale`. Numbers that are equal can differ in scale. -/
structure Decimal where
  coefficient : Int
  scale : Nat
  coefficient_lt : coefficient.natAbs < 2 ^ 96
  scale_le : scale ≤ 28
  deriving DecidableEq

namespace Decimal

/-- The number with these parts, if it has one. -/
def ofParts? (coefficient : Int) (scale : Nat) : Option Decimal :=
  if h : coefficient.natAbs < 2 ^ 96 ∧ scale ≤ 28 then some ⟨coefficient, scale, h.1, h.2⟩ else none

def one : Decimal := ⟨1, 0, by decide, by decide⟩

def two : Decimal := ⟨2, 0, by decide, by decide⟩

def withSign (negative : Bool) (n : Nat) : Int := if negative then -(n : Int) else n

/-! ## Rounding -/

/-- The most fraction digits, `most` at most, with which a number of `n / 10 ^ digits` fits. -/
def room? (n digits : Nat) (most : Nat) : Option Nat :=
  if n / 10 ^ (digits - most) < 2 ^ 96 then some most
  else
    match most with
    | 0 => none
    | most + 1 => room? n digits most

/-- The number `n / 10 ^ scale` after `n` was rounded up. If that made it one bit too long it gives
up a digit. -/
def carried? (negative : Bool) (n scale : Nat) : Option Decimal :=
  if n < 2 ^ 96 then ofParts? (withSign negative n) scale
  else
    match scale with
    | 0 => none
    | scale + 1 => ofParts? (withSign negative ((n + 4) / 10)) scale

/-- The number `value / 10 ^ digits`, with as many fraction digits as fit, but no more than
`digits`. The first digit left out decides on rounding: five or more rounds away from zero. -/
def ofScaled? (value : Int) (digits : Nat) : Option Decimal :=
  let n := value.natAbs
  match room? n digits (min digits 28) with
  | none => none
  | some kept =>
    if kept = digits then ofParts? value digits
    else
      let firstLeftOut := n / 10 ^ (digits - kept - 1) % 10
      let up := if 5 ≤ firstLeftOut then 1 else 0
      carried? (value < 0) (n / 10 ^ (digits - kept) + up) kept

/-! ## Trailing zeros -/

def trim (coefficient : Int) : Nat → Int × Nat
  | 0 => (coefficient, 0)
  | scale + 1 =>
    if coefficient % 10 = 0 then trim (coefficient.tdiv 10) scale else (coefficient, scale + 1)

theorem trim_bounds (c : Int) (s : Nat) :
    (trim c s).1.natAbs ≤ c.natAbs ∧ (trim c s).2 ≤ s := by
  induction s generalizing c with
  | zero => simp [trim]
  | succ s ih =>
    unfold trim
    split
    · have h := ih (c.tdiv 10)
      have : (c.tdiv 10).natAbs ≤ c.natAbs := by
        rw [Int.natAbs_tdiv]; exact Nat.div_le_self ..
      omega
    · simp

/-- The same number without trailing zeros in its fraction. Mirrors `Decimal::normalize`. -/
def normal (d : Decimal) : Decimal where
  coefficient := (trim d.coefficient d.scale).1
  scale := (trim d.coefficient d.scale).2
  coefficient_lt := Nat.lt_of_le_of_lt (trim_bounds ..).1 d.coefficient_lt
  scale_le := Nat.le_trans (trim_bounds ..).2 d.scale_le

/-! ## Multiplication -/

/-- The fewest digits, `least` at least, that `n` has to lose to fit. A number of `fuel` digits has
room to lose `fuel`. -/
def excess (n : Nat) : Nat → Nat → Nat
  | least, 0 => least
  | least, fuel + 1 => if n / 10 ^ least < 2 ^ 96 then least else excess n (least + 1) fuel

/-- `n / d` to the nearest integer, a half to the even one. -/
def divideToEven (n d : Nat) : Nat :=
  let q := n / d
  let r := n % d
  if d < 2 * r ∨ (2 * r = d ∧ q % 2 = 1) then q + 1 else q

/-- The product, with as many fraction digits as fit, rounded to the nearest and a half to the even
number. Mirrors `Decimal::checked_mul`. -/
def mul? (a b : Decimal) : Option Decimal :=
  let n := a.coefficient.natAbs * b.coefficient.natAbs
  let scale := a.scale + b.scale
  let lost := excess n (scale - 28) 60
  if n = 0 then ofParts? 0 0
  else if scale < lost then none
  else
    carried? (decide (a.coefficient < 0) != decide (b.coefficient < 0))
      (if lost = 0 then n else divideToEven n (10 ^ lost)) (scale - lost)

/-! ## Text -/

/-- The number in decimal, with all its fraction digits. -/
def text (d : Decimal) : String :=
  let ds := Text.paddedDigits (d.scale + 1) d.coefficient.natAbs
  let whole := ds.take (ds.length - d.scale)
  let fraction := ds.drop (ds.length - d.scale)
  String.ofList <|
    (if d.coefficient < 0 then ['-'] else []) ++ whole
      ++ if d.scale = 0 then [] else '.' :: fraction

/-- The number of digits with a point somewhere among them. -/
def ofDigits? (negative : Bool) (cs : List Char) : Option Decimal :=
  let whole := cs.takeWhile Char.isDigit
  let fraction? :=
    match cs.drop whole.length with
    | [] => some []
    | '.' :: fraction => if fraction.all Char.isDigit then some fraction else none
    | _ => none
  match fraction? with
  | none => none
  | some fraction =>
    (Text.natOfDigits? (whole ++ fraction)).bind fun n =>
      ofScaled? (withSign negative n) fraction.length

/-- The number that characters stand for: a sign if need be, digits, and a point somewhere among
them. -/
def ofChars? : List Char → Option Decimal
  | '-' :: cs => ofDigits? true cs
  | '+' :: cs => ofDigits? false cs
  | cs => ofDigits? false cs

/-- The number a text stands for. Mirrors `Decimal::from_str`. -/
def ofText? (s : String) : Option Decimal := ofChars? s.toList

/-! ## Token amounts -/

/-- Why an amount has no decimal. Mirrors `LoadError::Conversion`. -/
structure Unfit where
  /-- The amount, as far as it was computed. -/
  value : String
  decimals : Nat
  deriving DecidableEq, Repr

/-- The amount of `value` units of `10 ^ -decimals`, with all its fraction digits. An amount without
decimals has a fraction of one zero. Mirrors `format_units`. -/
def unitChars (value : Int) (decimals : Nat) : List Char :=
  let whole := (value.tdiv (10 ^ decimals)).natAbs
  let rest := (value.tmod (10 ^ decimals)).natAbs
  (if value < 0 then ['-'] else []) ++ Nat.toDigits 10 whole
    ++ '.' :: Text.paddedDigits decimals rest

/-- A token amount that counts in units of `10 ^ -decimals`. The scale of an amount of 256 bits has
to fit in 256 bits too, which `10 ^ 77` does and `10 ^ 78` does not. Mirrors `to_decimal` on
unsigned amounts. -/
def ofUnits (value decimals : Nat) : Except Unfit Decimal :=
  match if decimals ≤ 77 then ofChars? (unitChars value decimals) else none with
  | some d => .ok d.normal
  | none => .error ⟨String.ofList (Nat.toDigits 10 value), decimals⟩

/-- Mirrors `to_decimal` on signed amounts. The sign takes one bit of the scale. -/
def ofSignedUnits (value : Int) (decimals : Nat) : Except Unfit Decimal :=
  match if decimals ≤ 76 then ofChars? (unitChars value decimals) else none with
  | some d => .ok d.normal
  | none =>
    let sign := if value < 0 then ['-'] else []
    .error ⟨String.ofList (sign ++ Nat.toDigits 10 value.natAbs), decimals⟩

/-- Mirrors `mul`. -/
def atRate (amount rate : Decimal) : Except Unfit Decimal :=
  match mul? amount rate with
  | some d => .ok d.normal
  | none => .error ⟨amount.text ++ " * " ++ rate.text, 0⟩

end Decimal
end Backfill
