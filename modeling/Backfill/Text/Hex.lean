import Backfill.Numbers

/-!
# Hexadecimal texts

Quantities are written without leading zeros, data with two digits to the octet; both follow `0x`.
-/
namespace Backfill.Text

def hexDigit? (c : Char) : Option Nat :=
  if '0' ≤ c ∧ c ≤ '9' then some (c.toNat - '0'.toNat)
  else if 'a' ≤ c ∧ c ≤ 'f' then some (c.toNat - 'a'.toNat + 10)
  else if 'A' ≤ c ∧ c ≤ 'F' then some (c.toNat - 'A'.toNat + 10)
  else none

/-- The digits of a number, `width` of them at least. -/
def hexDigits (width n : Nat) : List Char :=
  let ds := Nat.toDigits 16 n
  List.replicate (width - ds.length) '0' ++ ds

def hexQuantity (n : Nat) : String := String.ofList ('0' :: 'x' :: Nat.toDigits 16 n)

/-- A number as data of `octets` octets. -/
def hexData (octets n : Nat) : String := String.ofList ('0' :: 'x' :: hexDigits (2 * octets) n)

def hexOctets (bs : List UInt8) : String :=
  String.ofList ('0' :: 'x' :: bs.flatMap fun b => hexDigits 2 b.toNat)

/-- The text after `0x`, if it begins so. -/
def withoutMark (cs : List Char) : List Char :=
  match cs with
  | '0' :: 'x' :: rest => rest
  | _ => cs

def hexValue? (cs : List Char) : Option Nat :=
  cs.foldl (fun n c => n.bind fun n => (hexDigit? c).map (n * 16 + ·)) (some 0)

def ofHexQuantity? (s : String) : Option Nat :=
  match s.toList with
  | '0' :: 'x' :: c :: cs => hexValue? (c :: cs)
  | _ => none

def octetsOfPairs? : List Char → Option (List UInt8)
  | [] => some []
  | a :: b :: rest =>
    match hexDigit? a, hexDigit? b, octetsOfPairs? rest with
    | some a, some b, some more => some (UInt8.ofNat (a * 16 + b) :: more)
    | _, _, _ => none
  | [_] => none

def ofHexData? (s : String) : Option (List UInt8) :=
  match s.toList with
  | '0' :: 'x' :: rest => octetsOfPairs? rest
  | _ => none

def bigEndian (bs : List UInt8) : Nat := bs.foldl (fun n b => n * 256 + b.toNat) 0

/-- A blank that may stand between hexadecimal digits. -/
def isHexBlank (c : Char) : Bool := c = ' ' || c = '\r' || c = '\n' || c = '\t'

/-- The number that `octets` octets of hexadecimal digits stand for, with or without `0x`. The text
has to be two characters to the octet long; blanks among the digits make it stand for fewer octets,
which count as the leading ones. -/
def ofHexWord? (octets : Nat) (s : String) : Option Nat :=
  let cs := withoutMark s.toList
  if cs.length = 2 * octets then
    let ds := cs.filter (!isHexBlank ·)
    let pairs := ds.length / 2
    if ds.all (hexDigit? · |>.isSome) then
      (hexValue? (ds.take (2 * pairs))).map (· * 256 ^ (octets - pairs))
    else none
  else none

/-- The number that `octets` octets of hexadecimal digits stand for, with or without `0x`. Blanks
may stand among the digits. -/
def ofHexDigits? (octets : Nat) (s : String) : Option Nat :=
  let ds := (withoutMark s.toList).filter (!isHexBlank ·)
  if ds.length = 2 * octets then hexValue? ds else none

end Backfill.Text
