import Backfill.Numbers
import Backfill.Text.Characters
import Backfill.Time.Calendar
import Backfill.Time.Instant

/-!
# Instants as text

Three spellings differ only in what stands between date and time and after the time: with blanks and
`UTC` for people, with `T` and `Z` in documents, with `T` and `+00:00` in tables. A fraction has
three, six or nine digits, the fewest that lose nothing, and is left out when zero. A year outside 0
to 9999 has a sign.

Reading is more generous than writing: blanks may stand before each number and around the
separators, a year with a sign may have any number of digits, and any offset below a day is taken
into account.

A text can name a moment of a leap second, the second 60 of a minute. Such a stamp is kept as the
same moment of the second before it, marked as a leap; it is no instant.
-/
namespace Backfill

open Time Text

/-- A moment as a text names it: an instant, or a moment of the leap second that follows the second
of the instant, which is the last of its minute. -/
structure Stamp where
  instant : Instant
  leap : Bool := false
  last_second : leap = true → instant.nanos / 1000000000 % 60 = 59 := by simp
  deriving DecidableEq

namespace Stamp

def ofInstant (t : Instant) : Stamp := { instant := t }

/-! ## Writing -/

def padded (width n : Nat) : String := String.ofList (paddedDigits width n)

/-- A year: four digits, or a sign and at least four. -/
def yearText (y : Int) : String :=
  if 0 ≤ y ∧ y ≤ 9999 then padded 4 y.toNat
  else (if y < 0 then "-" else "+") ++ padded 4 y.natAbs

def dateText (d : Date) : String :=
  yearText d.year ++ "-" ++ padded 2 d.month ++ "-" ++ padded 2 d.day

def fractionText (n : Nat) : String :=
  if n = 0 then ""
  else if n % 1000000 = 0 then "." ++ padded 3 (n / 1000000)
  else if n % 1000 = 0 then "." ++ padded 6 (n / 1000)
  else "." ++ padded 9 n

/-- A time of day as `hours:minutes:seconds`, with its fraction. -/
def clockText (secondOfDay nanos : Nat) (leap : Bool) : String :=
  padded 2 (secondOfDay / 3600) ++ ":" ++ padded 2 (secondOfDay / 60 % 60) ++ ":"
    ++ padded 2 (secondOfDay % 60 + leap.toNat) ++ fractionText nanos

/-- Date and time of a stamp, with `between` them and `after` both. -/
def spell (between after : String) (s : Stamp) : String :=
  let seconds := s.instant.nanos / 1000000000
  dateText (Date.ofDayNumber (seconds / 86400)) ++ between
    ++ clockText (seconds % 86400).toNat (s.instant.nanos % 1000000000).toNat s.leap ++ after

/-- In documents: `2020-09-13T12:26:40.123Z`. -/
def text : Stamp → String := spell "T" "Z"

/-! ## Reading -/

/-- The value of a run of at least one and at most `width` digits, and the rest. -/
def number? (width : Nat) (cs : List Char) : Option (Nat × List Char) :=
  let ds := (cs.take width).takeWhile Char.isDigit
  if ds = [] then none else some (Nat.ofDigitChars 10 ds 0, cs.drop ds.length)

/-- A number after blanks. -/
def field? (width : Nat) (cs : List Char) : Option (Nat × List Char) :=
  number? width (skipBlanks cs)

/-- A year: four digits at most, any number of them after a sign. -/
def year? (cs : List Char) : Option (Int × List Char) :=
  match skipBlanks cs with
  | '-' :: rest => (number? rest.length rest).map fun (n, rest) => (-(n : Int), rest)
  | '+' :: rest => (number? rest.length rest).map fun (n, rest) => ((n : Int), rest)
  | rest => (number? 4 rest).map fun (n, rest) => ((n : Int), rest)

/-- The rest after a separator, which blanks may precede. -/
def separator? (c : Char) (cs : List Char) : Option (List Char) :=
  match skipBlanks cs with
  | d :: rest => if d = c then some rest else none
  | [] => none

/-- Nanoseconds after a point: nine digits count, more are passed over. No point, no fraction. -/
def fraction? : List Char → Option (Nat × List Char)
  | '.' :: rest =>
    let ds := rest.takeWhile Char.isDigit
    if ds = [] then none
    else
      let kept := ds.take 9
      some (Nat.ofDigitChars 10 kept 0 * 10 ^ (9 - kept.length), rest.drop ds.length)
  | rest => some (0, rest)

def pair? (a b : Char) : Option Nat := natOfDigits? [a, b]

/-- An offset from UTC in seconds: `Z`, `UTC`, or a sign, two digits of hours and two of minutes,
with any colons and blanks between them. -/
def offset? (cs : List Char) : Option (Int × List Char) :=
  match cs with
  | 'Z' :: rest | 'z' :: rest => some (0, rest)
  | u :: t :: c :: rest =>
    if u.toUpper = 'U' ∧ t.toUpper = 'T' ∧ c.toUpper = 'C' then some (0, rest)
    else
      let sign? : Option Int :=
        if u = '+' then some 1 else if u = '-' ∨ u = '−' then some (-1) else none
      match sign?, pair? t c, rest.dropWhile (fun d => d = ':' || isBlank d) with
      | some sign, some hours, m :: n :: rest =>
        match pair? m n with
        | some minutes =>
          if minutes < 60 then some (sign * (hours * 3600 + minutes * 60), rest) else none
        | none => none
      | _, _, _ => none
  | _ => none

/-- The stamp with a date, a time of day and an offset, if they are in range. -/
def ofParts? (date : Date) (hour minute second nanos : Nat) (offset : Int) : Option Stamp := do
  guard (hour < 24 ∧ minute < 60 ∧ second ≤ 60 ∧ offset.natAbs < 86400)
  let leap : Bool := second = 60
  let civil : Int := date.dayNumber * 86400 + hour * 3600 + minute * 60 + (second - leap.toNat)
  let _ ← Instant.ofNanos? (civil * 1000000000 + nanos)
  let instant ← Instant.ofNanos? ((civil - offset) * 1000000000 + nanos)
  if h : leap = true → instant.nanos / 1000000000 % 60 = 59 then some ⟨instant, leap, h⟩ else none

/-- The stamp a text names, if it names one. Mirrors the parser of RFC 3339. -/
def ofText? (text : String) : Option Stamp := do
  let (year, cs) ← year? text.toList
  let cs ← separator? '-' cs
  let (month, cs) ← field? 2 cs
  let cs ← separator? '-' cs
  let (day, cs) ← field? 2 cs
  let cs ← match cs with
    | 'T' :: rest | 't' :: rest | ' ' :: rest => some rest
    | _ => none
  let (hour, cs) ← field? 2 cs
  let cs ← separator? ':' cs
  let (minute, cs) ← field? 2 cs
  let cs ← separator? ':' cs
  let (second, cs) ← field? 2 cs
  let (nanos, cs) ← fraction? cs
  let (offset, cs) ← offset? (skipBlanks cs)
  guard (skipBlanks cs = [])
  ofParts? (← Date.ofParts? year month day) hour minute second nanos offset

end Stamp

namespace Instant

/-- For people: `2020-09-13 12:26:40.123 UTC`. -/
def display (t : Instant) : String := (Stamp.ofInstant t).spell " " " UTC"

/-- In documents: `2020-09-13T12:26:40.123Z`. -/
def text (t : Instant) : String := (Stamp.ofInstant t).text

/-- In tables: `2020-09-13T12:26:40.123+00:00`. Mirrors `to_rfc3339`. -/
def tableText (t : Instant) : String := (Stamp.ofInstant t).spell "T" "+00:00"

def ofText? (text : String) : Option Instant :=
  match Stamp.ofText? text with
  | some s => if s.leap then none else some s.instant
  | none => none

end Instant
end Backfill
