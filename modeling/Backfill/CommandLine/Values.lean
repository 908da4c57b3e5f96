import Backfill.Address
import Backfill.CommandLine.Command
import Backfill.Numbers
import Backfill.Range.Text

/-!
# Values of options

How the value of an option is read, and where it goes in the draft.
-/
namespace Backfill.CommandLine

def countValue (bits : Nat) (s : String) : Option Nat := (Text.countOf bits s.toList).toOption

/-- A number of minutes as milliseconds; one minute at least. Mirrors `parse_minutes`. -/
def minutesValue (s : String) : Option Nat :=
  ((countValue 64 s).filter (· ≠ 0)).map (· * 60000)

/-- Mirrors `parse_seconds`. -/
def secondsValue (s : String) : Option Nat := (countValue 64 s).map (· * 1000)

/-- A port. Its sign may be written. -/
def portValue (s : String) : Option Nat :=
  let (ds, negative) :=
    match s.toList with
    | '-' :: ds => (ds, true)
    | '+' :: ds => (ds, false)
    | ds => (ds, false)
  (Text.natOfDigits? ds).filter fun n => n ≤ 65535 && (n = 0 || !negative)

/-- Addresses with commas between them. Mirrors `parse_address`. -/
def addressesValue (s : String) : Option (List Address) :=
  ((s.toList.splitOn ',').map String.ofList).mapM Address.ofTyped?

/-- The text of a real number: digits with a point and an exponent, or a word for infinity or for no
number. -/
def isReal (s : String) : Bool :=
  let unsigned :=
    match s.toList with
    | '-' :: cs => cs
    | '+' :: cs => cs
    | cs => cs
  let isWord := String.ofList (unsigned.map Char.toLower) ∈ ["inf", "infinity", "nan"]
  let (whole, rest) := unsigned.span Char.isDigit
  let (fraction, rest) :=
    match rest with
    | '.' :: rest => rest.span Char.isDigit
    | rest => ([], rest)
  isWord || (!(whole.isEmpty && fraction.isEmpty) && isExponent rest)
where
  /-- Nothing, or an exponent. -/
  isExponent : List Char → Bool
    | [] => true
    | e :: cs =>
      let ds :=
        match cs with
        | '-' :: ds => ds
        | '+' :: ds => ds
        | ds => ds
      (e = 'e' || e = 'E') && !ds.isEmpty && ds.all Char.isDigit

namespace Parameter
variable {δ α : Type}

/-- An option whose value is read; a value that cannot be read is refused. -/
def reading (name : String) (read : String → Option α) (put : α → δ → δ) : Parameter δ where
  name
  put s d :=
    match read s with
    | some a => .ok (put a d)
    | none => .error (.unreadableValue name)

/-- An option whose value is one of some names. -/
def choosing (name : String) (choose : String → Option α) (put : α → δ → δ) : Parameter δ where
  name
  put s d :=
    match choose s with
    | some a => .ok (put a d)
    | none => .error (.invalidValue name)

def flag (name : String) (put : Bool → δ → δ) : Parameter δ :=
  { choosing name choose put with arity := .flag }
where
  /-- The truth value of a word. -/
  choose : String → Option Bool
    | "true" => some true
    | "false" => some false
    | _ => none

/-- A parameter that a variable stands in for. -/
def orEnv (p : Parameter δ) (name : String) : Parameter δ := { p with env := some name }

end Parameter
end Backfill.CommandLine
