import Backfill.Numbers
import Backfill.Range.Basic
import Backfill.Text.Characters
import Backfill.Time.Text

/-!
# Ranges as text

A range is shown between brackets. A range of blocks is read from `FROM-TO` or `FROM..TO`, with
blanks allowed around the numbers. The form admits the digits of every script, the numbers only
ASCII ones, so a text can have the form of a range and still not name two numbers.
-/
namespace Backfill

/-- Positions as messages show them. -/
class Axis.Shown (α : Type) where
  /-- For people. -/
  display : α → String
  /-- Inside a list of ranges. -/
  debug : α → String

instance : Axis.Shown BlockNumber := ⟨fun b => toString b.toNat, fun b => toString b.toNat⟩

instance : Axis.Shown Instant := ⟨Instant.display, Instant.text⟩

namespace Range

open Axis

def display {α : Type} [Shown α] (r : Range α) : String :=
  "[" ++ Shown.display r.first ++ ", " ++ Shown.display r.last ++ "]"

/-- A range inside a list of ranges. -/
def debug {α : Type} [Shown α] (r : Range α) : String :=
  "[" ++ Shown.debug r.first ++ ", " ++ Shown.debug r.last ++ "]"

/-! ## Reading -/

open Text

/-- Why a text names no range of blocks. -/
inductive Fault where
  /-- Not of the form `FROM-TO` or `FROM..TO`. -/
  | form (text : String)
  /-- An end that is no 64-bit count. -/
  | count (cause : CountFault)
  /-- The ends are the wrong way round. -/
  | invalid (first last : String)
  deriving DecidableEq, Repr

/-- The wording of `InvalidRange`. -/
def invalidMessage (first last : String) : String := "Invalid range: " ++ first ++ " > " ++ last

def Fault.message : Fault → String
  | .form text => "Could not parse block range '" ++ text ++ "'"
  | .count cause => cause.message
  | .invalid first last => invalidMessage first last

/-- Mirrors `Range::new`, with its fault. -/
def ofEnds {α : Type} [Axis α] [Shown α] (first last : α) : Except Fault (Range α) :=
  match between? first last with
  | some r => .ok r
  | none => .error (.invalid (Shown.display first) (Shown.display last))

/-- The two runs of digits of a text of the form `FROM-TO` or `FROM..TO`. -/
def ends? (cs : List Char) : Option (List Char × List Char) :=
  let cs := skipBlanks cs
  let first := cs.takeWhile isDecimalDigit
  let cs := skipBlanks (cs.dropWhile isDecimalDigit)
  let cs? :=
    match cs with
    | '-' :: rest => some rest
    | '.' :: '.' :: rest => some rest
    | _ => none
  match cs? with
  | none => none
  | some cs =>
    let cs := skipBlanks cs
    let last := cs.takeWhile isDecimalDigit
    if first ≠ [] ∧ last ≠ [] ∧ skipBlanks (cs.dropWhile isDecimalDigit) = [] then
      some (first, last)
    else none

def blockOf (ds : List Char) : Except Fault BlockNumber :=
  match countOf 64 ds with
  | .ok n => .ok (UInt64.ofNat n)
  | .error cause => .error (.count cause)

/-- The range of blocks a text names. Mirrors `Range::from_str`. -/
def ofText (text : String) : Except Fault (Range BlockNumber) :=
  match ends? text.toList with
  | none => .error (.form text)
  | some (first, last) => do
    let first ← blockOf first
    let last ← blockOf last
    ofEnds first last

end Range
end Backfill
