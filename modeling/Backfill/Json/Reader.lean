import Backfill.Json.Value
import Backfill.Numbers

/-!
# Reading JSON

A reader takes octets and answers with what it read and the octets left, or with the first fault on
the way. Octets are read once, in order: a text that is wrong in two ways has the fault that comes
first. Three kinds of fault are told apart: a text that is not JSON, one that ends too early, and
one that is JSON of another shape than asked for.

Values that nobody asked for are passed over by a rule of their own (`skip`), which looks at less.
-/
namespace Backfill.Json

/-- Why a text was refused. -/
inductive Fault where
  /-- Not JSON, or nested too deeply. -/
  | malformed
  /-- Ends before its value does. -/
  | truncated
  /-- JSON of the wrong shape. -/
  | mismatch
  deriving DecidableEq, Repr

def Fault.category : Fault → String
  | .malformed => "Syntax"
  | .truncated => "Eof"
  | .mismatch => "Data"

/-- Reads a value off the front of some octets. -/
abbrev Reader (α : Type) := List UInt8 → Except Fault (α × List UInt8)

abbrev octet (c : Char) : UInt8 := c.toUInt8

def isBlank (b : UInt8) : Bool :=
  b = octet ' ' || b = octet '\n' || b = octet '\t' || b = octet '\r'

def skipBlanks (bs : List UInt8) : List UInt8 := bs.dropWhile isBlank

def isDigit (b : UInt8) : Bool := octet '0' ≤ b && b ≤ octet '9'

def hexValue? (b : UInt8) : Option Nat :=
  if isDigit b then some (b.toNat - '0'.toNat)
  else if octet 'a' ≤ b ∧ b ≤ octet 'f' then some (b.toNat - 'a'.toNat + 10)
  else if octet 'A' ≤ b ∧ b ≤ octet 'F' then some (b.toNat - 'A'.toNat + 10)
  else none

/-! ## Strings -/

/-- The character of a one-letter escape. -/
def shortEscape? (b : UInt8) : Option Char :=
  if b = octet '"' then some '"'
  else if b = octet '\\' then some '\\'
  else if b = octet '/' then some '/'
  else if b = octet 'b' then some '\x08'
  else if b = octet 'f' then some '\x0c'
  else if b = octet 'n' then some '\n'
  else if b = octet 'r' then some '\r'
  else if b = octet 't' then some '\t'
  else none

def fourHex : Reader Nat
  | a :: b :: c :: d :: rest =>
    match hexValue? a, hexValue? b, hexValue? c, hexValue? d with
    | some a, some b, some c, some d => .ok (a * 4096 + b * 256 + c * 16 + d, rest)
    | _, _, _, _ => .error .malformed
  | _ => .error .truncated

/-- The character of an escape by number, after its `u`. One above U+FFFF takes two escapes. -/
def numericEscape : Reader Char := fun bs => do
  let (n, bs) ← fourHex bs
  if n < 0xD800 ∨ 0xE000 ≤ n then return (Char.ofNat n, bs)
  if 0xDC00 ≤ n then throw .malformed
  match bs with
  | [] => throw .truncated
  | b :: bs =>
    if b ≠ octet '\\' then throw .malformed
    match bs with
    | [] => throw .truncated
    | b :: bs =>
      if b ≠ octet 'u' then throw .malformed
      let (m, bs) ← fourHex bs
      if m < 0xDC00 ∨ 0xE000 ≤ m then throw .malformed
      return (Char.ofNat ((n - 0xD800) * 1024 + (m - 0xDC00) + 0x10000), bs)

/-- The octets that a string spells, after its opening quote. -/
def stringOctets : Nat → Reader (List UInt8)
  | 0, _ => .error .truncated
  | _ + 1, [] => .error .truncated
  | fuel + 1, b :: bs =>
    if b = octet '"' then .ok ([], bs)
    else if b = octet '\\' then
      match bs with
      | [] => .error .truncated
      | e :: bs => do
        let (c, bs) ←
          if e = octet 'u' then numericEscape bs
          else match shortEscape? e with
            | some c => .ok (c, bs)
            | none => .error .malformed
        let (more, bs) ← stringOctets fuel bs
        return (String.utf8EncodeChar c ++ more, bs)
    else if b < 0x20 then .error .malformed
    else do
      let (more, bs) ← stringOctets fuel bs
      return (b :: more, bs)

/-- A string, after its opening quote. What it spells has to be UTF-8. -/
def stringBody : Reader String := fun bs => do
  let (octets, bs) ← stringOctets (bs.length + 1) bs
  match String.fromUTF8? ⟨octets.toArray⟩ with
  | some s => return (s, bs)
  | none => throw .malformed

/-! ## Numbers -/

/-- Out of the range of 64-bit floating point: a decimal fraction `digits * 10 ^ exponent` that
would round to infinity. -/
def isHuge (digits : Nat) (exponent : Int) : Bool :=
  let length := (Nat.toDigits 10 digits).length
  if digits = 0 then false
  else if length + exponent > 320 then true
  else if length + exponent < 300 then false
  else
    let bound := 2 ^ 1024 - 2 ^ 970
    if 0 ≤ exponent then bound ≤ digits * 10 ^ exponent.toNat
    else bound * 10 ^ (-exponent).toNat ≤ digits

def asciiText (bs : List UInt8) : String := String.ofList (bs.map fun b => Char.ofNat b.toNat)

def digitsValue (bs : List UInt8) : Nat :=
  bs.foldl (fun n b => n * 10 + (b.toNat - '0'.toNat)) 0

/-- The whole part of a number: one zero, or digits that do not begin with it. -/
def wholePart : Reader (List UInt8)
  | [] => .error .truncated
  | b :: bs =>
    if b = octet '0' then
      match bs with
      | c :: _ => if isDigit c then .error .malformed else .ok ([b], bs)
      | [] => .ok ([b], bs)
    else if isDigit b then
      .ok (b :: bs.takeWhile isDigit, bs.dropWhile isDigit)
    else .error .malformed

/-- The digits after a point, if there is a point. -/
def fractionPart : Reader (Option (List UInt8))
  | [] => .ok (none, [])
  | b :: bs =>
    if b = octet '.' then
      match bs.takeWhile isDigit, bs.dropWhile isDigit with
      | [], [] => .error .truncated
      | [], _ => .error .malformed
      | ds, rest => .ok (some ds, rest)
    else .ok (none, b :: bs)

/-- The exponent after an `e`, if there is one. -/
def exponentPart : Reader (Option Int)
  | [] => .ok (none, [])
  | b :: bs =>
    if b = octet 'e' ∨ b = octet 'E' then
      let (sign, bs) : Int × List UInt8 :=
        match bs with
        | s :: rest =>
          if s = octet '+' then (1, rest) else if s = octet '-' then (-1, rest) else (1, bs)
        | [] => (1, bs)
      match bs.takeWhile isDigit, bs.dropWhile isDigit with
      | [], [] => .error .truncated
      | [], _ => .error .malformed
      | ds, rest => .ok (some (sign * digitsValue ds), rest)
    else .ok (none, b :: bs)

def number : Reader Value := fun bs => do
  let (negative, digits) :=
    match bs with
    | b :: rest => if b = octet '-' then (true, rest) else (false, bs)
    | [] => (false, bs)
  let (whole, rest) ← wholePart digits
  let (fraction, rest) ← fractionPart rest
  let (exponent, rest) ← exponentPart rest
  let n := digitsValue whole
  let isInteger :=
    fraction.isNone && exponent.isNone && (if negative then 0 < n && n ≤ 2 ^ 63 else n < 2 ^ 64)
  if isInteger then return (.integer (if negative then -n else n), rest)
  let fraction := fraction.getD []
  if isHuge (digitsValue (whole ++ fraction)) (exponent.getD 0 - fraction.length) then
    throw .malformed
  return (.fractional (asciiText (bs.take (bs.length - rest.length))), rest)

/-! ## Words and scalars -/

/-- The rest of a word whose first letter has been seen. -/
def word : List Char → List UInt8 → Except Fault (List UInt8)
  | [], bs => .ok bs
  | _ :: _, [] => .error .truncated
  | c :: cs, b :: bs => if b = octet c then word cs bs else .error .malformed

/-- A value without parts, if the octets begin like one. -/
def scalar? (b : UInt8) (bs : List UInt8) : Option (Except Fault (Value × List UInt8)) :=
  if b = octet 'n' then some ((word "ull".toList bs).map (Value.null, ·))
  else if b = octet 't' then some ((word "rue".toList bs).map (Value.bool true, ·))
  else if b = octet 'f' then some ((word "alse".toList bs).map (Value.bool false, ·))
  else if b = octet '"' then some ((stringBody bs).map fun (s, bs) => (Value.text s, bs))
  else if b = octet '-' ∨ isDigit b then some (number (b :: bs))
  else none

/-- The fault of a value of the wrong shape: its own, if it has one. -/
def wrongShape (b : UInt8) (bs : List UInt8) : Fault :=
  match scalar? b bs with
  | some (.error fault) => fault
  | some (.ok _) => .mismatch
  | none => if b = octet '[' ∨ b = octet '\x7b' then .mismatch else .malformed

/-- Reads a scalar of a wanted shape. -/
def scalar {α : Type} (want : Value → Option α) : Reader α := fun bs =>
  match skipBlanks bs with
  | [] => .error .truncated
  | b :: bs =>
    match scalar? b bs with
    | some (.ok (v, rest)) =>
      match want v with
      | some a => .ok (a, rest)
      | none => .error .mismatch
    | _ => .error (wrongShape b bs)

def string : Reader String := scalar fun
  | .text s => some s
  | _ => none

def bool : Reader Bool := scalar fun
  | .bool b => some b
  | _ => none

/-- An integer from `lo` to `hi`. -/
def integer (lo hi : Int) : Reader Int := scalar fun
  | .integer n => if lo ≤ n ∧ n ≤ hi then some n else none
  | _ => none

/-- A value that may be null. -/
def optional {α : Type} (read : Reader α) : Reader (Option α) := fun bs =>
  match skipBlanks bs with
  | b :: rest =>
    if b = octet 'n' then (word "ull".toList rest).map (none, ·)
    else (read bs).map fun (a, bs) => (some a, bs)
  | [] => (read bs).map fun (a, bs) => (some a, bs)

/-! ## Lists and members -/

/-- Where the next item of a list begins; none when the list ends there. -/
def nextItem (first : Bool) (bs : List UInt8) : Except Fault (Option (List UInt8)) :=
  match skipBlanks bs with
  | [] => .error .truncated
  | b :: rest =>
    if b = octet ']' then .ok none
    else if first then .ok (some (b :: rest))
    else if b = octet ',' then
      match skipBlanks rest with
      | [] => .error .truncated
      | c :: more => if c = octet ']' then .error .malformed else .ok (some (c :: more))
    else .error .malformed

def closeList (bs : List UInt8) : Except Fault (List UInt8) :=
  match skipBlanks bs with
  | [] => .error .truncated
  | b :: rest => if b = octet ']' then .ok rest else .error .malformed

/-- Where the next key of a record begins, after its quote; none when the record ends there. -/
def nextKey (first : Bool) (bs : List UInt8) : Except Fault (Option (List UInt8)) :=
  match skipBlanks bs with
  | [] => .error .truncated
  | b :: rest =>
    if b = octet '\x7d' then .ok none
    else if first then
      if b = octet '"' then .ok (some rest) else .error .malformed
    else if b = octet ',' then
      match skipBlanks rest with
      | [] => .error .truncated
      | c :: more => if c = octet '"' then .ok (some more) else .error .malformed
    else .error .malformed

def closeRecord (bs : List UInt8) : Except Fault (List UInt8) :=
  match skipBlanks bs with
  | [] => .error .truncated
  | b :: rest => if b = octet '\x7d' then .ok rest else .error .malformed

def colon (bs : List UInt8) : Except Fault (List UInt8) :=
  match skipBlanks bs with
  | [] => .error .truncated
  | b :: rest => if b = octet ':' then .ok rest else .error .malformed

/-- The items of a list and its end. -/
def items {α : Type} (read : Reader α) : Nat → Bool → Reader (List α)
  | 0, _, _ => .error .truncated
  | fuel + 1, first, bs => do
    match ← nextItem first bs with
    | none => return ([], ← closeList bs)
    | some bs =>
      let (a, bs) ← read bs
      let (more, bs) ← items read fuel false bs
      return (a :: more, bs)

/-- The members of a record and its end, folded into a value: `member` is given each key and what
has been gathered so far. -/
def members {ρ : Type} (member : String → ρ → Reader ρ) : Nat → Bool → ρ → Reader ρ
  | 0, _, _, _ => .error .truncated
  | fuel + 1, first, r, bs => do
    match ← nextKey first bs with
    | none => return (r, ← closeRecord bs)
    | some bs =>
      let (key, bs) ← stringBody bs
      let (r, bs) ← member key r bs
      members member fuel false r bs

/-- A list whose items `read` reads. -/
def list {α : Type} (depth : Nat) (read : Nat → Reader α) : Reader (List α) := fun bs =>
  match skipBlanks bs with
  | [] => .error .truncated
  | b :: rest =>
    if b = octet '[' then
      match depth with
      | 0 => .error .malformed
      | depth + 1 => items (read depth) (rest.length + 1) true rest
    else .error (wrongShape b rest)

/-! ## Any value -/

/-- Any value, nested `depth` levels at most. -/
def any : Nat → Reader Value
  | depth, bs =>
    match skipBlanks bs with
    | [] => .error .truncated
    | b :: rest =>
      match scalar? b rest with
      | some result => result
      | none =>
        if b = octet '[' then
          match depth with
          | 0 => .error .malformed
          | depth + 1 =>
            (items (any depth) (rest.length + 1) true rest).map fun (vs, bs) => (.list vs, bs)
        else if b = octet '\x7b' then
          match depth with
          | 0 => .error .malformed
          | depth + 1 =>
            let member := fun key (vs : List (String × Value)) bs => do
              let (v, bs) ← any depth (← colon bs)
              return (vs ++ [(key, v)], bs)
            (members member (rest.length + 1) true [] rest).map fun (vs, bs) => (.record vs, bs)
        else .error .malformed

/-! ## Passing over a value -/

/-- Passes over a string, after its opening quote. Its escapes are looked at, what they spell is
not. -/
def skipString : Nat → List UInt8 → Except Fault (List UInt8)
  | 0, _ => .error .truncated
  | _ + 1, [] => .error .truncated
  | fuel + 1, b :: bs =>
    if b = octet '"' then .ok bs
    else if b = octet '\\' then
      match bs with
      | [] => .error .truncated
      | e :: bs =>
        if e = octet 'u' then do skipString fuel (← fourHex bs).2
        else if (shortEscape? e).isSome then skipString fuel bs
        else .error .malformed
    else if b < 0x20 then .error .malformed
    else skipString fuel bs

/-- Passes over a number. One that breaks off is malformed. -/
def skipNumber (bs : List UInt8) : Except Fault (List UInt8) :=
  let digits :=
    match bs with
    | b :: rest => if b = octet '-' then rest else bs
    | [] => bs
  let result := do
    let (_, rest) ← wholePart digits
    let (_, rest) ← fractionPart rest
    let (_, rest) ← exponentPart rest
    return rest
  match result with
  | .ok rest => .ok rest
  | .error _ => .error .malformed

/-- Passes over a value inside open lists and records, innermost first, and on to the end of the
outermost. A list is `true`, a record `false`; `expecting` says whether a value has to come next. -/
def skipFrom : Nat → Bool → List Bool → List UInt8 → Except Fault (List UInt8)
  | 0, _, _, _ => .error .truncated
  | _ + 1, false, [], bs => .ok bs
  | fuel + 1, false, isList :: outer, bs =>
    match skipBlanks bs with
    | [] => .error .truncated
    | b :: rest =>
      if b = octet ',' then element fuel isList outer rest
      else if b = (if isList then octet ']' else octet '\x7d') then skipFrom fuel false outer rest
      else .error .malformed
  | fuel + 1, true, stack, bs =>
    match skipBlanks bs with
    | [] => .error .truncated
    | b :: rest =>
      if b = octet '[' ∨ b = octet '\x7b' then
        let isList : Bool := b = octet '['
        match skipBlanks rest with
        | [] => .error .truncated
        | c :: more =>
          if c = (if isList then octet ']' else octet '\x7d') then skipFrom fuel false stack more
          else element fuel isList stack (c :: more)
      else if b = octet 'n' then do skipFrom fuel false stack (← word "ull".toList rest)
      else if b = octet 't' then do skipFrom fuel false stack (← word "rue".toList rest)
      else if b = octet 'f' then do skipFrom fuel false stack (← word "alse".toList rest)
      else if b = octet '"' then do
        skipFrom fuel false stack (← skipString (rest.length + 1) rest)
      else if b = octet '-' ∨ isDigit b then do
        skipFrom fuel false stack (← skipNumber (b :: rest))
      else .error .malformed
where
  /-- An item of a list, or a key and its value. -/
  element (fuel : Nat) (isList : Bool) (outer : List Bool) (bs : List UInt8) :
      Except Fault (List UInt8) :=
    if isList then skipFrom fuel true (true :: outer) bs
    else
      match skipBlanks bs with
      | [] => .error .truncated
      | b :: rest =>
        if b = octet '"' then do
          let rest ← skipString (rest.length + 1) rest
          skipFrom fuel true (false :: outer) (← colon rest)
        else .error .malformed

/-- Passes over a value of any depth. -/
def skip (bs : List UInt8) : Except Fault (List UInt8) := skipFrom (2 * bs.length + 2) true [] bs

/-! ## Records with known fields -/

/-- How a field of a record is read into what is gathered in a `ρ`. -/
structure FieldReader (ρ : Type) where
  name : String
  /-- Has been read. -/
  has : ρ → Bool
  /-- Reads the field's value at a depth. -/
  read : Nat → ρ → Reader ρ

/-- One member: a known field once, and any other key passed over. -/
def member {ρ : Type} (fields : List (FieldReader ρ)) (depth : Nat) (key : String) (r : ρ) :
    Reader ρ :=
  fun bs =>
    match fields.find? (·.name = key) with
    | some field => if field.has r then .error .mismatch else do field.read depth r (← colon bs)
    | none => do return (r, ← skip (← colon bs))

/-- The fields of a record one after the other, as the items of a list. -/
def inOrder {ρ : Type} (depth : Nat) : List (FieldReader ρ) → Bool → ρ → Reader ρ
  | [], _, r, bs => do return (r, ← closeList bs)
  | field :: fields, first, r, bs => do
    match ← nextItem first bs with
    | none => throw .mismatch
    | some bs =>
      let (r, bs) ← field.read depth r bs
      inOrder depth fields false r bs

/-- A record with known fields, written as one or as the list of its fields. -/
def record {ρ α : Type} (fields : List (FieldReader ρ)) (start : ρ) (finish : ρ → Option α)
    (depth : Nat) : Reader α := fun bs =>
  match skipBlanks bs with
  | [] => .error .truncated
  | b :: rest =>
    if b = octet '[' ∨ b = octet '\x7b' then
      match depth with
      | 0 => .error .malformed
      | depth + 1 => do
        let (r, bs) ←
          if b = octet '[' then inOrder depth fields true start rest
          else members (member fields depth) (rest.length + 1) true start rest
        match finish r with
        | some a => return (a, bs)
        | none => throw .mismatch
    else .error (wrongShape b rest)

/-- One of several names: a string, or a record with the name as its only key and null as value. -/
def name {α : Type} (ofName? : String → Option α) (depth : Nat) : Reader α := fun bs =>
  let known (s : String) : Except Fault α :=
    match ofName? s with
    | some a => .ok a
    | none => .error .mismatch
  match skipBlanks bs with
  | [] => .error .truncated
  | b :: rest =>
    if b = octet '"' then do
      let (s, bs) ← stringBody rest
      return (← known s, bs)
    else if b = octet '\x7b' then
      match depth with
      | 0 => .error .malformed
      | _ + 1 => do
        let (s, bs) ← string rest
        let a ← known s
        let (_, bs) ← scalar (fun | .null => some () | _ => none) (← colon bs)
        return (a, ← closeRecord bs)
    else .error .malformed

/-! ## Whole texts -/

/-- Lists and records may be nested this deep. -/
def maxDepth : Nat := 127

/-- Reads a whole text: nothing but blanks may follow its value. -/
def readOctets {α : Type} (read : Nat → Reader α) (bs : List UInt8) : Except Fault α := do
  let (a, rest) ← read maxDepth bs
  if skipBlanks rest = [] then return a else throw .malformed

def readText {α : Type} (read : Nat → Reader α) (s : String) : Except Fault α :=
  readOctets read s.toUTF8.toList

end Backfill.Json
