/-!
# JSON values and how they are written

A value keeps its members in order. Two layouts are written: one without any blanks, and one with a
member or item to the line, indented by two blanks a level.
-/
namespace Backfill.Json

/-- A JSON value. A number that is no integer of 64 bits is kept as it was written. -/
inductive Value where
  | null
  | bool (b : Bool)
  | integer (n : Int)
  | fractional (text : String)
  | text (s : String)
  | list (items : List Value)
  | record (members : List (String × Value))
  deriving Repr

namespace Value

/-- The member of a record under a key; the first one if the key is repeated. -/
def get? (v : Value) (key : String) : Option Value :=
  match v with
  | record members => (members.find? (·.1 = key)).map (·.2)
  | _ => none

def fourHex (n : Nat) : List Char :=
  let ds := Nat.toDigits 16 n
  List.replicate (4 - ds.length) '0' ++ ds

/-- One character of a string: quotes, backslashes and controls are escaped. -/
def charText (c : Char) : List Char :=
  if c = '"' then ['\\', '"']
  else if c = '\\' then ['\\', '\\']
  else if c = '\x08' then ['\\', 'b']
  else if c = '\x0c' then ['\\', 'f']
  else if c = '\n' then ['\\', 'n']
  else if c = '\r' then ['\\', 'r']
  else if c = '\t' then ['\\', 't']
  else if c.toNat < 0x20 then '\\' :: 'u' :: fourHex c.toNat
  else [c]

def quoted (s : String) : String := String.ofList ('"' :: s.toList.flatMap charText ++ ['"'])

def integerText (n : Int) : String :=
  String.ofList ((if n < 0 then ['-'] else []) ++ Nat.toDigits 10 n.natAbs)

/-- A value that holds no others. -/
def scalarText : Value → String
  | null => "null"
  | bool true => "true"
  | bool false => "false"
  | integer n => integerText n
  | fractional s => s
  | text s => quoted s
  | list _ => "[]"
  | record _ => "\x7b\x7d"

mutual

/-- Without blanks. -/
def compact : Value → String
  | list items => "[" ++ compactItems items ++ "]"
  | record members => "\x7b" ++ compactMembers members ++ "\x7d"
  | v => scalarText v

def compactItems : List Value → String
  | [] => ""
  | [v] => compact v
  | v :: rest => compact v ++ "," ++ compactItems rest

def compactMembers : List (String × Value) → String
  | [] => ""
  | [(k, v)] => quoted k ++ ":" ++ compact v
  | (k, v) :: rest => quoted k ++ ":" ++ compact v ++ "," ++ compactMembers rest

end

def newLine (level : Nat) : String := "\n" ++ String.ofList (List.replicate (2 * level) ' ')

mutual

/-- A member or item to the line. -/
def indented (level : Nat) : Value → String
  | list (v :: rest) =>
    "[" ++ indentedItems (level + 1) (v :: rest) ++ newLine level ++ "]"
  | record (m :: rest) =>
    "\x7b" ++ indentedMembers (level + 1) (m :: rest) ++ newLine level ++ "\x7d"
  | v => scalarText v

def indentedItems (level : Nat) : List Value → String
  | [] => ""
  | [v] => newLine level ++ indented level v
  | v :: rest => newLine level ++ indented level v ++ "," ++ indentedItems level rest

def indentedMembers (level : Nat) : List (String × Value) → String
  | [] => ""
  | [(k, v)] => newLine level ++ quoted k ++ ": " ++ indented level v
  | (k, v) :: rest =>
    newLine level ++ quoted k ++ ": " ++ indented level v ++ "," ++ indentedMembers level rest

end

end Value
end Backfill.Json
