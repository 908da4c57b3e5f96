import Backfill.Fault
import Backfill.Rpc.Request

/-!
# Replies of a node

A node answers with a JSON value or with a fault. Most faults are only told apart by their wording,
so that is where the cause is looked for.
-/
namespace Backfill.Rpc

/-- A fault that a node or the way to it reports. Mirrors `ProviderError`. -/
inductive NodeFault where
  | custom (message : String)
  | coded (code : Int) (message : String)
  | unsupported
  /-- No node could be asked at all. -/
  | unreachable
  /-- The answer does not have the shape that was asked for. -/
  | malformed
  deriving DecidableEq, Repr

def occursIn (part : List Char) : List Char → Bool
  | [] => part.isEmpty
  | c :: cs => part.isPrefixOf (c :: cs) || occursIn part cs

namespace NodeFault

def message : NodeFault → String
  | custom message => "custom error: " ++ message
  | coded code message =>
    "custom error: (code: " ++ Json.Value.integerText code ++ ", message: " ++ message ++
      ", data: None)"
  | unsupported => "unsupported RPC"
  | unreachable => "builder error: relative URL without a base"
  | malformed => "malformed response"

/-- The wording of a fault contains one of some texts, whatever the case of ASCII letters. No other
letter has a lower case that makes one of the texts looked for here appear. -/
def mentions (f : NodeFault) (parts : List String) : Bool :=
  let wording := f.message.toList.map Char.toLower
  parts.any fun part => occursIn part.toList wording

def stateLost : List String := ["missing trie node", "archive", "header not found"]

def tooSlow : List String := ["timeout", "timed out"]

/-- The cause of a fault. Without a block no state can be missing. Mirrors `map_provider_error`. -/
def cause (f : NodeFault) (block : Option BlockNumber) : FetchError :=
  match block, f.mentions stateLost with
  | some block, true => .archiveNeeded block
  | _, _ =>
    if f.mentions tooSlow then .timeout
    else match f with
      | unreachable => .unavailable f.message
      | _ => .rpc f.message

end NodeFault

/-- What comes back for a request, and how many milliseconds after it was sent. -/
structure Reply where
  result : Except NodeFault Json.Value
  delay : Nat := 0

/-! ## Shapes of results -/

def quantity? (bits : Nat) : Json.Value → Option Nat
  | .text s => (Text.ofHexQuantity? s).filter (· < 2 ^ bits)
  | _ => none

def data? : Json.Value → Option (List UInt8)
  | .text s => Text.ofHexData? s
  | _ => none

def optionalMember {α : Type} (read : Json.Value → Option α) (v : Json.Value) (key : String) :
    Option (Option α) :=
  match v.get? key with
  | none | some .null => some none
  | some v => (read v).map some

end Backfill.Rpc
