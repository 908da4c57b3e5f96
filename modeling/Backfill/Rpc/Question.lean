import Backfill.Rpc.Log

/-!
# Questions to a node

A question is a request together with what its answer means. Every fact that runners read on chain
is the answer to one question, apart from the block that brought a contract, which takes a search.
-/
namespace Backfill.Rpc

/-- A request and what a result means. -/
structure Question (α : Type) where
  request : Request
  read : Json.Value → Except FetchError α

namespace Question

def map {α β : Type} (f : α → β) (q : Question α) : Question β :=
  { request := q.request, read := fun v => (q.read v).map f }

/-- A question whose results all have some shape. -/
def ofShape {α β : Type} (request : Request) (shape : Json.Value → Option α)
    (read : α → Except FetchError β) : Question β where
  request
  read v :=
    match shape v with
    | some a => read a
    | none => .error (NodeFault.malformed.cause request.block?)

/-- Mirrors `latest_block_number`. -/
def latest : Question BlockNumber :=
  ofShape .latest (quantity? 64) fun n => .ok (UInt64.ofNat n)

/-- The timestamp of a header; a block that the node does not know has no header. -/
def timestamp? (v : Json.Value) : Option (Option Nat) :=
  match v with
  | .null => some none
  | _ => do return some (← quantity? 256 (← v.get? "timestamp"))

/-- When a block was produced. Only the low 64 bits of the timestamp count. Mirrors
`block_datetime`. -/
def blockTime (block : BlockNumber) : Question Instant :=
  ofShape (.header block) timestamp? fun
    | none => .error (.unavailable ("Block " ++ Axis.Shown.display block ++ " not found"))
    | some seconds =>
      let seconds : Nat := seconds % 2 ^ 64
      match if seconds < 2 ^ 63 then Instant.ofSeconds? (seconds : Int) else none with
      | some time => .ok time
      | none => .error (.rpc ("Invalid timestamp of block " ++ Axis.Shown.display block))

/-- Mirrors `has_code`. -/
def hasCode (address : Address) (block : BlockNumber) : Question Bool :=
  ofShape (.code address block) data? fun code => .ok !code.isEmpty

/-- Both legs of every transfer of some tokens. Mirrors `fetch_transfers`. -/
def transfers (range : Range BlockNumber) (tokens : List Address) : Question (List Transfer) :=
  ofShape (.logs range tokens) Log.listOfValue? Log.allLegs

/-- The number that a contract answers: the first 32 octets of what it returns.
Mirrors `call_at`. -/
def number (contract : Address) (data : List UInt8) (block : BlockNumber) : Question Nat :=
  ofShape (.call contract data block) data? fun octets =>
    if 32 ≤ octets.length then .ok (Text.bigEndian (octets.take 32))
    else .error (.rpc ("Unexpected response of " ++ Json.Value.integerText octets.length ++
      " bytes from " ++ contract.text))

def balance (token owner : Address) (block : BlockNumber) : Question Nat :=
  number token (balanceOf owner) block

/-- The tokens that a share of a vault is worth. Mirrors `fetch_share_rate`. -/
def shareRate (params : ShareRateParams) (block : BlockNumber) : Question Decimal :=
  let price := number params.vault pricePerFullShare block
  { request := price.request
    read v := do
      match Decimal.ofUnits (← price.read v) params.underlyingDecimals.toNat with
      | .ok rate => .ok rate
      | .error unfit => .error (.rpc (LoadError.conversion unfit).message) }

end Question
end Backfill.Rpc
