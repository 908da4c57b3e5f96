import Backfill.Address
import Backfill.Json.Value
import Backfill.Range.Basic

/-!
# Requests to a node

What a node is asked, each kind with the method and the parameters that it has in JSON-RPC.
-/
namespace Backfill.Rpc

inductive Request where
  /-- The number of the highest block. -/
  | latest
  /-- The header of a block. -/
  | header (block : BlockNumber)
  /-- The code at an address right after a block. -/
  | code (address : Address) (block : BlockNumber)
  /-- The logs of transfers of some tokens. -/
  | logs (range : Range BlockNumber) (tokens : List Address)
  /-- What a contract answers to some data right after a block. -/
  | call (contract : Address) (data : List UInt8) (block : BlockNumber)
  deriving DecidableEq

/-- The hash of the signature of a transfer event. Mirrors `TRANSFER_TOPIC`. -/
def transferTopic : Hash :=
  .ofNat 0xddf252ad1be2c89b69c2b068fc378daa952ba7f163c4a11628f55a4df523b3ef

/-- The data that asks a token for the balance of an owner: the selector and the owner in 32
octets. -/
def balanceOf (owner : Address) : List UInt8 :=
  [0x70, 0xa0, 0x82, 0x31] ++ List.replicate 12 0 ++ octets owner.bits.toNat 20
where
  /-- The last `n` octets of a number, the highest first. -/
  octets (value : Nat) : Nat → List UInt8
    | 0 => []
    | n + 1 => octets (value / 256) n ++ [UInt8.ofNat value]

/-- Mirrors `PRICE_PER_FULL_SHARE_SELECTOR`. -/
def pricePerFullShare : List UInt8 := [0x77, 0xc7, 0xb8, 0xfc]

namespace Request

def method : Request → String
  | latest => "eth_blockNumber"
  | header _ => "eth_getBlockByNumber"
  | code .. => "eth_getCode"
  | logs .. => "eth_getLogs"
  | call .. => "eth_call"

def quantity (b : BlockNumber) : Json.Value := .text (Text.hexQuantity b.toNat)

def params : Request → Json.Value
  | latest => .null
  | header block => .list [quantity block, .bool false]
  | code address block => .list [.text address.text, quantity block]
  | logs range tokens =>
    .list [.record
      [("fromBlock", quantity range.first), ("toBlock", quantity range.last),
       ("address", .list (tokens.map (.text ·.text))),
       ("topics", .list [.text transferTopic.text])]]
  | call contract data block =>
    .list
      [.record
        [("type", .text "0x00"), ("to", .text contract.text),
         ("data", .text (Text.hexOctets data))],
       quantity block]

/-- The block whose state a request needs; of a range the last one. -/
def block? : Request → Option BlockNumber
  | latest => none
  | header block | code _ block | call _ _ block => some block
  | logs range _ => some range.last

end Request
end Backfill.Rpc
