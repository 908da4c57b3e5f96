import Backfill.Rpc.Reply
import Backfill.Transfer

/-!
# Logs of transfers

A log with the topics of a transfer is taken apart into the legs that its sender and its receiver
see. Logs of blocks still being built, and logs of any other form, give none.
-/
namespace Backfill.Rpc

/-- A log. A log of a block still being built has no place yet. Mirrors `Log`. -/
structure Log where
  token : Address
  topics : List Hash
  data : List UInt8
  block : Option BlockNumber
  transaction : Option Hash
  index : Option Nat
  deriving DecidableEq

namespace Log

def word? {α : Type} (ofText? : String → Option α) : Json.Value → Option α
  | .text s => ofText? s
  | _ => none

def ofValue? (v : Json.Value) : Option Log := do
  let topics ←
    match ← v.get? "topics" with
    | .list topics => topics.mapM (word? Hash.ofText?)
    | _ => none
  return {
    token := ← word? Address.ofText? (← v.get? "address")
    topics
    data := ← data? (← v.get? "data")
    block := (← optionalMember (quantity? 64) v "blockNumber").map UInt64.ofNat
    transaction := ← optionalMember (word? Hash.ofText?) v "transactionHash"
    index := ← optionalMember (quantity? 256) v "logIndex" }

def listOfValue? : Json.Value → Option (List Log)
  | .list items => items.mapM ofValue?
  | _ => none

/-- What a log says of a transfer: who sends how much to whom, and where. -/
structure Movement where
  block : BlockNumber
  transaction : Hash
  logIndex : UInt64
  token : Address
  sender : Address
  receiver : Address
  amount : Nat
  deriving DecidableEq

/-- The movement a log stands for: its place is known, it has three topics, of which the last two
are the parties, and at least 32 octets of data, of which the first 32 are the amount. Of the index
only the low 64 bits are kept. -/
def movement? (l : Log) : Option Movement :=
  match l.block, l.transaction, l.index, l.topics with
  | some block, some transaction, some index, [_, sender, receiver] =>
    if 32 ≤ l.data.length then
      some
        { block, transaction, logIndex := UInt64.ofNat index, token := l.token
          sender := Address.ofWord sender, receiver := Address.ofWord receiver
          amount := Text.bigEndian (l.data.take 32) }
    else none
  | _, _, _, _ => none

end Log

namespace Log.Movement

def leg (m : Movement) (owner : Address) (amount : Int) : Transfer :=
  { block := m.block, transaction := m.transaction, logIndex := m.logIndex, token := m.token, owner
    amount }

/-- The leg of the sender before the leg of the receiver. The zero address, which stands for minting
and burning, has none. -/
def legs (m : Movement) : List Transfer :=
  (if m.sender = Address.zero then [] else [m.leg m.sender (-m.amount)]) ++
    (if m.receiver = Address.zero then [] else [m.leg m.receiver m.amount])

end Log.Movement

namespace Log

/-- The legs of a log. An amount must fit in 256 bits with a sign. Mirrors `decode_transfer`. -/
def legs (l : Log) : Except FetchError (List Transfer) :=
  match l.movement? with
  | none => .ok []
  | some m =>
    if m.amount < 2 ^ 255 then .ok m.legs
    else .error (.rpc ("Transfer amount " ++ Json.Value.integerText m.amount ++ " overflows"))

def allLegs : List Log → Except FetchError (List Transfer)
  | [] => .ok []
  | l :: rest => do return (← l.legs) ++ (← allLegs rest)

end Log
end Backfill.Rpc
