import Backfill.Fault
import Backfill.Product.Basic

/-!
# Transfers and remote sources

A transfer of share tokens has two legs, one for who sends and one for who receives. To store a leg,
the position of its owner right after the block is read on chain. Everything that is read remotely
has a source, which during a cycle answers the same request in the same way.
-/
namespace Backfill

/-- One leg of a transfer, as its owner sees it. Mirrors `Transfer`. -/
structure Transfer where
  block : BlockNumber
  transaction : Hash
  logIndex : UInt64
  token : Address
  owner : Address
  /-- Negative for who sends. -/
  amount : Int
  deriving DecidableEq, Repr

/-- The position that has to be read to store a leg. Mirrors `TransferDataParams`. -/
structure TransferDataParams where
  block : BlockNumber
  token : Address
  tokenDecimals : UInt32
  owner : Address
  /-- A product without a share price has the price 1. -/
  shareRate : Option ShareRateParams
  deriving DecidableEq, Repr

/-- The position of an owner right after a block. Mirrors `TransferData`. -/
structure TransferData where
  time : Instant
  /-- In the smallest units of the token. -/
  balance : Nat
  shareRate : Decimal
  deriving DecidableEq

/-- The block that brought a contract. Mirrors `ContractCreation`. -/
structure ContractCreation where
  block : BlockNumber
  time : Instant
  deriving DecidableEq

def Transfer.request (t : Transfer) (p : Product) : TransferDataParams :=
  { block := t.block, token := t.token, tokenDecimals := p.tokenDecimals, owner := t.owner
    shareRate := p.shareRateParams }

/-- The remote sources of a cycle. Mirrors `Sources`. -/
structure Sources where
  /-- The highest block. -/
  latest : Except FetchError BlockNumber
  /-- When a block was produced. -/
  blockTime : BlockNumber → Except FetchError Instant
  /-- Both legs of every transfer of some tokens in a range. -/
  transfers : Range BlockNumber → List Address → Except FetchError (List Transfer)
  /-- The position of an owner after a block. -/
  position : TransferDataParams → Except FetchError TransferData
  /-- When a contract was created, if it exists. -/
  creation : Address → Except FetchError (Option ContractCreation)
  /-- The tokens that a share was worth right after a block. -/
  shareRate : ShareRateParams → BlockNumber → Except FetchError Decimal

end Backfill
