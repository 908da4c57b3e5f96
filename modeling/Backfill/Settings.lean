import Backfill.Chain
import Backfill.Range.Basic

/-!
# Settings

What a runner is to do, what the node it talks to accepts, and how much it does at a time.
-/
namespace Backfill

/-- What part of the history is imported. Mirrors `ImportMode`. -/
inductive ImportMode where
  /-- The last blocks only, over and over. Import states are neither made nor used. -/
  | recent
  /-- The whole history of every product, from where its import state left off. -/
  | historical
  deriving DecidableEq, Repr

/-- Which products leave the last blocks to a runner of recent ones. Mirrors `SkipRecentWindow`. -/
inductive SkipRecentWindow where
  | all
  | none
  /-- Products that are still offered. -/
  | live
  /-- Products that are no longer offered. -/
  | retired
  deriving DecidableEq, Repr

namespace SkipRecentWindow

/-- Mirrors `SkipRecentWindow::applies_to`. -/
def appliesTo (retired : Bool) : SkipRecentWindow → Bool
  | .all => true
  | .none => false
  | .live => !retired
  | .retired => retired

end SkipRecentWindow

/-- What a runner is to do. Mirrors `Behaviour`. -/
structure Behaviour where
  mode : ImportMode
  /-- Everything counts as not imported. -/
  ignoreState : Bool := false
  skipRecent : SkipRecentWindow := .none
  /-- Only blocks in this range are imported (`force_block_range`). -/
  forced : Option (Range BlockNumber) := none
  /-- How many queries a product gets in a cycle (`max_queries_per_product`). -/
  maxQueries : Nat
  /-- How many blocks at the head are not settled yet (`wait_for_block_propagation`). -/
  unsettled : Nat := 0
  /-- A block with a record that could not be stored is tried again (`strict_coverage`). -/
  strict : Bool := false
  /-- The time between two rounds in milliseconds; one round only if there is none. -/
  repeatEvery : Option Nat := none
  deriving DecidableEq

namespace Behaviour

/-- New blocks are few, so one query suffices for them. Mirrors `Behaviour::new`. -/
def ofMode (mode : ImportMode) : Behaviour :=
  { mode
    maxQueries := match mode with
      | .recent => 1
      | .historical => 10 }

end Behaviour

/-- What one log query may ask of a node. Mirrors `RpcLimitations`. -/
structure RpcLimitations where
  /-- How many blocks it may span (`max_block_span`). -/
  maxSpan : Nat
  /-- How many contracts it may name (`max_address_batch_size`). -/
  maxAddresses : Nat
  deriving DecidableEq, Repr

/-- Mirrors `RpcLimitations::for_chain`. -/
def RpcLimitations.ofChain (c : Chain) : RpcLimitations :=
  { maxSpan := c.maxLogSpan.toNat, maxAddresses := 1 }

/-- How much is done at a time. Mirrors `StreamConfig`. -/
structure StreamConfig where
  /-- How long products are gathered before a cycle begins, in milliseconds. -/
  maxInputWait : Nat := 5000
  /-- How many queries run at a time. -/
  fetchConcurrency : Nat := 4
  /-- How many records are loaded at a time. -/
  loadConcurrency : Nat := 10
  deriving DecidableEq, Repr

end Backfill
