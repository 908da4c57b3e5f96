import Backfill.Transfer

/-!
# Mock chains

A mock chain stands in for the remote side, for stores that fail, and for someone who calls a cycle
off: every answer is looked up. It serves to try runners without a node.
-/
namespace Backfill

def lookUp {κ β : Type} [DecidableEq κ] (k : κ) (es : List (κ × β)) : Option β :=
  (es.find? (·.1 = k)).map (·.2)

/-- What is to happen to runners. The remote side answers from lists. Mirrors `MockChain`. -/
structure MockChain where
  latest : Except FetchError BlockNumber := .ok 0
  /-- When block 0 was produced, in milliseconds since the epoch. -/
  baseMillis : Int := 1600000000000
  /-- The milliseconds between two blocks. -/
  blockMillis : Int := 3000
  failingBlocks : List (BlockNumber × FetchError) := []
  creations : List (Address × BlockNumber) := []
  failingCreations : List (Address × FetchError) := []
  transfers : List Transfer := []
  /-- Every query is answered with all transfers. -/
  unfiltered : Bool := false
  failingRanges : List (Range BlockNumber × FetchError) := []
  balances : List (Address × Nat) := []
  failingOwners : List (Address × FetchError) := []
  rate : Decimal := Decimal.two
  rates : List (BlockNumber × Decimal) := []
  failingRates : List (BlockNumber × FetchError) := []
  /-- Keys of import states that cannot be loaded. -/
  brokenLoads : List String := []
  /-- Keys of import states that cannot be saved. -/
  brokenSaves : List String := []
  /-- Keys of import states that cannot be changed. -/
  brokenUpdates : List String := []
  /-- Keys of import states that are forgotten just before they are changed. -/
  vanishing : List String := []
  /-- Rows that are refused: `block:`, `price:` or `investment:` and a block number, or `investor:`
  and an address. -/
  brokenRows : List String := []
  /-- The kind of call that calls the cycle off. -/
  cancelOn : Option String := none

namespace MockChain

/-- Fails if a fault is listed under the key. -/
def failIf {κ β : Type} [DecidableEq κ] (faults : List (κ × FetchError)) (k : κ) (answer : β) :
    Except FetchError β :=
  match lookUp k faults with
  | some fault => .error fault
  | none => .ok answer

def timeOf (r : MockChain) (b : BlockNumber) : Instant :=
  Instant.nearest ((r.baseMillis + b.toNat * r.blockMillis) * 1000000)

def rateAt (r : MockChain) (b : BlockNumber) : Decimal := (lookUp b r.rates).getD r.rate

def transfersIn (r : MockChain) (range : Range BlockNumber) (tokens : List Address) :
    Except FetchError (List Transfer) :=
  match r.failingRanges.find? fun e => (e.1.clamp range).isSome with
  | some (_, fault) => .error fault
  | none =>
    .ok <| if r.unfiltered then r.transfers
      else r.transfers.filter fun t => range.contains t.block && tokens.contains t.token

def positionOf (r : MockChain) (q : TransferDataParams) : Except FetchError TransferData :=
  failIf r.failingOwners q.owner
    { time := r.timeOf q.block
      balance := (lookUp q.owner r.balances).getD 1500000000000000000
      shareRate := if q.shareRate.isSome then r.rateAt q.block else Decimal.one }

def sources (r : MockChain) : Sources where
  latest := r.latest
  blockTime b := failIf r.failingBlocks b (r.timeOf b)
  transfers := r.transfersIn
  position := r.positionOf
  creation a :=
    failIf r.failingCreations a ((lookUp a r.creations).map fun b => ⟨b, r.timeOf b⟩)
  shareRate _ b := failIf r.failingRates b (r.rateAt b)

end MockChain

end Backfill
