import Backfill.Records.Basic
import Backfill.Trace
import Backfill.Transfer

/-!
# Loading transfers

A leg of a transfer becomes rows: the block, the investor, the share price, and the position of the
investor. Everything that can fail without storing comes first, so a leg whose position cannot be
read or converted stores nothing.
-/
namespace Backfill

/-- Mirrors `Loader`. -/
structure Loader where
  chain : Chain
  /-- Owners whose transfers are no investments. -/
  ignored : List Address

namespace Loader

/-- A leg of this owner is no investment: nobody's, the product's own, or one of the ignored.
Mirrors `Loader::should_ignore`. -/
def shouldIgnore (l : Loader) (p : Product) (owner : Address) : Bool :=
  owner = Address.zero || owner = p.contract || l.ignored.contains owner

/-- A position and its change, in shares and in underlying tokens. -/
structure Amounts where
  balance : Decimal
  change : Decimal
  underlyingBalance : Decimal
  underlyingChange : Decimal
  deriving DecidableEq

/-- The amounts of a leg as decimals: balance and change by `to_decimal`, and both again by
`mul`. -/
def amounts (p : Product) (t : Transfer) (pos : TransferData) : Except Decimal.Unfit Amounts := do
  let decimals := p.tokenDecimals.toNat
  let balance ← Decimal.ofUnits pos.balance decimals
  let change ← Decimal.ofSignedUnits t.amount decimals
  return ⟨balance, change, ← balance.atRate pos.shareRate, ← change.atRate pos.shareRate⟩

/-- The first half of `Loader::load_transfer`, before anything is stored. -/
def prepare (sources : Sources) (p : Product) (t : Transfer) :
    Except LoadError (TransferData × Amounts) :=
  match sources.position (t.request p) with
  | .error fault => .error (.fetch fault)
  | .ok pos =>
    match amounts p t pos with
    | .error unfit => .error (.conversion unfit)
    | .ok a => .ok (pos, a)

def blockRow (l : Loader) (t : Transfer) (pos : TransferData) : BlockRow :=
  ⟨l.chain, t.block, pos.time⟩

def priceRow (p : Product) (t : Transfer) (pos : TransferData) : PriceRow :=
  ⟨p.shareFeed, t.block, pos.time, pos.shareRate⟩

def positionRow (p : Product) (t : Transfer) (pos : TransferData) (a : Amounts) (id : InvestorId) :
    InvestmentRow :=
  { product := p.id, investor := id, block := t.block, time := pos.time
    transaction := t.transaction, balance := a.balance, change := a.change
    underlyingBalance := a.underlyingBalance, underlyingChange := a.underlyingChange }

variable {ρ : Type} [RecordSink ρ]

/-- The second half of `Loader::load_transfer`. Rows stored before one that is refused stay. -/
def store (l : Loader) (p : Product) (t : Transfer) (pos : TransferData) (a : Amounts)
    (records : ρ) : Except StoreFault Unit × ρ :=
  match RecordSink.upsertBlock records (l.blockRow t pos) with
  | .error fault => (.error fault, records)
  | .ok records =>
    match RecordSink.upsertInvestor records t.owner with
    | .error fault => (.error fault, records)
    | .ok (id, records) =>
      match RecordSink.upsertPrice records (priceRow p t pos) with
      | .error fault => (.error fault, records)
      | .ok records =>
        match RecordSink.upsertInvestment records (positionRow p t pos a id) with
        | .error fault => (.error fault, records)
        | .ok records => (.ok (), records)

/-- Mirrors `Loader::load_transfer`. -/
def loadTransfer (l : Loader) (sources : Sources) (p : Product) (t : Transfer) (records : ρ) :
    Except LoadError Unit × ρ :=
  match prepare sources p t with
  | .error fault => (.error fault, records)
  | .ok (pos, a) =>
    match l.store p t pos a records with
    | (.error fault, records) => (.error (.store fault), records)
    | (.ok (), records) => (.ok (), records)

def trace (p : Product) (t : Transfer) (result : Except LoadError Unit) : Trace :=
  .call (.position (t.request p)) ::
    match result with
    | .ok () => [.count .recordsLoaded 1]
    | .error _ => []

end Loader
end Backfill
