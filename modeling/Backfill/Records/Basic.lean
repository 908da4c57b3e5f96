import Backfill.Amount.Decimal
import Backfill.Fault
import Backfill.Product.Basic
import Backfill.Sorting
import Backfill.Table

/-!
# Records

What an import leaves behind: blocks, investors, share prices, and the positions of investors. A row
is stored under what identifies it, so to store it again changes nothing. Two kinds of sink hold
them: one in memory, and one of tables whose columns are texts.
-/
namespace Backfill

abbrev InvestorId := Nat

/-- A block and when it was produced. Mirrors `BlockRow`. -/
structure BlockRow where
  chain : Chain
  block : BlockNumber
  time : Instant
  deriving DecidableEq

/-- The price of a share after a block. Mirrors `PriceRow`. -/
structure PriceRow where
  feed : Int64
  block : BlockNumber
  time : Instant
  price : Decimal
  deriving DecidableEq

/-- The position of an investor in a product right after a block, in shares and in tokens underlying
them. Mirrors `InvestmentRow`. -/
structure InvestmentRow where
  product : Int64
  investor : InvestorId
  block : BlockNumber
  time : Instant
  transaction : Hash
  balance : Decimal
  change : Decimal
  underlyingBalance : Decimal
  underlyingChange : Decimal
  deriving DecidableEq

abbrev BlockKey := Chain × BlockNumber

abbrev PriceKey := Int64 × BlockNumber

abbrev InvestmentKey := Int64 × InvestorId × BlockNumber

def BlockRow.key (r : BlockRow) : BlockKey := (r.chain, r.block)

def PriceRow.key (r : PriceRow) : PriceKey := (r.feed, r.block)

def InvestmentRow.key (r : InvestmentRow) : InvestmentKey := (r.product, r.investor, r.block)

/-- The columns that are no keys, as texts. -/
def BlockRow.columns (r : BlockRow) : List String := [r.time.tableText]

def PriceRow.columns (r : PriceRow) : List String := [r.time.tableText, r.price.text]

def InvestmentRow.columns (r : InvestmentRow) : List String :=
  [r.time.tableText, r.transaction.text, r.balance.text, r.change.text, r.underlyingBalance.text,
   r.underlyingChange.text]

/-- Everything stored, with the columns that are no keys as texts. -/
structure RecordTables where
  blocks : List (BlockKey × List String)
  investors : List (Address × InvestorId)
  prices : List (PriceKey × List String)
  positions : List (InvestmentKey × List String)

namespace RecordTables

-- lists are compared as in the core library
attribute [local instance(high)] List.instLE List.decidableLE

/-- Entries in the order of what identifies them, written as integers. -/
def arrange {κ β : Type} (ident : κ → List Int) (es : List (κ × β)) : List (κ × β) :=
  sortBy (fun a b => decide (ident a.1 ≤ ident b.1)) es

/-- All rows in the order of what identifies them: chains by name, and investors by number. -/
def sorted (t : RecordTables) : RecordTables where
  blocks := arrange (fun k => [(Chain.all.idxOf k.1 : Int), (k.2.toNat : Int)]) t.blocks
  investors := sortBy (fun a b => decide (a.2 ≤ b.2)) t.investors
  prices := arrange (fun k => [k.1.toInt, (k.2.toNat : Int)]) t.prices
  positions :=
    arrange (fun k => [k.1.toInt, (k.2.1 : Int), (k.2.2.toNat : Int)]) t.positions

end RecordTables

/-- A sink of records. What it refuses leaves it as it was. Mirrors `RecordSink`. -/
class RecordSink (ρ : Type) where
  upsertBlock : ρ → BlockRow → Except StoreFault ρ
  /-- The number of an investor, who gets one when first seen. -/
  upsertInvestor : ρ → Address → Except StoreFault (InvestorId × ρ)
  upsertPrice : ρ → PriceRow → Except StoreFault ρ
  upsertInvestment : ρ → InvestmentRow → Except StoreFault ρ
  tables : ρ → RecordTables

end Backfill
