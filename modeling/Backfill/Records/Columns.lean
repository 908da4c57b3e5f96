import Backfill.Records.Basic

/-!
# Records as tables of texts

Block numbers are stored as signed 64-bit integers, so the upper half of them is refused. Every time
an investor is asked for a number is set aside, and given to one who has none.
-/
namespace Backfill

/-- Records as tables whose columns are texts. Mirrors `SqliteRecordSink`. -/
structure SqliteRecordSink where
  blocks : Table BlockKey (List String) := {}
  investors : Table Address InvestorId := {}
  /-- How many numbers have been set aside for investors. -/
  issued : Nat := 0
  prices : Table PriceKey (List String) := {}
  positions : Table InvestmentKey (List String) := {}

namespace SqliteRecordSink

/-- The refusal of a number that has no signed 64-bit form. -/
def tooLarge : StoreFault := .refused [] "out of range integral type conversion attempted"

def storing (block : BlockNumber) (c : SqliteRecordSink) : Except StoreFault SqliteRecordSink :=
  if block.toNat < 2 ^ 63 then .ok c else .error tooLarge

/-- The number of an investor, and the records that know it. Mirrors
`SqliteRecordSink::upsert_investor`. -/
def number (c : SqliteRecordSink) (a : Address) : InvestorId × SqliteRecordSink :=
  let issued := c.issued + 1
  match c.investors.get? a with
  | some id => (id, { c with issued })
  | none => (issued, { c with issued, investors := c.investors.put a issued })

instance : RecordSink SqliteRecordSink where
  upsertBlock c r := storing r.block { c with blocks := c.blocks.put r.key r.columns }
  upsertInvestor c a := .ok (c.number a)
  upsertPrice c r := storing r.block { c with prices := c.prices.put r.key r.columns }
  upsertInvestment c r := storing r.block { c with positions := c.positions.put r.key r.columns }
  tables c :=
    { blocks := c.blocks.entries, investors := c.investors.entries
      prices := c.prices.entries, positions := c.positions.entries }

end SqliteRecordSink
end Backfill
