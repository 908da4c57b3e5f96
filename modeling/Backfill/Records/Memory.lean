import Backfill.Records.Basic

/-!
# Records in memory

Rows are kept as they are. Investors are numbered from 1 in the order in which they are first seen.
-/
namespace Backfill

/-- Records in memory. Mirrors `MemoryRecordSink` and its `MemoryRecords`. -/
structure MemoryRecords where
  blocks : Table BlockKey BlockRow := {}
  investors : Table Address InvestorId := {}
  prices : Table PriceKey PriceRow := {}
  positions : Table InvestmentKey InvestmentRow := {}

namespace MemoryRecords

/-- Mirrors `MemoryRecordSink::upsert_investor`. -/
def number (m : MemoryRecords) (a : Address) : InvestorId × MemoryRecords :=
  match m.investors.get? a with
  | some id => (id, m)
  | none =>
    let id := m.investors.size + 1
    (id, { m with investors := m.investors.put a id })

instance : RecordSink MemoryRecords where
  upsertBlock m r := .ok { m with blocks := m.blocks.put r.key r }
  upsertInvestor m a := .ok (m.number a)
  upsertPrice m r := .ok { m with prices := m.prices.put r.key r }
  upsertInvestment m r := .ok { m with positions := m.positions.put r.key r }
  tables m :=
    { blocks := m.blocks.entries.map fun e => (e.1, e.2.columns)
      investors := m.investors.entries
      prices := m.prices.entries.map fun e => (e.1, e.2.columns)
      positions := m.positions.entries.map fun e => (e.1, e.2.columns) }

end MemoryRecords
end Backfill
