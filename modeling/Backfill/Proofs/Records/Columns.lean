import Backfill.Proofs.Amount.Rounding
import Backfill.Proofs.Text.Hex
import Backfill.Proofs.Time.Text
import Backfill.Records.Columns
import Backfill.Records.Memory

/-!
# Rows are read back from their columns

Tables of texts keep what identifies a row under the key and each other part of it as the text of a
column. Instants, hashes and decimals are read from these texts as they were written, so no column
loses anything and a row is what its key and its columns say. What is stored can then be told in
rows, whichever sink it is in.

Results:
* `BlockRow.ofColumns?_columns`, `PriceRow.ofColumns?_columns`, `InvestmentRow.ofColumns?_columns`:
  a row is read back from its key and its columns.
* `RecordRows`, `MemoryRecords.rows`, `SqliteRecordSink.rows?`: everything stored, as rows.
-/
namespace Backfill

theorem Hash.ofText?_text (h : Hash) : Hash.ofText? h.text = some h := by
  rw [Hash.ofText?, Hash.text, Text.ofHexWord?_hexData (by decide) h.bits.isLt, Option.map_some,
    Hash.ofNat, BitVec.ofNat_toNat, BitVec.setWidth_eq]

/-! ## One row -/

def BlockRow.ofColumns? (k : BlockKey) : List String → Option BlockRow
  | [time] => do return ⟨k.1, k.2, ← Instant.ofText? time⟩
  | _ => none

def PriceRow.ofColumns? (k : PriceKey) : List String → Option PriceRow
  | [time, price] => do return ⟨k.1, k.2, ← Instant.ofText? time, ← Decimal.ofText? price⟩
  | _ => none

def InvestmentRow.ofColumns? (k : InvestmentKey) : List String → Option InvestmentRow
  | [time, transaction, balance, change, underlyingBalance, underlyingChange] => do
    return {
      product := k.1, investor := k.2.1, block := k.2.2
      time := ← Instant.ofText? time
      transaction := ← Hash.ofText? transaction
      balance := ← Decimal.ofText? balance
      change := ← Decimal.ofText? change
      underlyingBalance := ← Decimal.ofText? underlyingBalance
      underlyingChange := ← Decimal.ofText? underlyingChange }
  | _ => none

theorem BlockRow.ofColumns?_columns (r : BlockRow) : ofColumns? r.key r.columns = some r := by
  simp only [ofColumns?, columns, key, Instant.ofText?_tableText]
  rfl

theorem PriceRow.ofColumns?_columns (r : PriceRow) : ofColumns? r.key r.columns = some r := by
  simp only [ofColumns?, columns, key, Instant.ofText?_tableText, Decimal.ofText?_text]
  rfl

theorem InvestmentRow.ofColumns?_columns (r : InvestmentRow) :
    ofColumns? r.key r.columns = some r := by
  simp only [ofColumns?, columns, key, Instant.ofText?_tableText, Hash.ofText?_text,
    Decimal.ofText?_text]
  rfl

/-! ## Everything stored -/

/-- Everything stored, as rows in the order in which their keys came. -/
structure RecordRows where
  blocks : List BlockRow
  investors : List (Address × InvestorId)
  prices : List PriceRow
  positions : List InvestmentRow
  deriving DecidableEq

def MemoryRecords.rows (m : MemoryRecords) : RecordRows where
  blocks := m.blocks.entries.map (·.2)
  investors := m.investors.entries
  prices := m.prices.entries.map (·.2)
  positions := m.positions.entries.map (·.2)

/-- The rows that tables of texts say. -/
def SqliteRecordSink.rows? (c : SqliteRecordSink) : Option RecordRows := do
  return {
    blocks := ← c.blocks.entries.mapM fun e => BlockRow.ofColumns? e.1 e.2
    investors := c.investors.entries
    prices := ← c.prices.entries.mapM fun e => PriceRow.ofColumns? e.1 e.2
    positions := ← c.positions.entries.mapM fun e => InvestmentRow.ofColumns? e.1 e.2 }

end Backfill
