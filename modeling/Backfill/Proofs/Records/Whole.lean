import Backfill.Loading
import Backfill.Proofs.Amount.Rates
import Backfill.Proofs.Records.Columns
import Backfill.Mock.Chain

/-!
# Loading a transfer wholly or not at all

Loading puts a row into each of four tables, one after the other and without a way back. All the
same nothing is left half way: what can fail without storing comes first, and if a sink refuses
any row of a transfer it refuses the first one. `RowForm.Keyed` says what this takes of a sink.
Those in memory and of texts differ in how a row is read back and in the blocks they take, and in
nothing else.

What a row holds is told by the numbers that it stands for: balance and change count in units of the
token and are rounded away from zero, and at the share rate they are worth the products, rounded to
even. These rules leave one decimal each, so `Converts` fixes all four amounts.

Results:
* `Loader.amounts_eq_ok`: the amounts of a transfer, by the rules alone.
* `MemoryRecords.keyed`, `SqliteRecordSink.keyed`: what sinks do with rows.
* `RowForm.Keyed.store_of_takes`, `RowForm.Keyed.store_of_refuses`: the rows of a transfer.
* `Loader.loads_wholly`: what is left when a transfer was loaded or could not be.
-/
namespace Backfill

/-! ## One row more -/

namespace Table

variable {κ β : Type} [DecidableEq κ]

/-- A table before and after a value was put under a key: all others are as they were. -/
structure Gains (before after : Table κ β) (k : κ) (v : β) : Prop where
  there : after.get? k = some v
  others : ∀ k', k' ≠ k → after.get? k' = before.get? k'

/-- A table before and after a row was put under a key, where it is read back as that row. -/
def GainsRow {α : Type} (read? : κ → β → Option α) (before after : Table κ β) (k : κ) (row : α) :
    Prop :=
  ∃ v, read? k v = some row ∧ before.Gains after k v

theorem gains_put (t : Table κ β) (k : κ) (v : β) : t.Gains (t.put k v) k v where
  there := by simp
  others k' h := by rw [get?_put, if_neg h.symm]

theorem gains_self {t : Table κ β} {k : κ} {v : β} (h : t.get? k = some v) : t.Gains t k v :=
  ⟨h, fun _ _ => rfl⟩

end Table

/-! ## Tables of rows -/

/-- The tables of a sink. Blocks, prices and positions are kept in some form. -/
structure RowTables (β π κ : Type) where
  blocks : Table BlockKey β
  investors : Table Address InvestorId
  prices : Table PriceKey π
  positions : Table InvestmentKey κ

/-- In what form a sink keeps its rows: how each is read back from under its key. -/
structure RowForm (ρ β π κ : Type) where
  tables : ρ → RowTables β π κ
  block? : BlockKey → β → Option BlockRow
  price? : PriceKey → π → Option PriceRow
  position? : InvestmentKey → κ → Option InvestmentRow

/-- Records in memory keep rows as they are. -/
def MemoryRecords.form : RowForm MemoryRecords BlockRow PriceRow InvestmentRow where
  tables m := ⟨m.blocks, m.investors, m.prices, m.positions⟩
  block? _ := some
  price? _ := some
  position? _ := some

/-- Records of texts keep the columns that are no keys. -/
def SqliteRecordSink.form : RowForm SqliteRecordSink (List String) (List String) (List String) where
  tables c := ⟨c.blocks, c.investors, c.prices, c.positions⟩
  block? := BlockRow.ofColumns?
  price? := PriceRow.ofColumns?
  position? := InvestmentRow.ofColumns?

namespace RowForm

variable {ρ β π κ : Type} [RecordSink ρ]

/-- A sink puts the rows of the blocks that it takes under their keys and refuses all others.
An investor who has a number keeps it. -/
structure Keyed (f : RowForm ρ β π κ) (takes : BlockNumber → Prop) : Prop where
  upsertBlock : ∀ r row, takes row.block → ∃ r' v, RecordSink.upsertBlock r row = .ok r' ∧
    f.block? row.key v = some row ∧
    f.tables r' = { f.tables r with blocks := (f.tables r).blocks.put row.key v }
  refuses : ∀ (r : ρ) (row : BlockRow), ¬ takes row.block →
    ∃ fault, RecordSink.upsertBlock r row = .error fault
  upsertInvestor : ∀ r owner, ∃ id r', RecordSink.upsertInvestor r owner = .ok (id, r') ∧
    (∀ id', (f.tables r).investors.get? owner = some id' → id = id') ∧
    ∃ investors, f.tables r' = { f.tables r with investors } ∧
      (f.tables r).investors.Gains investors owner id
  upsertPrice : ∀ r row, takes row.block → ∃ r' v, RecordSink.upsertPrice r row = .ok r' ∧
    f.price? row.key v = some row ∧
    f.tables r' = { f.tables r with prices := (f.tables r).prices.put row.key v }
  upsertInvestment : ∀ r row, takes row.block → ∃ r' v, RecordSink.upsertInvestment r row = .ok r' ∧
    f.position? row.key v = some row ∧
    f.tables r' = { f.tables r with positions := (f.tables r).positions.put row.key v }

end RowForm

/-- Records in memory take every block. -/
theorem MemoryRecords.keyed : MemoryRecords.form.Keyed fun _ => True where
  upsertBlock _ row _ := ⟨_, row, rfl, rfl, rfl⟩
  refuses _ _ h := absurd trivial h
  upsertInvestor m owner := by
    cases hnumber : m.investors.get? owner with
    | some id =>
      refine ⟨id, m, ?_, fun id' h => ?_, m.investors, rfl, Table.gains_self hnumber⟩
      · simp only [RecordSink.upsertInvestor, number, hnumber]
      · exact Option.some.inj (hnumber.symm.trans h)
    | none =>
      let investors := m.investors.put owner (m.investors.size + 1)
      refine ⟨m.investors.size + 1, { m with investors }, ?_, fun id' h => ?_, investors, rfl,
        Table.gains_put ..⟩
      · simp only [RecordSink.upsertInvestor, number, hnumber, investors]
      · cases hnumber.symm.trans h
  upsertPrice _ row _ := ⟨_, row, rfl, rfl, rfl⟩
  upsertInvestment _ row _ := ⟨_, row, rfl, rfl, rfl⟩

/-- Records of texts take the lower half of the blocks. -/
theorem SqliteRecordSink.keyed : SqliteRecordSink.form.Keyed fun b => b.toNat < 2 ^ 63 where
  upsertBlock _ row h := ⟨_, row.columns, if_pos h, row.ofColumns?_columns, rfl⟩
  refuses _ _ h := ⟨tooLarge, if_neg h⟩
  upsertInvestor c owner := by
    cases hnumber : c.investors.get? owner with
    | some id =>
      refine ⟨id, { c with issued := c.issued + 1 }, ?_, fun id' h => ?_, c.investors, rfl,
        Table.gains_self hnumber⟩
      · simp only [RecordSink.upsertInvestor, number, hnumber]
      · exact Option.some.inj (hnumber.symm.trans h)
    | none =>
      let investors := c.investors.put owner (c.issued + 1)
      refine ⟨c.issued + 1, { c with issued := c.issued + 1, investors }, ?_, fun id' h => ?_,
        investors, rfl, Table.gains_put ..⟩
      · simp only [RecordSink.upsertInvestor, number, hnumber, investors]
      · cases hnumber.symm.trans h
  upsertPrice _ row h := ⟨_, row.columns, if_pos h, row.ofColumns?_columns, rfl⟩
  upsertInvestment _ row h := ⟨_, row.columns, if_pos h, row.ofColumns?_columns, rfl⟩

/-! ## The rows of a transfer -/

namespace Loader

variable {ρ β π κ : Type} [RecordSink ρ]

/-- The amounts of a transfer: balance and change in units of the token, and both at the share
rate. -/
structure Converts (p : Product) (t : Transfer) (pos : TransferData) (a : Amounts) : Prop where
  decimals_le : p.tokenDecimals.toNat ≤ 76
  balance : Decimal.RoundsAway (pos.balance / 10 ^ p.tokenDecimals.toNat) a.balance
  change : Decimal.RoundsAway (t.amount / 10 ^ p.tokenDecimals.toNat) a.change
  underlyingBalance :
    Decimal.RoundsEven (a.balance.toRat * pos.shareRate.toRat) a.underlyingBalance
  underlyingChange : Decimal.RoundsEven (a.change.toRat * pos.shareRate.toRat) a.underlyingChange

/-- Each table has its row of a transfer, and all other rows are as they were. An investor who had a
number has kept it. -/
structure Stored (f : RowForm ρ β π κ) (l : Loader) (p : Product) (t : Transfer)
    (pos : TransferData) (a : Amounts) (before after : RowTables β π κ) : Prop where
  block : before.blocks.GainsRow f.block? after.blocks (l.chain, t.block)
    { chain := l.chain, block := t.block, time := pos.time }
  price : before.prices.GainsRow f.price? after.prices (p.shareFeed, t.block)
    { feed := p.shareFeed, block := t.block, time := pos.time, price := pos.shareRate }
  position : ∃ id, (∀ id', before.investors.get? t.owner = some id' → id = id') ∧
    before.investors.Gains after.investors t.owner id ∧
    before.positions.GainsRow f.position? after.positions (p.id, id, t.block)
      { product := p.id, investor := id, block := t.block, time := pos.time
        transaction := t.transaction, balance := a.balance, change := a.change
        underlyingBalance := a.underlyingBalance, underlyingChange := a.underlyingChange }

end Loader

namespace RowForm.Keyed

open Loader

variable {ρ β π κ : Type} [RecordSink ρ] {f : RowForm ρ β π κ} {takes : BlockNumber → Prop}

/-- If the block is taken all rows are. -/
theorem store_of_takes (h : f.Keyed takes) (l : Loader) (p : Product) {t : Transfer}
    (ht : takes t.block) (pos : TransferData) (a : Amounts) (r : ρ) :
    ∃ r', l.store p t pos a r = (.ok (), r') ∧
      Stored f l p t pos a (f.tables r) (f.tables r') := by
  obtain ⟨r₁, block, hput₁, hblock, htables₁⟩ := h.upsertBlock r (l.blockRow t pos) ht
  obtain ⟨id, r₂, hput₂, hknown, investors, htables₂, hgains⟩ := h.upsertInvestor r₁ t.owner
  obtain ⟨r₃, price, hput₃, hprice, htables₃⟩ := h.upsertPrice r₂ (priceRow p t pos) ht
  obtain ⟨r₄, position, hput₄, hposition, htables₄⟩ :=
    h.upsertInvestment r₃ (positionRow p t pos a id) ht
  refine ⟨r₄, by simp only [store, hput₁, hput₂, hput₃, hput₄], ?_⟩
  rw [htables₁] at hknown hgains
  rw [htables₄, htables₃, htables₂, htables₁]
  exact ⟨⟨block, hblock, Table.gains_put ..⟩, ⟨price, hprice, Table.gains_put ..⟩, id, hknown,
    hgains, position, hposition, Table.gains_put ..⟩

theorem store_of_refuses (h : f.Keyed takes) (l : Loader) (p : Product) {t : Transfer}
    (ht : ¬ takes t.block) (pos : TransferData) (a : Amounts) (r : ρ) :
    ∃ fault, l.store p t pos a r = (.error fault, r) := by
  obtain ⟨fault, hfault⟩ := h.refuses r (l.blockRow t pos) ht
  exact ⟨fault, by simp only [store, hfault]⟩

end RowForm.Keyed

/-! ## Loading -/

namespace Loader

variable {ρ β π κ : Type} [RecordSink ρ]

/-- The amounts of a transfer, by the rules alone. -/
theorem amounts_eq_ok {p : Product} {t : Transfer} {pos : TransferData} {a : Amounts} :
    amounts p t pos = .ok a ↔ Converts p t pos a := by
  constructor
  · intro h
    simp only [amounts, bind, Except.bind] at h
    split at h
    · cases h
    next balance hbalance =>
    split at h
    · cases h
    next change hchange =>
    split at h
    · cases h
    next underlyingBalance hunderlyingBalance =>
    split at h
    · cases h
    next underlyingChange hunderlyingChange =>
    cases h
    exact
      { decimals_le := (Decimal.ofSignedUnits_eq_ok.mp hchange).1
        balance := (Decimal.ofUnits_eq_ok.mp hbalance).2
        change := (Decimal.ofSignedUnits_eq_ok.mp hchange).2
        underlyingBalance := Decimal.atRate_eq_ok.mp hunderlyingBalance
        underlyingChange := Decimal.atRate_eq_ok.mp hunderlyingChange }
  · intro h
    have hbalance := Decimal.ofUnits_eq_ok.mpr ⟨Nat.le_succ_of_le h.decimals_le, h.balance⟩
    have hchange := Decimal.ofSignedUnits_eq_ok.mpr ⟨h.decimals_le, h.change⟩
    simp only [amounts, hbalance, hchange, Decimal.atRate_eq_ok.mpr h.underlyingBalance,
      Decimal.atRate_eq_ok.mpr h.underlyingChange, bind, Except.bind]
    rfl

/-- What is to be stored of a transfer: its owner's position right after the block was read, and can
be converted. -/
def Prepared (sources : Sources) (p : Product) (t : Transfer) (pos : TransferData) (a : Amounts) :
    Prop :=
  sources.position
      { block := t.block, token := t.token, tokenDecimals := p.tokenDecimals, owner := t.owner
        shareRate := p.shareRateParams } = .ok pos ∧
    Converts p t pos a

theorem prepare_eq_ok {sources : Sources} {p : Product} {t : Transfer} {pos : TransferData}
    {a : Amounts} : prepare sources p t = .ok (pos, a) ↔ Prepared sources p t pos a := by
  unfold prepare Prepared
  rw [Transfer.request]
  cases sources.position _ with
  | error fault => simp
  | ok pos' =>
    dsimp only
    constructor
    · intro h
      split at h
      · cases h
      · next a' hamounts =>
        cases h
        exact ⟨rfl, amounts_eq_ok.mp hamounts⟩
    · rintro ⟨⟨⟩, hconverts⟩
      simp only [amounts_eq_ok.mpr hconverts]

/-- Loading a transfer: it succeeds exactly if its position was read and can be converted and its
block is taken. Then each table has its row and nothing else has changed. Otherwise nothing has. -/
structure LoadsWholly (f : RowForm ρ β π κ) (takes : BlockNumber → Prop) (l : Loader)
    (sources : Sources) (p : Product) (t : Transfer) (r : ρ) : Prop where
  succeeds_iff : (l.loadTransfer sources p t r).1 = .ok () ↔
    takes t.block ∧ ∃ pos a, Prepared sources p t pos a
  stored : (l.loadTransfer sources p t r).1 = .ok () → ∃ pos a, Prepared sources p t pos a ∧
    Stored f l p t pos a (f.tables r) (f.tables (l.loadTransfer sources p t r).2)
  untouched : ∀ fault, (l.loadTransfer sources p t r).1 = .error fault →
    (l.loadTransfer sources p t r).2 = r

end Loader

theorem RowForm.Keyed.loadsWholly {ρ β π κ : Type} [RecordSink ρ] {f : RowForm ρ β π κ}
    {takes : BlockNumber → Prop} (h : f.Keyed takes) (l : Loader) (sources : Sources) (p : Product)
    (t : Transfer) (r : ρ) : l.LoadsWholly f takes sources p t r := by
  cases hprepare : Loader.prepare sources p t with
  | error fault =>
    have hload : l.loadTransfer sources p t r = (.error fault, r) := by
      simp only [Loader.loadTransfer, hprepare]
    have hnot : ¬ ∃ pos a, Loader.Prepared sources p t pos a := by
      rintro ⟨pos, a, hprepared⟩
      cases (Loader.prepare_eq_ok.mpr hprepared).symm.trans hprepare
    constructor <;> simp [hload, hnot]
  | ok prepared =>
    obtain ⟨pos, a⟩ := prepared
    have hprepared := Loader.prepare_eq_ok.mp hprepare
    by_cases ht : takes t.block
    · obtain ⟨r', hstore, hstored⟩ := h.store_of_takes l p ht pos a r
      have hload : l.loadTransfer sources p t r = (.ok (), r') := by
        simp only [Loader.loadTransfer, hprepare, hstore]
      refine ⟨?_, fun _ => ⟨pos, a, hprepared, ?_⟩, ?_⟩
      · simp only [hload, ht, true_and, true_iff]
        exact ⟨pos, a, hprepared⟩
      · rw [hload]
        exact hstored
      · simp [hload]
    · obtain ⟨fault, hstore⟩ := h.store_of_refuses l p ht pos a r
      have hload : l.loadTransfer sources p t r = (.error (.store fault), r) := by
        simp only [Loader.loadTransfer, hprepare, hstore]
      constructor <;> simp [hload, ht]

/-- **A transfer is loaded wholly or not at all.** Whatever product and transfer, whatever the
sources answer and whatever is stored already: if loading the transfer fails, for whichever reason,
records are as they were before, and if it succeeds the rows of the block, the investor, the price
and the position hold what belongs to the transfer and no other row has changed. Records in memory
never refuse a row, records of texts do so if the block number has no signed 64-bit form. -/
theorem Loader.loads_wholly (l : Loader) (sources : Sources) (p : Product) (t : Transfer) :
    (∀ m : MemoryRecords, l.LoadsWholly MemoryRecords.form (fun _ => True) sources p t m) ∧
      ∀ c : SqliteRecordSink,
        l.LoadsWholly SqliteRecordSink.form (fun b => b.toNat < 2 ^ 63) sources p t c :=
  ⟨MemoryRecords.keyed.loadsWholly l sources p t, SqliteRecordSink.keyed.loadsWholly l sources p t⟩

/-! ## Half a share -/

namespace HalfAShare

def product : Product :=
  { id := 1, key := "beefy:vault:bsc:1", chain := .bsc, shareFeed := 11, underlyingFeed := 12
    retired := false, data := .vault ⟨"vault-1", .ofNat 0x1001, 18, 6⟩ }

def transfer : Transfer := ⟨35, .ofNat 7, 0, .ofNat 0x1001, .ofNat 5, -500000000000000000⟩

def sources : Sources := ({ rate := ⟨11, 1, by decide, by decide⟩ } : MockChain).sources

def time : Instant := ({} : MockChain).timeOf 35

/-- The rows of the transfer are read back from texts, with all four amounts. -/
theorem loads_wholly_in_texts :
    let load := Loader.loadTransfer ⟨.bsc, []⟩ sources product transfer ({} : SqliteRecordSink)
    let position : TransferData := ⟨time, 1500000000000000000, ⟨11, 1, by decide, by decide⟩⟩
    let amounts : Loader.Amounts :=
      { balance := ⟨15, 1, by decide, by decide⟩, change := ⟨-5, 1, by decide, by decide⟩
        underlyingBalance := ⟨165, 2, by decide, by decide⟩
        underlyingChange := ⟨-55, 2, by decide, by decide⟩ }
    load.1 = .ok () ∧ Loader.Prepared sources product transfer position amounts ∧
      Loader.Stored SqliteRecordSink.form ⟨.bsc, []⟩ product transfer position amounts
        (SqliteRecordSink.form.tables {}) (SqliteRecordSink.form.tables load.2) ∧
      load.2.rows? = some
        { blocks := [⟨.bsc, 35, time⟩], investors := [(.ofNat 5, 1)]
          prices := [⟨11, 35, time, ⟨11, 1, by decide, by decide⟩⟩]
          positions := [{
            product := 1, investor := 1, block := 35, time, transaction := .ofNat 7
            balance := ⟨15, 1, by decide, by decide⟩, change := ⟨-5, 1, by decide, by decide⟩
            underlyingBalance := ⟨165, 2, by decide, by decide⟩
            underlyingChange := ⟨-55, 2, by decide, by decide⟩ }] } := by
  intro load position amounts
  have hload : load.1 = .ok () := by decide +kernel
  have hwhole := (Loader.loads_wholly ⟨.bsc, []⟩ sources product transfer).2 {}
  obtain ⟨pos, a, hprepared, hstored⟩ := hwhole.stored hload
  have hposition : sources.position (transfer.request product) = .ok position := by decide +kernel
  obtain rfl : position = pos := Except.ok.inj (hposition.symm.trans hprepared.1)
  have hamounts : Loader.amounts product transfer position = .ok amounts := by decide +kernel
  obtain rfl : amounts = a :=
    Except.ok.inj (hamounts.symm.trans (Loader.amounts_eq_ok.mpr hprepared.2))
  exact ⟨hload, hprepared, hstored, by decide +kernel⟩

end HalfAShare

end Backfill
