import Backfill.Cycle.SnapshotRunner
import Backfill.Proofs.Records.Lasting

/-!
# Prices that stay

Of a sink that never loses a row, a snapshot runner needs what holds by the keys of blocks and
prices: a row that is taken is there, and none goes when another one comes. A sample is stored in
two steps, of which either may be refused. It counts as a success when both rows are there, and then
they stay.

Results:
* `RetainingSink`: sinks in memory and of texts are retaining, and so is one that refuses rows.
* `SnapshotRunner.store_spec`: what storing a sample leaves.
-/
namespace Backfill

/-! ## Rows that stay -/

namespace RecordTables

/-- Blocks and prices of the first tables are in the second ones, by what identifies them. -/
structure Retained (before after : RecordTables) : Prop where
  blocks : ∀ key ∈ before.blocks.map (·.1), key ∈ after.blocks.map (·.1)
  prices : ∀ key ∈ before.prices.map (·.1), key ∈ after.prices.map (·.1)

/-- There is a price of the feed at a block of the chain, and a row of that block. -/
structure HasPrice (tables : RecordTables) (chain : Chain) (feed : Int64) (block : BlockNumber) :
    Prop where
  blockRow : (chain, block) ∈ tables.blocks.map (·.1)
  priceRow : (feed, block) ∈ tables.prices.map (·.1)

variable {a b c : RecordTables}

theorem Retained.refl (a : RecordTables) : Retained a a := ⟨fun _ h => h, fun _ h => h⟩

theorem Retained.trans (h : Retained a b) (h' : Retained b c) : Retained a c :=
  ⟨fun k hk => h'.blocks k (h.blocks k hk), fun k hk => h'.prices k (h.prices k hk)⟩

theorem HasPrice.retained {chain : Chain} {feed : Int64} {block : BlockNumber}
    (h : a.HasPrice chain feed block) (hk : Retained a b) : b.HasPrice chain feed block :=
  ⟨hk.blocks _ h.blockRow, hk.prices _ h.priceRow⟩

end RecordTables

open RecordTables

/-- A sink that never loses a block or a price. -/
class RetainingSink (ρ : Type) [RecordSink ρ] : Prop where
  upsertBlock : ∀ {r r' : ρ} {row : BlockRow}, RecordSink.upsertBlock r row = .ok r' →
    Retained (RecordSink.tables r) (RecordSink.tables r') ∧
      row.key ∈ (RecordSink.tables r').blocks.map (·.1)
  upsertPrice : ∀ {r r' : ρ} {row : PriceRow}, RecordSink.upsertPrice r row = .ok r' →
    Retained (RecordSink.tables r) (RecordSink.tables r') ∧
      row.key ∈ (RecordSink.tables r').prices.map (·.1)

/-! ## Sinks that are retaining -/

namespace MemoryRecords

theorem blocks_tables (m : MemoryRecords) :
    (RecordSink.tables m).blocks.map (·.1) = m.blocks.entries.map (·.1) := by
  simp [RecordSink.tables]

theorem prices_tables (m : MemoryRecords) :
    (RecordSink.tables m).prices.map (·.1) = m.prices.entries.map (·.1) := by
  simp [RecordSink.tables]

end MemoryRecords

instance : RetainingSink MemoryRecords where
  upsertBlock {m m' row} h := by
    cases h
    refine ⟨⟨fun key hkey => ?_, fun _ h => h⟩, ?_⟩
    · rw [MemoryRecords.blocks_tables] at hkey ⊢
      exact Table.mem_keys_put.mpr (.inl hkey)
    · rw [MemoryRecords.blocks_tables]
      exact Table.mem_keys_put.mpr (.inr rfl)
  upsertPrice {m m' row} h := by
    cases h
    refine ⟨⟨fun _ h => h, fun key hkey => ?_⟩, ?_⟩
    · rw [MemoryRecords.prices_tables] at hkey ⊢
      exact Table.mem_keys_put.mpr (.inl hkey)
    · rw [MemoryRecords.prices_tables]
      exact Table.mem_keys_put.mpr (.inr rfl)

instance : RetainingSink SqliteRecordSink where
  upsertBlock h := by
    rw [SqliteRecordSink.storing_eq_ok h]
    exact ⟨⟨fun _ hk => Table.mem_keys_put.mpr (.inl hk), fun _ h => h⟩,
      Table.mem_keys_put.mpr (.inr rfl)⟩
  upsertPrice h := by
    rw [SqliteRecordSink.storing_eq_ok h]
    exact ⟨⟨fun _ h => h, fun _ hk => Table.mem_keys_put.mpr (.inl hk)⟩,
      Table.mem_keys_put.mpr (.inr rfl)⟩

instance {ρ : Type} [RecordSink ρ] [RetainingSink ρ] : RetainingSink (Refusing ρ) where
  upsertBlock h := by
    obtain ⟨inner, hput, rfl⟩ := Refusing.accepting_map_eq_ok h
    exact RetainingSink.upsertBlock (ρ := ρ) hput
  upsertPrice h := by
    obtain ⟨inner, hput, rfl⟩ := Refusing.accepting_map_eq_ok h
    exact RetainingSink.upsertPrice (ρ := ρ) hput

/-! ## Storing samples -/

namespace SnapshotRunner

variable {ρ : Type} [RecordSink ρ] [RetainingSink ρ] (s : SnapshotRunner)

/-- To store a reading keeps what is there, also if it stops half way, and adds both rows. -/
theorem storePrice_spec (p : Product) (block : BlockNumber) (time : Instant) (price : Decimal)
    (records : ρ) :
    Retained (RecordSink.tables records)
        (RecordSink.tables (s.storePrice p block time price records).2) ∧
      ((s.storePrice p block time price records).1 = .ok () →
        (RecordSink.tables (s.storePrice p block time price records).2).HasPrice s.chain
          p.shareFeed block) := by
  unfold storePrice
  split
  · exact ⟨.refl _, nofun⟩
  next hblock =>
  obtain ⟨hkept, hrow⟩ := RetainingSink.upsertBlock hblock
  split
  · exact ⟨hkept, nofun⟩
  next hprice =>
  obtain ⟨hkept', hrow'⟩ := RetainingSink.upsertPrice hprice
  exact ⟨hkept.trans hkept', fun _ => ⟨hkept'.blocks _ hrow, hrow'⟩⟩

/-- To store a sample keeps what is there. If it is a success, both rows are there. -/
theorem store_spec (x : Sample) (records : ρ) :
    Retained (RecordSink.tables records) (RecordSink.tables (s.store x records).2.1) ∧
      ((s.store x records).1.success = true →
        (RecordSink.tables (s.store x records).2.1).HasPrice s.chain x.product.shareFeed
          x.block) := by
  unfold store
  dsimp only
  split
  · exact ⟨.refl _, nofun⟩
  next time price _ =>
  have hreading := s.storePrice_spec x.product x.block time price records
  split
  · next heq =>
    rw [heq] at hreading
    exact ⟨hreading.1, fun _ => hreading.2 rfl⟩
  · next heq =>
    rw [heq] at hreading
    exact ⟨hreading.1, nofun⟩

end SnapshotRunner
end Backfill
