import Backfill.Cycle.FetchedRange
import Backfill.Proofs.Records.Orders
import Backfill.Records.Columns
import Backfill.Mock.Stores

/-!
# Sinks that keep their rows

A sink may refuse a row, and it may write over a row that has the same key. If it is a lasting
one it never drops what it took: an investor keeps the number, and there is a position where there
was one. Loading a transfer then fails, or leaves a position of its owner behind for good.

Results:
* `LastingRecordSink`: sinks in memory and of texts are lasting, and so is one that refuses rows.
* `Loader.load_spec`: what loading one transfer leaves.
* `FetchedRange.loadAll_spec`: what loading any number of them leaves.
-/
namespace Backfill

/-! ## Rows that stay -/

namespace RecordTables

/-- Investors and positions of the first tables are in the second ones. -/
structure Kept (before after : RecordTables) : Prop where
  investors : ∀ e ∈ before.investors, e ∈ after.investors
  positions : ∀ key ∈ before.positions.map (·.1), key ∈ after.positions.map (·.1)

def HasPosition (tables : RecordTables) (p : Product) (t : Transfer) : Prop :=
  ∃ id, (t.owner, id) ∈ tables.investors ∧ (p.id, id, t.block) ∈ tables.positions.map (·.1)

variable {a b c : RecordTables}

theorem Kept.refl (a : RecordTables) : Kept a a := ⟨fun _ h => h, fun _ h => h⟩

theorem Kept.trans (h : Kept a b) (h' : Kept b c) : Kept a c :=
  ⟨fun e he => h'.investors e (h.investors e he), fun k hk => h'.positions k (h.positions k hk)⟩

theorem HasPosition.kept {p : Product} {t : Transfer} (h : a.HasPosition p t) (hk : Kept a b) :
    b.HasPosition p t :=
  h.imp fun _ ⟨howner, hkey⟩ => ⟨hk.investors _ howner, hk.positions _ hkey⟩

end RecordTables

/-- A sink that never drops a row. -/
class LastingRecordSink (ρ : Type) [RecordSink ρ] : Prop where
  upsertBlock : ∀ {r r' : ρ} {row : BlockRow}, RecordSink.upsertBlock r row = .ok r' →
    (RecordSink.tables r).Kept (RecordSink.tables r')
  upsertInvestor : ∀ {r r' : ρ} {owner : Address} {id : InvestorId},
    RecordSink.upsertInvestor r owner = .ok (id, r') →
      (RecordSink.tables r).Kept (RecordSink.tables r') ∧
        (owner, id) ∈ (RecordSink.tables r').investors
  upsertPrice : ∀ {r r' : ρ} {row : PriceRow}, RecordSink.upsertPrice r row = .ok r' →
    (RecordSink.tables r).Kept (RecordSink.tables r')
  upsertInvestment : ∀ {r r' : ρ} {row : InvestmentRow},
    RecordSink.upsertInvestment r row = .ok r' →
    (RecordSink.tables r).Kept (RecordSink.tables r') ∧
      row.key ∈ (RecordSink.tables r').positions.map (·.1)

/-! ## Sinks that are lasting -/

namespace Table

variable {κ β : Type} [DecidableEq κ]

theorem mem_keys_put {t : Table κ β} {k k' : κ} {v : β} :
    k' ∈ (t.put k v).entries.map (·.1) ↔ k' ∈ t.entries.map (·.1) ∨ k' = k := by
  rw [put, map_fst_place]
  split
  · next hk => exact ⟨.inl, fun h => h.elim id fun h => h ▸ hk⟩
  · simp

theorem mem_put_new {t : Table κ β} {k : κ} (h : t.get? k = none) (v : β) :
    (∀ e ∈ t.entries, e ∈ (t.put k v).entries) ∧ (k, v) ∈ (t.put k v).entries := by
  rw [entries_put h]
  exact ⟨fun e he => List.mem_append_left _ he, List.mem_append_right
    _ (List.mem_singleton.mpr rfl)⟩

end Table

namespace MemoryRecords

theorem positions_tables (m : MemoryRecords) :
    (RecordSink.tables m).positions.map (·.1) = m.positions.entries.map (·.1) := by
  simp [RecordSink.tables]

end MemoryRecords

instance : LastingRecordSink MemoryRecords where
  upsertBlock h := by
    cases h
    exact ⟨fun _ h => h, fun _ h => h⟩
  upsertInvestor {m m' owner id} h := by
    simp only [RecordSink.upsertInvestor, MemoryRecords.number, Except.ok.injEq] at h
    split at h
    · next hfound =>
      cases h
      exact ⟨.refl _, Table.get?_eq_some.mp hfound⟩
    · next hnew =>
      cases h
      obtain ⟨hold, hnow⟩ := Table.mem_put_new hnew (m.investors.size + 1)
      exact ⟨⟨hold, fun _ hk => hk⟩, hnow⟩
  upsertPrice h := by
    cases h
    exact ⟨fun _ h => h, fun _ h => h⟩
  upsertInvestment {m m' row} h := by
    cases h
    refine ⟨⟨fun _ h => h, fun key hkey => ?_⟩, ?_⟩
    · rw [MemoryRecords.positions_tables] at hkey ⊢
      exact Table.mem_keys_put.mpr (.inl hkey)
    · rw [MemoryRecords.positions_tables]
      exact Table.mem_keys_put.mpr (.inr rfl)

namespace SqliteRecordSink

theorem storing_eq_ok {block : BlockNumber} {c c' : SqliteRecordSink}
    (h : storing block c = .ok c') : c' = c := by
  unfold storing at h
  split at h
  · exact (Except.ok.inj h).symm
  · cases h

end SqliteRecordSink

instance : LastingRecordSink SqliteRecordSink where
  upsertBlock h := by
    rw [SqliteRecordSink.storing_eq_ok h]
    exact ⟨fun _ h => h, fun _ h => h⟩
  upsertInvestor {c c' owner id} h := by
    simp only [RecordSink.upsertInvestor, SqliteRecordSink.number, Except.ok.injEq] at h
    split at h
    · next hfound =>
      cases h
      exact ⟨⟨fun _ h => h, fun _ h => h⟩, Table.get?_eq_some.mp hfound⟩
    · next hnew =>
      cases h
      obtain ⟨hold, hnow⟩ := Table.mem_put_new hnew (c.issued + 1)
      exact ⟨⟨hold, fun _ hk => hk⟩, hnow⟩
  upsertPrice h := by
    rw [SqliteRecordSink.storing_eq_ok h]
    exact ⟨fun _ h => h, fun _ h => h⟩
  upsertInvestment h := by
    rw [SqliteRecordSink.storing_eq_ok h]
    refine ⟨⟨fun _ h => h, fun key hkey => ?_⟩, ?_⟩
    · exact Table.mem_keys_put.mpr (.inl hkey)
    · exact Table.mem_keys_put.mpr (.inr rfl)

namespace Refusing

variable {ρ β γ : Type} {r : Refusing ρ} {kind name : String}

theorem accepting_map_eq_ok {f : β → γ} {y : γ} {go : Except StoreFault β}
    (h : r.accepting kind name (go.map f) = .ok y) : ∃ x, go = .ok x ∧ f x = y := by
  unfold accepting at h
  split at h
  · cases h
  · cases go with
    | error fault => cases h
    | ok x => exact ⟨x, rfl, Except.ok.inj h⟩

end Refusing

instance {ρ : Type} [RecordSink ρ] [LastingRecordSink ρ] : LastingRecordSink (Refusing ρ) where
  upsertBlock h := by
    obtain ⟨inner, hput, rfl⟩ := Refusing.accepting_map_eq_ok h
    exact LastingRecordSink.upsertBlock (ρ := ρ) hput
  upsertInvestor h := by
    obtain ⟨⟨id, inner⟩, hput, heq⟩ := Refusing.accepting_map_eq_ok h
    cases heq
    exact LastingRecordSink.upsertInvestor (ρ := ρ) hput
  upsertPrice h := by
    obtain ⟨inner, hput, rfl⟩ := Refusing.accepting_map_eq_ok h
    exact LastingRecordSink.upsertPrice (ρ := ρ) hput
  upsertInvestment h := by
    obtain ⟨inner, hput, rfl⟩ := Refusing.accepting_map_eq_ok h
    exact LastingRecordSink.upsertInvestment (ρ := ρ) hput

/-! ## Loading -/

open RecordTables

variable {ρ : Type} [RecordSink ρ] [LastingRecordSink ρ]

namespace Loader

/-- Storing a transfer keeps what is there, also if it stops half way, and adds the position. -/
theorem store_spec (l : Loader) (p : Product) (t : Transfer) (pos : TransferData) (a : Amounts)
    (records : ρ) :
    Kept (RecordSink.tables records) (RecordSink.tables (l.store p t pos a records).2) ∧
      ((l.store p t pos a records).1 = .ok () →
        (RecordSink.tables (l.store p t pos a records).2).HasPosition p t) := by
  unfold store
  split
  · exact ⟨.refl _, nofun⟩
  next hblock =>
  have hblock := LastingRecordSink.upsertBlock hblock
  split
  · exact ⟨hblock, nofun⟩
  next id _ hinvestor =>
  obtain ⟨hinvestor, howner⟩ := LastingRecordSink.upsertInvestor hinvestor
  split
  · exact ⟨hblock.trans hinvestor, nofun⟩
  next hprice =>
  have hprice := LastingRecordSink.upsertPrice hprice
  split
  · exact ⟨(hblock.trans hinvestor).trans hprice, nofun⟩
  next hposition =>
  obtain ⟨hposition, hkey⟩ := LastingRecordSink.upsertInvestment hposition
  refine ⟨((hblock.trans hinvestor).trans hprice).trans hposition, fun _ => ⟨id, ?_, hkey⟩⟩
  exact hposition.investors _ (hprice.investors _ howner)

/-- Loading a transfer keeps what is there and fails or adds the position. -/
theorem load_spec (l : Loader) (sources : Sources) (p : Product) (t : Transfer) (records : ρ) :
    Kept (RecordSink.tables records) (RecordSink.tables (l.loadTransfer sources p t records).2) ∧
      ((l.loadTransfer sources p t records).1 = .ok () →
        (RecordSink.tables (l.loadTransfer sources p t records).2).HasPosition p t) := by
  unfold loadTransfer
  split
  · exact ⟨.refl _, nofun⟩
  next pos a _ =>
  have hstore := l.store_spec p t pos a records
  split
  · next heq =>
    rw [heq] at hstore
    exact ⟨hstore.1, nofun⟩
  · next heq =>
    rw [heq] at hstore
    exact ⟨hstore.1, fun _ => hstore.2 rfl⟩

end Loader

namespace FetchedRange

variable (l : Loader) (sources : Sources)

/-- **Loading.** Whatever is loaded, what was there before stays, and a transfer that is not among
the failures has its position. -/
theorem loadAll_spec (js : List (Product × Transfer)) (records : ρ) :
    Kept (RecordSink.tables records)
        (RecordSink.tables (loadAll l sources js records).2.1) ∧
      ∀ job ∈ js,
        (RecordSink.tables (loadAll l sources js records).2.1).HasPosition job.1 job.2 ∨
          ∃ x ∈ (loadAll l sources js records).1, x.product = job.1 ∧ x.transfer = job.2 := by
  induction js generalizing records with
  | nil => exact ⟨.refl _, by simp⟩
  | cons head js ih =>
    obtain ⟨p, t⟩ := head
    obtain ⟨hload, hposition⟩ := l.load_spec sources p t records
    obtain ⟨hrest, hjobs⟩ := ih (l.loadTransfer sources p t records).2
    refine ⟨hload.trans hrest, List.forall_mem_cons.mpr ⟨?_, fun job hjob => ?_⟩⟩
    · simp only [loadAll]
      cases hresult : (l.loadTransfer sources p t records).1 with
      | ok => exact .inl ((hposition hresult).kept hrest)
      | error fault => exact .inr ⟨⟨p, t, fault⟩, List.mem_cons_self .., rfl, rfl⟩
    · refine (hjobs job hjob).imp_right fun ⟨x, hx, heq⟩ => ⟨x, ?_, heq⟩
      simp only [loadAll]
      split
      · exact hx
      · exact List.mem_cons_of_mem _ hx

end FetchedRange
end Backfill
