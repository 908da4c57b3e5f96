import Backfill.Proofs.Cycle.TwoPlans
import Backfill.Proofs.Records.Lasting

/-!
# Rows that are refused

Records as columns refuse large block numbers, whatever is stored already. A sink that refuses
rows refuses the same ones for good, whatever is loaded into it, and a transfer none of whose rows
it refuses is stored as in the sink inside.

Results:
* `Loader.steady_columns`: what columns refuse does not depend on what they hold.
* `Refusing.broken_of_leads`: loading does not change what is refused.
* `Refusing.isOk_load`: when a transfer is stored whose rows are not refused.
-/
namespace Backfill

theorem Loader.steady_columns (l : Loader) (sources : Sources) (p : Product) (t : Transfer) :
    l.Steady SqliteRecordSink sources p t := by
  intro records records'
  by_cases hblock : t.block.toNat < 2 ^ 63 <;>
    simp only [loadTransfer, store, RecordSink.upsertBlock, RecordSink.upsertInvestor,
      RecordSink.upsertPrice, RecordSink.upsertInvestment, SqliteRecordSink.storing, blockRow,
      priceRow, positionRow, hblock, if_true, if_false] <;>
    split <;> rfl

namespace Refusing

variable {ρ : Type} [RecordSink ρ] {l : Loader} {p : Product} {t : Transfer} {r r' : Refusing ρ}

def rows (t : Transfer) : List String :=
  [("block", blockName t.block), ("investor", t.owner.text), ("price", blockName t.block),
    ("investment", blockName t.block)].map fun (kind, name) => kind ++ ":" ++ name

/-! ## What is refused -/

theorem broken_store (l : Loader) (p : Product) (t : Transfer) (pos : TransferData)
    (a : Loader.Amounts) (r : Refusing ρ) : (l.store p t pos a r).2.broken = r.broken := by
  unfold Loader.store
  split
  · rfl
  next hblock =>
  obtain ⟨_, -, rfl⟩ := accepting_map_eq_ok hblock
  split
  · rfl
  next hinvestor =>
  obtain ⟨⟨_, _⟩, -, heq⟩ := accepting_map_eq_ok hinvestor
  cases heq
  split
  · rfl
  next hprice =>
  obtain ⟨_, -, rfl⟩ := accepting_map_eq_ok hprice
  split
  · rfl
  next hposition =>
  obtain ⟨_, -, rfl⟩ := accepting_map_eq_ok hposition
  rfl

theorem broken_of_leads (h : l.Leads r r') : r'.broken = r.broken := by
  induction h with
  | refl => rfl
  | @load r' sources p t _ ih =>
    rw [← ih]
    unfold Loader.loadTransfer
    split
    · rfl
    next pos a _ =>
    have hstore := broken_store l p t pos a r'
    split <;> next heq => rwa [heq] at hstore

/-! ## What is not refused -/

/-- Storing a transfer none of whose rows is refused ends as it ends in the sink inside. -/
theorem store_fst (h : ∀ name ∈ rows t, name ∉ r.broken) (l : Loader) (p : Product)
    (pos : TransferData) (a : Loader.Amounts) : (l.store p t pos a r).1 =
    (l.store p t pos a r.inner).1 := by
  simp only [rows, List.map_cons, List.map_nil, List.forall_mem_cons] at h
  obtain ⟨hblock, hinvestor, hprice, hposition, -⟩ := h
  -- each row in turn goes to the sink inside, and what is refused stays as it is
  have hblock : RecordSink.upsertBlock r (l.blockRow t pos) =
      (RecordSink.upsertBlock r.inner (l.blockRow t pos)).map fun inner => { r with inner } :=
    if_neg hblock
  have hinvestor inner : RecordSink.upsertInvestor ({ r with inner } : Refusing ρ) t.owner =
      (RecordSink.upsertInvestor inner t.owner).map fun x => (x.1, { r with inner := x.2 }) :=
    if_neg hinvestor
  have hprice inner :
      RecordSink.upsertPrice ({ r with inner } : Refusing ρ) (Loader.priceRow p t pos) =
        (RecordSink.upsertPrice inner (Loader.priceRow p t pos)).map fun inner =>
          { r with inner } :=
    if_neg hprice
  have hposition inner id :
      RecordSink.upsertInvestment ({ r with inner } : Refusing ρ)
        (Loader.positionRow p t pos a id) =
        (RecordSink.upsertInvestment inner (Loader.positionRow p t pos a id)).map
          fun inner => { r with inner } :=
    if_neg hposition
  simp only [Loader.store, hblock]
  cases RecordSink.upsertBlock r.inner (l.blockRow t pos) with
  | error fault => rfl
  | ok inner =>
    simp only [Except.map, hinvestor]
    cases RecordSink.upsertInvestor inner t.owner with
    | error fault => rfl
    | ok x =>
      simp only [Except.map, hprice]
      cases RecordSink.upsertPrice x.2 (Loader.priceRow p t pos) with
      | error fault => rfl
      | ok inner =>
        simp only [Except.map, hposition]
        cases RecordSink.upsertInvestment inner (Loader.positionRow p t pos a x.1) <;> rfl

theorem isOk_load (h : ∀ name ∈ rows t, name ∉ r.broken) (l : Loader) (sources : Sources)
    (p : Product) : (l.loadTransfer sources p t r).1.isOk =
    (l.loadTransfer sources p t r.inner).1.isOk := by
  unfold Loader.loadTransfer
  cases Loader.prepare sources p t with
  | error fault => rfl
  | ok x =>
    have hstore := store_fst h l p x.1 x.2
    dsimp only
    cases hout : l.store p t x.1 x.2 r with
    | mk result after =>
      cases hinner : l.store p t x.1 x.2 r.inner with
      | mk result' after' =>
        rw [hout, hinner] at hstore
        obtain rfl : result = result' := hstore
        cases result <;> rfl

end Refusing
end Backfill
