import Mathlib.Data.List.Nodup
import Mathlib.Logic.Equiv.Defs
import Backfill.Cycle.Runner
import Backfill.Records.Memory
import Backfill.Mock.Chain

/-!
# Records loaded in any order

Loading a transfer writes four rows over whatever is under their keys, and the order in which loads
end decides two things: which of several rows under one key is the last, and which numbers investors
get. The numbers are a matter of naming: `row?` looks rows up by an owner's address, and then a
memory is nothing but its last writes. What is left is the question whether the rows written under
one key are the same.

Results:
* `row?_load`, `row?_loaded`: one load, and any number of them, as writes.
* `alike_of_row?`: memories with the same rows are the same up to the numbers of investors.
* `loads_alike_iff`: loads may end in any order if and only if no two of them write different rows
  under one key.
-/
namespace Backfill

/-! ## Tables -/

namespace Table

variable {κ β : Type} [DecidableEq κ]

theorem get?_eq_some {t : Table κ β} {k : κ} {v : β} :
    t.get? k = some v ↔ (k, v) ∈ t.entries := by
  obtain ⟨es, hnodup⟩ := t
  simp only [get?]
  induction es with
  | nil => simp [find]
  | cons e es ih =>
    obtain ⟨k', v'⟩ := e
    rw [List.map_cons, List.nodup_cons] at hnodup
    unfold find
    split
    · next heq =>
      subst heq
      simp only [Option.some.injEq, List.mem_cons, Prod.mk.injEq, true_and]
      constructor
      · rintro rfl
        exact .inl rfl
      · rintro (rfl | hmem)
        · rfl
        · exact absurd (List.mem_map_of_mem hmem) hnodup.1
    · next hne =>
      rw [ih hnodup.2, List.mem_cons, Prod.mk.injEq]
      exact ⟨.inr, fun h => h.resolve_left fun h => hne h.1.symm⟩

/-- A new key comes last. -/
theorem entries_put {t : Table κ β} {k : κ} (h : t.get? k = none) (v : β) :
    (t.put k v).entries = t.entries ++ [(k, v)] := by
  obtain ⟨es, hnodup⟩ := t
  simp only [get?] at h
  simp only [put]
  clear hnodup
  induction es with
  | nil => rfl
  | cons e es ih =>
    obtain ⟨k', v'⟩ := e
    unfold find at h
    split at h
    · cases h
    · next hne => rw [place, if_neg hne, ih h, List.cons_append]

end Table

/-! ## Rows by owner -/

/-- What identifies a row, with the address of an investor in place of the number. -/
inductive RecordKey where
  | block (key : BlockKey)
  | investor (owner : Address)
  | price (key : PriceKey)
  | position (product : Int64) (owner : Address) (block : BlockNumber)
  deriving DecidableEq

/-- A row. That of an investor only says that there is one. -/
inductive RecordRow where
  | block (row : BlockRow)
  | investor
  | price (row : PriceRow)
  | position (row : InvestmentRow)
  deriving DecidableEq

def InvestmentRow.renumber (r : InvestmentRow) (id : InvestorId) : InvestmentRow :=
  { r with investor := id }

namespace MemoryRecords

/-- The row under a key, with no number in it. -/
def row? (m : MemoryRecords) : RecordKey → Option RecordRow
  | .block key => (m.blocks.get? key).map .block
  | .investor owner => (m.investors.get? owner).map fun _ => .investor
  | .price key => (m.prices.get? key).map .price
  | .position product owner block =>
    (m.investors.get? owner).bind fun id =>
      (m.positions.get? (product, id, block)).map fun r => .position (r.renumber 0)

/-- Investors are numbered from 1 as they came, and every position is that of an investor. -/
structure Consistent (m : MemoryRecords) : Prop where
  numbered : m.investors.entries.map (·.2) = List.range' 1 m.investors.size
  owned : ∀ product id block r, m.positions.get? (product, id, block) = some r →
    r.investor = id ∧ ∃ owner, m.investors.get? owner = some id

theorem consistent_empty : Consistent {} := ⟨rfl, by simp [Table.get?, Table.find]⟩

namespace Consistent

variable {m : MemoryRecords} (hm : m.Consistent) {owner owner' : Address} {id : InvestorId}

include hm

theorem number_le (h : m.investors.get? owner = some id) : id ≤ m.investors.size := by
  have hmem : id ∈ m.investors.entries.map (·.2) :=
    List.mem_map_of_mem (f := (·.2)) (Table.get?_eq_some.mp h)
  rw [hm.numbered, List.mem_range'_1] at hmem
  exact Nat.lt_one_add_iff.mp hmem.2

theorem owner_unique (h : m.investors.get? owner = some id)
    (h' : m.investors.get? owner' = some id) : owner = owner' := by
  have hnodup : (m.investors.entries.map (·.2)).Nodup := by
    rw [hm.numbered]
    exact List.nodup_range' ..
  have heq := List.inj_on_of_nodup_map hnodup (Table.get?_eq_some.mp h)
    (Table.get?_eq_some.mp h') rfl
  exact congrArg Prod.fst heq

end Consistent

/-! ## Writing a row -/

section Puts

variable {m : MemoryRecords} (hm : m.Consistent)

theorem row?_putBlock (r : BlockRow) (k : RecordKey) :
    row? { m with blocks := m.blocks.put r.key r } k =
      if .block r.key = k then some (.block r) else m.row? k := by
  cases k with
  | block key =>
    simp only [row?, Table.get?_put, RecordKey.block.injEq]
    split <;> rfl
  | investor => rfl
  | price => rfl
  | position => rfl

theorem row?_putPrice (r : PriceRow) (k : RecordKey) :
    row? { m with prices := m.prices.put r.key r } k =
      if .price r.key = k then some (.price r) else m.row? k := by
  cases k with
  | block => rfl
  | investor => rfl
  | price key =>
    simp only [row?, Table.get?_put, RecordKey.price.injEq]
    split <;> rfl
  | position => rfl

include hm

/-- What it takes to put a position: its investor's number is known. -/
theorem upsertInvestment {r : InvestmentRow} {owner : Address}
    (h : m.investors.get? owner = some r.investor) :
    Consistent { m with positions := m.positions.put r.key r } ∧ ∀ k,
      row? { m with positions := m.positions.put r.key r } k =
        if .position r.product owner r.block = k then some (.position (r.renumber 0))
        else m.row? k := by
  refine ⟨⟨hm.numbered, fun product id block r' hget => ?_⟩, fun k => ?_⟩
  · simp only [Table.get?_put] at hget
    split at hget
    · next hkey =>
      cases hget
      cases hkey
      exact ⟨rfl, owner, h⟩
    · exact hm.owned product id block r' hget
  · cases k with
    | block => rfl
    | investor => rfl
    | price => rfl
    | position product owner' block =>
      simp only [row?, RecordKey.position.injEq]
      cases hid : m.investors.get? owner' with
      | none =>
        rw [if_neg]
        · rfl
        · rintro ⟨-, rfl, -⟩
          exact absurd (hid.symm.trans h) (by simp)
      | some id =>
        simp only [Option.bind_some, Table.get?_put, InvestmentRow.key, Prod.mk.injEq]
        -- two investors do not share a number
        have howner : r.investor = id ↔ owner = owner' := by
          constructor
          · rintro rfl
            exact hm.owner_unique h hid
          · rintro rfl
            exact Option.some.inj (h.symm.trans hid)
        simp only [howner]
        split <;> rfl

/-- A new investor has no positions yet. -/
theorem number_spec (owner : Address) :
    (m.number owner).2.Consistent ∧
      (m.number owner).2.investors.get? owner = some (m.number owner).1 ∧
        ∀ k, (m.number owner).2.row? k =
          if .investor owner = k then some .investor else m.row? k := by
  unfold number
  split
  · next id hid =>
    refine ⟨hm, hid, fun k => ?_⟩
    split
    · next heq =>
      subst heq
      simp [row?, hid]
    · rfl
  · next hnone =>
    have hentries := Table.entries_put hnone (m.investors.size + 1)
    have hold : ∀ {owner' id}, m.investors.get? owner' = some id → owner ≠ owner' := by
      rintro _ id h rfl
      exact absurd (hnone.symm.trans h) (by simp)
    refine ⟨⟨?_, fun product id block r hget => ?_⟩, by simp, fun k => ?_⟩
    · change (m.investors.put owner (m.investors.size + 1)).entries.map (·.2) =
        List.range' 1 (m.investors.put owner (m.investors.size + 1)).entries.length
      rw [hentries, List.map_append, hm.numbered, List.length_append, List.length_singleton,
        List.range'_1_concat, Nat.add_comm 1]
      rfl
    · obtain ⟨hr, owner', howner⟩ := hm.owned product id block r hget
      refine ⟨hr, owner', ?_⟩
      rw [Table.get?_put, if_neg (hold howner), howner]
    · cases k with
      | block => rfl
      | price => rfl
      | investor owner' =>
        simp only [row?, Table.get?_put, RecordKey.investor.injEq]
        split <;> rfl
      | position product owner' block =>
        simp only [row?, Table.get?_put, reduceCtorEq, if_false]
        split
        · next heq =>
          subst heq
          rw [hnone, Option.bind_some, Option.bind_none, Option.map_eq_none_iff]
          by_contra hsome
          obtain ⟨r, hr⟩ := Option.ne_none_iff_exists'.mp hsome
          obtain ⟨-, owner', howner⟩ := hm.owned _ _ _ _ hr
          exact Nat.not_succ_le_self _ (hm.number_le howner)
        · rfl

end Puts

/-! ## The same records under other numbers -/

/-- The same records but for the numbers of investors. -/
structure Renumbered (π : Equiv.Perm InvestorId) (m m' : MemoryRecords) : Prop where
  blocks : ∀ key, m'.blocks.get? key = m.blocks.get? key
  investors : ∀ owner, m'.investors.get? owner = (m.investors.get? owner).map π
  prices : ∀ key, m'.prices.get? key = m.prices.get? key
  positions : ∀ product id block, m'.positions.get? (product, π id, block) =
    (m.positions.get? (product, id, block)).map fun r => r.renumber (π r.investor)

def Alike (m m' : MemoryRecords) : Prop := ∃ π, Renumbered π m m'

/-- Numbers are no part of a row looked up by owner. -/
theorem Renumbered.row?_eq {π : Equiv.Perm InvestorId} {m m' : MemoryRecords}
    (h : Renumbered π m m') (k : RecordKey) : m'.row? k = m.row? k := by
  cases k with
  | block key => rw [row?, row?, h.blocks]
  | investor owner => rw [row?, row?, h.investors, Option.map_map]; rfl
  | price key => rw [row?, row?, h.prices]
  | position product owner block =>
    rw [row?, row?, h.investors, Option.bind_map]
    refine Option.bind_congr fun id _ => ?_
    rw [Function.comp_apply, h.positions, Option.map_map]
    rfl

def owner? (m : MemoryRecords) (id : InvestorId) : Option Address :=
  (m.investors.entries.find? (·.2 = id)).map (·.1)

theorem owner?_eq_some {m : MemoryRecords} (hm : m.Consistent) {id : InvestorId}
    {owner : Address} : m.owner? id = some owner ↔ m.investors.get? owner = some id := by
  have hfound : ∀ {owner}, m.owner? id = some owner → m.investors.get? owner = some id := by
    intro owner h
    obtain ⟨⟨owner', id'⟩, hfind, rfl⟩ := Option.map_eq_some_iff.mp h
    obtain rfl : id' = id := by simpa using List.find?_some hfind
    exact Table.get?_eq_some.mpr (List.mem_of_find?_eq_some hfind)
  refine ⟨hfound, fun h => ?_⟩
  cases hnone : m.owner? id with
  | some owner' => rw [hm.owner_unique (hfound hnone) h]
  | none =>
    have hno := List.find?_eq_none.mp (Option.map_eq_none_iff.mp hnone) _ (Table.get?_eq_some.mp h)
    exact absurd rfl (of_decide_eq_false (Bool.eq_false_iff.mpr hno))

def renumbering (m m' : MemoryRecords) (id : InvestorId) : InvestorId :=
  ((m.owner? id).bind m'.investors.get?).getD id

section Same

variable {m m' : MemoryRecords} (hm : m.Consistent) (hm' : m'.Consistent)
  (hsame : ∀ owner, (m.investors.get? owner).isSome = (m'.investors.get? owner).isSome)

include hm

theorem numbered_iff {id : InvestorId} :
    (∃ owner, m.investors.get? owner = some id) ↔ id ∈ List.range' 1 m.investors.size := by
  rw [← hm.numbered, List.mem_map]
  constructor
  · rintro ⟨owner, h⟩
    exact ⟨(owner, id), Table.get?_eq_some.mp h, rfl⟩
  · rintro ⟨⟨owner, id⟩, h, rfl⟩
    exact ⟨owner, Table.get?_eq_some.mpr h⟩

theorem renumbering_of_get? {id id' : InvestorId} {owner : Address}
    (h : m.investors.get? owner = some id) (h' : m'.investors.get? owner = some id') :
    renumbering m m' id = id' := by
  rw [renumbering, (owner?_eq_some hm).mpr h, Option.bind_some, h', Option.getD_some]

include hm' hsame

omit hm hm' in
theorem size_eq_of_same : m.investors.size = m'.investors.size := by
  have hperm : m.investors.keys.Perm m'.investors.keys :=
    (List.perm_ext_iff_of_nodup m.investors.nodup m'.investors.nodup).mpr fun owner => by
      rw [← Table.keys, ← Table.keys, ← Table.get?_isSome_iff, hsame, Table.get?_isSome_iff]
  simpa [Table.keys, Table.size] using hperm.length_eq

theorem renumbering_renumbering (id : InvestorId) :
    renumbering m' m (renumbering m m' id) = id := by
  cases ho : m.owner? id with
  | some owner =>
    have h := (owner?_eq_some hm).mp ho
    obtain ⟨id', h'⟩ := Option.isSome_iff_exists.mp ((hsame owner).symm.trans (by simp [h]))
    rw [renumbering_of_get? hm h h', renumbering_of_get? hm' h' h]
  | none =>
    have ho' : m'.owner? id = none := by
      refine Option.eq_none_iff_forall_ne_some.mpr fun owner' h' => ?_
      have hid := (numbered_iff hm').mp ⟨owner', (owner?_eq_some hm').mp h'⟩
      rw [← size_eq_of_same hsame] at hid
      obtain ⟨owner, h⟩ := (numbered_iff hm).mpr hid
      exact absurd ((owner?_eq_some hm).mpr h) (by simp [ho])
    simp [renumbering, ho, ho']

end Same

/-- Rows looked up by owner are all that there is, but for numbers. -/
theorem alike_of_row? {m m' : MemoryRecords} (hm : m.Consistent) (hm' : m'.Consistent)
    (h : ∀ k, m'.row? k = m.row? k) : Alike m m' := by
  have hsame : ∀ owner, (m.investors.get? owner).isSome = (m'.investors.get? owner).isSome := by
    intro owner
    have howner := congrArg Option.isSome (h (.investor owner))
    rw [row?, row?, Option.isSome_map, Option.isSome_map] at howner
    exact howner.symm
  let π : Equiv.Perm InvestorId :=
    ⟨renumbering m m', renumbering m' m, renumbering_renumbering hm hm' hsame,
      renumbering_renumbering hm' hm fun owner => (hsame owner).symm⟩
  have hinvestors : ∀ owner, m'.investors.get? owner = (m.investors.get? owner).map π := by
    intro owner
    have howner := hsame owner
    cases hid : m.investors.get? owner with
    | none => rw [Option.map_none, ← Option.not_isSome_iff_eq_none, ← howner, hid]; simp
    | some id =>
      obtain ⟨id', hid'⟩ := Option.isSome_iff_exists.mp (howner.symm.trans (by simp [hid]))
      rw [hid', Option.map_some]
      exact congrArg some (renumbering_of_get? hm hid hid').symm
  refine ⟨π, fun key => ?_, hinvestors, fun key => ?_, fun product id block => ?_⟩
  · exact Option.map_injective (fun _ _ => RecordRow.block.inj) (h (.block key))
  · exact Option.map_injective (fun _ _ => RecordRow.price.inj) (h (.price key))
  · cases ho : m.owner? id with
    | some owner =>
      have hid := (owner?_eq_some hm).mp ho
      have hid' : m'.investors.get? owner = some (π id) := by rw [hinvestors, hid]; rfl
      have hrow := h (.position product owner block)
      simp only [row?, hid, hid', Option.bind_some] at hrow
      cases hr : m.positions.get? (product, id, block) with
      | none => simpa [hr] using hrow
      | some r =>
        simp only [hr, Option.map_some] at hrow
        obtain ⟨r', hr', hrow⟩ := Option.map_eq_some_iff.mp hrow
        have heq := RecordRow.position.inj hrow
        have hid := (hm.owned _ _ _ _ hr).1
        have hid' := (hm'.owned _ _ _ _ hr').1
        rw [hr', Option.map_some, Option.some.injEq, hid, ← hid']
        exact congrArg (·.renumber r'.investor) heq
    | none =>
      have hnone : ∀ owner, m.investors.get? owner ≠ some id := fun owner hid =>
        absurd ((owner?_eq_some hm).mpr hid) (by simp [ho])
      have hr : m.positions.get? (product, id, block) = none := by
        refine Option.eq_none_iff_forall_ne_some.mpr fun r hr => ?_
        obtain ⟨-, owner, hid⟩ := hm.owned _ _ _ _ hr
        exact hnone owner hid
      rw [hr, Option.map_none]
      refine Option.eq_none_iff_forall_ne_some.mpr fun r hr => ?_
      obtain ⟨-, owner, hid⟩ := hm'.owned _ _ _ _ hr
      rw [hinvestors] at hid
      obtain ⟨id', hid', heq⟩ := Option.map_eq_some_iff.mp hid
      exact hnone owner (π.injective heq ▸ hid')

end MemoryRecords

/-! ## Loads as writes -/

/-- What is under a key once rows have been written over what was there. -/
def overwrite (k : RecordKey) (ws : List (RecordKey × RecordRow)) (old : Option RecordRow) :
    Option RecordRow :=
  ws.foldl (fun row w => if w.1 = k then some w.2 else row) old

/-- The rows written under a key are all the same. -/
def Agree (ws : List (RecordKey × RecordRow)) (k : RecordKey) : Prop :=
  ∀ w ∈ ws, ∀ w' ∈ ws, w.1 = k → w'.1 = k → w.2 = w'.2

section Overwrite

variable {k : RecordKey} {ws ws' : List (RecordKey × RecordRow)} {old : Option RecordRow}

theorem overwrite_append :
    overwrite k (ws ++ ws') old = overwrite k ws' (overwrite k ws old) :=
  List.foldl_append

theorem overwrite_of_perm (h : ws.Perm ws') (hagree : Agree ws k) :
    overwrite k ws old = overwrite k ws' old := by
  refine h.foldl_eq' (fun w hw w' hw' row => ?_) old
  by_cases hk : w.1 = k
  · by_cases hk' : w'.1 = k
    · simp only [hk, hk', if_true, hagree w hw w' hw' hk hk']
    · simp only [hk, hk', if_true, if_false]
  · simp only [hk, if_false]

theorem Agree.of_perm (h : ws.Perm ws') (hagree : Agree ws k) : Agree ws' k :=
  fun w hw w' hw' => hagree w (h.mem_iff.mpr hw) w' (h.mem_iff.mpr hw')

end Overwrite

namespace Loader

variable {l : Loader} {sources : Sources}

/-- The rows of a leg under their keys; none if its position cannot be read or converted. -/
def writes (l : Loader) (sources : Sources) (job : Product × Transfer) :
    List (RecordKey × RecordRow) :=
  match prepare sources job.1 job.2 with
  | .error _ => []
  | .ok (pos, a) =>
    [(.block (l.blockRow job.2 pos).key, .block (l.blockRow job.2 pos)),
     (.investor job.2.owner, .investor),
     (.price (priceRow job.1 job.2 pos).key, .price (priceRow job.1 job.2 pos)),
     (.position job.1.id job.2.owner job.2.block, .position (positionRow job.1 job.2 pos a 0))]

def loaded (l : Loader) (sources : Sources) (jobs : List (Product × Transfer))
    (m : MemoryRecords) : MemoryRecords :=
  (FetchedRange.loadAll l sources jobs m).2.1

theorem overwrite_writes {job : Product × Transfer} {w : RecordKey × RecordRow}
    (h : w ∈ l.writes sources job) (old : Option RecordRow) :
    overwrite w.1 (l.writes sources job) old = some w.2 := by
  unfold writes at h ⊢
  split at h
  · exact absurd h (List.not_mem_nil)
  · simp only [List.mem_cons, List.not_mem_nil, or_false] at h
    rcases h with rfl | rfl | rfl | rfl <;> simp [overwrite]

/-- Loading a leg writes its rows. -/
theorem row?_load (l : Loader) (sources : Sources) {m : MemoryRecords} (hm : m.Consistent)
    (p : Product) (t : Transfer) :
    (l.loadTransfer sources p t m).2.Consistent ∧
      ∀ k, (l.loadTransfer sources p t m).2.row? k = overwrite k (l.writes sources (p, t))
        (m.row? k) := by
  unfold loadTransfer writes
  cases hprepare : prepare sources p t with
  | error fault => exact ⟨hm, fun _ => rfl⟩
  | ok prepared =>
    obtain ⟨pos, a⟩ := prepared
    let m₁ : MemoryRecords :=
      { m with blocks := m.blocks.put (l.blockRow t pos).key (l.blockRow t pos) }
    have hm₁ : m₁.Consistent := ⟨hm.numbered, hm.owned⟩
    obtain ⟨hm₂, hid, hrow₂⟩ := MemoryRecords.number_spec hm₁ t.owner
    let m₂ := (m₁.number t.owner).2
    let m₃ : MemoryRecords :=
      { m₂ with prices := m₂.prices.put (priceRow p t pos).key (priceRow p t pos) }
    have hm₃ : m₃.Consistent := ⟨hm₂.numbered, hm₂.owned⟩
    let row := positionRow p t pos a (m₁.number t.owner).1
    obtain ⟨hm₄, hrow₄⟩ := MemoryRecords.upsertInvestment (r := row) hm₃ hid
    refine ⟨hm₄, fun k => (hrow₄ k).trans ?_⟩
    rw [MemoryRecords.row?_putPrice, hrow₂, MemoryRecords.row?_putBlock]
    rfl

/-- The last row written under a key is what is there in the end. -/
theorem row?_loaded {m : MemoryRecords} (hm : m.Consistent) (jobs : List (Product × Transfer)) :
    (l.loaded sources jobs m).Consistent ∧ ∀ k, (l.loaded sources jobs m).row? k =
      overwrite k (jobs.flatMap (l.writes sources)) (m.row? k) := by
  induction jobs generalizing m with
  | nil => exact ⟨hm, fun _ => rfl⟩
  | cons job jobs ih =>
    obtain ⟨hload, hrow⟩ := row?_load l sources hm job.1 job.2
    obtain ⟨hloaded, hrows⟩ := ih hload
    refine ⟨hloaded, fun k => (hrows k).trans ?_⟩
    rw [hrow, List.flatMap_cons, overwrite_append]

/-! ## Orders -/

/-- If two legs write different rows under a key, either can be the last. -/
theorem exists_orders {jobs : List (Product × Transfer)} {k : RecordKey}
    (h : ¬ Agree (jobs.flatMap (l.writes sources)) k) (old : Option RecordRow) :
    ∃ js js' : List (Product × Transfer), js.Perm jobs ∧ js'.Perm jobs ∧
      overwrite k (js.flatMap (l.writes sources)) old ≠
        overwrite k (js'.flatMap (l.writes sources)) old := by
  simp only [Agree, not_forall] at h
  obtain ⟨w, hw, w', hw', rfl, hk, hne⟩ := h
  obtain ⟨job, hjob, hw⟩ := List.mem_flatMap.mp hw
  obtain ⟨job', hjob', hw'⟩ := List.mem_flatMap.mp hw'
  have hlast := overwrite_writes hw
  have hlast' := hk ▸ overwrite_writes hw'
  have hjobs : job' ≠ job := by
    rintro rfl
    exact hne (Option.some.inj ((hlast old).symm.trans (hlast' old)))
  have hperm : (job :: job' :: (jobs.erase job).erase job').Perm jobs :=
    ((List.perm_cons_erase ((List.mem_erase_of_ne hjobs).mpr hjob')).symm.cons job).trans
      (List.perm_cons_erase hjob).symm
  refine ⟨(jobs.erase job).erase job' ++ [job', job], (jobs.erase job).erase job' ++ [job, job'],
    ?_, ?_, ?_⟩
  · exact List.perm_append_comm.trans ((List.Perm.swap job job' _).trans hperm)
  · exact List.perm_append_comm.trans hperm
  · simp only [List.flatMap_append, List.flatMap_cons, List.flatMap_nil, List.append_nil,
      overwrite_append, hlast, hlast']
    exact fun heq => hne (Option.some.inj heq)

/-- **Order of loads.** Under a key, records are the same in whatever order loads end if and only if
the legs agree on the row under it. If they agree under every key, then all is the same up to the
numbers of investors; if not, it is not. -/
theorem loads_alike_iff {m : MemoryRecords} (hm : m.Consistent)
    (jobs : List (Product × Transfer)) :
    (∀ k, (∀ js js', js.Perm jobs → js'.Perm jobs →
        (l.loaded sources js' m).row? k = (l.loaded sources js m).row? k) ↔
      Agree (jobs.flatMap (l.writes sources)) k) ∧
    ((∀ js js', js.Perm jobs → js'.Perm jobs →
        MemoryRecords.Alike (l.loaded sources js m) (l.loaded sources js' m)) ↔
      ∀ k, Agree (jobs.flatMap (l.writes sources)) k) := by
  have hkey : ∀ k, (∀ js js', js.Perm jobs → js'.Perm jobs →
      (l.loaded sources js' m).row? k = (l.loaded sources js m).row? k) ↔
        Agree (jobs.flatMap (l.writes sources)) k := by
    intro k
    constructor
    · intro hsame
      by_contra hne
      obtain ⟨js, js', hjs, hjs', hrow⟩ := exists_orders hne (m.row? k)
      rw [← (row?_loaded hm js).2, ← (row?_loaded hm js').2] at hrow
      exact hrow (hsame js js' hjs hjs').symm
    · intro hagree js js' hjs hjs'
      rw [(row?_loaded hm js).2, (row?_loaded hm js').2]
      have hperm := (hjs'.trans hjs.symm).flatMap_right (l.writes sources)
      exact overwrite_of_perm hperm (hagree.of_perm (hjs'.symm.flatMap_right _))
  refine ⟨hkey, fun halike k => (hkey k).mp fun js js' hjs hjs' => ?_,
    fun hagree js js' hjs hjs' => ?_⟩
  · obtain ⟨π, hπ⟩ := halike js js' hjs hjs'
    exact hπ.row?_eq k
  · exact MemoryRecords.alike_of_row? (row?_loaded hm js).1 (row?_loaded hm js').1 fun k =>
      (hkey k).mpr (hagree k) js js' hjs hjs'

end Loader

/-! ## Transfers of one block -/

namespace SameBlock

def product : Product :=
  { id := 1, key := "beefy:vault:bsc:1", chain := .bsc, shareFeed := 11, underlyingFeed := 12
    retired := false, data := .vault ⟨"vault-1", .ofNat 0x1001, 18, 18⟩ }

def legs : List (Product × Transfer) :=
  [(product, ⟨35, .ofNat 1, 0, .ofNat 0x1001, .ofNat 5, -1⟩),
   (product, ⟨35, .ofNat 1, 0, .ofNat 0x1001, .ofNat 6, 1⟩)]

/-- The legs of a transfer agree, so who comes first only decides on numbers. -/
theorem loads_alike_of_legs :
    let there := Loader.loaded ⟨.bsc, []⟩ ({} : MockChain).sources legs {}
    let back := Loader.loaded ⟨.bsc, []⟩ ({} : MockChain).sources legs.reverse {}
    MemoryRecords.Alike there back ∧ there.investors.get? (.ofNat 5) = some 1 ∧
      back.investors.get? (.ofNat 5) = some 2 := by
  have hagree : ∀ w ∈ legs.flatMap (Loader.writes ⟨.bsc, []⟩ ({} : MockChain).sources),
      ∀ w' ∈ legs.flatMap (Loader.writes ⟨.bsc, []⟩ ({} : MockChain).sources),
        w.1 = w'.1 → w.2 = w'.2 := by
    decide +kernel
  have halike := (Loader.loads_alike_iff MemoryRecords.consistent_empty legs).2.mpr
    fun k w hw w' hw' hk hk' => hagree w hw w' hw' (hk.trans hk'.symm)
  exact ⟨halike legs legs.reverse (.refl _) (List.reverse_perm _), by decide +kernel,
    by decide +kernel⟩

/-- One owner takes part in two transfers of a block. -/
def mock : MockChain :=
  { latest := .ok 40, creations := [(.ofNat 0x1001, 10)]
    transfers :=
      [⟨35, .ofNat 1, 0, .ofNat 0x1001, .ofNat 5, -1000000000000000000⟩,
       ⟨35, .ofNat 2, 1, .ofNat 0x1001, .ofNat 5, 3000000000000000000⟩] }

/-- A cycle over the transfers, whose loads end in some order. -/
def runCycle (loadOrder : Arrangement (Product × Transfer)) :
    RunnerState BlockNumber (MemoryImportStateStore BlockNumber) MemoryRecords :=
  ((Runner.ofBehaviour .bsc (Behaviour.ofMode .historical)).runCycle
    { sources := mock.sources, now := 5, loadOrder } [product]
    { states := ⟨.empty⟩, records := ⟨.empty, .empty, .empty, .empty⟩ }).2

/-- Loads end in the order opposite to that in which they were begun. -/
def backwards : Arrangement (Product × Transfer) := ⟨List.reverse, List.reverse_perm⟩

/-- The two transfers are one row, which is that of the one loaded last. -/
theorem cycle_not_alike :
    (runCycle .inOrder).progress.stage = .done ∧ (runCycle backwards).progress.stage = .done ∧
      ¬ MemoryRecords.Alike (runCycle .inOrder).records (runCycle backwards).records := by
  refine ⟨by decide +kernel, by decide +kernel, fun ⟨π, hπ⟩ => ?_⟩
  exact absurd (hπ.row?_eq (.position 1 (.ofNat 5) 35)) (by decide +kernel)

end SameBlock

end Backfill
