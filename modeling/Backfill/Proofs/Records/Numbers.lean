import Mathlib.Data.List.Induction
import Mathlib.Logic.Equiv.Basic
import Backfill.Proofs.Records.Columns
import Backfill.Proofs.Records.Orders

/-!
# The numbers of investors

A sink in memory counts its investors, while a sink of texts sets a number aside every time it
is asked for one, so the two give different numbers to the same investors. Whoever writes a position
names its investor by the number that the sink gave. The two sinks then hold the same rows
under a renaming of numbers: it is the renaming so far, corrected by a swap when an investor is new
to both, and what it did to the numbers given out before stays.

Results:
* `Recording.record_paired`, `Recording.all_paired`: one entry, and any number of them, written to
  both sinks.
* `MemoryRecords.all_again`: to write the same entries a second time changes nothing in memory.
* `Recording.same_records`: the two sinks end with the same rows but for numbers, and keep them
  when everything is written again.
-/
namespace Backfill

/-! ## Tables -/

namespace Table

variable {κ κ' β β' : Type} [DecidableEq κ] [DecidableEq κ']

theorem map_place {f : κ → κ'} (hf : f.Injective) (g : β → β') (k : κ) (v : β)
    (es : List (κ × β)) :
    (place k v es).map (fun e => (f e.1, g e.2)) =
      place (f k) (g v) (es.map fun e => (f e.1, g e.2)) := by
  induction es with
  | nil => rfl
  | cons e es ih =>
    simp only [place, List.map_cons, hf.eq_iff]
    split
    · rfl
    · rw [List.map_cons, ih]

theorem find_map {f : κ → κ'} (hf : f.Injective) (g : β → β') (k : κ) (es : List (κ × β)) :
    find (f k) (es.map fun e => (f e.1, g e.2)) = (find k es).map g := by
  induction es with
  | nil => rfl
  | cons e es ih =>
    simp only [find, List.map_cons, hf.eq_iff, ih]
    split <;> rfl

theorem mem_of_mem_place {k : κ} {v : β} {es : List (κ × β)} {e : κ × β} (h : e ∈ place k v es) :
    e = (k, v) ∨ e ∈ es := by
  induction es with
  | nil => exact .inl (List.mem_singleton.mp h)
  | cons e' es ih =>
    rw [place] at h
    split at h
    · exact (List.mem_cons.mp h).imp_right (List.mem_cons_of_mem _)
    · rcases List.mem_cons.mp h with rfl | h
      · exact .inr List.mem_cons_self
      · exact (ih h).imp_right (List.mem_cons_of_mem _)

theorem mem_of_find {k : κ} {v : β} {es : List (κ × β)} (h : find k es = some v) :
    (k, v) ∈ es := by
  induction es with
  | nil => simp [find] at h
  | cons e es ih =>
    obtain ⟨k', v'⟩ := e
    unfold find at h
    split at h
    · next heq => simp_all
    · exact List.mem_cons_of_mem _ (ih h)

theorem exists_find {k : κ} {es : List (κ × β)} (h : k ∈ es.map (·.1)) :
    ∃ v, find k es = some v := by
  induction es with
  | nil => simp at h
  | cons e es ih =>
    simp only [List.map_cons, List.mem_cons] at h
    unfold find
    split
    · exact ⟨_, rfl⟩
    · next hne => exact ih (h.resolve_left fun heq => hne heq.symm)

def putAll (ws : List (κ × β)) (t : Table κ β) : Table κ β := ws.foldl (fun t w => t.put w.1 w.2) t

@[simp] theorem putAll_nil (t : Table κ β) : putAll [] t = t := rfl

@[simp] theorem putAll_cons (w : κ × β) (ws : List (κ × β)) (t : Table κ β) :
    putAll (w :: ws) t = putAll ws (t.put w.1 w.2) := rfl

/-- A table is its keys, in order, with the value of each. -/
theorem eq_of_get? {t t' : Table κ β} (hkeys : t.keys = t'.keys)
    (hget : ∀ k, t.get? k = t'.get? k) : t = t' := by
  have hvalues : ∀ s : Table κ β, s.entries = s.keys.filterMap fun k => (s.get? k).map (k, ·) := by
    intro s
    rw [keys, List.filterMap_map]
    symm
    calc s.entries.filterMap _ = s.entries.filterMap some :=
          List.filterMap_congr fun e he => by simp [get?_eq_some.mpr he]
      _ = s.entries := List.filterMap_some
  have hentries : t.entries = t'.entries := by rw [hvalues t, hvalues t', hkeys]; simp only [hget]
  cases t
  cases t'
  cases hentries
  rfl

theorem mem_keys_putAll {ws : List (κ × β)} {t : Table κ β} {k : κ} :
    k ∈ (putAll ws t).keys ↔ k ∈ t.keys ∨ k ∈ ws.map (·.1) := by
  induction ws generalizing t with
  | nil => simp
  | cons w ws ih =>
    rw [putAll_cons, ih, ← get?_isSome_iff, get?_put, List.map_cons, List.mem_cons]
    by_cases hk : w.1 = k
    · simp [hk]
    · have hk' : k ≠ w.1 := fun heq => hk heq.symm
      simp [hk, hk', get?_isSome_iff]

/-- Nothing is added under keys that are there. -/
theorem keys_putAll {ws : List (κ × β)} {t : Table κ β} (h : ∀ k ∈ ws.map (·.1), k ∈ t.keys) :
    (putAll ws t).keys = t.keys := by
  induction ws generalizing t with
  | nil => rfl
  | cons w ws ih =>
    have hput : (t.put w.1 w.2).keys = t.keys := by
      have hk : w.1 ∈ t.entries.map (·.1) := h w.1 (by simp)
      rw [keys, put, map_fst_place, if_pos hk, keys]
    rw [putAll_cons, ih, hput]
    intro k hk
    rw [hput]
    exact h k (by simp_all)

theorem put_self {t : Table κ β} {k : κ} {v : β} (h : t.get? k = some v) : t.put k v = t := by
  have hk : k ∈ t.keys := by rw [← get?_isSome_iff, h]; rfl
  have hkeys : (putAll [(k, v)] t).keys = t.keys := keys_putAll (by simpa using hk)
  refine eq_of_get? hkeys fun k' => ?_
  rw [get?_put]
  split
  · next heq => rw [← heq, h]
  · rfl

/-- The last value written under a key counts, and without one what was there. -/
theorem get?_putAll (ws : List (κ × β)) (t : Table κ β) (k : κ) :
    (putAll ws t).get? k = (find k ws.reverse).or (t.get? k) := by
  induction ws using List.reverseRecOn with
  | nil => rfl
  | append_singleton ws w ih =>
    have hlast : putAll (ws ++ [w]) t = (putAll ws t).put w.1 w.2 := List.foldl_append
    simp only [hlast, get?_put, List.reverse_append, List.reverse_cons, List.reverse_nil,
      List.nil_append, List.singleton_append, find, ih]
    split <;> rfl

theorem putAll_putAll (ws : List (κ × β)) (t : Table κ β) :
    putAll ws (putAll ws t) = putAll ws t := by
  refine eq_of_get? (keys_putAll fun k hk => mem_keys_putAll.mpr (.inr hk)) fun k => ?_
  simp only [get?_putAll]
  cases find k ws.reverse <;> rfl

end Table

/-! ## Entries -/

/-- Something asked of a sink. A position is that of an owner; the number in the row is none yet,
and is the one that the sink gave. -/
inductive Entry where
  | block (row : BlockRow)
  | investor (owner : Address)
  | price (row : PriceRow)
  | position (owner : Address) (row : InvestmentRow)
  deriving DecidableEq

namespace Entry

/-- The block number has a signed 64-bit form. -/
def Storable : Entry → Prop
  | block row => row.block.toNat < 2 ^ 63
  | investor _ => True
  | price row => row.block.toNat < 2 ^ 63
  | position _ row => row.block.toNat < 2 ^ 63

def asked : Entry → List Address
  | investor owner => [owner]
  | _ => []

def Within (owners : List Address) : Entry → Prop
  | position owner _ => owner ∈ owners
  | _ => True

/-- The number of an owner is asked for before any position of that owner, unless it is there from
the start. -/
def Announced (owners : List Address) : List Entry → Prop
  | [] => True
  | e :: es => e.Within owners ∧ Announced (e.asked ++ owners) es

/-- More owners do no harm. -/
theorem Announced.mono {es : List Entry} {owners owners' : List Address}
    (h : Announced owners es) (hsub : owners ⊆ owners') : Announced owners' es := by
  induction es generalizing owners owners' with
  | nil => trivial
  | cons e es ih =>
    refine ⟨?_, ih h.2 (List.append_subset.mpr ⟨?_, ?_⟩)⟩
    · cases e with
      | position owner row => exact hsub h.1
      | block | investor | price => trivial
    · exact List.subset_append_left ..
    · exact List.Subset.trans hsub (List.subset_append_right ..)

end Entry

/-- A sink that is written to, with every number that it gave, the last one first. -/
structure Recording (ρ : Type) where
  records : ρ
  given : List (Address × InvestorId) := []

namespace Recording

variable {ρ : Type} [RecordSink ρ]

/-- Asks one thing of the sink; nothing if that is refused, or if a number is needed that the
sink has not given. -/
def record (s : Recording ρ) : Entry → Option (Recording ρ)
  | .block row =>
    (RecordSink.upsertBlock s.records row).toOption.map fun records => { s with records }
  | .investor owner =>
    (RecordSink.upsertInvestor s.records owner).toOption.map fun x =>
      ⟨x.2, (owner, x.1) :: s.given⟩
  | .price row =>
    (RecordSink.upsertPrice s.records row).toOption.map fun records => { s with records }
  | .position owner row =>
    (Table.find owner s.given).bind fun id =>
      (RecordSink.upsertInvestment s.records (row.renumber id)).toOption.map fun records =>
        { s with records }

def all (s : Recording ρ) (es : List Entry) : Option (Recording ρ) := es.foldlM record s

@[simp] theorem all_nil (s : Recording ρ) : s.all [] = some s := rfl

@[simp] theorem all_cons (s : Recording ρ) (e : Entry) (es : List Entry) :
    s.all (e :: es) = (s.record e).bind fun s' => s'.all es := rfl

theorem all_append (s : Recording ρ) (es es' : List Entry) :
    s.all (es ++ es') = (s.all es).bind fun s' => s'.all es' :=
  List.foldlM_append ..

/-- An owner always gets the same number, and two owners do not share one. -/
def Faithful (s : Recording ρ) : Prop :=
  ∀ x ∈ s.given, ∀ y ∈ s.given, x.1 = y.1 ↔ x.2 = y.2

end Recording

/-! ## Renaming -/

def InvestmentKey.renumber (π : InvestorId → InvestorId) (k : InvestmentKey) : InvestmentKey :=
  (k.1, π k.2.1, k.2.2)

theorem InvestmentKey.renumber_injective {π : InvestorId → InvestorId} (h : π.Injective) :
    (renumber π).Injective := by
  intro k k' heq
  simp only [renumber, Prod.mk.injEq, h.eq_iff] at heq
  exact Prod.ext heq.1 (Prod.ext heq.2.1 heq.2.2)

def RecordTables.renumber (π : InvestorId → InvestorId) (t : RecordTables) : RecordTables :=
  { t with
    investors := t.investors.map fun e => (e.1, π e.2)
    positions := t.positions.map fun e => (InvestmentKey.renumber π e.1, e.2) }

def RecordRows.renumber (π : InvestorId → InvestorId) (rows : RecordRows) : RecordRows :=
  { rows with
    investors := rows.investors.map fun e => (e.1, π e.2)
    positions := rows.positions.map fun r => r.renumber (π r.investor) }

namespace MemoryRecords

variable {m : MemoryRecords}

structure Filed (m : MemoryRecords) : Prop where
  blocks : ∀ e ∈ m.blocks.entries, e.1 = e.2.key
  prices : ∀ e ∈ m.prices.entries, e.1 = e.2.key
  positions : ∀ e ∈ m.positions.entries, e.1 = e.2.key

/-- Only the numbers given out count in a renaming. -/
theorem Consistent.renumber_congr (hm : m.Consistent) {π π' : InvestorId → InvestorId}
    (h : ∀ owner id, m.investors.get? owner = some id → π' id = π id) :
    (RecordSink.tables m).renumber π' = (RecordSink.tables m).renumber π := by
  have hinvestors : ∀ e ∈ m.investors.entries, π' e.2 = π e.2 := fun e he =>
    h e.1 e.2 (Table.get?_eq_some.mpr he)
  have hpositions : ∀ e ∈ m.positions.entries, π' e.1.2.1 = π e.1.2.1 := by
    intro e he
    obtain ⟨-, owner, howner⟩ := hm.owned e.1.1 e.1.2.1 e.1.2.2 e.2 (Table.get?_eq_some.mpr he)
    exact h owner _ howner
  simp only [RecordTables.renumber, RecordSink.tables, RecordTables.mk.injEq, List.map_map,
    true_and]
  refine ⟨List.map_congr_left fun e he => ?_, List.map_congr_left fun e he => ?_⟩
  · rw [hinvestors e he]
  · simp only [Function.comp_apply, InvestmentKey.renumber, hpositions e he]

end MemoryRecords

theorem exists_renaming (π : Equiv.Perm InvestorId) (id id' : InvestorId) :
    ∃ π' : Equiv.Perm InvestorId, π' id = id' ∧ ∀ x, x ≠ id → π x ≠ id' → π' x = π x := by
  refine ⟨π.trans (Equiv.swap (π id) id'), by simp, fun x hx hx' => ?_⟩
  exact Equiv.swap_apply_of_ne_of_ne (π.injective.ne hx) hx'

/-! ## Memory, as its writes -/

namespace Entry

def blockWrite? : Entry → Option (BlockKey × BlockRow)
  | block row => some (row.key, row)
  | _ => none

def investorWrite? (ν : Address → InvestorId) : Entry → Option (Address × InvestorId)
  | investor owner => some (owner, ν owner)
  | _ => none

def priceWrite? : Entry → Option (PriceKey × PriceRow)
  | price row => some (row.key, row)
  | _ => none

def positionWrite? (ν : Address → InvestorId) : Entry → Option (InvestmentKey × InvestmentRow)
  | position owner row => some ((row.renumber (ν owner)).key, row.renumber (ν owner))
  | _ => none

end Entry

/-- The memory after entries whose owners have given numbers. -/
def MemoryRecords.written (ν : Address → InvestorId) (es : List Entry) (m : MemoryRecords) :
    MemoryRecords where
  blocks := m.blocks.putAll (es.filterMap Entry.blockWrite?)
  investors := m.investors.putAll (es.filterMap (Entry.investorWrite? ν))
  prices := m.prices.putAll (es.filterMap Entry.priceWrite?)
  positions := m.positions.putAll (es.filterMap (Entry.positionWrite? ν))

theorem MemoryRecords.number_fst_of_get? {m : MemoryRecords} {owner : Address} {id : InvestorId}
    (h : m.investors.get? owner = some id) : (m.number owner).1 = id := by
  simp only [number, h]

theorem MemoryRecords.number_snd (m : MemoryRecords) (owner : Address) :
    (m.number owner).2 = { m with investors := m.investors.put owner (m.number owner).1 } := by
  unfold number
  split
  · next id hid => rw [Table.put_self hid]
  · rfl

theorem MemoryRecords.written_cons (ν : Address → InvestorId) (e : Entry) (es : List Entry)
    (m : MemoryRecords) : m.written ν (e :: es) = (m.written ν [e]).written ν es := by
  cases e <;> rfl

theorem MemoryRecords.written_written (ν : Address → InvestorId) (es : List Entry)
    (m : MemoryRecords) : (m.written ν es).written ν es = m.written ν es := by
  simp only [written, Table.putAll_putAll]

namespace Recording

/-- Numbers are those of the memory, and those that were given are still known. -/
structure Sound (m : Recording MemoryRecords) : Prop where
  consistent : m.records.Consistent
  known : ∀ e ∈ m.given, m.records.investors.get? e.1 = some e.2

def Kept (m m' : Recording MemoryRecords) : Prop :=
  ∀ owner id, m.records.investors.get? owner = some id →
    m'.records.investors.get? owner = some id

def Names (ν : Address → InvestorId) (m : Recording MemoryRecords) : Prop :=
  ∀ owner id, m.records.investors.get? owner = some id → ν owner = id

section Memory

variable {m m' m'' : Recording MemoryRecords} {e : Entry} {es : List Entry}

theorem sound_empty : Sound ⟨{}, []⟩ := ⟨MemoryRecords.consistent_empty, by simp⟩

theorem Kept.refl (m : Recording MemoryRecords) : m.Kept m := fun _ _ h => h

theorem Kept.trans (h : m.Kept m') (h' : m'.Kept m'') : m.Kept m'' :=
  fun owner id hid => h' owner id (h owner id hid)

theorem Names.of_kept {ν : Address → InvestorId} (hν : Names ν m') (h : m.Kept m') : Names ν m :=
  fun owner id hid => hν owner id (h owner id hid)

/-- What one entry leaves of the numbers, and what it writes. -/
theorem record_sound (hm : m.Sound) (h : m.record e = some m') :
    m'.Sound ∧ m.Kept m' ∧ ∀ ν, Names ν m' → m'.records = m.records.written ν [e] := by
  cases e with
  | block row =>
    cases h
    exact ⟨⟨⟨hm.consistent.numbered, hm.consistent.owned⟩, hm.known⟩, fun _ _ h =>
      h, fun _ _ => rfl⟩
  | price row =>
    cases h
    exact ⟨⟨⟨hm.consistent.numbered, hm.consistent.owned⟩, hm.known⟩, fun _ _ h =>
      h, fun _ _ => rfl⟩
  | investor owner =>
    cases h
    obtain ⟨hconsistent, hid, -⟩ := MemoryRecords.number_spec hm.consistent owner
    have hput := m.records.number_snd owner
    have hkept : ∀ owner' id, m.records.investors.get? owner' = some id →
        (m.records.number owner).2.investors.get? owner' = some id := by
      intro owner' id hid'
      by_cases heq : owner = owner'
      · subst heq
        rw [hid, MemoryRecords.number_fst_of_get? hid']
      · rw [hput, Table.get?_put, if_neg heq, hid']
    refine ⟨⟨hconsistent, ?_⟩, hkept, fun ν hν => ?_⟩
    · simp only [List.forall_mem_cons]
      exact ⟨hid, fun x hx => hkept x.1 x.2 (hm.known x hx)⟩
    · have hown := hν owner _ hid
      exact hput.trans (by rw [← hown]; rfl)
  | position owner row =>
    obtain ⟨id, hfind, h⟩ := Option.bind_eq_some_iff.mp h
    cases h
    have howner := hm.known (owner, id) (Table.mem_of_find hfind)
    refine ⟨⟨(MemoryRecords.upsertInvestment (r := row.renumber id) hm.consistent howner).1,
      hm.known⟩,
      .refl _, fun ν hν => ?_⟩
    obtain rfl : ν owner = id := hν owner id howner
    rfl

/-- What entries leave of the numbers, and what they write. -/
theorem all_sound (hm : m.Sound) (h : m.all es = some m') :
    m'.Sound ∧ m.Kept m' ∧ ∀ ν, Names ν m' → m'.records = m.records.written ν es := by
  induction es generalizing m with
  | nil =>
    cases h
    exact ⟨hm, .refl _, fun _ _ => rfl⟩
  | cons e es ih =>
    rw [all_cons] at h
    obtain ⟨m₁, he, hes⟩ := Option.bind_eq_some_iff.mp h
    obtain ⟨hm₁, hkept₁, hwritten₁⟩ := record_sound hm he
    obtain ⟨hm', hkept, hwritten⟩ := ih hm₁ hes
    refine ⟨hm', hkept₁.trans hkept, fun ν hν => ?_⟩
    rw [hwritten ν hν, hwritten₁ ν (hν.of_kept hkept), ← MemoryRecords.written_cons]

/-- Rows are written under their own keys. -/
theorem record_filed (hm : m.records.Filed) (h : m.record e = some m') : m'.records.Filed := by
  have put {κ β : Type} [DecidableEq κ] {t : Table κ β} {key : β → κ}
      (ht : ∀ e ∈ t.entries, e.1 = key e.2) (r : β) :
      ∀ e ∈ (t.put (key r) r).entries, e.1 = key e.2 := by
    intro e he
    rcases Table.mem_of_mem_place he with rfl | he
    · rfl
    · exact ht e he
  cases e with
  | block row =>
    cases h
    exact ⟨put hm.blocks row, hm.prices, hm.positions⟩
  | price row =>
    cases h
    exact ⟨hm.blocks, put hm.prices row, hm.positions⟩
  | investor owner =>
    cases h
    change (m.records.number owner).2.Filed
    rw [MemoryRecords.number_snd]
    exact ⟨hm.blocks, hm.prices, hm.positions⟩
  | position owner row =>
    obtain ⟨id, -, h⟩ := Option.bind_eq_some_iff.mp h
    cases h
    exact ⟨hm.blocks, hm.prices, put hm.positions _⟩

theorem all_filed (hm : m.records.Filed) (h : m.all es = some m') : m'.records.Filed := by
  induction es generalizing m with
  | nil =>
    cases h
    exact hm
  | cons e es ih =>
    obtain ⟨m₁, he, hes⟩ := Option.bind_eq_some_iff.mp h
    exact ih (record_filed hm he) hes

/-- **The same again.** To write entries a second time leaves the memory as it is, although rows may
be other ones in between. -/
theorem all_again (hm : m.Sound) (h : m.all es = some m') (h' : m'.all es = some m'') :
    m''.records = m'.records := by
  obtain ⟨hm', -, hwritten⟩ := all_sound hm h
  obtain ⟨-, hkept, hwritten'⟩ := all_sound hm' h'
  -- the numbers in the end are those all along
  let ν : Address → InvestorId := fun owner => (m''.records.investors.get? owner).getD 0
  have hν : Names ν m'' := fun owner id hid => by simp [ν, hid]
  rw [hwritten' ν hν, hwritten ν (hν.of_kept hkept), MemoryRecords.written_written]

end Memory

end Recording

/-! ## Two sinks -/

theorem mapM_map_eq_some {α β γ : Type} {es : List α} {g : α → β} {f : β → Option γ} {h : α → γ}
    (hf : ∀ e ∈ es, f (g e) = some (h e)) : (es.map g).mapM f = some (es.map h) := by
  induction es with
  | nil => rfl
  | cons e es ih =>
    obtain ⟨hhere, hlater⟩ := List.forall_mem_cons.mp hf
    rw [List.map_cons, List.mapM_cons, hhere, ih hlater]
    rfl

namespace SqliteRecordSink

theorem storing_of_lt {block : BlockNumber} (h : block.toNat < 2 ^ 63) (c : SqliteRecordSink) :
    storing block c = .ok c :=
  if_pos h

theorem number_snd (c : SqliteRecordSink) (owner : Address) :
    (c.number owner).2 = { c with
      issued := c.issued + 1, investors := c.investors.put owner (c.number owner).1 } := by
  unfold number
  dsimp only
  split
  · next id hid => rw [Table.put_self hid]
  · rfl

end SqliteRecordSink

namespace Recording

/-- The two sinks hold the same rows, and gave the same numbers, but for their names. -/
structure Paired (π : Equiv.Perm InvestorId) (m : Recording MemoryRecords)
    (c : Recording SqliteRecordSink) : Prop where
  sound : m.Sound
  issued : ∀ e ∈ c.records.investors.entries, e.2 ≤ c.records.issued
  tables : RecordSink.tables c.records = (RecordSink.tables m.records).renumber π
  given : c.given = m.given.map fun e => (e.1, π e.2)

variable {π : Equiv.Perm InvestorId} {m : Recording MemoryRecords} {c : Recording SqliteRecordSink}

theorem paired_empty : Paired (.refl _) ⟨{}, []⟩ ⟨{}, []⟩ where
  sound := sound_empty
  issued := by simp
  tables := rfl
  given := rfl

namespace Paired

variable (h : Paired π m c)

include h

theorem blocks : c.records.blocks.entries = m.records.blocks.entries.map fun e =>
    (e.1, e.2.columns) :=
  congrArg RecordTables.blocks h.tables

theorem investors : c.records.investors.entries = m.records.investors.entries.map fun e =>
    (e.1, π e.2) :=
  congrArg RecordTables.investors h.tables

theorem prices : c.records.prices.entries = m.records.prices.entries.map fun e =>
    (e.1, e.2.columns) :=
  congrArg RecordTables.prices h.tables

theorem positions : c.records.positions.entries = m.records.positions.entries.map fun e =>
    (InvestmentKey.renumber π e.1, e.2.columns) := by
  have hpositions := congrArg RecordTables.positions h.tables
  simpa [RecordSink.tables, RecordTables.renumber, Function.comp_def] using hpositions

/-- The rows that are read back from the columns are those in memory. -/
theorem rows?_eq (hm : m.records.Filed) :
    c.records.rows? = some (m.records.rows.renumber π) := by
  have hblocks : c.records.blocks.entries.mapM (fun e => BlockRow.ofColumns? e.1 e.2) =
      some (m.records.blocks.entries.map (·.2)) := by
    rw [h.blocks]
    refine mapM_map_eq_some fun e he => ?_
    rw [hm.blocks e he, BlockRow.ofColumns?_columns]
  have hprices : c.records.prices.entries.mapM (fun e => PriceRow.ofColumns? e.1 e.2) =
      some (m.records.prices.entries.map (·.2)) := by
    rw [h.prices]
    refine mapM_map_eq_some fun e he => ?_
    rw [hm.prices e he, PriceRow.ofColumns?_columns]
  have hpositions : c.records.positions.entries.mapM (fun e => InvestmentRow.ofColumns? e.1 e.2) =
      some ((m.records.positions.entries.map (·.2)).map fun r => r.renumber (π r.investor)) := by
    rw [h.positions, List.map_map]
    refine mapM_map_eq_some fun e he => ?_
    rw [hm.positions e he]
    exact InvestmentRow.ofColumns?_columns (e.2.renumber (π e.2.investor))
  rw [SqliteRecordSink.rows?, hblocks, hprices, hpositions, h.investors]
  rfl

theorem faithful : m.Faithful ∧ c.Faithful := by
  have hm : m.Faithful := by
    intro x hx y hy
    have hx := h.sound.known x hx
    have hy := h.sound.known y hy
    constructor
    · intro heq
      rw [heq, hy] at hx
      exact (Option.some.inj hx).symm
    · intro heq
      rw [heq] at hx
      exact h.sound.consistent.owner_unique hx hy
  refine ⟨hm, ?_⟩
  intro x hx y hy
  rw [h.given] at hx hy
  obtain ⟨x₀, hx₀, rfl⟩ := List.mem_map.mp hx
  obtain ⟨y₀, hy₀, rfl⟩ := List.mem_map.mp hy
  simp only [π.injective.eq_iff]
  exact hm x₀ hx₀ y₀ hy₀

theorem get?_eq (owner : Address) :
    c.records.investors.get? owner = (m.records.investors.get? owner).map π := by
  rw [Table.get?, h.investors]
  exact Table.find_map Function.injective_id π owner _

theorem find_given (owner : Address) :
    Table.find owner c.given = (Table.find owner m.given).map π := by
  rw [h.given]
  exact Table.find_map Function.injective_id π owner _

theorem tables_putBlock (r : BlockRow) :
    RecordSink.tables { c.records with blocks := c.records.blocks.put r.key r.columns } =
      (RecordSink.tables { m.records with blocks := m.records.blocks.put r.key r }).renumber π := by
  have hblocks : Table.place r.key r.columns c.records.blocks.entries =
      (Table.place r.key r m.records.blocks.entries).map fun e => (e.1, e.2.columns) := by
    rw [h.blocks]
    exact (Table.map_place Function.injective_id BlockRow.columns ..).symm
  exact congrArg₂ (fun t x => { t with blocks := x : RecordTables }) h.tables hblocks

theorem tables_putPrice (r : PriceRow) :
    RecordSink.tables { c.records with prices := c.records.prices.put r.key r.columns } =
      (RecordSink.tables { m.records with prices := m.records.prices.put r.key r }).renumber π := by
  have hprices : Table.place r.key r.columns c.records.prices.entries =
      (Table.place r.key r m.records.prices.entries).map fun e => (e.1, e.2.columns) := by
    rw [h.prices]
    exact (Table.map_place Function.injective_id PriceRow.columns ..).symm
  exact congrArg₂ (fun t x => { t with prices := x : RecordTables }) h.tables hprices

theorem tables_putPosition (r : InvestmentRow) (id : InvestorId) :
    RecordSink.tables { c.records with
        positions := c.records.positions.put (r.renumber (π id)).key r.columns } =
      (RecordSink.tables { m.records with
        positions := m.records.positions.put (r.renumber id).key (r.renumber id) }).renumber π := by
  have hpositions : Table.place (r.renumber (π id)).key r.columns c.records.positions.entries =
      ((Table.place (r.renumber id).key (r.renumber id) m.records.positions.entries).map
        fun e => (e.1, e.2.columns)).map fun e => (InvestmentKey.renumber π e.1, e.2) := by
    rw [h.positions, List.map_map]
    exact (Table.map_place (InvestmentKey.renumber_injective π.injective) InvestmentRow.columns
      (r.renumber id).key (r.renumber id) _).symm
  exact congrArg₂ (fun t x => { t with positions := x : RecordTables }) h.tables hpositions

theorem tables_putInvestor (owner : Address) (id issued : InvestorId) :
    RecordSink.tables { c.records with
        issued, investors := c.records.investors.put owner (π id) } =
      (RecordSink.tables { m.records with
        investors := m.records.investors.put owner id }).renumber π := by
  have hinvestors : Table.place owner (π id) c.records.investors.entries =
      (Table.place owner id m.records.investors.entries).map fun e => (e.1, π e.2) := by
    rw [h.investors]
    exact (Table.map_place Function.injective_id π ..).symm
  exact congrArg₂ (fun t x => { t with investors := x : RecordTables }) h.tables hinvestors

theorem renamed {π' : Equiv.Perm InvestorId}
    (hsame : ∀ owner id, m.records.investors.get? owner = some id → π' id = π id) :
    Paired π' m c where
  sound := h.sound
  issued := h.issued
  tables := h.tables.trans (h.sound.consistent.renumber_congr hsame).symm
  given := by
    rw [h.given]
    refine List.map_congr_left fun e he => ?_
    rw [hsame e.1 e.2 (h.sound.known e he)]

/-- The renaming once both sinks have been asked for an investor. -/
theorem exists_number (owner : Address) : ∃ π' : Equiv.Perm InvestorId,
    π' (m.records.number owner).1 = (c.records.number owner).1 ∧
      ∀ owner' id, m.records.investors.get? owner' = some id → π' id = π id := by
  have hget := h.get?_eq owner
  cases hid : m.records.investors.get? owner with
  | some id =>
    rw [hid] at hget
    refine ⟨π, ?_, fun _ _ _ => rfl⟩
    simp only [MemoryRecords.number, SqliteRecordSink.number, hid, hget, Option.map_some]
  | none =>
    rw [hid] at hget
    simp only [MemoryRecords.number, SqliteRecordSink.number, hid, hget, Option.map_none]
    obtain ⟨π', hnew, hold⟩ := exists_renaming π (m.records.investors.size + 1)
      (c.records.issued + 1)
    refine ⟨π', hnew, fun owner' id hid' => hold id ?_ ?_⟩
    · exact Nat.ne_of_lt (Nat.lt_succ_of_le (h.sound.consistent.number_le hid'))
    · have hmem : (owner', π id) ∈ c.records.investors.entries := by
        rw [← Table.get?_eq_some, h.get?_eq, hid', Option.map_some]
      exact Nat.ne_of_lt (Nat.lt_succ_of_le (h.issued _ hmem))

/-- No number is larger than the count of those set aside. -/
theorem issued_number (owner : Address) :
    ∀ e ∈ (c.records.number owner).2.investors.entries,
      e.2 ≤ (c.records.number owner).2.issued := by
  intro e he
  unfold SqliteRecordSink.number at he ⊢
  dsimp only at he ⊢
  split at he
  · exact Nat.le_succ_of_le (h.issued e he)
  · next hid =>
    rw [Table.entries_put hid, List.mem_append, List.mem_singleton] at he
    rcases he with he | rfl
    · exact Nat.le_succ_of_le (h.issued e he)
    · exact Nat.le_refl _

end Paired

/-- **One entry.** What can be stored as texts is taken by both sinks, and they stay paired. The
numbers given before keep their new names. -/
theorem record_paired (h : Paired π m c) {e : Entry} (hstorable : e.Storable)
    (hwithin : e.Within (m.given.map (·.1))) :
    ∃ m' c' π', m.record e = some m' ∧ c.record e = some c' ∧ Paired π' m' c' ∧
      (∀ owner id, m.records.investors.get? owner = some id → π' id = π id) ∧
        m'.given.map (·.1) = e.asked ++ m.given.map (·.1) := by
  cases e with
  | block row =>
    have hm : m.record (.block row) = some _ := rfl
    have hc : c.record (.block row) = some { c with
        records := { c.records with blocks := c.records.blocks.put row.key row.columns } } := by
      simp only [record, RecordSink.upsertBlock, SqliteRecordSink.storing_of_lt hstorable]
      rfl
    exact ⟨_, _, π, hm, hc, ⟨(record_sound h.sound hm).1, h.issued, h.tables_putBlock row, h.given⟩,
      fun _ _ _ => rfl, rfl⟩
  | price row =>
    have hm : m.record (.price row) = some _ := rfl
    have hc : c.record (.price row) = some { c with
        records := { c.records with prices := c.records.prices.put row.key row.columns } } := by
      simp only [record, RecordSink.upsertPrice, SqliteRecordSink.storing_of_lt hstorable]
      rfl
    exact ⟨_, _, π, hm, hc, ⟨(record_sound h.sound hm).1, h.issued, h.tables_putPrice row, h.given⟩,
      fun _ _ _ => rfl, rfl⟩
  | investor owner =>
    have hm : m.record (.investor owner) = some _ := rfl
    have hc : c.record (.investor owner) = some _ := rfl
    obtain ⟨π', hnumber, hsame⟩ := h.exists_number owner
    have h' := h.renamed hsame
    refine ⟨_, _, π', hm, hc, ⟨(record_sound h.sound hm).1, h.issued_number owner, ?_, ?_⟩,
      hsame, rfl⟩
    · have htables := h'.tables_putInvestor owner (m.records.number owner).1 (c.records.issued + 1)
      rw [hnumber, ← SqliteRecordSink.number_snd, ← MemoryRecords.number_snd] at htables
      exact htables
    · simp only [List.map_cons, hnumber, h'.given]
  | position owner row =>
    obtain ⟨id, hid⟩ := Table.exists_find hwithin
    have hid' : Table.find owner c.given = some (π id) := by rw [h.find_given, hid]; rfl
    have hm : m.record (.position owner row) = some { m with records := { m.records with
        positions := m.records.positions.put (row.renumber id).key (row.renumber id) } } := by
      simp only [record, hid]
      rfl
    have hc : c.record (.position owner row) = some { c with records := { c.records with
        positions := c.records.positions.put (row.renumber (π id)).key row.columns } } := by
      have hstorable' : (row.renumber (π id)).block.toNat < 2 ^ 63 := hstorable
      simp only [record, hid', Option.bind_some, RecordSink.upsertInvestment,
        SqliteRecordSink.storing_of_lt hstorable']
      rfl
    exact ⟨_, _, π, hm, hc,
      ⟨(record_sound h.sound hm).1, h.issued, h.tables_putPosition row id, h.given⟩,
      fun _ _ _ => rfl, rfl⟩

/-- **Entries.** What can be stored as texts is taken by both sinks, and they stay paired. -/
theorem all_paired (h : Paired π m c) {es : List Entry} (hstorable : ∀ e ∈ es, e.Storable)
    (hannounced : Entry.Announced (m.given.map (·.1)) es) :
    ∃ m' c' π', m.all es = some m' ∧ c.all es = some c' ∧ Paired π' m' c' ∧
      (∀ owner id, m.records.investors.get? owner = some id → π' id = π id) ∧
        m.given.map (·.1) ⊆ m'.given.map (·.1) := by
  induction es generalizing π m c with
  | nil => exact ⟨m, c, π, rfl, rfl, h, fun _ _ _ => rfl, List.Subset.refl _⟩
  | cons e es ih =>
    obtain ⟨hhere, hlater⟩ := List.forall_mem_cons.mp hstorable
    obtain ⟨m₁, c₁, π₁, hm₁, hc₁, h₁, hsame₁, hgiven₁⟩ := record_paired h hhere hannounced.1
    obtain ⟨m', c', π', hm', hc', h', hsame, hgiven⟩ := ih h₁ hlater (hgiven₁ ▸ hannounced.2)
    have hkept := (record_sound h.sound hm₁).2.1
    refine ⟨m', c', π', by simp [hm₁, hm'], by simp [hc₁, hc'], h', fun owner id hid => ?_, ?_⟩
    · rw [hsame owner id (hkept owner id hid), hsame₁ owner id hid]
    · rw [hgiven₁] at hgiven
      exact List.Subset.trans (List.subset_append_right ..) hgiven

/-- **The same records.** If blocks have signed 64-bit numbers and positions name their investors by
the numbers that the sink gave, then everything is taken by both sinks. They end with the same
rows, as rows and column by column, but for the numbers of investors, which are the same under one
renaming. In either of them an owner always got the same number, and two owners never shared one. To
write everything a second time is possible too, and leaves every row as it was. -/
theorem same_records {es : List Entry} (hstorable : ∀ e ∈ es, e.Storable)
    (hannounced : Entry.Announced [] es) :
    ∃ (m m' : Recording MemoryRecords) (c c' : Recording SqliteRecordSink)
      (π : Equiv.Perm InvestorId),
      all ⟨{}, []⟩ es = some m ∧ all ⟨{}, []⟩ es = some c ∧
      c.records.rows? = some (m.records.rows.renumber π) ∧
      RecordSink.tables c.records = (RecordSink.tables m.records).renumber π ∧
      c.given = m.given.map (fun e => (e.1, π e.2)) ∧ m.Faithful ∧ c.Faithful ∧
      all ⟨{}, []⟩ (es ++ es) = some m' ∧ all ⟨{}, []⟩ (es ++ es) = some c' ∧
      m'.records = m.records ∧ RecordSink.tables c'.records = RecordSink.tables c.records := by
  obtain ⟨m, c, π, hm, hc, h, -, -⟩ := all_paired paired_empty hstorable hannounced
  obtain ⟨m', c', π', hm', hc', h', hsame, -⟩ :=
    all_paired h hstorable (hannounced.mono (List.nil_subset _))
  obtain ⟨hmf, hcf⟩ := h.faithful
  have hagain : m'.records = m.records := all_again sound_empty hm hm'
  have hrows := h.rows?_eq (all_filed ⟨by simp, by simp, by simp⟩ hm)
  refine ⟨m, m', c, c', π, hm, hc, hrows, h.tables, h.given, hmf, hcf, ?_, ?_, hagain, ?_⟩
  · rw [all_append, hm, Option.bind_some, hm']
  · rw [all_append, hc, Option.bind_some, hc']
  -- all investors are known by now, so the renaming is the same
  · rw [h'.tables, hagain, h.sound.consistent.renumber_congr hsame, h.tables]

end Recording

/-! ## Numbers that differ -/

namespace AskedTwice

def alice : Address := .ofNat 1

def bob : Address := .ofNat 2

def position (block : BlockNumber) (balance : Decimal) : InvestmentRow :=
  { product := 1, investor := 0, block, time := .epoch, transaction := .ofNat 7, balance
    change := balance, underlyingBalance := balance, underlyingChange := balance }

/-- Alice is asked for twice before Bob is. A position of hers is written over. -/
def entries : List Entry :=
  [.investor alice, .block ⟨.bsc, 10, .epoch⟩, .position alice (position 10 .one), .investor alice,
   .investor bob, .price ⟨11, 10, .epoch, .two⟩, .position bob (position 10 .two),
   .position alice (position 10 .two)]

/-- Bob is the second investor in memory, and the third number that was set aside for texts. His row
and the last one of Alice are read back from texts under these numbers. -/
theorem bob_renamed :
    ∃ (m : Recording MemoryRecords) (c : Recording SqliteRecordSink) (π : Equiv.Perm InvestorId),
      Recording.all ⟨{}, []⟩ entries = some m ∧ Recording.all ⟨{}, []⟩ entries = some c ∧
        c.records.rows? = some (m.records.rows.renumber π) ∧
          m.records.rows.positions =
            [(position 10 .two).renumber 1, (position 10 .two).renumber 2] ∧
          π 1 = 1 ∧ π 2 = 3 := by
  have hstorable : ∀ e ∈ entries, e.Storable := by
    simp only [entries, List.forall_mem_cons]
    simp [Entry.Storable, position]
  have hannounced : Entry.Announced [] entries := by
    simp [Entry.Announced, Entry.Within, Entry.asked, entries]
  obtain ⟨m, m', c, c', π, hm, hc, hrows, htables, hgiven, -⟩ :=
    Recording.same_records hstorable hannounced
  have hmemory : (Recording.all (⟨{}, []⟩ : Recording MemoryRecords) entries).map
      (fun m => (m.given, m.records.rows.positions)) =
        some ([(bob, 2), (alice, 1), (alice, 1)],
          [(position 10 .two).renumber 1, (position 10 .two).renumber 2]) := by
    decide +kernel
  have hcolumns : (Recording.all (⟨{}, []⟩ : Recording SqliteRecordSink) entries).map (·.given) =
      some [(bob, 3), (alice, 1), (alice, 1)] := by
    decide +kernel
  rw [hm, Option.map_some, Option.some.injEq, Prod.mk.injEq] at hmemory
  rw [hc, Option.map_some, Option.some.injEq, hgiven, hmemory.1] at hcolumns
  simp only [List.map_cons, List.cons.injEq, Prod.mk.injEq, true_and] at hcolumns
  exact ⟨m, c, π, hm, hc, hrows, hmemory.2, hcolumns.2.1, hcolumns.1⟩

end AskedTwice

end Backfill
