import Backfill.Proofs.Cycle.Recent

/-!
# Where history ends and recent blocks begin

Two runners can share out the blocks of a product. One imports the history and leaves the recent
blocks out, the other imports the recent ones. The first ends a whole window and one block below the
head, if there are that many blocks; the second begins a window below the head, or at block 0. The
two computations meet: no block is in both parts, none between the two, and none from the origin of
the product to the head is in neither. On a chain too short for a part of the history, the window
has everything.

Results:
* `RangeContext.historicalRange?_eq_some`: the part of the history below the window.
* `RangeContext.Handover.shared_out`: the two parts.
* `ShortChain.one_block_of_history`: products about as old as the window.
-/
namespace Backfill

open Axis Range

theorem BlockNumber.minus?_eq_some {b c : BlockNumber} {n : Nat} :
    b.minus? n = some c ↔ c.toNat + n = b.toNat := by
  refine ⟨BlockNumber.add_of_minus?, fun h => ?_⟩
  have hb := b.toNat_lt
  have hc : c = UInt64.ofNat (b.toNat - n) := by
    rw [← UInt64.toNat_inj, UInt64.toNat_ofNat']
    omega
  rw [minus?, if_pos (by omega), hc]

namespace RangeContext

variable {w : RangeContext} {p : Product} {s : ImportState BlockNumber} {head : BlockNumber}
  {full : Range BlockNumber}

/-! ## The two parts -/

/-- A product that leaves the window out wants what lies below it, from the origin on. -/
theorem historicalRange?_eq_some (hskip : w.behaviour.skipRecent.appliesTo p.retired = true)
    (hhead : w.head? = some head) :
    w.historicalRange? p s = some full ↔
      full.Valid ∧ full.first = s.origin ∧ full.last.toNat + (w.windowLen + 1) = head.toNat := by
  simp only [historicalRange?, hhead, hskip, if_true, Option.bind_eq_bind, Option.bind_some]
  constructor
  · intro h
    obtain ⟨last, hlast, h⟩ := Option.bind_eq_some_iff.mp h
    obtain ⟨rfl, hvalid⟩ := between?_eq_some.mp h
    exact ⟨hvalid, rfl, BlockNumber.minus?_eq_some.mp hlast⟩
  · intro h
    obtain ⟨hvalid, hfirst, hlast⟩ := h
    rw [BlockNumber.minus?_eq_some.mpr hlast, Option.bind_some, ← hfirst]
    exact between?_eq_some.mpr ⟨rfl, hvalid⟩

theorem productRanges?_history (historical : w.behaviour.mode = .historical)
    (unforced : w.behaviour.forced = none) (p : Product) (s : ImportState BlockNumber) :
    w.productRanges? p (some s) = (w.historicalRange? p s).map fun full =>
      ⟨p.key, full, (w.known s).covered, (w.known s).toRetry⟩ := by
  simp only [productRanges?, historical, unforced, known]
  cases w.historicalRange? p s <;> rfl

/-- A part of the history that ends a window and one block below the head is right below the
window. -/
theorem meets_window {history recent : Range BlockNumber} {len : Nat} (hvalid : recent.Valid)
    (hmem : ∀ b, b ∈ recent ↔ b ≤ head ∧ head.toNat ≤ b.toNat + len)
    (hlast : history.last.toNat + (len + 1) = head.toNat) :
    next history.last = recent.first ∧ ∀ b ∈ history, b ∉ recent := by
  have hhead := head.toNat_lt
  have hnext : ((next history.last).toNat : Int) =
      min (2 ^ 64 - 1) ((history.last.toNat : Int) + 1) :=
    coord_next history.last
  constructor
  · -- the first block of the window is in it, and so is the one after the history
    have hbegin := ((hmem recent.first).mp ⟨Int.le_refl _, hvalid⟩).2
    have hmeet : next history.last ∈ recent := (hmem _).mpr (by
      simp only [UInt64.le_iff_toNat_le]
      omega)
    simp only [mem_def, coord_block] at hmeet
    have hsame : (next history.last).toNat = recent.first.toNat := by omega
    exact UInt64.toNat_inj.mp hsame
  · intro b hb hb'
    have hlow := ((hmem b).mp hb').2
    simp only [mem_def, coord_block] at hb
    omega

/-- Two runners of one chain at one time: `past` imports what `p` has below the window, and
`present` has imported nothing yet and imports the window. -/
structure Handover (p : Product) (past present : RangeContext) : Prop where
  latest : past.latest = present.latest
  maxSpan : past.maxSpan = present.maxSpan
  blocksPerHour : past.blocksPerHour = present.blocksPerHour
  unsettled : past.behaviour.unsettled = present.behaviour.unsettled
  historical : past.behaviour.mode = .historical
  skips : past.behaviour.skipRecent.appliesTo p.retired = true
  recent : present.behaviour.mode = .recent
  starts : present.lastImported = none
  unforced : past.behaviour.forced = none ∧ present.behaviour.forced = none

namespace Handover

variable {past present : RangeContext} (h : Handover p past present)

include h

theorem head?_eq : past.head? = present.head? := by
  rw [head?, head?, h.latest, h.unsettled]

theorem windowLen_eq : past.windowLen = present.windowLen := by
  rw [windowLen, windowLen, h.maxSpan, h.blocksPerHour]

/-- The runner of recent blocks wants the window below the head. -/
theorem productRanges?_present (hhead : present.head? = some head)
    (state : Option (ImportState BlockNumber)) :
    ∃ full, present.productRanges? p state = some ⟨p.key, full, [], []⟩ ∧ full.Valid ∧
      ∀ b, b ∈ full ↔ b ≤ head ∧ head.toNat ≤ b.toNat + present.windowLen := by
  cases hfull : present.recentRange? with
  | none =>
    have hmark := recentRange?_eq_none.mp hfull head hhead
    rw [h.starts] at hmark
    exact absurd (beyond_none head) hmark
  | some full =>
    obtain ⟨hlast, hvalid, hmem⟩ := recentRange?_spec hfull
    obtain rfl : full.last = head := Option.some.inj (hlast.symm.trans hhead)
    refine ⟨full, ?_, hvalid, fun b => ?_⟩
    · rw [productRanges?_recent h.recent, productRanges?_unforced h.unforced.2, hfull,
        Option.map_some]
    · rw [hmem, h.starts]
      simp [beyond_none]

theorem productRanges?_past (hhead : past.head? = some head) {d : ProductRanges BlockNumber} :
    past.productRanges? p (some s) = some d ↔
      d = ⟨p.key, d.full, (past.known s).covered, (past.known s).toRetry⟩ ∧ d.full.Valid ∧
        d.full.first = s.origin ∧ d.full.last.toNat + (past.windowLen + 1) = head.toNat := by
  rw [productRanges?_history h.historical h.unforced.1, Option.map_eq_some_iff]
  constructor
  · intro ⟨full, hfull, hd⟩
    subst hd
    exact ⟨rfl, (historicalRange?_eq_some h.skips hhead).mp hfull⟩
  · intro ⟨hd, hfull⟩
    exact ⟨d.full, (historicalRange?_eq_some h.skips hhead).mpr hfull, hd.symm⟩

/-- Nothing does if the window reaches down to the origin. -/
theorem productRanges?_past_eq_none (hhead : past.head? = some head) :
    past.productRanges? p (some s) = none ↔ head.toNat < s.origin.toNat + (past.windowLen + 1) := by
  constructor
  · intro hnone
    by_contra hroom
    obtain ⟨last, hsome⟩ : ∃ last, head.minus? (past.windowLen + 1) = some last := by
      rw [BlockNumber.minus?, if_pos (by omega)]
      exact ⟨_, rfl⟩
    have hlast := BlockNumber.minus?_eq_some.mp hsome
    have hvalid : Range.Valid ⟨s.origin, last⟩ := by
      simp only [Range.Valid, coord_block]
      omega
    have hpast := (h.productRanges?_past (s := s) hhead (d := ⟨p.key, ⟨s.origin, last⟩,
      (past.known s).covered, (past.known s).toRetry⟩)).mpr ⟨rfl, hvalid, rfl, hlast⟩
    rw [hnone] at hpast
    cases hpast
  · intro hlow
    cases hpast : past.productRanges? p (some s) with
    | none => rfl
    | some d =>
      obtain ⟨-, hvalid, hfirst, hlast⟩ := (h.productRanges?_past hhead).mp hpast
      simp only [Range.Valid, hfirst, coord_block] at hvalid
      omega

/-! ## Together -/

/-- **Shared out.** Whatever the size of the window, the runner of recent blocks wants some. If the
other one wants a part of the history, that ends right below them, shares no block with them, and
the two have the blocks from the origin to the head, no more and no less. If it wants none, every
block from the origin to the head is a recent one. -/
theorem shared_out (hhead : past.head? = some head) (s : ImportState BlockNumber)
    (state : Option (ImportState BlockNumber)) :
    ∃ recent, present.productRanges? p state = some recent ∧ recent.full.Valid ∧
      (∀ d, past.productRanges? p (some s) = some d →
        d.full.Valid ∧ next d.full.last = recent.full.first ∧
          (∀ b ∈ d.full, b ∉ recent.full) ∧
            ∀ b, b ∈ d.full ∨ b ∈ recent.full ↔ s.origin ≤ b ∧ b ≤ head) ∧
      (past.productRanges? p (some s) = none → ∀ b, s.origin ≤ b → b ≤ head → b ∈ recent.full) := by
  have hhead' : present.head? = some head := h.head?_eq ▸ hhead
  obtain ⟨full, hfull, hvalid, hmem⟩ := h.productRanges?_present hhead' state
  refine ⟨_, hfull, hvalid, fun d hd => ?_, fun hnone b hfirst hlast => ?_⟩
  · obtain ⟨-, hvalid', hfirst, hlast⟩ := (h.productRanges?_past hhead).mp hd
    rw [h.windowLen_eq] at hlast
    obtain ⟨hnext, hdisjoint⟩ := meets_window hvalid hmem hlast
    refine ⟨hvalid', hnext, hdisjoint, fun b => ?_⟩
    rw [hmem, mem_def]
    simp only [coord_block, hfirst, UInt64.le_iff_toNat_le]
    simp only [Range.Valid, hfirst, coord_block] at hvalid'
    omega
  · have hlow := (h.productRanges?_past_eq_none hhead).mp hnone
    rw [h.windowLen_eq] at hlow
    rw [UInt64.le_iff_toNat_le] at hfirst
    exact (hmem b).mpr ⟨hlast, by omega⟩

end Handover

/-! ## A young product -/

namespace ShortChain

def product : Product :=
  { id := 1, key := "beefy:vault:bsc:1", chain := .bsc, shareFeed := 11, underlyingFeed := 12
    retired := false, data := .vault ⟨"vault-1", .ofNat 0x1001, 18, 18⟩ }

def window (mode : ImportMode) : RangeContext :=
  { behaviour := { Behaviour.ofMode mode with skipRecent := .live, unsettled := 10 }
    latest := 100, lastImported := none, maxSpan := 20, blocksPerHour := 1200 }

def begun (origin : BlockNumber) : ImportState BlockNumber :=
  .fresh "product:1:investments" 1 .bsc origin none

theorem handover : Handover product (window .historical) (window .recent) where
  latest := rfl
  maxSpan := rfl
  blocksPerHour := rfl
  unsettled := rfl
  historical := rfl
  skips := rfl
  recent := rfl
  starts := rfl
  unforced := ⟨rfl, rfl⟩

/-- A product that began at block 69 has one block of history, and one that began at block 70 has
none. Neither leaves a block out. -/
theorem one_block_of_history :
    (∃ d, (window .historical).productRanges? product (some (begun 69)) = some d ∧
      d.full = ⟨69, 69⟩) ∧
      (window .historical).productRanges? product (some (begun 70)) = none ∧
        ∃ recent, (window .recent).productRanges? product none = some recent ∧
          recent.full.first = 70 ∧ ∀ b, 70 ≤ b → b ≤ 90 → b ∈ recent.full := by
  have hhead : (window .historical).head? = some 90 := by decide +kernel
  have hnone : (window .historical).productRanges? product (some (begun 70)) = none := by
    decide +kernel
  obtain ⟨d, hd, hfull⟩ :
      ∃ d, (window .historical).productRanges? product (some (begun 69)) = some d ∧
        d.full = ⟨69, 69⟩ := ⟨⟨product.key, ⟨69, 69⟩, [], []⟩, by decide +kernel, rfl⟩
  obtain ⟨recent, hrecent, -, hmeet, -⟩ := handover.shared_out hhead (begun 69) none
  obtain ⟨recent', hrecent', -, -, hall⟩ := handover.shared_out hhead (begun 70) none
  obtain rfl : recent = recent' := Option.some.inj (hrecent.symm.trans hrecent')
  refine ⟨⟨d, hd, hfull⟩, hnone, recent, hrecent, ?_, hall hnone⟩
  rw [← (hmeet d hd).2.1, hfull]
  decide +kernel

end ShortChain
end RangeContext

end Backfill
