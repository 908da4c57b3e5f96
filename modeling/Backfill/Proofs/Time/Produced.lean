import Backfill.Proofs.Range.Grid
import Backfill.TimeGrid

/-!
# The last block produced by an instant

Where blocks are produced at a constant pace, the number of the last one produced by an instant
follows from any block and its time. A head stands for that block. The estimate counts the blocks
begun between the instant and the head, so it is a block further down for each pace, and neither the
millisecond of a block nor the one before it is off. It stays at the head past it, and at block 0
before that.

Results:
* `Frontier.le_blockAt`: which blocks the estimate does not lie below.
* `Frontier.last_produced`: the estimate is exact where blocks keep the pace.
* `Frontier.around_block_seven`: the milliseconds around a block.
-/
namespace Backfill.Frontier

open Axis

variable {f : Frontier} {t u : Instant} {m : Nat} {k : BlockNumber}

/-- When a block was produced, in nanoseconds since the epoch, on a chain that keeps a pace of `m`
milliseconds. A long chain may be older than the axis. -/
def produced (f : Frontier) (m : Nat) (k : BlockNumber) : Int :=
  f.time.nanos - ((f.block.toNat : Int) - k.toNat) * m * 1000000

theorem toNat_blockAt (hm : 0 < m) :
    (f.blockAt t m).toNat = f.block.toNat - (distance t f.time + (m - 1)) / m := by
  have hmax : max 1 m = m := Nat.max_eq_right hm
  have hdown : ((f.blockAt t m).toNat : Int) =
      max 0 ((f.block.toNat : Int) - ((distance t f.time + (m - 1)) / m : Nat) * 1) := by
    rw [blockAt, hmax]
    exact coord_stepDown f.block _
  omega

/-- A block above block 0 is not above the estimate if the blocks from there to the head take no
less than the time to the head. -/
theorem le_blockAt (hm : 0 < m) (hk : k ≤ f.block) :
    k ≤ f.blockAt t m ↔ k = 0 ∨ distance t f.time ≤ (f.block.toNat - k.toNat) * m := by
  rw [UInt64.le_iff_toNat_le] at hk
  have hceil : (distance t f.time + (m - 1)) / m ≤ f.block.toNat - k.toNat ↔
      distance t f.time ≤ (f.block.toNat - k.toNat) * m := by
    rw [Nat.div_le_iff_le_mul hm]
    omega
  have hzero : k = 0 ↔ k.toNat = 0 := UInt64.toNat_inj.symm
  rw [UInt64.le_iff_toNat_le, toNat_blockAt hm, ← hceil, hzero]
  omega

theorem distance_anti (h : coord t ≤ coord u) : distance u f.time ≤ distance t f.time :=
  Int.toNat_le_toNat (Int.ediv_le_ediv unit_pos (by omega))

theorem distance_add (hu : coord u ≤ coord f.time) (h : coord t + m * 1000000 ≤ coord u) :
    distance u f.time + m ≤ distance t f.time := by
  have ht : distance t f.time = ((coord f.time - coord t) / 1000000).toNat := rfl
  have hu : distance u f.time = ((coord f.time - coord u) / 1000000).toNat := rfl
  omega

/-- On whole milliseconds a block of a chain is produced by an instant if the time from it to the
head is enough for no more than the blocks that follow. -/
theorem produced_le (hf : Whole f.time) (ht : Whole t) (hk : k ≤ f.block) :
    f.produced m k ≤ coord t ↔ distance t f.time ≤ (f.block.toNat - k.toNat) * m := by
  rw [UInt64.le_iff_toNat_le] at hk
  have hhead : f.time.nanos = place f.time * 1000000 := coord_eq_place hf
  have hcoord : coord t = place t * 1000000 := coord_eq_place ht
  have hdistance : distance t f.time = ((f.time.nanos - coord t) / 1000000).toNat := rfl
  have hblocks : ((f.block.toNat - k.toNat : Nat) : Int) * m =
      ((f.block.toNat : Int) - k.toNat) * m := by rw [Int.ofNat_sub hk]
  have hcast : ((f.block.toNat - k.toNat) * m : Nat) =
      ((f.block.toNat : Int) - k.toNat) * m := by rw [Int.natCast_mul, hblocks]
  rw [produced]
  omega

theorem blockAt_le (f : Frontier) (t : Instant) (hm : 0 < m) : f.blockAt t m ≤ f.block := by
  rw [UInt64.le_iff_toNat_le, toNat_blockAt hm]
  exact Nat.sub_le ..

theorem blockAt_mono (hm : 0 < m) (h : coord t ≤ coord u) : f.blockAt t m ≤ f.blockAt u m := by
  rw [le_blockAt hm (f.blockAt_le t hm)]
  exact ((le_blockAt hm (f.blockAt_le t hm)).mp (UInt64.le_refl _)).imp_right
    (Nat.le_trans (distance_anti h))

theorem le_block_of_produced (hm : 0 < m) (ht : coord t ≤ coord f.time)
    (hk : f.produced m k ≤ coord t) : k ≤ f.block := by
  rw [UInt64.le_iff_toNat_le]
  refine Nat.le_of_not_lt fun hlt => ?_
  have hpace : 0 < ((k.toNat : Int) - f.block.toNat) * m := Int.mul_pos (by omega) (by omega)
  have hneg : ((f.block.toNat : Int) - k.toNat) * m = -(((k.toNat : Int) - f.block.toNat) * m) := by
    rw [← Int.neg_mul, Int.neg_sub]
  have hhead : coord f.time = f.time.nanos := rfl
  rw [produced] at hk
  omega

/-- On a chain that keeps the pace the estimate is the last block produced by an instant. -/
theorem isLast_blockAt (hm : 0 < m) (hf : Whole f.time) (ht : Whole t)
    (hzero : f.produced m 0 ≤ coord t) :
    f.produced m (f.blockAt t m) ≤ coord t ∧
      ∀ k, f.produced m k ≤ coord t → k ≤ f.block ∨ coord t ≤ coord f.time →
        k ≤ f.blockAt t m := by
  have hle := f.blockAt_le t hm
  constructor
  · rcases (le_blockAt hm hle).mp (UInt64.le_refl _) with heq | hdistance
    · rw [heq]
      exact hzero
    · exact (produced_le hf ht hle).mpr hdistance
  · intro k hk hhead
    have hkle : k ≤ f.block := hhead.elim id fun hbefore => le_block_of_produced hm hbefore hk
    exact (le_blockAt hm hkle).mpr (.inr ((produced_le hf ht hkle).mp hk))

/-- An instant a whole pace earlier has an earlier block, if there is one. -/
theorem blockAt_lt (hm : 0 < m) (hu : coord u ≤ coord f.time)
    (h : coord t + m * 1000000 ≤ coord u) (hzero : f.blockAt u m ≠ 0) :
    f.blockAt t m < f.blockAt u m := by
  have hle := f.blockAt_le u hm
  rw [← UInt64.not_le]
  intro hreach
  have hroom := ((le_blockAt hm hle).mp hreach).resolve_left hzero
  -- the blocks that follow the later one take less than a pace more than its time to the head
  have hblocks := Nat.div_mul_le_self (distance u f.time + (m - 1)) m
  have hback : f.block.toNat - (f.blockAt u m).toNat = (distance u f.time + (m - 1)) / m := by
    have hpos : (f.blockAt u m).toNat ≠ 0 := fun h => hzero (UInt64.toNat_inj.mp h)
    rw [toNat_blockAt hm] at hpos ⊢
    exact Nat.sub_sub_self (Nat.le_of_lt (Nat.lt_of_sub_pos (Nat.pos_of_ne_zero hpos)))
  rw [hback] at hroom
  have hdistance := distance_add hu h
  omega

/-- **Last produced.** The estimate follows the instant and never passes the head. On a chain that
keeps its pace it is the last block produced by a whole millisecond, from block 0 on: of the blocks
up to the head, and of all blocks as long as the instant is not past the head. Instants up to the
head that are a pace apart have different blocks, unless block 0 is reached. -/
theorem last_produced (f : Frontier) (hm : 0 < m) (hf : Whole f.time) :
    (∀ t u, coord t ≤ coord u → f.blockAt t m ≤ f.blockAt u m) ∧
      (∀ t, f.blockAt t m ≤ f.block) ∧
      (∀ t, Whole t → f.produced m 0 ≤ coord t →
        f.produced m (f.blockAt t m) ≤ coord t ∧
          ∀ k, f.produced m k ≤ coord t → k ≤ f.block ∨ coord t ≤ coord f.time →
            k ≤ f.blockAt t m) ∧
      ∀ t u, coord u ≤ coord f.time → coord t + m * 1000000 ≤ coord u → f.blockAt u m ≠ 0 →
        f.blockAt t m < f.blockAt u m :=
  ⟨fun _ _ h => blockAt_mono hm h, fun t => f.blockAt_le t hm,
    fun _ ht hzero => isLast_blockAt hm hf ht hzero, fun _ _ hu h hzero => blockAt_lt hm hu h hzero⟩

/-! ## A chain of three seconds a block -/

def atNine : Frontier := ⟨9, .nearest 27000000000⟩

/-- Block 7 is the last one produced up to the millisecond before block 8, and not one millisecond
earlier than its own. Past the head it is the head, and before the epoch block 0. -/
theorem around_block_seven :
    (Whole atNine.time ∧ 0 < 3000) ∧
      atNine.produced 3000 7 = 21000000000 ∧
      [20999000000, 21000000000, 23999000000, 24000000000, 40000000000, -5000000000].map
        (fun n => atNine.blockAt (.nearest n) 3000) = [6, 7, 7, 8, 9, 0] ∧
      ∀ k, atNine.produced 3000 k ≤ 23999000000 → k ≤ 7 := by
  have hwhole : Whole atNine.time := by unfold Whole; decide +kernel
  have hbefore : Whole (Instant.nearest 23999000000) := by unfold Whole; decide +kernel
  have hseven : atNine.blockAt (.nearest 23999000000) 3000 = 7 := by decide +kernel
  refine ⟨⟨hwhole, by decide⟩, by decide +kernel, by decide +kernel, fun k hk => ?_⟩
  obtain ⟨-, -, hlast, -⟩ := atNine.last_produced (m := 3000) (by decide) hwhole
  have hk' := (hlast _ hbefore (by decide +kernel)).2 k hk (.inr (by decide +kernel))
  rwa [hseven] at hk'

end Backfill.Frontier
