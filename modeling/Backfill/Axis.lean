import Backfill.Numbers

/-!
# Axes

Imported data lies on an axis: block numbers, or instants. An axis has two ends, and its
positions can be placed on the integers (`coord`), `unit` integers to the step. Walking past an
end stays at that end, so every operation is total, and every law about positions is a law about
integers between `lowest` and `highest`.
-/
namespace Backfill

/-- A line of positions with two ends. `nearest` finds the position at an integer, or the end on
that side when there is none. Mirrors `RangeValue`. -/
class Axis (α : Type) where
  coord : α → Int
  nearest : Int → α
  lowest : Int
  highest : Int
  unit : Int
  coord_inj : ∀ {a b : α}, coord a = coord b → a = b
  coord_mem : ∀ a : α, lowest ≤ coord a ∧ coord a ≤ highest
  coord_nearest : ∀ x : Int, coord (nearest x) = max lowest (min highest x)
  unit_pos : 0 < unit

namespace Axis

variable {α : Type} [Axis α]

/-- Mirrors `RangeValue::step_up`: `steps` positions further up, or the upper end. -/
def stepUp (a : α) (steps : Nat) : α := nearest (coord a + steps * unit α)

/-- Mirrors `RangeValue::step_down`: `steps` positions further down, or the lower end. -/
def stepDown (a : α) (steps : Nat) : α := nearest (coord a - steps * unit α)

def next (a : α) : α := stepUp a 1

def prev (a : α) : α := stepDown a 1

/-- How many whole steps lead from `a` up to `b`, none when `b` lies below `a`. Mirrors
`RangeValue::distance`. -/
def distance (a b : α) : Nat := ((coord b - coord a) / unit α).toNat

def least (a b : α) : α := if coord a ≤ coord b then a else b

def greatest (a b : α) : α := if coord a ≤ coord b then b else a

theorem coord_stepUp (a : α) (n : Nat) :
    coord (stepUp a n) = min (highest α) (coord a + n * unit α) := by
  have h := coord_mem a
  have : 0 ≤ (n : Int) * unit α := Int.mul_nonneg (Int.natCast_nonneg n) (Int.le_of_lt unit_pos)
  rw [stepUp, coord_nearest]
  omega

theorem coord_stepDown (a : α) (n : Nat) :
    coord (stepDown a n) = max (lowest α) (coord a - n * unit α) := by
  have h := coord_mem a
  have : 0 ≤ (n : Int) * unit α := Int.mul_nonneg (Int.natCast_nonneg n) (Int.le_of_lt unit_pos)
  rw [stepDown, coord_nearest]
  omega

theorem coord_next (a : α) : coord (next a) = min (highest α) (coord a + unit α) := by
  simp [next, coord_stepUp]

theorem coord_prev (a : α) : coord (prev a) = max (lowest α) (coord a - unit α) := by
  simp [prev, coord_stepDown]

theorem coord_least (a b : α) : coord (least a b) = min (coord a) (coord b) := by
  unfold least; split <;> omega

theorem coord_greatest (a b : α) : coord (greatest a b) = max (coord a) (coord b) := by
  unfold greatest; split <;> omega

end Axis

/-! ## Block numbers -/

/-- A block number. Chains count blocks in 64 bits. -/
abbrev BlockNumber := UInt64

/-- Every block number is one step from the next. -/
instance : Axis BlockNumber where
  coord b := b.toNat
  nearest x := UInt64.ofNat (min (2 ^ 64 - 1) x.toNat)
  lowest := 0
  highest := 2 ^ 64 - 1
  unit := 1
  coord_inj h := UInt64.toNat_inj.mp (by omega)
  coord_mem a := by have := a.toNat_lt; omega
  coord_nearest x := by rw [UInt64.toNat_ofNat']; omega
  unit_pos := by decide

namespace BlockNumber

/-- `b - n`, if there are that many blocks below `b`. -/
def minus? (b : BlockNumber) (n : Nat) : Option BlockNumber :=
  if n ≤ b.toNat then some (UInt64.ofNat (b.toNat - n)) else none

end BlockNumber

end Backfill
