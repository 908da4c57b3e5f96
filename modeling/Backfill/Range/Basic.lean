import Backfill.Axis

/-!
# Ranges

A range is a closed interval of an axis. It is valid when its first position does not lie above its
last; a range that is not valid holds no position.
-/
namespace Backfill

/-- All positions from `first` to `last`. Mirrors `Range`, whose ends are `from` and `to`. -/
structure Range (α : Type) where
  first : α
  last : α
  deriving DecidableEq

namespace Range

open Axis

variable {α : Type}

def point (a : α) : Range α := ⟨a, a⟩

variable [Axis α]

/-- Not upside down. Mirrors `Range::is_valid`. -/
def Valid (r : Range α) : Prop := coord r.first ≤ coord r.last

instance (r : Range α) : Decidable r.Valid := inferInstanceAs (Decidable (_ ≤ _))

/-- The range between two positions, unless they are the wrong way round. Mirrors `Range::new`. -/
def between? (first last : α) : Option (Range α) :=
  if coord first ≤ coord last then some ⟨first, last⟩ else none

/-- Its last position less its first. Mirrors `Range::size`. -/
def size (r : Range α) : Nat := distance r.first r.last

def contains (r : Range α) (a : α) : Bool := coord r.first ≤ coord a && coord a ≤ coord r.last

instance : Membership α (Range α) := ⟨fun r a => coord r.first ≤ coord a ∧ coord a ≤ coord r.last⟩

/-- The part of a range inside bounds, if there is one. Mirrors `Range::clamp`. -/
def clamp (r bounds : Range α) : Option (Range α) :=
  between? (greatest r.first bounds.first) (least r.last bounds.last)

-- sums begin with the zero of the core library
attribute [local instance(high)] Zero.ofOfNat0

/-- Mirrors `total_size`: the sum has 64 bits and wraps around. -/
def totalSize (rs : List (Range α)) : UInt64 := (rs.map fun r => UInt64.ofNat r.size).sum

theorem mem_def {r : Range α} {a : α} :
    a ∈ r ↔ coord r.first ≤ coord a ∧ coord a ≤ coord r.last := Iff.rfl

theorem contains_iff {r : Range α} {a : α} : r.contains a = true ↔ a ∈ r := by
  simp [contains, mem_def]

theorem between?_eq_some {a b : α} {r : Range α} :
    between? a b = some r ↔ r = ⟨a, b⟩ ∧ r.Valid := by
  unfold between?
  split <;> simp_all [Valid]
  grind

theorem mem_clamp {r s t : Range α} (h : r.clamp s = some t) (a : α) : a ∈ t ↔ a ∈ r ∧ a ∈ s := by
  obtain ⟨rfl, -⟩ := between?_eq_some.mp h
  simp only [mem_def, coord_greatest, coord_least]
  omega

end Range
end Backfill
