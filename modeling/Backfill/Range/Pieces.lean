import Backfill.Range.Algebra

/-!
# Pieces of bounded length

A range is cut into pieces of at most `len` positions from either end. The first few pieces are
found without finding the others, because a range can hold far more of them than are wanted.
-/
namespace Backfill.Range

open Axis

variable {α : Type} [Axis α]

/-- The way pieces are taken. Mirrors `SplitOrder`. -/
inductive Order where
  | ascending
  | descending
  deriving DecidableEq, Repr

/-- The first `n` pieces of at most `len` positions, from the first position upwards. Mirrors
`split_from_start`. -/
def piecesUp (len : Nat) (r : Range α) : Nat → List (Range α)
  | 0 => []
  | n + 1 =>
    let last := least (stepUp r.first (len - 1)) r.last
    ⟨r.first, last⟩ ::
      if coord last < coord r.last then piecesUp len ⟨next last, r.last⟩ n else []

/-- The first `n` pieces of at most `len` positions, from the last position downwards. Mirrors
`split_from_end`. -/
def piecesDown (len : Nat) (r : Range α) : Nat → List (Range α)
  | 0 => []
  | n + 1 =>
    let first := greatest (stepDown r.last (len - 1)) r.first
    ⟨first, r.last⟩ ::
      if coord r.first < coord first then piecesDown len ⟨r.first, prev first⟩ n else []

def pieces (order : Order) (len : Nat) (r : Range α) (n : Nat) : List (Range α) :=
  match order with
  | .ascending => piecesUp len r n
  | .descending => piecesDown len r n

/-- More pieces than a range can have: each but the last ends at least a step further. -/
def pieceBound (r : Range α) : Nat := r.size + 2

/-- All pieces of at most `len` positions, upwards. Mirrors `split_to_max_length`. -/
def split (len : Nat) (r : Range α) : List (Range α) := piecesUp len r r.pieceBound

/-- Mirrors `split_many_to_max_length`. -/
def splitAll (len : Nat) (rs : List (Range α)) : List (Range α) := rs.flatMap (split len)

/-- The first `n` pieces of several ranges one after the other. -/
def piecesOfAll (order : Order) (len : Nat) : List (Range α) → Nat → List (Range α)
  | [], _ => []
  | r :: rest, n =>
    let found := pieces order len r n
    found ++ piecesOfAll order len rest (n - found.length)

/-- The first `n` pieces of the merged ranges, lowest or highest positions first. Mirrors
`sorted_split_and_take_some`. -/
def firstPieces (order : Order) (len n : Nat) (rs : List (Range α)) : List (Range α) :=
  match order with
  | .ascending => piecesOfAll .ascending len (merge rs) n
  | .descending => piecesOfAll .descending len (merge rs).reverse n

end Backfill.Range
