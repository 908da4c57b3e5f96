import Backfill.Range.Basic
import Backfill.Sorting

/-!
# Lists of ranges as sets of positions

Lists may be unsorted and overlap. `merge`, `intersect` and `exclude` answer with sorted ranges that
leave a position free between neighbours.
-/
namespace Backfill.Range

open Axis

variable {α : Type} [Axis α]

/-! ## Sorting -/

def precedes (r s : Range α) : Bool :=
  coord r.first < coord s.first || (coord r.first == coord s.first && coord r.last ≤ coord s.last)

/-- The ranges by first position and then by last. -/
def sort (rs : List (Range α)) : List (Range α) := sortBy precedes rs

/-! ## Union -/

/-- Runs through sorted ranges with one in hand, which grows while the next one begins within `gap`
steps of its end. -/
def fuseFrom (gap : Nat) (r : Range α) : List (Range α) → List (Range α)
  | [] => [r]
  | s :: rest =>
    if coord s.first ≤ coord (stepUp r.last gap) then
      fuseFrom gap ⟨r.first, greatest r.last s.last⟩ rest
    else r :: fuseFrom gap s rest

def fuse (gap : Nat) : List (Range α) → List (Range α)
  | [] => []
  | r :: rest => fuseFrom gap r rest

/-- The ranges with every hole of less than `gap` positions filled. Mirrors `merge_closer_than`. -/
def mergeWithin (gap : Nat) (rs : List (Range α)) : List (Range α) := fuse gap (sort rs)

/-- The ranges with neighbours and overlaps fused. Mirrors `merge`. -/
def merge (rs : List (Range α)) : List (Range α) := mergeWithin 1 rs

/-- The smallest range that holds all of them. Mirrors `cover`. -/
def cover : List (Range α) → Option (Range α)
  | [] => none
  | r :: rest =>
    some (rest.foldl (fun c s => ⟨least c.first s.first, greatest c.last s.last⟩) r)

/-! ## Intersection -/

/-- The common parts of two sorted lists, walked together: the range that ends first is done. -/
def sweep : List (Range α) → List (Range α) → List (Range α)
  | r :: rs, s :: ss =>
    (r.clamp s).toList ++
      if coord r.last < coord s.last then sweep rs (s :: ss) else sweep (r :: rs) ss
  | _, _ => []
termination_by rs ss => rs.length + ss.length

/-- The positions in both lists. Mirrors `intersect`. -/
def intersect (rs ss : List (Range α)) : List (Range α) := sweep (merge rs) (merge ss)

/-! ## Difference -/

/-- What sorted holes leave of one range. -/
def cut (r : Range α) : List (Range α) → List (Range α)
  | [] => [r]
  | hole :: holes =>
    if coord r.last < coord hole.first then [r]
    else
      (if coord r.first < coord hole.first then [⟨r.first, prev hole.first⟩] else []) ++
        if coord hole.last < coord r.last then cut ⟨next hole.last, r.last⟩ holes else []

/-- The positions of the first list that the second does not hold. Mirrors `exclude`. -/
def exclude (rs holes : List (Range α)) : List (Range α) :=
  let holes := merge holes
  (merge rs).flatMap fun r => cut r (holes.dropWhile fun h => coord h.last < coord r.first)

end Backfill.Range
