import Backfill.Plan.Basic
import Backfill.Sorting

/-!
# Queries shared by products

The needs of all products are laid over one another and cut into slices. Each slice is served by
queries that hold as many products as the node allows, those that need most of the slice together.
Of products that need the same, drawn numbers decide, and the order of the demands if those are
equal.

With two products to the query and slices of 100 positions:

```text
product | [100,199] [200,299] [300,399]
one     | [1  x  1] [2  x  2]
two     |           [2  x  2] [4  x  4]
three   |           [3  x  3] [4  x  4]
```

Needs further apart than a query may span are sliced on their own, so what is new and what is an old
retry do not meet in one query.
-/
namespace Backfill.Plan

open Axis

variable {α : Type} [Axis α]

/-- Numbers drawn one after the other, for `tie_break`. -/
abbrev Draws := Nat → UInt64

/-- What one product needs altogether. -/
structure Need (α : Type) where
  key : String
  ranges : List (Range α)

/-- What one product needs of a slice, and the number drawn for it. Mirrors `SliceNeed`. -/
structure SliceNeed (α : Type) where
  key : String
  ranges : List (Range α)
  draw : UInt64

/-- Its `coverage`. -/
def SliceNeed.weight (n : SliceNeed α) : UInt64 := Range.totalSize n.ranges

/-- What a product needs altogether: what it never asked for, and its retries. -/
def need (ignoreState : Bool) (d : ProductRanges α) : Need α :=
  let fresh := d.computeNeeded ignoreState
  ⟨d.key, Range.merge (if ignoreState then fresh else fresh ++ d.toRetry)⟩

/-- The slices of at most `span` positions that hold all needs. Holes of fewer than `gap` positions
are no reason to begin a new slice. Mirrors `build_range_index`. -/
def slices (needs : List (List (Range α))) (gap span : Nat) : List (Range α) :=
  Range.splitAll span (Range.mergeWithin (max 1 gap) needs.flatten)

/-- What the products need of a slice, with the numbers drawn from `drawn` on, and how many have
been drawn then. Only products that need something have one drawn. -/
def sliceNeeds (draws : Draws) (slice : Range α) :
    List (Need α) → Nat → List (SliceNeed α) × Nat
  | [], drawn => ([], drawn)
  | n :: rest, drawn =>
    match Range.intersect n.ranges [slice] with
    | [] => sliceNeeds draws slice rest drawn
    | ranges =>
      let (more, drawn') := sliceNeeds draws slice rest (drawn + 1)
      (⟨n.key, ranges, draws drawn⟩ :: more, drawn')

/-- Comes before in a slice: needs more, or as much and has the higher draw. -/
def SliceNeed.outranks (m n : SliceNeed α) : Bool :=
  n.weight < m.weight || (n.weight == m.weight && n.draw < m.draw)

/-- The needs of a slice by rank; equal ones stay in order. -/
def byRank (ns : List (SliceNeed α)) : List (SliceNeed α) := sortBy (fun n m => !m.outranks n) ns

def chunks {β : Type} (size : Nat) (xs : List β) : List (List β) :=
  go xs.length xs
where
  go : Nat → List β → List (List β)
    | 0, _ => []
    | _ + 1, [] => []
    | fuel + 1, x :: xs => (x :: xs).take size :: go fuel ((x :: xs).drop size)

/-- The query for some needs of a slice, over the smallest range that holds them. -/
def queryFor? (ns : List (SliceNeed α)) : Option (Shared α) :=
  (Range.cover (ns.flatMap (·.ranges))).map fun range =>
    ⟨ns.map (·.key), range, ns.map fun n => ⟨n.key, n.ranges⟩⟩

def sliceQueries (limits : Limits) (ns : List (SliceNeed α)) : List (Shared α) :=
  (chunks limits.maxProducts (byRank ns)).filterMap queryFor?

/-- The queries of slices one after the other. -/
def shareds (limits : Limits) (draws : Draws) (needs : List (Need α)) :
    List (Range α) → Nat → List (Shared α)
  | [], _ => []
  | slice :: rest, drawn =>
    let (ns, drawn) := sliceNeeds draws slice needs drawn
    sliceQueries limits ns ++ shareds limits draws needs rest drawn

-- sums begin with the zero of the core library
attribute [local instance(high)] Zero.ofOfNat0

def Shared.weight (q : Shared α) : UInt64 := (q.targets.map fun t => Range.totalSize t.ranges).sum

/-- The plan of shared queries. Mirrors `address_batch::optimize`. -/
def ofShareds (limits : Limits) (draws : Draws) (demands : List (ProductRanges α)) : Candidate α :=
  let needs := demands.map (need limits.ignoreState)
  let queries :=
    shareds limits draws needs
      (slices (needs.map (·.ranges)) limits.maxSpan limits.maxSpan) 0
  { plan := .addressBatch queries, coverage := (queries.map Shared.weight).sum }

end Backfill.Plan
