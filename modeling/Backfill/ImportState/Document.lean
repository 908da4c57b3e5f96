import Backfill.ImportState.Basic
import Backfill.Json.Reader
import Backfill.Time.Text

/-!
# Import states as documents

An import state is kept as a JSON record. Block numbers are written as numbers and instants as
strings, so the state of one axis is no state of the other.
-/
namespace Backfill

open Json

/-- Positions in documents. -/
class Axis.Document (α : Type) where
  write : α → Value
  read : Reader α

instance : Axis.Document BlockNumber where
  write b := .integer b.toNat
  read bs := (integer 0 (2 ^ 64 - 1) bs).map fun (n, bs) => (UInt64.ofNat n.toNat, bs)

instance : Axis.Document Instant where
  write t := .text t.text
  read := scalar fun
    | .text s => Instant.ofText? s
    | _ => none

variable {α : Type} [Axis.Document α]

namespace Range

open Axis

def value (r : Range α) : Value :=
  .record [("from", Document.write r.first), ("to", Document.write r.last)]

/-- The ends that have been read. -/
structure Draft (α : Type) where
  first : Option α := none
  last : Option α := none

def fields : List (FieldReader (Draft α)) :=
  [{ name := "from", has := (·.first.isSome)
     read := fun _ d bs => do
       let (x, bs) ← Document.read bs; return ({ d with first := some x }, bs) },
   { name := "to", has := (·.last.isSome)
     read := fun _ d bs => do
       let (x, bs) ← Document.read bs; return ({ d with last := some x }, bs) }]

def Draft.finish (d : Draft α) : Option (Range α) := do return ⟨← d.first, ← d.last⟩

def reader : Nat → Reader (Range α) := record fields {} Draft.finish

end Range

namespace ImportRanges

def value (c : ImportRanges α) : Value :=
  .record
    [("lastImportMs", .integer c.lastImport.toNat),
     ("coveredRanges", .list (c.covered.map Range.value)),
     ("toRetry", .list (c.toRetry.map Range.value))]

structure Draft (α : Type) where
  lastImport : Option UInt64 := none
  covered : Option (List (Range α)) := none
  toRetry : Option (List (Range α)) := none

def fields : List (FieldReader (Draft α)) :=
  [{ name := "lastImportMs", has := (·.lastImport.isSome)
     read := fun _ d bs => do
       let (x, bs) ← integer 0 (2 ^ 64 - 1) bs
       return ({ d with lastImport := some (UInt64.ofNat x.toNat) }, bs) },
   { name := "coveredRanges", has := (·.covered.isSome)
     read := fun n d bs => do
       let (x, bs) ← list n Range.reader bs; return ({ d with covered := some x }, bs) },
   { name := "toRetry", has := (·.toRetry.isSome)
     read := fun n d bs => do
       let (x, bs) ← list n Range.reader bs; return ({ d with toRetry := some x }, bs) }]

def Draft.finish (d : Draft α) : Option (ImportRanges α) := do
  return ⟨← d.lastImport, ← d.covered, ← d.toRetry⟩

def reader : Nat → Reader (ImportRanges α) := record fields {} Draft.finish

end ImportRanges

namespace ImportState

def stampValue : Option Stamp → Value
  | some s => .text s.text
  | none => .null

def stampReader : Reader Stamp := scalar fun
  | .text s => Stamp.ofText? s
  | _ => none

def value (s : ImportState α) : Value :=
  .record
    [("importKey", .text s.key), ("productId", .integer s.productId.toInt),
     ("chain", .text s.chain.name), ("origin", Axis.Document.write s.origin),
     ("originDatetime", stampValue s.originTime), ("ranges", s.coverage.value)]

/-- The JSON text under which a store keeps an import state. -/
def text (s : ImportState α) : String := s.value.compact

structure Draft (α : Type) where
  key : Option String := none
  productId : Option Int64 := none
  chain : Option Chain := none
  origin : Option α := none
  originTime : Option (Option Stamp) := none
  coverage : Option (ImportRanges α) := none

def fields : List (FieldReader (Draft α)) :=
  [{ name := "importKey", has := (·.key.isSome)
     read := fun _ d bs => do let (x, bs) ← string bs; return ({ d with key := some x }, bs) },
   { name := "productId", has := (·.productId.isSome)
     read := fun _ d bs => do
       let (x, bs) ← integer (-2 ^ 63) (2 ^ 63 - 1) bs
       return ({ d with productId := some (Int64.ofInt x) }, bs) },
   { name := "chain", has := (·.chain.isSome)
     read := fun n d bs => do
       let (x, bs) ← Chain.reader n bs; return ({ d with chain := some x }, bs) },
   { name := "origin", has := (·.origin.isSome)
     read := fun _ d bs => do
       let (x, bs) ← Axis.Document.read bs; return ({ d with origin := some x }, bs) },
   { name := "originDatetime", has := (·.originTime.isSome)
     read := fun _ d bs => do
       let (x, bs) ← optional stampReader bs
       return ({ d with originTime := some x }, bs) },
   { name := "ranges", has := (·.coverage.isSome)
     read := fun n d bs => do
       let (x, bs) ← ImportRanges.reader n bs; return ({ d with coverage := some x }, bs) }]

/-- The state with these fields. Only the time of its origin may be left out. -/
def Draft.finish (d : Draft α) : Option (ImportState α) := do
  return {
    key := ← d.key, productId := ← d.productId, chain := ← d.chain, origin := ← d.origin,
    originTime := d.originTime.getD none, coverage := ← d.coverage }

def reader : Nat → Reader (ImportState α) := record fields {} Draft.finish

def ofText (s : String) : Except Fault (ImportState α) := readText reader s

end ImportState
end Backfill
