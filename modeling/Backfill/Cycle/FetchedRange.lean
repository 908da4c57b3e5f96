import Backfill.Cycle.Basic
import Backfill.Loading

/-!
# Fetched ranges

What a query brings is dealt out to the products it serves. For every range that was meant for a
product there is one entry: the product's transfers in it, or nothing if the query failed. Its
results tile the range: a block with transfers is a range of its own, and what lies between is
imported as it is empty.
-/
namespace Backfill

/-- What a query brought for one range of one product; nothing if it failed.
Mirrors `FetchedRange`. -/
structure FetchedRange where
  product : Product
  range : Range BlockNumber
  transfers : Option (List Transfer)

namespace FetchedRange

def served (products : List Product) (q : Plan.Query BlockNumber) :
    List (Product × List (Range BlockNumber)) :=
  q.targets.filterMap fun t => (products.find? (·.key = t.key)).map (·, t.ranges)

/-- The transfers meant for one range of a product: of its token, inside the range, and of owners
who are not ignored. -/
def select (l : Loader) (p : Product) (range : Range BlockNumber) (ts : List Transfer) :
    List Transfer :=
  ts.filter fun t => t.token = p.contract && range.contains t.block && !l.shouldIgnore p t.owner

def deal (l : Loader) (served : List (Product × List (Range BlockNumber)))
    (answer : Except FetchError (List Transfer)) : List FetchedRange :=
  served.flatMap fun (p, ranges) => ranges.map fun range =>
    { product := p, range
      transfers := match answer with
        | .ok ts => some (select l p range ts)
        | .error _ => none }

/-- Mirrors `Runner::dispatch`. -/
def ofQuery (l : Loader) (sources : Sources) (products : List Product)
    (q : Plan.Query BlockNumber) : List FetchedRange × Trace :=
  let served := served products q
  let tokens := served.map (·.1.contract)
  let answer := sources.transfers q.range tokens
  let fetched := deal l served answer
  let sent : Trace := [.count .queriesDispatched 1, .call (.transfers q.range tokens)]
  match answer with
  | .ok _ => (fetched, sent)
  | .error fault =>
    (fetched,
      sent ++ .count .queriesFailed 1 ::
        fetched.map fun f => .report (.query f.product.key f.range) (.fetch fault))

def ofQueries (l : Loader) (sources : Sources) (products : List Product)
    (qs : List (Plan.Query BlockNumber)) : List FetchedRange × Trace :=
  let parts := qs.map (ofQuery l sources products)
  (parts.flatMap (·.1), parts.flatMap (·.2))

/-! ## Loading -/

def jobs (fs : List FetchedRange) : List (Product × Transfer) :=
  fs.flatMap fun f => (f.transfers.getD []).map (f.product, ·)

structure Failure where
  product : Product
  transfer : Transfer
  fault : LoadError

/-- Mirrors `Runner::load`, one transfer after the other. -/
def loadAll {ρ : Type} [RecordSink ρ] (l : Loader) (sources : Sources) :
    List (Product × Transfer) → ρ → List Failure × ρ × Trace
  | [], records => ([], records, [])
  | (p, t) :: rest, records =>
    let (result, records) := l.loadTransfer sources p t records
    let (failures, records, trace) := loadAll l sources rest records
    let failures := match result with
      | .ok () => failures
      | .error fault => ⟨p, t, fault⟩ :: failures
    (failures, records, Loader.trace p t result ++ trace)

def Failure.trace (f : Failure) : Trace :=
  [.count .recordsFailed 1,
   .report (.record f.product.key f.transfer.block f.transfer.transaction) (.load f.fault)]

def Failure.block (f : Failure) : String × BlockNumber := (f.product.key, f.transfer.block)

/-! ## Results -/

/-- Puts a block into a sorted list that does not have it yet. -/
def insertBlock (b : BlockNumber) : List BlockNumber → List BlockNumber
  | [] => [b]
  | c :: rest =>
    if b < c then b :: c :: rest else if b = c then c :: rest else c :: insertBlock b rest

def blocks (ts : List Transfer) : List BlockNumber := (ts.map (·.block)).foldr insertBlock []

/-- The results for one range. In strict mode a block with a failed transfer has failed. Mirrors
`Runner::results`. -/
def results (strict : Bool) (failed : List (String × BlockNumber)) (head : BlockNumber)
    (f : FetchedRange) : List (ImportRangeResult BlockNumber) :=
  let key := f.product.key
  match f.transfers with
  | none => [⟨key, f.range, false, head⟩]
  | some ts =>
    let points := (blocks ts).map Range.point
    (Range.exclude [f.range] points).map (fun gap => ⟨key, gap, true, head⟩)
      ++ points.map fun point =>
        ⟨key, point, !(strict && failed.contains (key, point.first)), head⟩

end FetchedRange
end Backfill
