import Backfill.ImportState.Basic
import Backfill.Range.Pieces
import Backfill.Range.Text
import Backfill.Text.Characters

/-!
# Query plans

A remote node limits how many positions one query spans and how many contracts it names. A plan is a
list of queries within those limits. A query either serves one product, with the range it asks for,
or several, each with the parts of the range that are meant for it.
-/
namespace Backfill.Plan

variable {α : Type}

/-- The limits of a plan. Mirrors `OptimizerOptions`. -/
structure Limits where
  ignoreState : Bool
  /-- How many products one query may serve. -/
  maxProducts : Nat
  /-- How many positions one query may span. -/
  maxSpan : Nat
  /-- How many queries a product may get for itself. -/
  maxQueries : Nat
  deriving DecidableEq, Repr

/-- What a query is to bring one product. Mirrors `PostFilter`. -/
structure Target (α : Type) where
  key : String
  ranges : List (Range α)
  deriving DecidableEq

/-- A query for one product. Mirrors `SingleProductQuery`. -/
structure Single (α : Type) where
  key : String
  range : Range α
  deriving DecidableEq

/-- A query for several products. Mirrors `AddressBatchQuery`. -/
structure Shared (α : Type) where
  /-- The products that it names. -/
  keys : List String
  range : Range α
  targets : List (Target α)
  deriving DecidableEq

/-- A query of either kind. Mirrors `PlannedQuery`. -/
inductive Query (α : Type) where
  | single (query : Single α)
  | shared (query : Shared α)
  deriving DecidableEq

namespace Query

def range : Query α → Range α
  | single q => q.range
  | shared q => q.range

/-- What each product is to get. Mirrors `PlannedQuery::targets`. -/
def targets : Query α → List (Target α)
  | single q => [⟨q.key, [q.range]⟩]
  | shared q => q.targets

def keys : Query α → List String
  | single q => [q.key]
  | shared q => q.keys

end Query

end Plan

/-- A plan: queries for single products, or shared ones. Mirrors `QueryPlan`. -/
inductive Plan (α : Type) where
  | perProduct (queries : List (Plan.Single α))
  | addressBatch (queries : List (Plan.Shared α))
  deriving DecidableEq

namespace Plan

variable {α : Type}

/-- Mirrors `QueryPlan::into_queries`. -/
def queries : Plan α → List (Query α)
  | perProduct qs => qs.map .single
  | addressBatch qs => qs.map .shared

/-- Mirrors `QueryPlan::len`. -/
def length : Plan α → Nat
  | perProduct qs => qs.length
  | addressBatch qs => qs.length

/-- Mirrors `QueryPlan::kind`. -/
def kind : Plan α → String
  | perProduct _ => "per product"
  | addressBatch _ => "address batch"

/-- A plan and the sum of the sizes it brings. Mirrors `StrategyResult`. -/
structure Candidate (α : Type) where
  plan : Plan α
  coverage : UInt64

/-- Why no plan was made. Mirrors `OptimizeError`. -/
inductive Fault where
  /-- Several demands have one key. -/
  | duplicateProducts (keys : List String)
  /-- A full range is upside down. -/
  | invalidFullRange (key first last : String)
  /-- A limit is zero. -/
  | zeroLimit (name : String)
  deriving DecidableEq, Repr

def Fault.message : Fault → String
  | .duplicateProducts keys => "Duplicate states for products: " ++ Text.quoteList keys
  | .invalidFullRange key first last =>
    "Invalid full range for product " ++ key ++ ": " ++ first ++ " > " ++ last
  | .zeroLimit name => "Invalid optimizer options: " ++ name ++ " must be positive"

/-- The keys that come up again, each once, in the order in which they first do. -/
def repeated (keys : List String) : List String :=
  go [] [] keys
where
  go (seen found : List String) : List String → List String
    | [] => found.reverse
    | k :: rest =>
      if k ∈ seen then go seen (if k ∈ found then found else k :: found) rest
      else go (k :: seen) found rest

/-- Checks limits and demands: limits first, then repeated keys, then full ranges. Mirrors
`validate`. -/
def check [Axis α] [Axis.Shown α] (limits : Limits) (demands : List (ProductRanges α)) :
    Except Fault Unit :=
  if limits.maxProducts = 0 then .error (.zeroLimit "max_addresses_per_query")
  else if limits.maxSpan = 0 then .error (.zeroLimit "max_range_size")
  else if limits.maxQueries = 0 then .error (.zeroLimit "max_queries_per_product")
  else
    match repeated (demands.map (·.key)) with
    | k :: ks => .error (.duplicateProducts (k :: ks))
    | [] =>
      match demands.find? (¬ ·.full.Valid) with
      | some d =>
        .error (.invalidFullRange d.key (Axis.Shown.display d.full.first)
          (Axis.Shown.display d.full.last))
      | none => .ok ()

end Plan
end Backfill
