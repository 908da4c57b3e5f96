import Backfill.Plan.Shared

/-!
# Choosing a plan

For the plan of single products every product gets queries of its own, the highest positions first.
Ranges never asked for come before retries, which only take what is left of the product's queries.

Of this plan and the shared one, the one with fewer queries is taken. With equally many, the plan
for single products is taken only if it brings more.
-/
namespace Backfill.Plan

variable {α : Type} [Axis α]

/-! ## Queries for single products -/

def piecesFor (limits : Limits) (d : ProductRanges α) : List (Range α) :=
  let fresh :=
    Range.firstPieces .descending limits.maxSpan limits.maxQueries
      (d.computeNeeded limits.ignoreState)
  if limits.ignoreState then fresh
  else
    fresh ++
      Range.firstPieces .descending limits.maxSpan (limits.maxQueries - fresh.length) d.toRetry

def singles (limits : Limits) (demands : List (ProductRanges α)) : List (Single α) :=
  demands.flatMap fun d => (piecesFor limits d).map fun r => ⟨d.key, r⟩

/-- The plan of queries for single products. Mirrors `per_product::optimize`. -/
def ofSingles (limits : Limits) (demands : List (ProductRanges α)) : Candidate α :=
  let queries := singles limits demands
  { plan := .perProduct queries, coverage := Range.totalSize (queries.map (·.range)) }

/-! ## The better plan -/

/-- The better of two candidates; the second unless the first is strictly better. -/
def better (single shared : Candidate α) : Candidate α :=
  if single.plan.length = shared.plan.length then
    if shared.coverage < single.coverage then single else shared
  else if single.plan.length < shared.plan.length then single
  else shared

/-- The plan for some demands. A node that takes one product to the query leaves no choice. Mirrors
`optimize_with_rng`. -/
def choose [Axis.Shown α] (limits : Limits) (draws : Draws) (demands : List (ProductRanges α)) :
    Except Fault (Plan α) := do
  check limits demands
  let single := ofSingles limits demands
  if limits.maxProducts = 1 then return single.plan
  return (better single (ofShareds limits draws demands)).plan

end Backfill.Plan
