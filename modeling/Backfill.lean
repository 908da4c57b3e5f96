import Backfill.Amount.Decimal
import Backfill.Clock.RpcLimiter
import Backfill.CommandLine.Invocation
import Backfill.Cycle.Rounds
import Backfill.Fault
import Backfill.ImportState.Document
import Backfill.ImportState.Store
import Backfill.Json.Reader
import Backfill.Loading
import Backfill.Main
import Backfill.Metrics
import Backfill.Numbers
import Backfill.Plan.Choice
import Backfill.Product.Catalog
import Backfill.Proofs.Amount.Rounding
import Backfill.Proofs.Amount.Scaling
import Backfill.Proofs.Clock.Batches
import Backfill.Proofs.Clock.Refusals
import Backfill.Proofs.Clock.Spacing
import Backfill.Proofs.Cycle.Apart
import Backfill.Proofs.Cycle.CalledOff
import Backfill.Proofs.Cycle.CatchUp
import Backfill.Proofs.Cycle.Ceiling
import Backfill.Proofs.Cycle.Folding
import Backfill.Proofs.Cycle.Following
import Backfill.Proofs.Cycle.Forced
import Backfill.Proofs.Cycle.Handover
import Backfill.Proofs.Cycle.LastHour
import Backfill.Proofs.Cycle.Once
import Backfill.Proofs.Cycle.Recent
import Backfill.Proofs.Cycle.Rescan
import Backfill.Proofs.Cycle.Sampled
import Backfill.Proofs.Cycle.Sampling
import Backfill.Proofs.Cycle.Stored
import Backfill.Proofs.Cycle.Tiling
import Backfill.Proofs.Cycle.TwoPlans
import Backfill.Proofs.Cycle.Unread
import Backfill.Proofs.Cycle.WholeSlots
import Backfill.Proofs.ImportState.ImportRanges
import Backfill.Proofs.ImportState.Document
import Backfill.Proofs.ImportState.Local
import Backfill.Proofs.ImportState.SharedTable
import Backfill.Proofs.Json.Strings
import Backfill.Proofs.Json.Values
import Backfill.Proofs.Plan.Bounds
import Backfill.Proofs.Plan.Newest
import Backfill.Proofs.Plan.Orders
import Backfill.Proofs.Plan.Slices
import Backfill.Proofs.Plan.Ties
import Backfill.Proofs.Product.Catalog
import Backfill.Proofs.Range.Aligned
import Backfill.Proofs.Range.Counts
import Backfill.Proofs.Range.Divided
import Backfill.Proofs.Range.Foremost
import Backfill.Proofs.Range.Holes
import Backfill.Proofs.Range.Places
import Backfill.Proofs.Range.Text
import Backfill.Proofs.Range.Upright
import Backfill.Proofs.Records.Numbers
import Backfill.Proofs.Records.Orders
import Backfill.Proofs.Records.Prices
import Backfill.Proofs.Records.Refused
import Backfill.Proofs.Records.Whole
import Backfill.Proofs.Rpc.Creation
import Backfill.Proofs.Rpc.Heard
import Backfill.Proofs.Rpc.Integers
import Backfill.Proofs.Rpc.Legs
import Backfill.Proofs.Rpc.Positions
import Backfill.Proofs.Rpc.Together
import Backfill.Proofs.Text.Hex
import Backfill.Proofs.Time.Calendar
import Backfill.Proofs.Time.Produced
import Backfill.Proofs.Time.Text
import Backfill.Range.Pieces
import Backfill.Range.Text
import Backfill.Records.Columns
import Backfill.Records.Memory
import Backfill.Mock.Provider
import Backfill.Mock.Stores
import Backfill.Rpc.Endpoint
import Backfill.Rpc.Session
import Backfill.Rpc.Together
import Backfill.Settings
import Backfill.TimeGrid
import Backfill.Status
import Backfill.Table
import Backfill.Text.Characters
import Backfill.RangeContext
