import Backfill.Clock.Batching
import Backfill.Cycle.Runner
import Backfill.Cycle.SnapshotRunner

/-!
# Rounds

Cycles over time. Products that come one by one are imported batch by batch, one cycle to the batch.
A run imports a fixed list of products once, or again and again until it is called off. Cycles
themselves take no time here: only waiting does.

Tasks can run together until the first of them is done. That one cancels the others: those that
watch for it stop at once, and the rest are waited for.
-/
namespace Backfill

/-- When something is called off from outside, in milliseconds; never if there is no time. -/
abbrev StopTime := Option Nat

def StopTime.reached (s : StopTime) (time : Nat) : Bool :=
  match s with
  | some t => decide (t ≤ time)
  | none => false

def StopTime.cut (s : StopTime) (time : Nat) : Nat :=
  match s with
  | some t => min t time
  | none => time

namespace Rounds

variable {α σ ρ β : Type}

abbrev Step (α σ ρ β : Type) := List β → RunnerState α σ ρ → RunnerState α σ ρ

/-- One cycle to the batch, until the batches end at `finish` or it is called off. Answers when it
ended. -/
def overBatches (step : Step α σ ρ β) (cancelled : Cancellation) (stop : StopTime) (finish : Nat) :
    List (Batch β) → RunnerState α σ ρ → Nat × RunnerState α σ ρ
  | [], b => (stop.cut finish, b)
  | batch :: rest, b =>
    if stop.reached batch.time then (stop.cut batch.time, b)
    else
      let b := step batch.items b
      if cancelled b.trace then (batch.time, b)
      else overBatches step cancelled stop finish rest b

/-- One round after the other, `interval` apart, until it is called off; `rounds` of them at
most. -/
def repeated (step : RunnerState α σ ρ → RunnerState α σ ρ) (cancelled : Cancellation)
    (stop : StopTime) (interval : Option Nat) : (rounds now : Nat) → RunnerState α σ ρ →
    Nat × RunnerState α σ ρ
  | 0, now, b => (now, b)
  | rounds + 1, now, b =>
    let b := step b
    match interval with
    | none => (now, b)
    | some interval =>
      if cancelled b.trace then (now, b)
      else if stop.reached (now + interval) then (stop.cut (now + interval), b)
      else repeated step cancelled stop (some interval) rounds (now + interval) b

end Rounds

namespace Runner

variable {σ ρ : Type} [ImportStateStore σ BlockNumber] [RecordSink ρ]

/-- Imports products that come one by one. Answers when that ended. Mirrors
`Runner::process_stream`. -/
def processStream (i : Runner) (c : Conditions) (stop : StopTime) (delays : List Nat)
    (products : List Product) (b : RunnerState BlockNumber σ ρ) :
    Nat × RunnerState BlockNumber σ ρ :=
  let arrivals := Batch.arrivals 0 delays products
  Rounds.overBatches (fun ps b => (i.runCycle c ps b).2) c.cancelled stop (Batch.endOf arrivals)
    (Batch.ofArrivals i.stream.maxInputWait arrivals) (b.reach .collect)

/-- Imports products once, or again and again; `rounds` times at most. Mirrors `Runner::run`. -/
def run (i : Runner) (c : Conditions) (stop : StopTime) (rounds : Nat) (products : List Product)
    (b : RunnerState BlockNumber σ ρ) : Nat × RunnerState BlockNumber σ ρ :=
  let delays := products.map fun _ => 0
  Rounds.repeated (fun b => (i.processStream c none delays products b).2) c.cancelled stop
    i.behaviour.repeatEvery rounds 0 b

end Runner

namespace SnapshotRunner

variable {σ τ ρ : Type} [ImportStateStore σ Instant] [ImportStateStore τ BlockNumber] [RecordSink ρ]

/-- Mirrors `SnapshotRunner::run`. -/
def run (s : SnapshotRunner) (c : Conditions) (positions : τ) (stop : StopTime) (rounds : Nat)
    (products : List Product) (b : RunnerState Instant σ ρ) : Nat × RunnerState Instant σ ρ :=
  Rounds.repeated (fun b => (s.runCycle c positions products b).2) c.cancelled stop
    s.behaviour.repeatEvery rounds 0 b

end SnapshotRunner

/-! ## Tasks that run together -/

/-- A future given to `run_all`: it takes some time, and may watch for being cancelled. -/
structure RunAllTask where
  /-- In milliseconds. -/
  duration : Nat
  watches : Bool
  deriving DecidableEq, Repr

namespace RunAllTask

structure Ending where
  finished : Bool
  time : Nat
  deriving DecidableEq, Repr

def ending (cancelled : Nat) (c : RunAllTask) : Ending :=
  if c.watches ∧ cancelled < c.duration then ⟨false, cancelled⟩ else ⟨true, c.duration⟩

/-- How tasks that run together end. Mirrors `run_all`. -/
def endings (cs : List RunAllTask) : List Ending :=
  match (cs.map (·.duration)).min? with
  | none => []
  | some first => cs.map (ending first)

end RunAllTask

end Backfill
