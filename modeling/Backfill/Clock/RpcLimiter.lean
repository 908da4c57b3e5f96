import Backfill.Numbers

/-!
# Limiters

A limiter spaces remote calls out and bounds how long each may take. It draws from a bucket that
gains a token every `interval` milliseconds and holds `capacity` of them; clones draw from the same
bucket. Times are milliseconds since the limiter was made.
-/
namespace Backfill

/-- Mirrors `Bucket`. -/
structure Bucket where
  interval : Nat
  capacity : Nat
  tokens : Nat
  /-- The last time at which a token was due. -/
  since : Nat
  interval_pos : 0 < interval
  deriving DecidableEq

namespace Bucket

/-- Mirrors `Bucket::new`: a full bucket for `burst` calls back to back, one at least. -/
def full (interval burst : Nat) (h : 0 < interval) : Bucket :=
  { interval, capacity := max burst 1, tokens := max burst 1, since := 0, interval_pos := h }

/-- More tokens than this due at once are not counted one by one. -/
def maxDue : Nat := 2 ^ 32 - 1

/-- The bucket with the tokens that have become due. Mirrors `Bucket::update`. -/
def refill (b : Bucket) (now : Nat) : Bucket :=
  let due := (now - b.since) / b.interval
  if due ≤ maxDue then
    { b with since := b.since + b.interval * due, tokens := min (b.tokens + due) b.capacity }
  else { b with since := now, tokens := b.capacity }

/-- The bucket without a token, if there is one at the time, and otherwise the refilled bucket and
the time of the next token. Mirrors `Bucket::take` and `Bucket::until_next_token`. -/
def take (b : Bucket) (now : Nat) : Except Nat Unit × Bucket :=
  let b := b.refill now
  match b.tokens with
  | 0 => (.error (b.since + b.interval), b)
  | tokens + 1 => (.ok (), { b with tokens })

end Bucket

/-- Spaces calls out if it has a bucket, and bounds the time that each takes.
Mirrors `RpcLimiter`. -/
structure RpcLimiter where
  bucket : Option Bucket
  timeout : Nat
  deriving DecidableEq

namespace RpcLimiter

def unlimited (timeout : Nat) : RpcLimiter := { bucket := none, timeout }

/-- Mirrors `RpcLimiter::new`: without a delay it does not space calls out. -/
def ofDelay (minDelay burst timeout : Nat) : RpcLimiter :=
  { bucket := if h : 0 < minDelay then some (Bucket.full minDelay burst h) else none, timeout }

def isLimited (l : RpcLimiter) : Bool := l.bucket.isSome

/-- One pass of the loop of `RpcLimiter::acquire`: a token at the time, or the time to try again. -/
def tryAcquire (l : RpcLimiter) (now : Nat) : Except Nat Unit × RpcLimiter :=
  match l.bucket with
  | none => (.ok (), l)
  | some b =>
    let (answer, b) := b.take now
    (answer, { l with bucket := some b })

/-- When a call made at a time may go ahead, if no other one waits.
Mirrors `RpcLimiter::acquire`. -/
def acquire (l : RpcLimiter) (now : Nat) : Nat × RpcLimiter :=
  match l.tryAcquire now with
  | (.ok (), l) => (now, l)
  | (.error next, l) => (max now next, (l.tryAcquire (max now next)).2)

/-- How long a reply that takes some time is waited for, and whether it comes in time. Mirrors the
timeout of `RpcLimiter::call`. -/
def await (l : RpcLimiter) (millis : Nat) : Nat × Bool :=
  if millis ≤ l.timeout then (millis, true) else (l.timeout, false)

end RpcLimiter
end Backfill
