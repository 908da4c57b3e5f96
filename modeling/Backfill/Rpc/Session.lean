import Backfill.Clock.RpcLimiter
import Backfill.Rpc.Question

/-!
# Sessions with a node

A session has a clock, a limiter and the requests sent so far. A request waits for its turn, is
answered when it is sent, and then takes the time of its reply, but no longer than the limiter
allows. The first block with code of a contract is found by halving the blocks in question.
-/
namespace Backfill.Rpc

/-- Something that answers requests, and may change by answering. Mirrors the provider. -/
class Node (ν : Type) where
  answer : ν → Request → Reply × ν

/-- An `RpcClient` at work: its limiter, its provider and a clock that counts milliseconds from the
start. -/
structure Session (ν : Type) where
  now : Nat := 0
  limiter : RpcLimiter
  node : ν
  sent : List Request := []

/-- A remote call: it asks a node, fails or comes to a result, and takes its time. -/
abbrev Dialogue (ν : Type) := ExceptT FetchError (StateM (Session ν))

namespace Session
variable {ν : Type} [Node ν]

def send (s : Session ν) (q : Request) : (Except FetchError Json.Value × Nat) × Session ν :=
  let (reply, node) := Node.answer s.node q
  let (waited, inTime) := s.limiter.await reply.delay
  let result := if inTime then reply.result.mapError (·.cause q.block?) else .error .timeout
  ((result, s.now + waited), { s with node, sent := s.sent ++ [q] })

end Session

variable {ν : Type} [Node ν]

/-- Sends a request when its turn comes and waits for the reply. Mirrors `RpcClient::request`. -/
def fetch (q : Request) : Dialogue ν Json.Value := fun s =>
  let (now, limiter) := s.limiter.acquire s.now
  let ((result, due), s) := { s with now, limiter }.send q
  (result, { s with now := due })

def ask {α : Type} (q : Question α) : Dialogue ν α := do
  match q.read (← fetch q.request) with
  | .ok a => return a
  | .error fault => throw fault

/-! ## The block that brought a contract -/

/-- The loop of `fetch_contract_creation`: halves the numbers from `low` to `high` until one is
left. Where something holds at the middle the search goes on up to there, and otherwise above it. -/
def halve {m : Type → Type} [Monad m] (holds : Nat → m Bool) (low high : Nat) : m Nat := do
  if h : low < high then
    let middle := low + (high - low) / 2
    if ← holds middle then halve holds low middle else halve holds (middle + 1) high
  else return low
termination_by high - low

/-- When a contract was created, if it exists at the highest block. Its code must stay once it is
there. Mirrors `fetch_contract_creation`. -/
def fetchCreation {ν : Type} [Node ν] (address : Address) :
    Dialogue ν (Option ContractCreation) := do
  let latest ← ask Question.latest
  if ← ask (Question.hasCode address latest) then
    let first ← halve (fun n => ask (Question.hasCode address (UInt64.ofNat n))) 0 latest.toNat
    let block := UInt64.ofNat first
    return some ⟨block, ← ask (Question.blockTime block)⟩
  else return none

end Backfill.Rpc
