import Backfill.Rpc.Session

/-!
# Questions asked together

Several questions share the limiter of their session, and each answer fills in a part of one result.
Whenever something is due every future goes as far as it can, and who was first goes last the next
time. The first failure ends all of them, also those that have not been sent yet.
-/
namespace Backfill.Rpc

/-- One of the futures of a `try_join`: how far a question is whose answer fills in a part of a
result. -/
inductive Future (β : Type) where
  /-- Not sent before a time. -/
  | waiting (question : Question (β → β)) (notBefore : Nat)
  /-- Sent, with what it comes to at a time. -/
  | sent (question : Question (β → β)) (result : Except FetchError Json.Value) (due : Nat)
  | done

namespace Future
variable {ν β : Type} [Node ν]

/-- A place without a question has nothing to do. -/
def start (now : Nat) : Option (Question (β → β)) → Future β
  | some q => waiting q now
  | none => done

def due? : Future β → Option Nat
  | waiting _ due | sent _ _ due => some due
  | done => none

def settle (q : Question (β → β)) (result : Except FetchError Json.Value) (due now : Nat) (b : β) :
    Except FetchError (Future β × β) :=
  if now < due then .ok (.sent q result due, b)
  else do
    let fill ← q.read (← result)
    return (.done, fill b)

/-- A future as far as it gets at the moment, and the result with what it fills in. -/
def poll (e : Future β) (b : β) : Dialogue ν (Future β × β) := fun s =>
  match e with
  | done => (.ok (.done, b), s)
  | sent q result due => (settle q result due s.now b, s)
  | waiting q due =>
    if s.now < due then (.ok (.waiting q due, b), s)
    else
      match s.limiter.tryAcquire s.now with
      | (.error next, limiter) => (.ok (.waiting q next, b), { s with limiter })
      | (.ok (), limiter) =>
        let ((result, due), s) := { s with limiter }.send q.request
        (settle q result due s.now b, s)

def pollAll : List (Future β) → β → Dialogue ν (List (Future β) × β)
  | [], b => return ([], b)
  | e :: rest, b => do
    let (e, b) ← e.poll b
    let (rest, b) ← pollAll rest b
    return (e :: rest, b)

def waitUntil (time : Nat) : Dialogue ν Unit :=
  modify fun s => { s with now := max s.now time }

/-- Goes on until all futures are done, `rounds` times at most. -/
def finish (rounds : Nat) (es : List (Future β)) (b : β) : Dialogue ν β :=
  match rounds with
  | 0 => return b
  | rounds + 1 => do
    let (es, b) ← pollAll es b
    match (es.filterMap due?).min? with
    | none => return b
    | some due =>
      waitUntil due
      finish rounds (es.rotateLeft 1) b

end Future

/-- Mirrors `try_join`. A place without a question keeps its turn. Each round but the last sends or
settles at least one future, so twice their number of rounds, and one more, are enough. -/
def askTogether {ν β : Type} [Node ν] (questions : List (Option (Question (β → β)))) (b : β) :
    Dialogue ν β := do
  let now := (← get).now
  Future.finish (2 * questions.length + 1) (questions.map (Future.start now)) b

/-- The position of an owner: the balance, the time of the block, and the price of a share, which is
1 where nothing says how to read it. Mirrors `fetch_transfer_data`. -/
def fetchPosition {ν : Type} [Node ν] (q : TransferDataParams) : Dialogue ν TransferData :=
  askTogether
    [some ((Question.balance q.token q.owner q.block).map fun balance p => { p with balance }),
     some ((Question.blockTime q.block).map fun time p => { p with time }),
     q.shareRate.map fun params =>
       (Question.shareRate params q.block).map fun shareRate p => { p with shareRate }]
    { time := Instant.epoch, balance := 0, shareRate := Decimal.one }

end Backfill.Rpc
