import Backfill.Rpc.Session

/-!
# Mock providers

A mock provider has its replies laid out for it. Each request takes the first one left for its
method.
-/
namespace Backfill

/-- Replies laid out by method. Mirrors `MockProvider`. -/
structure MockProvider where
  /-- The block from which on every address has code; without it code is replied like all else. -/
  codeFrom : Option BlockNumber := none
  replies : List (String × Rpc.Reply)

namespace MockProvider

/-- The first reply for a method, and the others. -/
def take? (method : String) :
    List (String × Rpc.Reply) → Option (Rpc.Reply × List (String × Rpc.Reply))
  | [] => none
  | (m, reply) :: rest =>
    if m = method then some (reply, rest)
    else (take? method rest).map fun (found, rest) => (found, (m, reply) :: rest)

def reply (n : MockProvider) (q : Rpc.Request) : Rpc.Reply × MockProvider :=
  match take? q.method n.replies with
  | some (reply, replies) => (reply, { n with replies })
  | none => ({ result := .error (.custom "no response left") }, n)

def answer (n : MockProvider) (q : Rpc.Request) : Rpc.Reply × MockProvider :=
  match q, n.codeFrom with
  | .code _ block, some first =>
    ({ result := .ok (.text (if first ≤ block then "0x6080" else "0x")) }, n)
  | _, _ => n.reply q

end MockProvider

instance : Rpc.Node MockProvider where
  answer := MockProvider.answer

end Backfill
