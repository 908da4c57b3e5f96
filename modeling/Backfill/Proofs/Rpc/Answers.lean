import Backfill.Rpc.Session

/-!
# Questions that are answered

A session hands a request to its node when the limiter lets it, so whatever the limiter does, the
node is asked once and the session remembers it. If the answer comes in time, what a question comes
to is what it reads in the answer.

Results:
* `bind_of_ok`, `bind_of_error`: dialogues go on from a result, and end with a fault.
* `sent_ask`, `node_ask`, `timeout_ask`: a session after a question.
* `ask_of_answers`: what a question comes to.
-/
namespace Backfill.Rpc

variable {ν α β : Type} [Node ν]

omit [Node ν] in
theorem bind_of_ok {x : Dialogue ν α} {f : α → Dialogue ν β} {s s' : Session ν} {a : α}
    (h : x s = (.ok a, s')) : (x >>= f) s = f a s' := by
  change (match x s with
    | (r, s') => ExceptT.bindCont f r s') = f a s'
  rw [h]
  rfl

omit [Node ν] in
theorem bind_of_error {x : Dialogue ν α} {f : α → Dialogue ν β} {s s' : Session ν}
    {fault : FetchError} (h : x s = (.error fault, s')) : (x >>= f) s = (.error fault, s') := by
  change (match x s with
    | (r, s') => ExceptT.bindCont f r s') = _
  rw [h]
  rfl

/-! ## Answers -/

/-- A node answers a request with a value, and does not take longer than it may. -/
structure Answers (timeout : Nat) (n : ν) (q : Request) (v : Json.Value) : Prop where
  result : (Node.answer n q).1.result = .ok v
  inTime : (Node.answer n q).1.delay ≤ timeout

/-- A node answers a question, and this is what the answer means. -/
def Gives (timeout : Nat) (n : ν) (q : Question α) (a : α) : Prop :=
  ∃ v, Answers timeout n q.request v ∧ q.read v = .ok a

/-! ## Sessions -/

omit [Node ν] in
theorem timeout_tryAcquire (l : RpcLimiter) (now : Nat) :
    (l.tryAcquire now).2.timeout = l.timeout := by
  unfold RpcLimiter.tryAcquire
  split <;> rfl

omit [Node ν] in
theorem timeout_acquire (l : RpcLimiter) (now : Nat) : (l.acquire now).2.timeout = l.timeout := by
  have hfirst := timeout_tryAcquire l now
  unfold RpcLimiter.acquire
  split
  · next l' heq =>
    rw [heq] at hfirst
    exact hfirst
  · next next l' heq =>
    rw [heq] at hfirst
    exact (timeout_tryAcquire l' _).trans hfirst

section Session

variable (q : Request) (s : Session ν)

theorem sent_fetch : (fetch q s).2.sent = s.sent ++ [q] := rfl

theorem node_fetch : (fetch q s).2.node = (Node.answer s.node q).2 := rfl

theorem timeout_fetch : (fetch q s).2.limiter.timeout = s.limiter.timeout :=
  timeout_acquire s.limiter s.now

variable {q s}

theorem fetch_of_answers {v : Json.Value} (h : Answers s.limiter.timeout s.node q v) :
    (fetch q s).1 = .ok v := by
  have htime : (Node.answer s.node q).1.delay ≤ (s.limiter.acquire s.now).2.timeout := by
    rw [timeout_acquire]
    exact h.inTime
  simp only [fetch, Session.send, RpcLimiter.await, if_pos htime, h.result]
  rfl

end Session

section Ask

variable (q : Question α) (s : Session ν)

theorem ask_eq : ask q s = ((fetch q.request s).1.bind q.read, (fetch q.request s).2) := by
  rcases hfetch : fetch q.request s with ⟨fault | v, s'⟩
  · exact bind_of_error hfetch
  · refine (bind_of_ok hfetch).trans ?_
    change _ = (q.read v, s')
    cases q.read v <;> rfl

theorem sent_ask : (ask q s).2.sent = s.sent ++ [q.request] := by rw [ask_eq, sent_fetch]

theorem node_ask : (ask q s).2.node = (Node.answer s.node q.request).2 := by
  rw [ask_eq, node_fetch]

theorem timeout_ask : (ask q s).2.limiter.timeout = s.limiter.timeout := by
  rw [ask_eq, timeout_fetch]

variable {q s}

theorem ask_of_answers {v : Json.Value} (h : Answers s.limiter.timeout s.node q.request v) :
    (ask q s).1 = q.read v := by
  rw [ask_eq, fetch_of_answers h]
  rfl

theorem ask_of_gives {a : α} (h : Gives s.limiter.timeout s.node q a) :
    (ask q s).1 = .ok a := by
  obtain ⟨v, hv, hread⟩ := h
  rw [ask_of_answers hv, hread]

end Ask
end Backfill.Rpc
