import Backfill.Proofs.Clock.Refusals
import Backfill.Proofs.Rpc.Answers

/-!
# What a session hears

A session sends requests one after the other, and each is answered by the node as the requests
before it have left it. Whatever a question comes to was read in the answer to its request.

Results:
* `Session.Heard`: a request that was sent, and what the node answered.
* `Session.Learned`: a question that was asked, and what it came to.
* `learned_ask`: what a question comes to that is asked alone.
-/
namespace Backfill.Rpc

variable {ν α β : Type} [Node ν]

def after (n : ν) (qs : List Request) : ν := qs.foldl (fun n q => (Node.answer n q).2) n

namespace Session

variable {s s₁ s₂ s' : Session ν} {q : Request} {v : Json.Value}

/-- A session as it goes on with requests. -/
def Continues (s s' : Session ν) : Prop :=
  ∃ qs, s'.sent = s.sent ++ qs ∧ s'.node = after s.node qs

/-- As a session went on it sent a request, and the node answered it with a value. -/
def Heard (s s' : Session ν) (q : Request) (v : Json.Value) : Prop :=
  ∃ before rest, s'.sent = s.sent ++ (before ++ q :: rest) ∧
    (Node.answer (after s.node before) q).1.result = .ok v

/-- As a session went on it asked a question and came to an answer. -/
def Learned (s s' : Session ν) (q : Question α) (a : α) : Prop :=
  ∃ v, s.Heard s' q.request v ∧ q.read v = .ok a

theorem Continues.refl (s : Session ν) : s.Continues s := ⟨[], (List.append_nil _).symm, rfl⟩

theorem Continues.trans (h : s.Continues s₁) (h' : s₁.Continues s₂) : s.Continues s₂ := by
  obtain ⟨qs, hsent, hnode⟩ := h
  obtain ⟨qs', hsent', hnode'⟩ := h'
  refine ⟨qs ++ qs', ?_, ?_⟩
  · rw [hsent', hsent, List.append_assoc]
  · rw [hnode', hnode, after, after, after, List.foldl_append]

theorem Heard.later (h : s.Heard s₁ q v) (h' : s₁.Continues s₂) : s.Heard s₂ q v := by
  obtain ⟨before, rest, hsent, hanswer⟩ := h
  obtain ⟨qs, hsent', -⟩ := h'
  refine ⟨before, rest ++ qs, ?_, hanswer⟩
  rw [hsent', hsent, List.append_assoc, List.append_assoc, List.cons_append]

theorem Learned.later {q : Question α} {a : α} (h : s.Learned s₁ q a) (h' : s₁.Continues s₂) :
    s.Learned s₂ q a := by
  obtain ⟨v, hheard, hread⟩ := h
  exact ⟨v, hheard.later h', hread⟩

theorem Heard.earlier (h : s.Continues s₁) (h' : s₁.Heard s₂ q v) : s.Heard s₂ q v := by
  obtain ⟨qs, hsent, hnode⟩ := h
  obtain ⟨before, rest, hsent', hanswer⟩ := h'
  refine ⟨qs ++ before, rest, ?_, ?_⟩
  · rw [hsent', hsent, List.append_assoc, List.append_assoc]
  · rw [after, List.foldl_append]
    rw [hnode] at hanswer
    exact hanswer

theorem continues_send {now : Nat} {limiter : RpcLimiter} {r : Except FetchError Json.Value × Nat}
    (h : { s with now, limiter }.send q = (r, s')) : s.Continues s' := by
  obtain rfl : ({ s with now, limiter }.send q).2 = s' := congrArg Prod.snd h
  exact ⟨[q], rfl, rfl⟩

/-- A request that comes to a value was answered with it. -/
theorem heard_send {now due : Nat} {limiter : RpcLimiter}
    (h : { s with now, limiter }.send q = ((.ok v, due), s')) : s.Heard s' q v := by
  obtain rfl : ({ s with now, limiter }.send q).2 = s' := congrArg Prod.snd h
  refine ⟨[], [], rfl, ?_⟩
  have hresult : ({ s with now, limiter }.send q).1.1 = .ok v := by rw [h]
  unfold send at hresult
  dsimp only at hresult
  split at hresult
  · cases hanswer : (Node.answer s.node q).1.result with
    | error fault =>
      rw [hanswer] at hresult
      cases hresult
    | ok w =>
      rw [hanswer] at hresult
      cases hresult
      exact hanswer
  · cases hresult

end Session

theorem heard_fetch {q : Request} {s : Session ν} {v : Json.Value} (h : (fetch q s).1 = .ok v) :
    s.Heard (fetch q s).2 q v := by
  have heard : s.Heard ({ s with
      now := (s.limiter.acquire s.now).1, limiter := (s.limiter.acquire s.now).2 }.send q).2 q v :=
    Session.heard_send (Prod.ext (Prod.ext h rfl) rfl)
  exact heard

/-- A question comes to what it reads in an answer. -/
theorem learned_ask {q : Question α} {s s' : Session ν} {a : α} (h : ask q s = (.ok a, s')) :
    s.Learned s' q a := by
  rw [ask_eq] at h
  obtain ⟨hresult, rfl⟩ := Prod.mk.inj h
  cases hfetch : (fetch q.request s).1 with
  | error fault =>
    rw [hfetch] at hresult
    cases hresult
  | ok v =>
    rw [hfetch] at hresult
    exact ⟨v, heard_fetch hfetch, hresult⟩

/-- A question whose answer is worked on. -/
theorem Session.Learned.of_map {q : Question α} {f : α → β} {b : β} {s s' : Session ν}
    (h : s.Learned s' (q.map f) b) : ∃ a, s.Learned s' q a ∧ b = f a := by
  obtain ⟨v, hheard, hread⟩ := h
  cases ha : q.read v with
  | error fault =>
    simp only [Question.map, ha] at hread
    cases hread
  | ok a =>
    simp only [Question.map, ha] at hread
    cases hread
    exact ⟨a, ⟨v, hheard, ha⟩, rfl⟩

end Backfill.Rpc
