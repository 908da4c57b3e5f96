import Mathlib.Logic.Relation
import Backfill.Clock.RpcLimiter

/-!
# How many calls a limiter lets through

Any number of callers share a limiter. A caller asks when it calls; if it is refused it asks again
once the time that it was told has come, when others may have been faster. `Step` is all that can
happen, at any times.

Tokens fall due a whole number of delays after the last one that was due, not after the last call.
A call after an idle spell can therefore come right before the next token, so that a window holds
one call more than the delays that fit into it would allow.

Results:
* `tokens_refill_paid`: tokens are paid for by the time that the grid moves on.
* `acquire_steps`: a call while no other one is made is let through after one wait at most.
* `granted_window`: a window holds the burst, and a call for every delay begun in it.
* `granted_off_grid`: two calls one millisecond apart.
-/
namespace Backfill

/-! ## Buckets -/

namespace Bucket

variable {b b' : Bucket} {now next : Nat}

@[simp] theorem interval_refill (b : Bucket) (now : Nat) :
    (b.refill now).interval = b.interval := by
  unfold refill
  dsimp only
  split <;> rfl

@[simp] theorem capacity_refill (b : Bucket) (now : Nat) :
    (b.refill now).capacity = b.capacity := by
  unfold refill
  dsimp only
  split <;> rfl

theorem tokens_refill_le (b : Bucket) (now : Nat) : (b.refill now).tokens ≤ b.capacity := by
  unfold refill
  dsimp only
  split
  · exact Nat.min_le_right ..
  · exact Nat.le_refl _

theorem since_refill (hsince : b.since ≤ now) :
    (b.refill now).since ≤ now ∧ now < (b.refill now).since + b.interval := by
  have hdiv := Nat.div_add_mod (now - b.since) b.interval
  have hmod := Nat.mod_lt (now - b.since) b.interval_pos
  have hpos := b.interval_pos
  unfold refill
  dsimp only
  split <;> dsimp only <;> omega

/-- A token costs an interval by which the grid moves on. After so long a time that tokens are not
counted, the whole capacity is paid for. -/
theorem tokens_refill_paid (hsince : b.since ≤ now) (hcapacity : b.capacity ≤ maxDue) :
    b.interval * (b.refill now).tokens + b.since ≤
      b.interval * b.tokens + (b.refill now).since := by
  have hdiv := Nat.div_add_mod (now - b.since) b.interval
  unfold refill
  dsimp only
  generalize (now - b.since) / b.interval = due at hdiv
  split
  · have hle : b.interval * min (b.tokens + due) b.capacity ≤ b.interval * (b.tokens + due) :=
      Nat.mul_le_mul_left _ (Nat.min_le_left ..)
    rw [Nat.mul_add] at hle
    dsimp only
    omega
  · have hle : b.interval * b.capacity ≤ b.interval * due := Nat.mul_le_mul_left _ (by omega)
    dsimp only
    omega

theorem tokens_refill_next (hempty : b.tokens = 0) (hcapacity : 0 < b.capacity) :
    (b.refill (b.since + b.interval)).tokens = 1 := by
  have hdue : (b.since + b.interval - b.since) / b.interval = 1 := by
    rw [Nat.add_sub_cancel_left, Nat.div_self b.interval_pos]
  unfold refill
  dsimp only
  rw [hdue, if_pos (by decide), hempty]
  dsimp only
  omega

/-- Who is refused finds a token at the time it was told, if no other one is faster. -/
theorem take_again (hsince : b.since ≤ now) (hcapacity : 0 < b.capacity)
    (h : b.take now = (.error next, b')) : now < next ∧ (b'.take next).1 = .ok () := by
  have hgrid := since_refill hsince
  unfold take at h
  dsimp only at h
  split at h
  · next hempty =>
    cases h
    have htoken := tokens_refill_next hempty (by rwa [capacity_refill])
    rw [interval_refill] at htoken ⊢
    refine ⟨hgrid.2, ?_⟩
    simp [take, htoken]
  · cases h

end Bucket

/-! ## Callers -/

structure Callers where
  limiter : RpcLimiter
  now : Nat
  /-- When those that were refused ask again. -/
  waiting : List Nat
  /-- When calls were let through, the last one first. -/
  granted : List Nat

namespace Callers

def ofLimiter (l : RpcLimiter) : Callers := { limiter := l, now := 0, waiting := [], granted := [] }

/-- One more caller than those that wait asks for a token. -/
def ask (s : Callers) (waiting : List Nat) : Callers :=
  match s.limiter.tryAcquire s.now with
  | (.ok (), limiter) => { s with limiter, waiting, granted := s.now :: s.granted }
  | (.error next, limiter) => { s with limiter, waiting := next :: waiting }

/-- What can happen: time passes, a call is made, or one that was refused is made again, when it is
due or later. -/
inductive Step (s : Callers) : Callers → Prop where
  | pass (later : Nat) (forward : s.now ≤ later) : Step s { s with now := later }
  | call : Step s (s.ask s.waiting)
  | retry (due : Nat) (waits : due ∈ s.waiting) (reached : due ≤ s.now) :
      Step s (s.ask (s.waiting.erase due))

abbrev Run : Callers → Callers → Prop := Relation.ReflTransGen Step

/-- How many calls were let through from one time to another, both included. -/
def between (first last : Nat) (granted : List Nat) : Nat :=
  granted.countP fun t => first ≤ t && t ≤ last

@[simp] theorem between_nil (first last : Nat) : between first last [] = 0 := rfl

theorem between_cons (first last t : Nat) (ts : List Nat) :
    between first last (t :: ts) =
      between first last ts + if first ≤ t ∧ t ≤ last then 1 else 0 := by
  simp [between, List.countP_cons]

theorem between_eq {ts : List Nat} {last last' : Nat} (first : Nat) (h : ∀ t ∈ ts, t ≤ last)
    (h' : ∀ t ∈ ts, t ≤ last') : between first last ts = between first last' ts := by
  unfold between
  refine List.countP_congr fun t ht => ?_
  simp [h t ht, h' t ht]

/-! ## One call at a time -/

/-- A call while no other one is made is let through when `acquire` says. -/
theorem acquire_steps {s : Callers}
    (hbucket : ∀ b ∈ s.limiter.bucket, b.since ≤ s.now ∧ 0 < b.capacity) :
    let (time, limiter) := s.limiter.acquire s.now
    s.Run { limiter, now := time, waiting := s.waiting, granted := time :: s.granted } := by
  unfold RpcLimiter.acquire
  have hcall : s.Run (s.ask s.waiting) := .single .call
  unfold ask at hcall
  rcases htry : s.limiter.tryAcquire s.now with ⟨_ | _, l⟩
  · next next =>
    simp only [htry] at hcall ⊢
    -- only a bucket refuses
    obtain ⟨hlater, hagain⟩ : s.now < next ∧ (l.tryAcquire next).1 = .ok () := by
      unfold RpcLimiter.tryAcquire at htry
      cases hb : s.limiter.bucket with
      | none => simp [hb] at htry
      | some b =>
        simp only [hb, Prod.mk.injEq] at htry
        obtain ⟨herror, rfl⟩ := htry
        obtain ⟨hsince, hcapacity⟩ := hbucket b hb
        exact Bucket.take_again hsince hcapacity (Prod.ext herror rfl)
    rw [Nat.max_eq_right (Nat.le_of_lt hlater)]
    refine (hcall.tail (.pass next (Nat.le_of_lt hlater))).tail ?_
    have hretry : Step ⟨l, next, next :: s.waiting, s.granted⟩ _ :=
      .retry next (List.mem_cons_self ..) (Nat.le_refl _)
    rw [List.erase_cons_head, ask] at hretry
    rcases hgrant : l.tryAcquire next with ⟨_ | _, l'⟩
    · simp [hgrant] at hagain
    · simpa only [hgrant] using hretry
  · simpa only [htry] using hcall

/-! ## Any number of callers -/

/-- A bucket at a time when calls have been let through: since any earlier time, the calls let
through and the tokens left are paid for by a full bucket, one delay, and the time that the grid has
moved on. -/
structure Balanced (delay capacity now : Nat) (granted : List Nat) (b : Bucket) : Prop where
  interval_eq : b.interval = delay
  capacity_eq : b.capacity = capacity
  tokens_le : b.tokens ≤ capacity
  since_le : b.since ≤ now
  paid : ∀ first, between first now granted = 0 ∨
    delay * (b.tokens + between first now granted) + first < delay * (capacity + 1) + b.since

structure Paced (delay capacity : Nat) (s : Callers) : Prop where
  bucket : ∃ b, s.limiter.bucket = some b ∧ Balanced delay capacity s.now s.granted b
  past : ∀ t ∈ s.granted, t ≤ s.now
  window : ∀ first last, between first last s.granted = 0 ∨
    delay * between first last s.granted + first < delay * (capacity + 1) + last

section Paced

variable {delay capacity now : Nat} {granted : List Nat} {s s' : Callers} {b : Bucket}

theorem Balanced.refill (h : Balanced delay capacity now granted b)
    (hcapacity : capacity ≤ Bucket.maxDue) :
    Balanced delay capacity now granted (b.refill now) ∧ now < (b.refill now).since + delay := by
  obtain ⟨rfl, rfl, -, hsince, hpaid⟩ := h
  obtain ⟨hsince', hnext⟩ := Bucket.since_refill hsince
  have hcost := Bucket.tokens_refill_paid hsince hcapacity
  refine ⟨⟨b.interval_refill now, b.capacity_refill now, b.tokens_refill_le now, hsince',
    fun first => (hpaid first).imp id ?_⟩, hnext⟩
  simp only [Nat.mul_add]
  omega

/-- A call let through keeps the balance: it takes a token, or it is the first since some time, and
then the bucket was not more than full. -/
theorem Balanced.spend {tokens : Nat} (h : Balanced delay capacity now granted b)
    (hnext : now < b.since + delay) (htokens : b.tokens = tokens + 1) :
    Balanced delay capacity now (now :: granted) { b with tokens } := by
  obtain ⟨hinterval, hcap, hle, hsince, hpaid⟩ := h
  refine ⟨hinterval, hcap, by dsimp only; omega, hsince, fun first => ?_⟩
  have hfull : delay * (tokens + 1) ≤ delay * capacity := Nat.mul_le_mul_left _ (by omega)
  have hpaid := hpaid first
  rw [between_cons]
  rw [htokens] at hpaid
  split
  · right
    rcases hpaid with hnone | hpaid
    · rw [hnone]
      simp only [Nat.mul_add] at hfull ⊢
      omega
    · simp only [Nat.mul_add] at hpaid ⊢
      omega
  · refine hpaid.imp id fun hpaid => ?_
    simp only [Nat.mul_add] at hpaid ⊢
    omega

theorem Paced.pass (h : Paced delay capacity s) {later : Nat} (hlater : s.now ≤ later) :
    Paced delay capacity { s with now := later } := by
  obtain ⟨b, hb, hbal⟩ := h.bucket
  have hpast : ∀ t ∈ s.granted, t ≤ later := fun t ht => Nat.le_trans (h.past t ht) hlater
  refine ⟨⟨b, hb, hbal.interval_eq, hbal.capacity_eq, hbal.tokens_le,
    Nat.le_trans hbal.since_le hlater, fun first => ?_⟩, hpast, h.window⟩
  dsimp only
  rw [between_eq first hpast h.past]
  exact hbal.paid first

theorem Paced.ask (h : Paced delay capacity s) (hcapacity : capacity ≤ Bucket.maxDue)
    (waiting : List Nat) : Paced delay capacity (s.ask waiting) := by
  obtain ⟨b, hb, hbal⟩ := h.bucket
  obtain ⟨hbal, hnext⟩ := hbal.refill hcapacity
  unfold Callers.ask RpcLimiter.tryAcquire
  simp only [hb, Bucket.take]
  generalize b.refill s.now = b at hbal hnext
  cases hleft : b.tokens with
  | zero => exact ⟨⟨b, rfl, hbal⟩, h.past, h.window⟩
  | succ tokens =>
    have hspent := hbal.spend hnext hleft
    have hpast : ∀ t ∈ s.now :: s.granted, t ≤ s.now :=
      List.forall_mem_cons.mpr ⟨Nat.le_refl _, h.past⟩
    refine ⟨⟨_, rfl, hspent⟩, hpast, fun first last => ?_⟩
    by_cases hin : s.now ≤ last
    · -- all calls lie before the end of the window
      have hall : ∀ t ∈ s.now :: s.granted, t ≤ last := fun t ht => Nat.le_trans (hpast t ht) hin
      dsimp only
      rw [between_eq first hall hpast]
      refine (hspent.paid first).imp id fun hpaid => ?_
      have hsince : b.since ≤ last := Nat.le_trans hspent.since_le hin
      simp only [Nat.mul_add] at hpaid ⊢
      omega
    · dsimp only
      rw [between_cons, if_neg fun h => hin h.2]
      exact h.window first last

theorem Paced.step (h : Paced delay capacity s) (hcapacity : capacity ≤ Bucket.maxDue)
    (hstep : Step s s') : Paced delay capacity s' := by
  cases hstep with
  | pass later forward => exact h.pass forward
  | call => exact h.ask hcapacity _
  | retry due => exact h.ask hcapacity _

theorem Paced.run (h : Paced delay capacity s) (hcapacity : capacity ≤ Bucket.maxDue)
    (hrun : Run s s') : Paced delay capacity s' := by
  induction hrun with
  | refl => exact h
  | tail _ hstep ih => exact ih.step hcapacity hstep

theorem paced_ofDelay {minDelay : Nat} (hdelay : 0 < minDelay) (burst timeout : Nat) :
    Paced minDelay (max burst 1) (ofLimiter (.ofDelay minDelay burst timeout)) := by
  refine ⟨⟨Bucket.full minDelay burst hdelay, ?_, rfl, rfl, Nat.le_refl _, Nat.le_refl _, ?_⟩,
    by simp [ofLimiter], by simp [ofLimiter]⟩
  · simp [ofLimiter, RpcLimiter.ofDelay, hdelay]
  · simp [ofLimiter]

end Paced

/-- **Windows.** However many callers share a limiter, and whenever they call, a window holds at
most the burst and one call for every delay that is begun in it. If the window is a whole number of
delays, that is the burst and one call for every delay that fits into it. -/
theorem granted_window {minDelay : Nat} (hdelay : 0 < minDelay) (burst : UInt32) (timeout : Nat)
    {s : Callers} (hrun : (ofLimiter (.ofDelay minDelay burst.toNat timeout)).Run s)
    (first length : Nat) :
    between first (first + length) s.granted ≤
        max burst.toNat 1 + (length + minDelay - 1) / minDelay ∧
      (minDelay ∣ length →
        between first (first + length) s.granted ≤ max burst.toNat 1 + length / minDelay) := by
  have hburst := burst.toNat_lt
  have hpaced := (paced_ofDelay hdelay burst.toNat timeout).run
    (by unfold Bucket.maxDue; omega) hrun
  have hwindow := hpaced.window first (first + length)
  generalize between first (first + length) s.granted = n at hwindow
  generalize max burst.toNat 1 = capacity at hwindow
  have hpaid : minDelay * n < minDelay * (capacity + 1) + length := by
    rcases hwindow with rfl | hwindow
    · rw [Nat.mul_zero, Nat.mul_add]
      omega
    · omega
  constructor
  · have hover : n - capacity ≤ (length + minDelay - 1) / minDelay := by
      rw [Nat.le_div_iff_mul_le hdelay, Nat.mul_comm, Nat.mul_sub]
      rw [Nat.mul_add] at hpaid
      omega
    omega
  · rintro ⟨k, rfl⟩
    rw [← Nat.mul_add] at hpaid
    have := Nat.lt_of_mul_lt_mul_left hpaid
    rw [Nat.mul_div_cancel_left k hdelay]
    omega

/-! ## A burst of one -/

def single : RpcLimiter := .ofDelay 1000 1 60000

/-- Calls at 0 and at 1999, and one more right after the second. -/
def afterIdle : Callers :=
  let (first, l) := single.acquire 0
  let (second, l) := l.acquire 1999
  let (third, l) := l.acquire second
  { limiter := l, now := third, waiting := [], granted := [third, second, first] }

theorem run_afterIdle : (ofLimiter single).Run afterIdle := by
  have first := acquire_steps (s := ofLimiter single) (by decide)
  have idle := first.tail (.pass 1999 (by decide))
  have second := idle.trans (acquire_steps (by decide))
  exact second.trans (acquire_steps (by decide))

/-- The bound is met: two calls in a window of one millisecond. -/
theorem granted_window_idle : (ofLimiter single).Run afterIdle ∧
    afterIdle.granted = [2000, 1999, 0] ∧ between 1999 2000 afterIdle.granted = 2 ∧
    between 1999 2000 afterIdle.granted ≤ 1 + (1 + 1000 - 1) / 1000 :=
  ⟨run_afterIdle, by decide, by decide,
    (granted_window (by decide) 1 60000 run_afterIdle 1999 1).1⟩

/-- A limiter with a delay of 1000 and a burst of one can let two calls through that are one
millisecond apart: the second takes the token that was due long before, the third the next one. -/
theorem granted_off_grid : ∃ s, (ofLimiter (.ofDelay 1000 1 60000)).Run s ∧
    s.granted = [2000, 1999, 0] ∧ max 1 1 + 1 / 1000 < between 1999 (1999 + 1) s.granted :=
  ⟨afterIdle, run_afterIdle, by decide, by decide⟩

end Callers
end Backfill
