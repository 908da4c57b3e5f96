import Backfill.Proofs.Clock.Spacing

/-!
# Callers that are refused

Who is refused a token finds the bucket empty and is told when the next one is due. Until then
nobody gets one, and nothing happens to the bucket. From then on there is one.

Results:
* `RpcLimiter.emptyUntil_of_refused`: what a refusal tells.
* `RpcLimiter.EmptyUntil.refused`: callers before that time.
* `RpcLimiter.EmptyUntil.granted`: a caller from that time on.
-/
namespace Backfill.RpcLimiter

variable {l l' : RpcLimiter} {now next time : Nat}

/-- The last time at which a token was due has come, and the bucket can hold a token. -/
def Timely (l : RpcLimiter) (now : Nat) : Prop := ∀ b ∈ l.bucket, b.since ≤ now ∧ 0 < b.capacity

/-- There is no token, and this is when the next one is due. -/
def EmptyUntil (l : RpcLimiter) (time : Nat) : Prop :=
  ∃ b ∈ l.bucket, b.tokens = 0 ∧ time = b.since + b.interval

theorem timely_ofDelay (minDelay burst timeout : Nat) :
    (ofDelay minDelay burst timeout).Timely now := by
  intro b hb
  unfold ofDelay at hb
  dsimp only at hb
  split at hb
  · cases hb
    exact ⟨Nat.zero_le _, Nat.lt_of_lt_of_le Nat.one_pos (Nat.le_max_right ..)⟩
  · cases hb

theorem Timely.later (h : l.Timely now) {later : Nat} (hlater : now ≤ later) : l.Timely later :=
  fun b hb => ⟨Nat.le_trans (h b hb).1 hlater, (h b hb).2⟩

theorem Timely.tryAcquire (h : l.Timely now) : (l.tryAcquire now).2.Timely now := by
  unfold RpcLimiter.tryAcquire
  cases hb : l.bucket with
  | none => simpa only [hb] using h
  | some b =>
    obtain ⟨hsince, hcapacity⟩ := h b hb
    have hrefill := (Bucket.since_refill hsince).1
    have hholds := Bucket.capacity_refill b now
    unfold Bucket.take
    dsimp only
    intro b' hb'
    split at hb'
    · cases hb'
      exact ⟨hrefill, hholds ▸ hcapacity⟩
    · cases hb'
      exact ⟨hrefill, hholds ▸ hcapacity⟩

/-- Who is refused is told when the next token is due. -/
theorem emptyUntil_of_refused (hl : l.Timely now) (h : l.tryAcquire now = (.error next, l')) :
    now < next ∧ l'.EmptyUntil next := by
  unfold RpcLimiter.tryAcquire at h
  cases hb : l.bucket with
  | none =>
    simp only [hb] at h
    cases h
  | some b =>
    have hgrid := Bucket.since_refill (hl b hb).1
    have hinterval := Bucket.interval_refill b now
    simp only [hb] at h
    unfold Bucket.take at h
    dsimp only at h
    split at h
    · next hempty =>
      cases h
      exact ⟨hinterval ▸ hgrid.2, _, rfl, hempty, rfl⟩
    · cases h

/-- Until the next token is due nothing happens to an empty bucket. -/
theorem EmptyUntil.refused (h : l.EmptyUntil time) (hl : l.Timely now) (hnow : now < time) :
    l.tryAcquire now = (.error time, l) := by
  obtain ⟨b, hb, hempty, rfl⟩ := h
  have hsince := (hl b hb).1
  have hdue : (now - b.since) / b.interval = 0 := Nat.div_eq_of_lt (by omega)
  have hrefill : b.refill now = b := by
    obtain ⟨interval, capacity, tokens, since, hpos⟩ := b
    obtain rfl : tokens = 0 := hempty
    simp [Bucket.refill, hdue]
  obtain ⟨bucket, timeout⟩ := l
  obtain rfl : bucket = some b := hb
  simp only [RpcLimiter.tryAcquire, Bucket.take, hrefill, hempty]

/-- When the next token is due it is there. -/
theorem EmptyUntil.granted (h : l.EmptyUntil time) (hl : l.Timely now) (hnow : time ≤ now) :
    (l.tryAcquire now).1 = .ok () := by
  obtain ⟨b, hb, hempty, rfl⟩ := h
  obtain ⟨hsince, hcapacity⟩ := hl b hb
  have htoken : 0 < (b.refill now).tokens := by
    have hdue : 1 ≤ (now - b.since) / b.interval :=
      (Nat.one_le_div_iff b.interval_pos).mpr (by omega)
    unfold Bucket.refill
    dsimp only
    split
    · dsimp only
      omega
    · exact hcapacity
  obtain ⟨tokens, htokens⟩ := Nat.exists_eq_succ_of_ne_zero (Nat.ne_of_gt htoken)
  simp only [RpcLimiter.tryAcquire, Option.mem_def.mp hb, Bucket.take, htokens]

end Backfill.RpcLimiter
