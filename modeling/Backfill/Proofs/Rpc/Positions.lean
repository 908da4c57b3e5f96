import Backfill.Proofs.Rpc.Together

/-!
# Positions

The parts of a position are read by questions that are asked together. Each answer fills in one part
and leaves the others, so each part is what its own question came to, whichever is answered first.

Results:
* `fillAll_of_makes`: what one of several answers makes true.
* `readPosition_fetchPosition`: where the parts of a position come from.
-/
namespace Backfill.Rpc

variable {ν β : Type} [Node ν]

section Fill

variable {P : β → Prop} {xs : List (Question (β → β) × (β → β))}

theorem fillAll_of_keeps (hkeeps : ∀ x ∈ xs, ∀ b, P b → P (x.2 b)) {b : β} (hb : P b) :
    P (fillAll b xs) := by
  induction xs generalizing b with
  | nil => exact hb
  | cons x xs ih =>
    rw [List.forall_mem_cons] at hkeeps
    exact ih hkeeps.2 (hkeeps.1 b hb)

theorem fillAll_of_makes {x : Question (β → β) × (β → β)} (hx : x ∈ xs)
    (hmakes : ∀ b, P (x.2 b)) (hkeeps : ∀ y ∈ xs, ∀ b, P b → P (y.2 b)) (b : β) :
    P (fillAll b xs) := by
  obtain ⟨before, rest, rfl⟩ := List.append_of_mem hx
  have hsplit : fillAll b (before ++ x :: rest) = fillAll (x.2 (fillAll b before)) rest :=
    List.foldl_append
  rw [hsplit]
  refine fillAll_of_keeps (fun y hy => hkeeps y ?_) (hmakes _)
  exact List.mem_append_right _ (List.mem_cons_of_mem _ hy)

end Fill

section TransferData

variable {q : TransferDataParams} {pos : TransferData} {s s' : Session ν}

/-- Each part of a position is what its question came to. -/
structure ReadPosition (s s' : Session ν) (q : TransferDataParams) (pos : TransferData) : Prop where
  balance : s.Learned s' (Question.balance q.token q.owner q.block) pos.balance
  time : s.Learned s' (Question.blockTime q.block) pos.time
  shareRate : ∀ params ∈ q.shareRate,
    s.Learned s' (Question.shareRate params q.block) pos.shareRate
  noRate : q.shareRate = none → pos.shareRate = Decimal.one

/-- What an answer fills into a position. -/
inductive Fills (s s' : Session ν) (q : TransferDataParams) :
    (TransferData → TransferData) → Prop where
  | balance (n : Nat) (h : s.Learned s' (Question.balance q.token q.owner q.block) n) :
      Fills s s' q fun p => { p with balance := n }
  | time (t : Instant) (h : s.Learned s' (Question.blockTime q.block) t) :
      Fills s s' q fun p => { p with time := t }
  | shareRate (params : ShareRateParams) (hparams : params ∈ q.shareRate) (r : Decimal)
      (h : s.Learned s' (Question.shareRate params q.block) r) :
      Fills s s' q fun p => { p with shareRate := r }

section Fills

variable {fill : TransferData → TransferData} {p : TransferData}

theorem Fills.balance_learned (h : Fills s s' q fill)
    (hp : s.Learned s' (Question.balance q.token q.owner q.block) p.balance) :
    s.Learned s' (Question.balance q.token q.owner q.block) (fill p).balance := by
  cases h with
  | balance n h => exact h
  | time t h => exact hp
  | shareRate params hparams r h => exact hp

theorem Fills.time_learned (h : Fills s s' q fill)
    (hp : s.Learned s' (Question.blockTime q.block) p.time) :
    s.Learned s' (Question.blockTime q.block) (fill p).time := by
  cases h with
  | balance n h => exact hp
  | time t h => exact h
  | shareRate params hparams r h => exact hp

theorem Fills.shareRate_learned {params : ShareRateParams} (h : Fills s s' q fill)
    (hparams : params ∈ q.shareRate)
    (hp : s.Learned s' (Question.shareRate params q.block) p.shareRate) :
    s.Learned s' (Question.shareRate params q.block) (fill p).shareRate := by
  cases h with
  | balance n h => exact hp
  | time t h => exact hp
  | shareRate params' hparams' r h =>
    obtain rfl := Option.mem_unique hparams hparams'
    exact h

theorem Fills.shareRate_eq (h : Fills s s' q fill) (hnone : q.shareRate = none) :
    (fill p).shareRate = p.shareRate := by
  cases h with
  | balance n h => rfl
  | time t h => rfl
  | shareRate params hparams r h =>
    rw [hnone] at hparams
    cases hparams

end Fills

/-- **Each part of a position is what its question came to.** -/
theorem readPosition_fetchPosition (hs : s.limiter.Timely s.now)
    (h : fetchPosition q s = (.ok pos, s')) : ReadPosition s s' q pos := by
  obtain ⟨xs, hperm, rfl, hxs⟩ := askTogether_answered hs h
  have hmem (x : Question (TransferData → TransferData)) : x ∈ xs.map Prod.fst ↔
      x = (Question.balance q.token q.owner q.block).map (fun n p => { p with balance := n }) ∨
      x = (Question.blockTime q.block).map (fun t p => { p with time := t }) ∨
      ∃ params ∈ q.shareRate,
        x = (Question.shareRate params q.block).map fun r p => { p with shareRate := r } := by
    rw [← hperm.mem_iff]
    cases q.shareRate with
    | none => simp
    | some params => simp
  have hfills : ∀ x ∈ xs, Fills s s' q x.2 := by
    intro x hx
    have hlearned := hxs x hx
    obtain heq | heq | ⟨params, hparams, heq⟩ := (hmem x.1).mp (List.mem_map_of_mem hx)
    · rw [heq] at hlearned
      obtain ⟨n, hn, hfill⟩ := hlearned.of_map
      exact hfill ▸ .balance n hn
    · rw [heq] at hlearned
      obtain ⟨t, ht, hfill⟩ := hlearned.of_map
      exact hfill ▸ .time t ht
    · rw [heq] at hlearned
      obtain ⟨r, hr, hfill⟩ := hlearned.of_map
      exact hfill ▸ .shareRate params hparams r hr
  have hasked {α : Type} {question : Question α} {f : α → TransferData → TransferData}
      (h : question.map f ∈ xs.map Prod.fst) :
      ∃ x ∈ xs, ∃ a, s.Learned s' question a ∧ x.2 = f a := by
    obtain ⟨x, hx, heq⟩ := List.mem_map.mp h
    have hlearned := hxs x hx
    rw [heq] at hlearned
    obtain ⟨a, ha, hfill⟩ := hlearned.of_map
    exact ⟨x, hx, a, ha, hfill⟩
  refine ⟨?_, ?_, fun params hparams => ?_, fun hnone => ?_⟩
  · obtain ⟨x, hx, n, hn, hfill⟩ := hasked ((hmem _).mpr (.inl rfl))
    exact fillAll_of_makes (P := fun p => s.Learned s' _ p.balance) hx (fun p => by rwa [hfill])
      (fun y hy p hp => (hfills y hy).balance_learned hp) _
  · obtain ⟨x, hx, t, ht, hfill⟩ := hasked ((hmem _).mpr (.inr (.inl rfl)))
    exact fillAll_of_makes (P := fun p => s.Learned s' _ p.time) hx (fun p => by rwa [hfill])
      (fun y hy p hp => (hfills y hy).time_learned hp) _
  · obtain ⟨x, hx, r, hr, hfill⟩ := hasked ((hmem _).mpr (.inr (.inr ⟨params, hparams, rfl⟩)))
    exact fillAll_of_makes (P := fun p => s.Learned s' _ p.shareRate) hx (fun p => by rwa [hfill])
      (fun y hy p hp => (hfills y hy).shareRate_learned hparams hp) _
  · refine fillAll_of_keeps (P := fun p : TransferData => p.shareRate = Decimal.one)
      (fun y hy p hp => ?_) rfl
    rw [(hfills y hy).shareRate_eq hnone, hp]

end TransferData

end Backfill.Rpc
