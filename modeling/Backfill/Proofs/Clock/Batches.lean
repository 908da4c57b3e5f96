import Mathlib.Data.List.Forall2
import Backfill.Clock.Batching

/-!
# When batches are sent off

Collecting takes what comes first: the end of a window, a thing, or the end of all things. The
induction follows these three. It is carried by one fact: no window has ended since something that
is held arrived, and none will end before the present one ends.

So a thing is sent off when the first window ends after its arrival, or when it is clear before that
that nothing more will arrive. It waits for one window at most.

Results:
* `collect_induction`: induction on what comes first.
* `inTime_collect`: when each thing is sent off.
* `times_collect`, `ne_nil_of_mem_collect`: when there are batches, and that none is empty.
* `batches_in_time`: the batches of things that are each ready some time after the one before it.
-/
namespace Backfill.Batch

variable {β : Type} {window finish due : Nat} {held : List β} {rest : List (Nat × β)}

/-! ## What comes first -/

def flush (time : Nat) : List β → List (Batch β)
  | [] => []
  | x :: xs => [⟨time, x :: xs⟩]

theorem mem_flush {time : Nat} {b : Batch β} (h : b ∈ flush time held) :
    b.time = time ∧ b.items ≠ [] := by
  cases held with
  | nil => cases h
  | cons x xs =>
    obtain rfl := List.mem_singleton.mp h
    exact ⟨rfl, List.cons_ne_nil _ _⟩

theorem collect_of_lt (hwindow : 0 < window) (h : due < nextTime finish rest) :
    collect window finish due held rest =
      flush due held ++ collect window finish (due + window) [] rest := by
  rw [collect.eq_def, if_pos h, Nat.max_eq_right hwindow]
  cases held <;> rfl

theorem collect_nil (h : finish ≤ due) : collect window finish due held [] = flush finish held := by
  have hdue : ¬ due < nextTime finish ([] : List (Nat × β)) := Nat.not_lt.mpr h
  rw [collect.eq_def, if_neg hdue]
  cases held <;> rfl

theorem collect_cons {a : Nat × β} (h : a.1 ≤ due) :
    collect window finish due held (a :: rest) =
      collect window finish due (held ++ [a.2]) rest := by
  have hdue : ¬ due < nextTime finish (a :: rest) := Nat.not_lt.mpr h
  rw [collect.eq_def, if_neg hdue]

/-- Induction on what comes first. -/
@[elab_as_elim]
theorem collect_induction {motive : Nat → List (Nat × β) → Prop} (finish : Nat)
    (hwindow : 0 < window)
    (tick : ∀ due rest, due < nextTime finish rest → motive (due + window) rest → motive due rest)
    (done : ∀ due, finish ≤ due → motive due [])
    (take : ∀ due a rest, a.1 ≤ due → motive due rest → motive due (a :: rest)) (due : Nat)
    (rest : List (Nat × β)) : motive due rest := by
  by_cases hdue : due < nextTime finish rest
  · exact tick due rest hdue (collect_induction finish hwindow tick done take (due + window) rest)
  · cases rest with
    | nil => exact done due (Nat.not_lt.mp hdue)
    | cons a rest =>
      exact take due a rest (Nat.not_lt.mp hdue)
        (collect_induction finish hwindow tick done take due rest)
termination_by (rest.length, nextTime finish rest - due)

/-! ## When batches are sent off -/

theorem ne_nil_of_mem_collect (hwindow : 0 < window) :
    ∀ b ∈ collect window finish due held rest, b.items ≠ [] := by
  induction due, rest using collect_induction finish hwindow generalizing held with
  | tick due rest hdue ih =>
    rw [collect_of_lt hwindow hdue, List.forall_mem_append]
    exact ⟨fun b hb => (mem_flush hb).2, ih⟩
  | done due hdue =>
    rw [collect_nil hdue]
    exact fun b hb => (mem_flush hb).2
  | take due a rest hdue ih =>
    rw [collect_cons hdue]
    exact ih

theorem nextTime_le (hfinish : ∀ a ∈ rest, a.1 ≤ finish) : nextTime finish rest ≤ finish := by
  cases rest with
  | nil => exact Nat.le_refl _
  | cons a rest => exact hfinish a (List.mem_cons_self ..)

/-- A batch is sent off when a window ends or when nothing more comes. -/
theorem time_of_mem_collect (hwindow : 0 < window) (hdue : window ∣ due)
    (hfinish : ∀ a ∈ rest, a.1 ≤ finish) : ∀ b ∈ collect window finish due held rest,
      (window ∣ b.time ∧ due ≤ b.time ∧ b.time ≤ finish) ∨ b.time = finish := by
  induction due, rest using collect_induction finish hwindow generalizing held with
  | tick due rest hlt ih =>
    have hle := nextTime_le hfinish
    rw [collect_of_lt hwindow hlt, List.forall_mem_append]
    refine ⟨fun b hb => ?_, fun b hb => ?_⟩
    · rw [(mem_flush hb).1]
      exact .inl ⟨hdue, Nat.le_refl _, by omega⟩
    · rcases ih (Nat.dvd_add hdue (Nat.dvd_refl _)) hfinish b hb with ⟨hends, hfirst, hlast⟩ | hend
      · exact .inl ⟨hends, by omega, hlast⟩
      · exact .inr hend
  | done due hle =>
    rw [collect_nil hle]
    exact fun b hb => .inr (mem_flush hb).1
  | take due a rest hle ih =>
    rw [collect_cons hle]
    exact ih hdue (List.forall_mem_cons.mp hfinish).2

/-- Batches are sent off one after the other. -/
theorem ascending_collect (hwindow : 0 < window) (hdue : window ∣ due)
    (hfinish : ∀ a ∈ rest, a.1 ≤ finish) :
    (collect window finish due held rest).Pairwise (·.time < ·.time) := by
  induction due, rest using collect_induction finish hwindow generalizing held with
  | tick due rest hlt ih =>
    have hle := nextTime_le hfinish
    have hnext : window ∣ due + window := Nat.dvd_add hdue (Nat.dvd_refl _)
    rw [collect_of_lt hwindow hlt, List.pairwise_append]
    refine ⟨?_, ih hnext hfinish, fun b hb b' hb' => ?_⟩
    · cases held <;> simp [flush]
    · rw [(mem_flush hb).1]
      rcases time_of_mem_collect hwindow hnext hfinish b' hb' with ⟨-, hfirst, -⟩ | hend <;> omega
  | done due hle =>
    rw [collect_nil hle]
    cases held <;> simp [flush]
  | take due a rest hle ih =>
    rw [collect_cons hle]
    exact ih hdue (List.forall_mem_cons.mp hfinish).2

/-! ## When things are sent off -/

def sent (bs : List (Batch β)) : List (Nat × β) := bs.flatMap fun b => b.items.map (b.time, ·)

theorem map_snd_sent (bs : List (Batch β)) : (sent bs).map (·.2) = bs.flatMap (·.items) := by
  simp [sent, List.map_flatMap, Function.comp_def]

theorem sent_append (bs bs' : List (Batch β)) : sent (bs ++ bs') = sent bs ++ sent bs' :=
  List.flatMap_append

theorem sent_flush (time : Nat) (held : List β) : sent (flush time held) = held.map (time, ·) := by
  cases held <;> simp [sent, flush]

/-- A thing that arrived is sent off when the first window ends after its arrival, or when it is
clear before that that nothing more will arrive. -/
structure InTime (window finish : Nat) (arrived sent : Nat × β) : Prop where
  same : sent.2 = arrived.2
  after : arrived.1 ≤ sent.1
  ends : window ∣ sent.1 ∨ sent.1 = finish
  first : ∀ n, 0 < n → arrived.1 ≤ window * n → sent.1 ≤ window * n
  le_finish : sent.1 ≤ finish

theorem InTime.soon {arrived sent : Nat × β} (h : InTime window finish arrived sent)
    (hwindow : 0 < window) : sent.1 ≤ arrived.1 + window := by
  have hmod := Nat.mod_lt arrived.1 hwindow
  have hdiv := Nat.div_add_mod arrived.1 window
  have hfirst := h.first (arrived.1 / window + 1) (Nat.succ_pos _)
  rw [Nat.mul_succ] at hfirst
  omega

/-- What is known when a window will end at `due`, while things are held that have arrived, and
others will arrive. -/
structure Underway (window finish due : Nat) (held rest : List (Nat × β)) : Prop where
  ends : window ∣ due
  arrived : ∀ a ∈ held, a.1 ≤ due
  /-- No window ends between an arrival and the end of the present one. -/
  first : ∀ a ∈ held ++ rest, ∀ n, 0 < n → a.1 ≤ window * n → due ≤ window * n
  sorted : rest.Pairwise (·.1 ≤ ·.1)
  le_finish : ∀ a ∈ held ++ rest, a.1 ≤ finish

namespace Underway
variable {held : List (Nat × β)}

theorem take {a : Nat × β} (h : Underway window finish due held (a :: rest)) (ha : a.1 ≤ due) :
    Underway window finish due (held ++ [a]) rest where
  ends := h.ends
  arrived := List.forall_mem_append.mpr ⟨h.arrived, List.forall_mem_singleton.mpr ha⟩
  first := by
    rw [List.append_assoc]
    exact h.first
  sorted := h.sorted.tail
  le_finish := by
    rw [List.append_assoc]
    exact h.le_finish

theorem tick (h : Underway window finish due held rest) (hdue : due < nextTime finish rest) :
    Underway window finish (due + window) [] rest where
  ends := Nat.dvd_add h.ends (Nat.dvd_refl _)
  arrived := List.forall_mem_nil _
  first a ha n _ hn := by
    have hlt : due < a.1 := by
      cases rest with
      | nil => cases ha
      | cons a' rest =>
        rcases List.mem_cons.mp ha with rfl | ha
        · exact hdue
        · exact Nat.lt_of_lt_of_le hdue (List.rel_of_pairwise_cons h.sorted ha)
    obtain ⟨k, rfl⟩ := h.ends
    have hk : k < n := Nat.lt_of_mul_lt_mul_left (Nat.lt_of_lt_of_le hlt hn)
    rw [← Nat.mul_succ]
    exact Nat.mul_le_mul_left _ hk
  sorted := h.sorted
  le_finish := fun a ha => h.le_finish a (List.mem_append_right _ ha)

theorem flush {time : Nat} (h : Underway window finish due held rest) (hle : time ≤ due)
    (hfinish : time ≤ finish) (hheld : ∀ a ∈ held, a.1 ≤ time)
    (hends : window ∣ time ∨ time = finish) :
    List.Forall₂ (InTime window finish) held (sent (Batch.flush time (held.map (·.2)))) := by
  rw [sent_flush, List.map_map, List.forall₂_map_right_iff, List.forall₂_same]
  intro a ha
  exact ⟨rfl, hheld a ha, hends, fun n hn ha' =>
    Nat.le_trans hle (h.first a (List.mem_append_left _ ha) n hn ha'), hfinish⟩

end Underway

/-- Everything is sent off in time and in order. -/
theorem inTime_collect (hwindow : 0 < window) {held : List (Nat × β)}
    (h : Underway window finish due held rest) :
    List.Forall₂ (InTime window finish) (held ++ rest)
      (sent (collect window finish due (held.map (·.2)) rest)) := by
  induction due, rest using collect_induction finish hwindow generalizing held with
  | tick due rest hdue ih =>
    have hle := nextTime_le fun a ha => h.le_finish a (List.mem_append_right _ ha)
    rw [collect_of_lt hwindow hdue, sent_append]
    exact List.rel_append (h.flush (Nat.le_refl _) (by omega) h.arrived (.inl h.ends))
      (ih (h.tick hdue))
  | done due hle =>
    rw [collect_nil hle, List.append_nil]
    exact h.flush hle (Nat.le_refl _) (fun a ha => h.le_finish a (List.mem_append_left _ ha))
      (.inr rfl)
  | take due a rest hle ih =>
    have htake := ih (h.take hle)
    rw [List.map_append, List.append_assoc] at htake
    rw [collect_cons hle]
    exact htake

/-! ## Things with delays -/

theorem map_snd_arrivals (now : Nat) (input : List (Nat × β)) :
    (arrivals now (input.map (·.1)) (input.map (·.2))).map (·.2) = input.map (·.2) := by
  induction input generalizing now with
  | nil => rfl
  | cons a input ih => exact congrArg (a.2 :: ·) (ih _)

theorem le_of_mem_arrivals {now : Nat} {ds : List Nat} {xs : List β} :
    ∀ a ∈ arrivals now ds xs, now ≤ a.1 := by
  induction ds generalizing now xs with
  | nil => simp [arrivals]
  | cons d ds ih =>
    cases xs with
    | nil => simp [arrivals]
    | cons x xs =>
      rw [arrivals, List.forall_mem_cons]
      exact ⟨Nat.le_add_right .., fun a ha => Nat.le_trans (Nat.le_add_right ..) (ih a ha)⟩

theorem sorted_arrivals (now : Nat) (ds : List Nat) (xs : List β) :
    (arrivals now ds xs).Pairwise (·.1 ≤ ·.1) := by
  induction ds generalizing now xs with
  | nil => simp [arrivals]
  | cons d ds ih =>
    cases xs with
    | nil => simp [arrivals]
    | cons x xs =>
      rw [arrivals, List.pairwise_cons]
      exact ⟨le_of_mem_arrivals, ih _ _⟩

theorem le_endOf (h : rest.Pairwise (·.1 ≤ ·.1)) : ∀ a ∈ rest, a.1 ≤ endOf rest := by
  intro a ha
  obtain rfl | ⟨before, last, rfl⟩ := List.eq_nil_or_concat rest
  · cases ha
  · rw [List.concat_eq_append] at h ha ⊢
    rw [endOf, List.getLast?_concat]
    rcases List.mem_append.mp ha with ha | ha
    · exact (List.pairwise_append.mp h).2.2 a ha last (List.mem_singleton_self _)
    · rw [List.mem_singleton.mp ha]
      exact Nat.le_refl _

/-- **Batches are sent off in time.** Things that are each ready some time after the one before it,
and after which it takes a while until it is clear that there are no more, are sent off in batches
that are not empty and follow one another in time. The batches put together are the things in their
order. Each thing waits for one window at most, and nothing is sent off after the end. -/
theorem batches_in_time (hwindow : 0 < window) (input : List (Nat × β)) (pause : Nat) :
    let arrivals := arrivals 0 (input.map (·.1)) (input.map (·.2))
    let finish := endOf arrivals + pause
    let batches := groups window finish arrivals
    batches.flatMap (·.items) = input.map (·.2) ∧ (∀ b ∈ batches, b.items ≠ []) ∧
      batches.Pairwise (·.time < ·.time) ∧
      List.Forall₂ (fun a s => InTime window finish a s ∧ s.1 ≤ a.1 + window) arrivals
        (sent batches) ∧
      ∀ b ∈ batches, b.time ≤ finish := by
  intro arrivals finish batches
  have hsorted := sorted_arrivals 0 (input.map (·.1)) (input.map (·.2))
  have hfinish : ∀ a ∈ arrivals, a.1 ≤ finish := fun a ha =>
    Nat.le_trans (le_endOf hsorted a ha) (Nat.le_add_right ..)
  have hstart : Underway window finish window [] arrivals :=
    ⟨Nat.dvd_refl _, List.forall_mem_nil _, fun a _ n hn _ => Nat.le_mul_of_pos_right _ hn, hsorted,
      hfinish⟩
  have hsent := inTime_collect hwindow hstart
  refine ⟨?_, ne_nil_of_mem_collect hwindow,
    ascending_collect hwindow (Nat.dvd_refl _) hfinish,
    hsent.imp fun a s h => ⟨h, h.soon hwindow⟩, fun b hb => ?_⟩
  · rw [← map_snd_sent, ← map_snd_arrivals 0 input]
    refine (congrFun₂ List.forall₂_eq_eq_eq _ _).mp ?_
    rw [List.forall₂_map_left_iff, List.forall₂_map_right_iff]
    exact (hsent.imp fun _ _ h => h.same).flip
  · rcases time_of_mem_collect hwindow (Nat.dvd_refl _) hfinish b hb with ⟨-, -, hle⟩ | hend
    · exact hle
    · exact Nat.le_of_eq hend

/-- Windows without a thing are skipped, and the last thing does not wait for its window to end. -/
theorem two_batches_sent :
    let arrivals := [(25, 'a'), (26, 'b'), (37, 'c')]
    let batches := groups 10 38 arrivals
    0 < 10 ∧ batches = [⟨30, ['a', 'b']⟩, ⟨38, ['c']⟩] ∧
      batches.flatMap (·.items) = ['a', 'b', 'c'] ∧ (∀ b ∈ batches, b.items ≠ []) ∧
      batches.Pairwise (·.time < ·.time) ∧
      List.Forall₂ (fun a s => InTime 10 38 a s ∧ s.1 ≤ a.1 + 10) arrivals (sent batches) ∧
      ∀ b ∈ batches, b.time ≤ 38 :=
  ⟨by decide, by simp [groups, collect, nextTime],
    batches_in_time (by decide) [(25, 'a'), (1, 'b'), (11, 'c')] 1⟩

end Backfill.Batch
