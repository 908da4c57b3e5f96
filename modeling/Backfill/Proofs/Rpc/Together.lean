import Backfill.Proofs.Rpc.Heard
import Backfill.Rpc.Together

/-!
# Questions that are asked together are all answered

Who is refused a token waits for the next one, so all futures that wait wait for the same time, and
until then the bucket stays empty. When the first time comes that something is due, a future that
was sent settles, or the bucket has a token for one that waits. So every round but the first brings
a future further, and twice their number of rounds, and one more, leaves none behind: a result has
the answers of all questions in it.

Results:
* `Future.poll_cases`: what a future can come to at the moment.
* `Future.Poll.underway`, `Future.underway_pollAll`: what has been filled in so far.
* `Future.rested_pollAll`: nothing is due after a round.
* `Future.todo_pollAll_lt`: a round brings a future further.
* `askTogether_answered`: what several questions come to.
-/
namespace Backfill.Rpc

-- sums begin with the zero of the core library
attribute [local instance(high)] Zero.ofOfNat0

variable {ν β : Type} [Node ν]

/-! ## Futures -/

namespace Future

variable {s s₀ s' : Session ν} {b b' b₀ : β} {e e' f : Future β} {es es' ps : List (Future β)}
  {questions : List (Question (β → β))}

/-- What a future can come to at the moment. -/
inductive Poll (s : Session ν) (b : β) : Future β → Future β → β → Session ν → Prop where
  /-- It is done, or not due. -/
  | rests (e : Future β) (early : ∀ due ∈ e.due?, s.now < due) : Poll s b e e b s
  /-- There is no token. -/
  | refused (q : Question (β → β)) (due next : Nat) (limiter : RpcLimiter) (ripe : due ≤ s.now)
      (refusal : s.limiter.tryAcquire s.now = (.error next, limiter)) :
      Poll s b (.waiting q due) (.waiting q next) b { s with limiter }
  /-- It is sent, and an answer takes time. -/
  | sends (q : Question (β → β)) (due : Nat) (limiter : RpcLimiter)
      (result : Except FetchError Json.Value) (later : Nat) (s' : Session ν) (ripe : due ≤ s.now)
      (grant : s.limiter.tryAcquire s.now = (.ok (), limiter))
      (sending : { s with limiter }.send q.request = ((result, later), s'))
      (slow : s.now < later) : Poll s b (.waiting q due) (.sent q result later) b s'
  /-- It is sent and answered at once. -/
  | answered (q : Question (β → β)) (due : Nat) (limiter : RpcLimiter) (v : Json.Value)
      (later : Nat) (s' : Session ν) (fill : β → β) (ripe : due ≤ s.now)
      (grant : s.limiter.tryAcquire s.now = (.ok (), limiter))
      (sending : { s with limiter }.send q.request = ((.ok v, later), s'))
      (reading : q.read v = .ok fill) : Poll s b (.waiting q due) .done (fill b) s'
  /-- The answer to what was sent is there. -/
  | settles (q : Question (β → β)) (v : Json.Value) (due : Nat) (fill : β → β)
      (ripe : due ≤ s.now) (reading : q.read v = .ok fill) :
      Poll s b (.sent q (.ok v) due) .done (fill b) s

theorem settle_cases {q : Question (β → β)} {result : Except FetchError Json.Value}
    {due now : Nat} (h : settle q result due now b = .ok (e', b')) :
    (now < due ∧ e' = .sent q result due ∧ b' = b) ∨
      ∃ v fill, due ≤ now ∧ result = .ok v ∧ q.read v = .ok fill ∧ e' = .done ∧ b' = fill b := by
  unfold settle at h
  by_cases hdue : now < due
  · rw [if_pos hdue] at h
    cases h
    exact .inl ⟨hdue, rfl, rfl⟩
  · rw [if_neg hdue] at h
    cases hresult : result with
    | error fault =>
      rw [hresult] at h
      cases h
    | ok v =>
      cases hread : q.read v with
      | error fault =>
        simp only [hresult, bind, Except.bind, hread] at h
        cases h
      | ok fill =>
        simp only [hresult, bind, Except.bind, hread] at h
        cases h
        exact .inr ⟨v, fill, Nat.le_of_not_lt hdue, rfl, hread, rfl, rfl⟩

theorem poll_cases (h : poll e b s = (.ok (e', b'), s')) : Poll s b e e' b' s' := by
  cases e with
  | done =>
    cases h
    exact .rests .done fun due hdue => by cases hdue
  | sent q result due =>
    obtain ⟨hsettle, rfl⟩ := Prod.mk.inj h
    obtain ⟨hdue, rfl, rfl⟩ | ⟨v, fill, hdue, rfl, hread, rfl, rfl⟩ := settle_cases hsettle
    · exact .rests _ fun _ h => by cases h; exact hdue
    · exact .settles q v due fill hdue hread
  | waiting q due =>
    unfold poll at h
    dsimp only at h
    by_cases hdue : s.now < due
    · rw [if_pos hdue] at h
      cases h
      exact .rests _ fun _ h => by cases h; exact hdue
    · rw [if_neg hdue] at h
      have hripe := Nat.le_of_not_lt hdue
      rcases htry : s.limiter.tryAcquire s.now with ⟨next | _, limiter⟩
      · simp only [htry] at h
        cases h
        exact .refused q due next limiter hripe htry
      · rcases hsend : { s with limiter }.send q.request with ⟨⟨result, later⟩, s₁⟩
        simp only [htry, hsend] at h
        obtain ⟨hsettle, rfl⟩ := Prod.mk.inj h
        have hnow : s₁.now = s.now := congrArg (·.2.now) hsend.symm
        obtain ⟨hlater, rfl, rfl⟩ | ⟨v, fill, -, rfl, hread, rfl, rfl⟩ := settle_cases hsettle
        · exact .sends q due limiter result later s₁ hripe htry hsend (hnow ▸ hlater)
        · exact .answered q due limiter v later s₁ fill hripe htry hsend hread

/-! ## Answers filled in -/

def question? : Future β → Option (Question (β → β))
  | waiting q _ | sent q _ _ => some q
  | done => none

end Future

def fillAll (b : β) (xs : List (Question (β → β) × (β → β))) : β := xs.foldl (fun b x => x.2 b) b

/-- How far some questions are: of those without a future the answers are filled in, and what was
sent was answered as its future says. -/
structure Underway (questions : List (Question (β → β))) (b₀ : β) (s₀ s : Session ν)
    (es : List (Future β)) (b : β) : Prop where
  continues : s₀.Continues s
  filled : ∃ xs : List (Question (β → β) × (β → β)),
    questions.Perm (xs.map Prod.fst ++ es.filterMap Future.question?) ∧ b = fillAll b₀ xs ∧
      ∀ x ∈ xs, s₀.Learned s x.1 x.2
  heard : ∀ q v due, .sent q (.ok v) due ∈ es → s₀.Heard s q.request v

section Underway

variable {s s₀ s' : Session ν} {b b' b₀ : β} {e e' f : Future β} {es es' ps : List (Future β)}
  {questions : List (Question (β → β))}

theorem Underway.perm (h : Underway questions b₀ s₀ s es b) (hp : es.Perm es') :
    Underway questions b₀ s₀ s es' b := by
  obtain ⟨xs, hperm, hb, hxs⟩ := h.filled
  refine ⟨h.continues, ⟨xs, ?_, hb, hxs⟩, fun q v due hmem => h.heard q v due (hp.mem_iff.mpr hmem)⟩
  exact hperm.trans ((hp.filterMap _).append_left _)

theorem Underway.keep (h : Underway questions b₀ s₀ s (e :: es) b) (hs : s.Continues s')
    (hq : e'.question? = e.question?)
    (hheard : ∀ q v due, e' = .sent q (.ok v) due → s₀.Heard s' q.request v) :
    Underway questions b₀ s₀ s' (e' :: es) b := by
  obtain ⟨xs, hperm, hb, hxs⟩ := h.filled
  refine ⟨h.continues.trans hs, ⟨xs, ?_, hb, fun x hx => (hxs x hx).later hs⟩, ?_⟩
  · rw [List.filterMap_cons, hq, ← List.filterMap_cons]
    exact hperm
  · intro q v due hmem
    rcases List.mem_cons.mp hmem with rfl | hmem
    · exact hheard q v due rfl
    · exact (h.heard q v due (List.mem_cons_of_mem _ hmem)).later hs

/-- A future that is done has filled in the answer to its question. -/
theorem Underway.fill {q : Question (β → β)} {v : Json.Value} {fill : β → β}
    (h : Underway questions b₀ s₀ s (e :: es) b) (hs : s.Continues s')
    (hq : e.question? = some q) (hheard : s₀.Heard s' q.request v) (hread : q.read v = .ok fill) :
    Underway questions b₀ s₀ s' (.done :: es) (fill b) := by
  obtain ⟨xs, hperm, rfl, hxs⟩ := h.filled
  refine ⟨h.continues.trans hs, ⟨xs ++ [(q, fill)], ?_, ?_, ?_⟩, ?_⟩
  · rw [List.filterMap_cons_some hq] at hperm
    rw [List.map_append, List.append_assoc]
    exact hperm
  · rw [fillAll, fillAll, List.foldl_append]
    rfl
  · intro x hx
    rcases List.mem_append.mp hx with hx | hx
    · exact (hxs x hx).later hs
    · obtain rfl := List.mem_singleton.mp hx
      exact ⟨v, hheard, hread⟩
  · intro q v due hmem
    have hmem : .sent q (.ok v) due ∈ es := by
      rcases List.mem_cons.mp hmem with hdone | hmem
      · cases hdone
      · exact hmem
    exact (h.heard q v due (List.mem_cons_of_mem _ hmem)).later hs

theorem Future.Poll.underway (h : Poll s b e e' b' s')
    (hu : Underway questions b₀ s₀ s (e :: es) b) : Underway questions b₀ s₀ s' (e' :: es) b' := by
  cases h with
  | rests _ early => exact hu
  | refused q due next limiter ripe refusal =>
    exact hu.keep ⟨[], (List.append_nil _).symm, rfl⟩ rfl fun q v due h => by cases h
  | sends q due limiter result later _ ripe grant sending slow =>
    refine hu.keep (Session.continues_send sending) rfl fun q' v due' h => ?_
    cases h
    exact .earlier hu.continues (Session.heard_send sending)
  | answered q due limiter v later _ fill ripe grant sending reading =>
    exact hu.fill (Session.continues_send sending) rfl
      (.earlier hu.continues (Session.heard_send sending)) reading
  | settles q v due fill ripe reading =>
    exact hu.fill (.refl _) rfl (hu.heard q v due (List.mem_cons_self ..)) reading

end Underway

/-! ## Rounds -/

namespace Future

variable {s s' : Session ν} {b b' : β} {e e' f : Future β} {es es' : List (Future β)}

/-- Who waits for a time to come waits for the next token. -/
def Told (s : Session ν) (e : Future β) : Prop :=
  ∀ q due, e = .waiting q due → due ≤ s.now ∨ s.limiter.EmptyUntil due

/-- Who waits, waits for the next token. -/
def Queued (s : Session ν) (e : Future β) : Prop :=
  ∀ q due, e = .waiting q due → s.limiter.EmptyUntil due

/-- It goes on at the moment, unless it has to wait for a token. -/
def Ripe (s : Session ν) (e : Future β) : Prop := ∃ due ∈ e.due?, due ≤ s.now

def todo : Future β → Nat
  | waiting .. => 2
  | sent .. => 1
  | done => 0

def allTodo (es : List (Future β)) : Nat := (es.map todo).sum

omit [Node ν] in
theorem Queued.told (h : Queued s e) : Told s e := fun q due he => .inr (h q due he)

omit [Node ν] in
theorem rested_done (s : Session ν) :
    ¬ Ripe s (.done : Future β) ∧ Queued s (.done : Future β) := by
  constructor
  · rintro ⟨due, hdue, -⟩
    cases hdue
  · intro q due hq
    cases hq

theorem Poll.now_eq (h : Poll s b e e' b' s') : s'.now = s.now := by
  cases h with
  | rests _ early => rfl
  | refused q due next limiter ripe refusal => rfl
  | sends q due limiter result later _ ripe grant sending slow =>
    exact congrArg (·.2.now) sending.symm
  | answered q due limiter v later _ fill ripe grant sending reading =>
    exact congrArg (·.2.now) sending.symm
  | settles q v due fill ripe reading => rfl

/-- A step leaves the limiter alone, or asks it for a token. -/
theorem Poll.limiter_eq (h : Poll s b e e' b' s') :
    s'.limiter = s.limiter ∨ s'.limiter = (s.limiter.tryAcquire s.now).2 := by
  cases h with
  | rests _ early => exact .inl rfl
  | refused q due next limiter ripe refusal => exact .inr (congrArg Prod.snd refusal.symm)
  | sends q due limiter result later _ ripe grant sending slow =>
    have : s'.limiter = limiter := congrArg (·.2.limiter) sending.symm
    exact .inr (this.trans (congrArg Prod.snd grant.symm))
  | answered q due limiter v later _ fill ripe grant sending reading =>
    have : s'.limiter = limiter := congrArg (·.2.limiter) sending.symm
    exact .inr (this.trans (congrArg Prod.snd grant.symm))
  | settles q v due fill ripe reading => exact .inl rfl

theorem Poll.timely (h : Poll s b e e' b' s') (hs : s.limiter.Timely s.now) :
    s'.limiter.Timely s'.now := by
  rw [h.now_eq]
  rcases h.limiter_eq with heq | heq
  · exact heq ▸ hs
  · exact heq ▸ hs.tryAcquire

/-- The others still wait for the next token. -/
theorem Poll.told_other (h : Poll s b e e' b' s') (hs : s.limiter.Timely s.now)
    (hf : Told s f) : Told s' f := by
  intro q due he
  rw [h.now_eq]
  refine (Nat.lt_or_ge s.now due).elim (fun hearly => .inr ?_) .inl
  have hempty := (hf q due he).resolve_left (Nat.not_le.mpr hearly)
  -- nobody gets a token before it is due, so the bucket is as it was
  have hkept : (s.limiter.tryAcquire s.now).2 = s.limiter := by rw [hempty.refused hs hearly]
  rcases h.limiter_eq with heq | heq
  · exact heq ▸ hempty
  · rw [heq, hkept]
    exact hempty

/-- Nothing more is to be done about a future at the moment. -/
theorem Poll.rested (h : Poll s b e e' b' s') (hs : s.limiter.Timely s.now)
    (he : Told s e) : ¬ Ripe s' e' ∧ Queued s' e' := by
  cases h with
  | rests _ early =>
    refine ⟨fun ⟨due, hdue, hle⟩ => Nat.not_lt.mpr hle (early due hdue), fun q due hq => ?_⟩
    subst hq
    exact (he q due rfl).resolve_left (Nat.not_le.mpr (early due rfl))
  | refused q due next limiter ripe refusal =>
    obtain ⟨hlater, hempty⟩ := RpcLimiter.emptyUntil_of_refused hs refusal
    refine ⟨fun ⟨due, hdue, hle⟩ => ?_, fun q due hq => ?_⟩
    · cases hdue
      exact Nat.not_lt.mpr hle hlater
    · cases hq
      exact hempty
  | sends q due limiter result later _ ripe grant sending slow =>
    have hnow : s'.now = s.now := congrArg (·.2.now) sending.symm
    refine ⟨fun ⟨due, hdue, hle⟩ => ?_, fun q due hq => by cases hq⟩
    cases hdue
    exact Nat.not_lt.mpr hle (hnow ▸ slow)
  | answered q due limiter v later _ fill ripe grant sending reading => exact rested_done _
  | settles q v due fill ripe reading => exact rested_done _

theorem Poll.todo_le (h : Poll s b e e' b' s') : e'.todo ≤ e.todo := by
  cases h with
  | rests _ early => exact Nat.le_refl _
  | refused q due next limiter ripe refusal => exact Nat.le_refl _
  | sends q due limiter result later _ ripe grant sending slow => exact Nat.le_succ _
  | answered q due limiter v later _ fill ripe grant sending reading => exact Nat.zero_le _
  | settles q v due fill ripe reading => exact Nat.zero_le _

/-- A future that is due goes on: the token that it waited for is there. -/
theorem Poll.todo_lt (h : Poll s b e e' b' s') (hs : s.limiter.Timely s.now)
    (he : Queued s e) (hripe : Ripe s e) : e'.todo < e.todo := by
  cases h with
  | rests _ early =>
    obtain ⟨due, hdue, hle⟩ := hripe
    exact absurd hle (Nat.not_le.mpr (early due hdue))
  | refused q due next limiter ripe refusal =>
    have hgranted := (he q due rfl).granted hs ripe
    rw [refusal] at hgranted
    cases hgranted
  | sends q due limiter result later _ ripe grant sending slow => exact Nat.lt_succ_self _
  | answered q due limiter v later _ fill ripe grant sending reading => exact Nat.two_pos
  | settles q v due fill ripe reading => exact Nat.one_pos

theorem Poll.eq_of_not_ripe (h : Poll s b e e' b' s') (hripe : ¬ Ripe s e) :
    e' = e ∧ s' = s := by
  cases h with
  | rests _ early => exact ⟨rfl, rfl⟩
  | refused q due next limiter ripe refusal => exact absurd ⟨due, rfl, ripe⟩ hripe
  | sends q due limiter result later _ ripe grant sending slow =>
    exact absurd ⟨due, rfl, ripe⟩ hripe
  | answered q due limiter v later _ fill ripe grant sending reading =>
    exact absurd ⟨due, rfl, ripe⟩ hripe
  | settles q v due fill ripe reading => exact absurd ⟨due, rfl, ripe⟩ hripe

/-- A round goes through the futures one after the other. -/
theorem pollAll_cons (h : pollAll (e :: es) b s = (.ok (es', b'), s')) :
    ∃ e₁ b₁ s₁ es₁, Poll s b e e₁ b₁ s₁ ∧ pollAll es b₁ s₁ = (.ok (es₁, b'), s') ∧
      es' = e₁ :: es₁ := by
  rcases hfirst : poll e b s with ⟨fault | ⟨e₁, b₁⟩, s₁⟩
  · rw [pollAll, bind_of_error hfirst] at h
    cases h
  · rw [pollAll, bind_of_ok hfirst] at h
    dsimp only at h
    rcases hrest : pollAll es b₁ s₁ with ⟨fault | ⟨es₁, b₂⟩, s₂⟩
    · rw [bind_of_error hrest] at h
      cases h
    · rw [bind_of_ok hrest] at h
      cases h
      exact ⟨e₁, b₁, s₁, es₁, poll_cases hfirst, hrest, rfl⟩

theorem underway_pollAll {questions : List (Question (β → β))} {b₀ : β} {s₀ : Session ν}
    {rest : List (Future β)} (hu : Underway questions b₀ s₀ s (es ++ rest) b)
    (h : pollAll es b s = (.ok (es', b'), s')) :
    Underway questions b₀ s₀ s' (es' ++ rest) b' := by
  induction es generalizing b s es' rest with
  | nil =>
    cases h
    exact hu
  | cons e es ih =>
    obtain ⟨e₁, b₁, s₁, es₁, hstep, hround, rfl⟩ := pollAll_cons h
    have hfirst := hstep.underway hu
    exact (ih (hfirst.perm List.perm_middle.symm) hround).perm List.perm_middle

/-- After a round nothing is due, and all that wait, wait for the next token. -/
structure Rested (s s' : Session ν) (es : List (Future β)) : Prop where
  now_eq : s'.now = s.now
  timely : s'.limiter.Timely s'.now
  early : ∀ e ∈ es, ¬ Ripe s' e
  queued : ∀ e ∈ es, Queued s' e

theorem rested_pollAll (hs : s.limiter.Timely s.now) (hes : ∀ e ∈ es, Told s e)
    (h : pollAll es b s = (.ok (es', b'), s')) :
    Rested s s' es' ∧ ∀ f : Future β, Told s f → Told s' f := by
  induction es generalizing b s es' with
  | nil =>
    cases h
    exact ⟨⟨rfl, hs, List.forall_mem_nil _, List.forall_mem_nil _⟩, fun f hf => hf⟩
  | cons e es ih =>
    obtain ⟨e₁, b₁, s₁, es₁, hstep, hround, rfl⟩ := pollAll_cons h
    rw [List.forall_mem_cons] at hes
    have hs₁ := hstep.timely hs
    obtain ⟨hearly, hqueued⟩ := hstep.rested hs hes.1
    obtain ⟨hrest, hother⟩ := ih hs₁ (fun f hf => hstep.told_other hs (hes.2 f hf)) hround
    have hnow := hrest.now_eq.trans hstep.now_eq
    have hearly' : ¬ Ripe s' e₁ := fun ⟨due, hdue, hle⟩ =>
      hearly ⟨due, hdue, hrest.now_eq ▸ hle⟩
    have hqueued' : Queued s' e₁ := fun q due he =>
      (hother e₁ hqueued.told q due he).resolve_left fun hle => hearly' ⟨due, he ▸ rfl, hle⟩
    refine ⟨⟨hnow, hrest.timely, ?_, ?_⟩, fun f hf => hother f (hstep.told_other hs hf)⟩
    · exact List.forall_mem_cons.mpr ⟨hearly', hrest.early⟩
    · exact List.forall_mem_cons.mpr ⟨hqueued', hrest.queued⟩

theorem allTodo_cons (e : Future β) (es : List (Future β)) :
    allTodo (e :: es) = e.todo + allTodo es := by
  rw [allTodo, List.map_cons, List.sum_cons, allTodo]

theorem todo_pollAll_le (h : pollAll es b s = (.ok (es', b'), s')) :
    allTodo es' ≤ allTodo es := by
  induction es generalizing b s es' with
  | nil =>
    cases h
    exact Nat.le_refl _
  | cons e es ih =>
    obtain ⟨e₁, b₁, s₁, es₁, hstep, hround, rfl⟩ := pollAll_cons h
    rw [allTodo_cons, allTodo_cons]
    exact Nat.add_le_add hstep.todo_le (ih hround)

/-- A round brings a future further if one is due and all that wait, wait for the next token. -/
theorem todo_pollAll_lt (hs : s.limiter.Timely s.now) (hes : ∀ e ∈ es, Queued s e)
    (hripe : ∃ e ∈ es, Ripe s e) (h : pollAll es b s = (.ok (es', b'), s')) :
    allTodo es' < allTodo es := by
  induction es generalizing b s es' with
  | nil =>
    obtain ⟨e, he, -⟩ := hripe
    cases he
  | cons e es ih =>
    obtain ⟨e₁, b₁, s₁, es₁, hstep, hround, rfl⟩ := pollAll_cons h
    rw [List.forall_mem_cons] at hes
    rw [allTodo_cons, allTodo_cons]
    by_cases he : Ripe s e
    · exact Nat.add_lt_add_of_lt_of_le (hstep.todo_lt hs hes.1 he) (todo_pollAll_le hround)
    · -- the first one that is due lies further on
      obtain ⟨rfl, rfl⟩ := hstep.eq_of_not_ripe he
      obtain ⟨f, hf, hripe⟩ := hripe
      have hf : f ∈ es := (List.mem_cons.mp hf).resolve_left fun heq => he (heq ▸ hripe)
      exact Nat.add_lt_add_left (ih hs hes.2 ⟨f, hf, hripe⟩ hround) _

/-! ## All rounds -/

omit [Node ν] in
theorem todo_pos_of_ripe (hripe : ∃ e ∈ es, Ripe s e) : 0 < allTodo es := by
  obtain ⟨e, he, due, hdue, -⟩ := hripe
  have htodo : 0 < e.todo := by
    cases e with
    | waiting q due => exact Nat.two_pos
    | sent q result due => exact Nat.one_pos
    | done => cases hdue
  obtain ⟨before, rest, rfl⟩ := List.append_of_mem he
  rw [allTodo, List.map_append, List.sum_append, List.map_cons, List.sum_cons]
  omega

/-- The rounds that are left are enough: there is one to spare, or the next one brings a future
further. -/
def Enough (rounds : Nat) (s : Session ν) (es : List (Future β)) : Prop :=
  allTodo es < rounds ∨
    (∀ e ∈ es, Queued s e) ∧ (∃ e ∈ es, Ripe s e) ∧ allTodo es ≤ rounds

theorem perm_rotateLeft (es : List (Future β)) : (es.rotateLeft 1).Perm es := by
  unfold List.rotateLeft
  dsimp only
  split
  · exact .refl _
  · exact List.perm_append_comm.trans (.of_eq (List.take_append_drop ..))

theorem question?_of_due? (h : es.filterMap due? = []) : es.filterMap question? = [] := by
  rw [List.filterMap_eq_nil_iff] at h ⊢
  intro e he
  cases e with
  | done => rfl
  | waiting q due => cases h _ he
  | sent q result due => cases h _ he

/-- While something is due, rounds that are enough leave no question behind. -/
theorem underway_finish {questions : List (Question (β → β))} {b₀ : β} {s₀ : Session ν}
    {rounds : Nat} (hu : Underway questions b₀ s₀ s es b) (hs : s.limiter.Timely s.now)
    (hes : ∀ e ∈ es, Told s e) (henough : Enough rounds s es)
    (h : finish rounds es b s = (.ok b', s')) : Underway questions b₀ s₀ s' [] b' := by
  induction rounds generalizing es b s with
  | zero =>
    rcases henough with hless | ⟨-, hripe, hle⟩
    · exact absurd hless (Nat.not_lt_zero _)
    · exact absurd (todo_pos_of_ripe hripe) (Nat.not_lt.mpr hle)
  | succ rounds ih =>
    rcases hround : pollAll es b s with ⟨fault | ⟨es₁, b₁⟩, s₁⟩
    · rw [finish, bind_of_error hround] at h
      cases h
    · have hu₁ : Underway questions b₀ s₀ s₁ es₁ b₁ := by
        rw [← List.append_nil es] at hu
        rw [← List.append_nil es₁]
        exact underway_pollAll hu hround
      obtain ⟨hrested, -⟩ := rested_pollAll hs hes hround
      have hless : allTodo es₁ ≤ rounds := by
        rcases henough with hless | ⟨hqueued, hripe, hle⟩
        · exact Nat.le_trans (todo_pollAll_le hround) (Nat.le_of_lt_succ hless)
        · have := todo_pollAll_lt hs hqueued hripe hround
          omega
      rw [finish, bind_of_ok hround] at h
      dsimp only at h
      cases hmin : (es₁.filterMap due?).min? with
      | none =>
        rw [hmin] at h
        cases h
        obtain ⟨xs, hperm, hb, hxs⟩ := hu₁.filled
        rw [question?_of_due? (List.min?_eq_none_iff.mp hmin)] at hperm
        exact ⟨hu₁.continues, ⟨xs, hperm, hb, hxs⟩, fun q v due hmem => by cases hmem⟩
      | some due =>
        rw [hmin] at h
        obtain ⟨e, he, hdue⟩ := List.mem_filterMap.mp (List.min?_mem hmin)
        have hmem : ∀ f ∈ es₁.rotateLeft 1, f ∈ es₁ := fun f => (perm_rotateLeft es₁).mem_iff.mp
        have hqueued : ∀ f ∈ es₁.rotateLeft 1,
            Queued { s₁ with now := max s₁.now due } f := fun f hf => hrested.queued f (hmem f hf)
        have htodo : allTodo (es₁.rotateLeft 1) = allTodo es₁ :=
          ((perm_rotateLeft es₁).map todo).sum_nat
        have hlater := hu₁.perm (perm_rotateLeft es₁).symm
        refine ih (s := { s₁ with now := max s₁.now due })
          ⟨hlater.continues, hlater.filled, hlater.heard⟩
          (hrested.timely.later (Nat.le_max_left ..)) (fun f hf => (hqueued f hf).told) ?_ h
        refine .inr ⟨hqueued, ⟨e, (perm_rotateLeft es₁).mem_iff.mpr he, due, hdue, ?_⟩, ?_⟩
        · exact Nat.le_max_right ..
        · rw [htodo]
          exact hless

theorem filterMap_start (now : Nat) (questions : List (Option (Question (β → β)))) :
    (questions.map (start now)).filterMap question? = questions.filterMap id := by
  induction questions with
  | nil => rfl
  | cons q questions ih =>
    cases q with
    | none => exact ih
    | some q => exact congrArg (q :: ·) ih

theorem allTodo_start (now : Nat) (questions : List (Option (Question (β → β)))) :
    allTodo (questions.map (start now)) ≤ 2 * questions.length := by
  induction questions with
  | nil => exact Nat.le_refl _
  | cons q questions ih =>
    have hq : (start now q).todo ≤ 2 := by
      cases q with
      | none => exact Nat.zero_le _
      | some q => exact Nat.le_refl _
    rw [List.map_cons, allTodo_cons, List.length_cons]
    omega

end Future

/-- **Questions that are asked together are all answered**, each of them once, and their answers are
filled in one after the other. -/
theorem askTogether_answered {questions : List (Option (Question (β → β)))} {b b' : β}
    {s s' : Session ν} (hs : s.limiter.Timely s.now)
    (h : askTogether questions b s = (.ok b', s')) :
    ∃ xs : List (Question (β → β) × (β → β)), (questions.filterMap id).Perm (xs.map Prod.fst) ∧
      b' = fillAll b xs ∧ ∀ x ∈ xs, s.Learned s' x.1 x.2 := by
  let es := questions.map (Future.start s.now)
  have hfinish : Future.finish (2 * questions.length + 1) es b s = (.ok b', s') := h
  have hstart : Underway (questions.filterMap id) b s s es b := by
    refine ⟨.refl s, ⟨[], ?_, rfl, List.forall_mem_nil _⟩, fun q v due hmem => ?_⟩
    · exact .of_eq (Future.filterMap_start s.now questions).symm
    · obtain ⟨q | _, -, heq⟩ := List.mem_map.mp hmem
      · cases heq
      · cases heq
  have htold : ∀ e ∈ es, Future.Told s e := by
    intro e he q due heq
    obtain ⟨q' | _, -, rfl⟩ := List.mem_map.mp he
    · cases heq
    · cases heq
      exact .inl (Nat.le_refl _)
  have henough : Future.Enough (2 * questions.length + 1) s es :=
    .inl (Nat.lt_succ_of_le (Future.allTodo_start s.now questions))
  obtain ⟨xs, hperm, hb, hxs⟩ := (Future.underway_finish hstart hs htold henough hfinish).filled
  rw [List.filterMap_nil, List.append_nil] at hperm
  exact ⟨xs, hperm, hb, hxs⟩

end Backfill.Rpc
