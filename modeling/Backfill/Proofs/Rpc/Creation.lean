import Mathlib.Data.Nat.Log
import Backfill.Proofs.Rpc.Answers
import Backfill.Rpc.Session

/-!
# The block that brought a contract

The search halves the blocks in question. At the upper end of them there is always code, and below
the lower end there is none, or no block. So it ends at a block with code that follows one without.
If code can disappear there may be several of these; if it cannot, it is the first block with code.
The search asks once for each time that the number of blocks in question can be halved, rounded up.

Results:
* `found_spec`: where halving ends.
* `Archive.finds_search`: the search on a node, and how often it asks.
* `Archive.creation_located`: the whole dialogue.
* `Redeployed.found_nine`: a contract that was there before, destroyed itself and came back.
-/
namespace Backfill.Rpc

theorem toNat_sub_one {b : BlockNumber} (h : b ≠ 0) : (b - 1).toNat = b.toNat - 1 := by
  have hpos : b.toNat ≠ 0 := fun hzero => h (UInt64.toNat_inj.mp hzero)
  have hone : (1 : UInt64) ≤ b := by
    rw [UInt64.le_iff_toNat_le, UInt64.toNat_one]
    omega
  rw [UInt64.toNat_sub_of_le _ _ hone, UInt64.toNat_one]

/-! ## Halving -/

section Halving

def found (holds : Nat → Bool) (low high : Nat) : Nat := halve (m := Id) holds low high

variable {holds : Nat → Bool} {low high : Nat}

theorem found_of_lt (h : low < high) :
    found holds low high = if holds (low + (high - low) / 2) then
      found holds low (low + (high - low) / 2) else
      found holds (low + (high - low) / 2 + 1) high := by
  unfold found
  rw [halve, dif_pos h]
  rfl

theorem found_of_le (h : high ≤ low) : found holds low high = low := by
  unfold found
  rw [halve, dif_neg (Nat.not_lt.mpr h)]
  rfl

/-- Halving keeps something that holds at the upper end, and nothing right below the lower one. -/
theorem found_spec (hle : low ≤ high) (hhigh : holds high = true)
    (hlow : low = 0 ∨ holds (low - 1) = false) :
    low ≤ found holds low high ∧ found holds low high ≤ high ∧
      holds (found holds low high) = true ∧
        (found holds low high = 0 ∨ holds (found holds low high - 1) = false) := by
  induction hn : high - low using Nat.strongRecOn generalizing low high with
  | ind n ih =>
    by_cases hlt : low < high
    · rw [found_of_lt hlt]
      have hmiddle : low ≤ low + (high - low) / 2 ∧ low + (high - low) / 2 < high := by omega
      generalize low + (high - low) / 2 = middle at hmiddle
      split
      · next hmid =>
        obtain ⟨hfirst, hlast, hends⟩ := ih (middle - low) (by omega) hmiddle.1 hmid hlow rfl
        exact ⟨hfirst, by omega, hends⟩
      · next hmid =>
        rw [Bool.not_eq_true] at hmid
        obtain ⟨hfirst, hlast, hends⟩ :=
          ih (high - (middle + 1)) (by omega) (Nat.add_one_le_of_lt hmiddle.2) hhigh (.inr hmid) rfl
        exact ⟨by omega, hlast, hends⟩
    · obtain rfl : low = high := by omega
      rw [found_of_le (Nat.le_refl _)]
      exact ⟨Nat.le_refl _, Nat.le_refl _, hhigh, hlow⟩

/-- Half of several blocks, rounded up, takes one question less. -/
theorem clog_half {n : Nat} (h : low < high) (hn : n ≤ (high - low) / 2) :
    Nat.clog 2 (n + 1) + 1 ≤ Nat.clog 2 (high - low + 1) := by
  have hmono : Nat.clog 2 (n + 1) ≤ Nat.clog 2 ((high - low + 1 + 2 - 1) / 2) :=
    Nat.clog_mono_right 2 (by omega)
  rw [Nat.clog_of_one_lt (b := 2) (n := high - low + 1) (by decide) (by omega)]
  omega

end Halving

/-! ## The search on a node -/

section Search

variable {ν : Type} [Node ν]

/-- Nodes that tell of one chain, whatever they have been asked before: which block is the highest,
and of the blocks up to there the code of a contract and when they were produced. Their answers come
in time. -/
structure Archive (ν : Type) [Node ν] (contract : Address) (timeout : Nat) where
  latest : BlockNumber
  /-- The code is not empty. -/
  hasCode : BlockNumber → Bool
  time : BlockNumber → Instant
  /-- The nodes. -/
  Serves : ν → Prop
  serves_next : ∀ n, Serves n → ∀ q, Serves (Node.answer n q).2
  gives_latest : ∀ n, Serves n → Gives timeout n Question.latest latest
  answers_code : ∀ n, Serves n → ∀ b, b ≤ latest → ∃ v code,
    Answers timeout n (.code contract b) v ∧ data? v = some code ∧ (hasCode b = true ↔ code ≠ [])
  gives_time : ∀ n, Serves n → ∀ b, b ≤ latest → Gives timeout n (Question.blockTime b) (time b)

namespace Archive

variable {contract : Address} {timeout : Nat} (a : Archive ν contract timeout) {s : Session ν}

theorem gives_code {n : ν} (hn : a.Serves n) {b : BlockNumber} (hb : b ≤ a.latest) :
    Gives timeout n (Question.hasCode contract b) (a.hasCode b) := by
  obtain ⟨v, code, hv, hdata, hcode⟩ := a.answers_code n hn b hb
  have hempty : (!code.isEmpty) = a.hasCode b := by
    rw [Bool.eq_iff_iff, hcode, Bool.not_eq_true', List.isEmpty_eq_false_iff]
  refine ⟨v, hv, ?_⟩
  simp only [Question.hasCode, Question.ofShape, hdata, hempty]

/-- A session with one of the nodes. -/
structure Holds (s : Session ν) : Prop where
  serves : a.Serves s.node
  timeout_eq : s.limiter.timeout = timeout

variable {a}

theorem Holds.ask {α : Type} {q : Question α} {x : α} (h : a.Holds s)
    (hq : ∀ n, a.Serves n → Gives timeout n q x) :
    ∃ s', Rpc.ask q s = (.ok x, s') ∧ a.Holds s' ∧ s'.sent = s.sent ++ [q.request] := by
  have hgives : Gives s.limiter.timeout s.node q x := h.timeout_eq ▸ hq s.node h.serves
  refine ⟨(Rpc.ask q s).2, Prod.ext (ask_of_gives hgives) rfl, ⟨?_, ?_⟩, sent_ask q s⟩
  · rw [node_ask]
    exact a.serves_next _ h.serves _
  · rw [timeout_ask, h.timeout_eq]

variable (a)

/-- The search of `fetchCreation` in a range of blocks. -/
abbrev search (contract : Address) (low high : Nat) : Dialogue ν Nat :=
  halve (fun n => Rpc.ask (Question.hasCode contract (UInt64.ofNat n))) low high

/-- What there is at a block by its number. -/
def codeAt (n : Nat) : Bool := a.hasCode (UInt64.ofNat n)

/-- A dialogue comes to a number, and asks for nothing but code, and no more than so many times. -/
def Finds (s : Session ν) (d : Dialogue ν Nat) (n limit : Nat) : Prop :=
  ∃ asked s', d s = (.ok n, s') ∧ a.Holds s' ∧ s'.sent = s.sent ++ asked ∧
    (∀ q ∈ asked, q.method = "eth_getCode") ∧ asked.length ≤ limit

variable {a} {low high : Nat}

theorem Finds.after {s₁ : Session ν} {d d₁ : Dialogue ν Nat} {n limit limit' : Nat} {q : Request}
    (h : a.Finds s₁ d₁ n limit) (hrun : d s = d₁ s₁) (hsent : s₁.sent = s.sent ++ [q])
    (hq : q.method = "eth_getCode") (hlimit : limit + 1 ≤ limit') : a.Finds s d n limit' := by
  obtain ⟨asked, s', hends, hs', hasked, hcode, hlength⟩ := h
  refine ⟨q :: asked, s', hrun.trans hends, hs', ?_, List.forall_mem_cons.mpr ⟨hq, hcode⟩, ?_⟩
  · rw [hasked, hsent, List.append_assoc, List.singleton_append]
  · rw [List.length_cons]
    omega

theorem search_of_lt (hs : a.Holds s) (hlt : low < high) (hhigh : high ≤ a.latest.toNat) :
    ∃ s₁ q, a.Holds s₁ ∧ s₁.sent = s.sent ++ [q] ∧ q.method = "eth_getCode" ∧
      search contract low high s =
        (if a.codeAt (low + (high - low) / 2) then
          search contract low (low + (high - low) / 2) else
          search contract (low + (high - low) / 2 + 1) high) s₁ := by
  have hblock : UInt64.ofNat (low + (high - low) / 2) ≤ a.latest := by
    have := a.latest.toNat_lt
    rw [UInt64.le_iff_toNat_le, UInt64.toNat_ofNat']
    omega
  obtain ⟨s₁, hask, hs₁, hsent⟩ := hs.ask fun n hn => a.gives_code hn hblock
  refine ⟨s₁, _, hs₁, hsent, rfl, ?_⟩
  rw [search, halve, dif_pos hlt]
  exact bind_of_ok hask

/-- The search finds what halving finds, and asks no more often than the number of blocks in
question can be halved. -/
theorem finds_search (hs : a.Holds s) (hhigh : high ≤ a.latest.toNat) :
    a.Finds s (search contract low high) (found a.codeAt low high)
      (Nat.clog 2 (high - low + 1)) := by
  induction hn : high - low using Nat.strongRecOn generalizing low high s with
  | ind n ih =>
    subst hn
    by_cases hlt : low < high
    · obtain ⟨s₁, q, hs₁, hsent, hq, hrun⟩ := search_of_lt hs hlt hhigh
      rw [found_of_lt hlt]
      split at hrun
      · next hcode =>
        rw [if_pos hcode]
        exact (ih _ (by omega) hs₁ (by omega) rfl).after hrun hsent hq (clog_half hlt (by omega))
      · next hcode =>
        rw [if_neg hcode]
        exact (ih _ (by omega) hs₁ hhigh rfl).after hrun hsent hq (clog_half hlt (by omega))
    · have hdone : search contract low high s = (.ok low, s) := by
        rw [search, halve, dif_neg hlt]
        rfl
      rw [found_of_le (Nat.le_of_not_lt hlt)]
      exact ⟨[], s, hdone, hs, (List.append_nil _).symm, fun _ h => absurd h List.not_mem_nil,
        Nat.zero_le _⟩

/-! ## The whole dialogue -/

def block (a : Archive ν contract timeout) : BlockNumber :=
  UInt64.ofNat (found a.codeAt 0 a.latest.toNat)

/-- If there is code at the highest block, the search finds code right above a block without. -/
theorem block_spec (hcode : a.hasCode a.latest = true) :
    a.block ≤ a.latest ∧ a.hasCode a.block = true ∧
      (a.block = 0 ∨ a.hasCode (a.block - 1) = false) := by
  have hlatest : a.codeAt a.latest.toNat = true := by
    rw [codeAt, UInt64.ofNat_toNat]
    exact hcode
  obtain ⟨-, hle, hfound, hbelow⟩ := found_spec (Nat.zero_le _) hlatest (.inl rfl)
  have hroom := a.latest.toNat_lt
  have hblock : a.block.toNat = found a.codeAt 0 a.latest.toNat := by
    rw [block, UInt64.toNat_ofNat']
    omega
  refine ⟨UInt64.le_iff_toNat_le.mpr (hblock ▸ hle), hfound, ?_⟩
  by_cases hzero : a.block = 0
  · exact .inl hzero
  · have hpos : a.block.toNat ≠ 0 := fun h => hzero (UInt64.toNat_inj.mp h)
    have hprev : a.block - 1 = UInt64.ofNat (a.block.toNat - 1) := by
      rw [← toNat_sub_one hzero, UInt64.ofNat_toNat]
    rw [hprev, hblock]
    exact .inr (hbelow.resolve_left (hblock ▸ hpos))

/-- Where code does not disappear there is none below. -/
theorem block_le (hcode : a.hasCode a.latest = true)
    (hstays : ∀ b b', b ≤ b' → b' ≤ a.latest → a.hasCode b = true → a.hasCode b' = true)
    {b : BlockNumber} (hb : a.hasCode b = true) : a.block ≤ b := by
  obtain ⟨hle, -, hbelow⟩ := block_spec hcode
  rw [← UInt64.not_lt]
  intro hlt
  have hpos : a.block ≠ 0 := by
    rintro heq
    rw [heq] at hlt
    exact UInt64.not_lt_zero hlt
  have hprev := toNat_sub_one hpos
  rw [UInt64.lt_iff_toNat_lt] at hlt
  have hcode' := hstays b (a.block - 1) (by rw [UInt64.le_iff_toNat_le]; omega)
    (by rw [UInt64.le_iff_toNat_le] at hle ⊢; omega) hb
  rw [hbelow.resolve_left hpos] at hcode'
  cases hcode'

theorem fetchCreation_none (hs : a.Holds s) (hcode : a.hasCode a.latest = false) :
    (fetchCreation contract s).1 = .ok none ∧ (fetchCreation contract s).2.sent =
      s.sent ++ [.latest, .code contract a.latest] := by
  obtain ⟨s₁, hlatest, hs₁, hsent₁⟩ := hs.ask a.gives_latest
  obtain ⟨s₂, hask, hs₂, hsent₂⟩ := hs₁.ask fun n hn => a.gives_code hn (UInt64.le_refl _)
  have hrun : fetchCreation contract s = (.ok none, s₂) := by
    refine (bind_of_ok hlatest).trans ((bind_of_ok hask).trans ?_)
    rw [hcode]
    rfl
  rw [hrun, hsent₂, hsent₁, List.append_assoc]
  exact ⟨rfl, rfl⟩

/-- With code at the highest block the search follows, and the question when its block was
produced. -/
theorem fetchCreation_some (hs : a.Holds s) (hcode : a.hasCode a.latest = true) :
    ∃ asked, (fetchCreation contract s).1 = .ok (some ⟨a.block, a.time a.block⟩) ∧
      (fetchCreation contract s).2.sent =
        s.sent ++ ([.latest, .code contract a.latest] ++ asked ++ [.header a.block]) ∧
        (∀ q ∈ asked, q.method = "eth_getCode") ∧
          asked.length ≤ Nat.clog 2 (a.latest.toNat + 1) := by
  obtain ⟨s₁, hlatest, hs₁, hsent₁⟩ := hs.ask a.gives_latest
  obtain ⟨s₂, hask, hs₂, hsent₂⟩ := hs₁.ask fun n hn => a.gives_code hn (UInt64.le_refl _)
  have hsearch : a.Finds s₂ (search contract 0 a.latest.toNat) _ _ :=
    finds_search hs₂ (Nat.le_refl _)
  obtain ⟨asked, s₃, hfound, hs₃, hsent₃, hmethod, hlength⟩ := hsearch
  obtain ⟨s₄, htime, -, hsent₄⟩ := hs₃.ask fun n hn => a.gives_time n hn _ (block_spec hcode).1
  have hrun : fetchCreation contract s = (.ok (some ⟨a.block, a.time a.block⟩), s₄) := by
    refine (bind_of_ok hlatest).trans ((bind_of_ok hask).trans ?_)
    rw [hcode]
    exact (bind_of_ok hfound).trans (bind_of_ok htime)
  refine ⟨asked, by rw [hrun], ?_, hmethod, hlength⟩
  rw [hrun, hsent₄, hsent₃, hsent₂, hsent₁]
  simp only [List.append_assoc]
  rfl

/-- **The block that brought a contract.** The dialogue comes to a result. That is nothing exactly
if there is no code at the highest block. Otherwise it is a block up to there with code, before
which there is no block or none with code, and the time of that block; if code does not disappear,
no block below it has code. The dialogue asks for code once and then no more often than the number
of blocks can be halved. -/
theorem creation_located (a : Archive ν contract timeout) (hs : a.Holds s) :
    ∃ result asked, (fetchCreation contract s).1 = .ok result ∧
      (fetchCreation contract s).2.sent = s.sent ++ asked ∧
      asked.countP (·.method = "eth_getCode") ≤ 1 + Nat.clog 2 (a.latest.toNat + 1) ∧
      (result = none ↔ a.hasCode a.latest = false) ∧
      ∀ c ∈ result,
        c.block ≤ a.latest ∧ a.hasCode c.block = true ∧
          (c.block = 0 ∨ a.hasCode (c.block - 1) = false) ∧ c.time = a.time c.block ∧
          ((∀ b b', b ≤ b' → b' ≤ a.latest → a.hasCode b = true → a.hasCode b' = true) →
            ∀ b, a.hasCode b = true → c.block ≤ b) := by
  cases hcode : a.hasCode a.latest with
  | false =>
    obtain ⟨hresult, hsent⟩ := fetchCreation_none hs hcode
    refine ⟨none, _, hresult, hsent, ?_, by simp, fun c hc => by cases hc⟩
    have hone : [Request.latest, .code contract a.latest].countP (·.method = "eth_getCode") = 1 :=
      rfl
    omega
  | true =>
    obtain ⟨asked, hresult, hsent, hmethod, hlength⟩ := fetchCreation_some hs hcode
    refine ⟨_, _, hresult, hsent, ?_, by simp, fun c hc => ?_⟩
    · have hasked : asked.countP (·.method = "eth_getCode") ≤ asked.length :=
        List.countP_le_length
      have hbefore :
          [Request.latest, .code contract a.latest].countP (·.method = "eth_getCode") = 1 := rfl
      have hafter : [Request.header a.block].countP (·.method = "eth_getCode") = 0 := rfl
      rw [List.countP_append, List.countP_append]
      omega
    · obtain rfl := Option.some.inj hc
      obtain ⟨hle, hfound, hbelow⟩ := block_spec hcode
      exact ⟨hle, hfound, hbelow, rfl, fun hstays b hb => block_le hcode hstays hb⟩

end Archive
end Search

/-! ## A contract that came back -/

namespace Redeployed

/-- A node of a chain of blocks 0 to 12, three seconds apart, which answers after half a second. -/
structure Teller where
  hasCode : BlockNumber → Bool

def Teller.result (n : Teller) : Request → Except NodeFault Json.Value
  | .latest => .ok (.text "0xc")
  | .header b => .ok (.record [("timestamp", .text (Text.hexQuantity (3 * b.toNat)))])
  | .code _ b => .ok (.text (if n.hasCode b then "0x6080" else "0x"))
  | _ => .error .unsupported

instance : Node Teller where
  answer n q := ({ result := n.result q, delay := 500 }, n)

def contract : Address := .ofNat 9

def hasCode (b : BlockNumber) : Bool := (3 ≤ b && b ≤ 5) || 9 ≤ b

def time (b : BlockNumber) : Instant := .nearest (3000000000 * b.toNat)

theorem read_time : ∀ n < 13, (Question.blockTime (UInt64.ofNat n)).read
    (.record [("timestamp", .text (Text.hexQuantity (3 * (UInt64.ofNat n).toNat)))]) =
      .ok (time (UInt64.ofNat n)) := by
  decide +kernel

def archive : Archive Teller contract 1000 where
  latest := 12
  hasCode := hasCode
  time := time
  Serves n := n = ⟨hasCode⟩
  serves_next _ hn _ := hn
  gives_latest n hn := ⟨_, ⟨rfl, (by decide : 500 ≤ 1000)⟩, rfl⟩
  answers_code n hn b _ := by
    subst hn
    refine ⟨_, if hasCode b then [0x60, 0x80] else [], ⟨rfl, (by decide : 500 ≤ 1000)⟩, ?_, ?_⟩
    · cases h : hasCode b <;> simp only [h] <;> rfl
    · cases h : hasCode b <;> simp
  gives_time n hn b hb := by
    refine ⟨_, ⟨rfl, (by decide : 500 ≤ 1000)⟩, ?_⟩
    rw [UInt64.le_iff_toNat_le] at hb
    have h := read_time b.toNat (Nat.lt_succ_of_le hb)
    rwa [UInt64.ofNat_toNat] at h

def session : Session Teller := { limiter := .ofDelay 100 1 1000, node := ⟨hasCode⟩ }

theorem holds : archive.Holds session := ⟨rfl, rfl⟩

/-- The block found is 9. That there was code at block 3 does not show. -/
theorem found_nine :
    archive.Holds session ∧ hasCode 3 = true ∧
      ∃ c asked, (fetchCreation contract session).1 = .ok (some c) ∧
        (fetchCreation contract session).2.sent = asked ∧
        asked.countP (·.method = "eth_getCode") ≤ 5 ∧
        c.block = 9 ∧ c.time = time 9 ∧ hasCode 9 = true ∧ hasCode 8 = false := by
  have hnine : (fetchCreation contract session).1.toOption.join.map (·.block) = some 9 := by
    decide +kernel
  obtain ⟨result, asked, hresult, hsent, hcount, -, hfound⟩ := archive.creation_located holds
  rw [hresult] at hnine
  obtain ⟨c, hc, hblock⟩ := Option.map_eq_some_iff.mp hnine
  obtain rfl : result = some c := hc
  obtain ⟨-, hcode, hbelow, htime, -⟩ := hfound c rfl
  rw [hblock] at hcode hbelow htime
  have hlog : Nat.clog 2 (archive.latest.toNat + 1) ≤ 4 := Nat.clog_le_of_le_pow (by decide)
  exact ⟨holds, rfl, c, asked, hresult, hsent, by omega, hblock, htime, hcode,
    hbelow.resolve_left (by decide)⟩

end Redeployed
end Backfill.Rpc
