import Mathlib.Algebra.Group.Int.Defs
import Mathlib.Data.List.Forall2
import Backfill.Proofs.Rpc.Answers
import Backfill.Mock.Provider

/-!
# What the legs of transfers add up to

A node answers a query with logs. A log with the form of a transfer stands for two shares: who
sends loses the amount and who receives gains it, but the zero address has no share. The legs handed
on record these shares in the order of the logs. What someone loses someone else gains, so the legs
of a token add up to what was minted of it less what was burned. An amount must leave room for a
sign. If one does not, nothing is handed on.

Results:
* `Log.movement?_of_transfer`, `Log.movement?_eq_none`: which logs stand for a movement.
* `Log.allLegs_of_overflows`, `Log.allLegs_of_fits`: what becomes of logs.
* `Log.shareSum_flatMap`: what the shares of logs add up to.
* `transfers_conserved`: what becomes of a query.
* `Supply.eighty_left`: a token that is minted, moved and burned.
-/
namespace Backfill.Rpc

-- sums begin with the zero of the core library
attribute [local instance(high)] Zero.ofOfNat0

/-! ## Logs of transfers -/

namespace Log

/-- A log with a place on the chain, and with the topics and the data of a transfer. -/
structure IsTransfer (l : Log) : Prop where
  block : l.block.isSome = true
  transaction : l.transaction.isSome = true
  index : l.index.isSome = true
  topics : l.topics.length = 3
  data : 32 ≤ l.data.length

instance (l : Log) : Decidable l.IsTransfer :=
  decidable_of_iff (l.block.isSome = true ∧ l.transaction.isSome = true ∧ l.index.isSome = true ∧
    l.topics.length = 3 ∧ 32 ≤ l.data.length)
    ⟨fun ⟨hb, ht, hi, htopics, hdata⟩ => ⟨hb, ht, hi, htopics, hdata⟩,
      fun h => ⟨h.block, h.transaction, h.index, h.topics, h.data⟩⟩

def value (l : Log) : Nat := Text.bigEndian (l.data.take 32)

def sender (l : Log) : Address := Address.ofWord (l.topics.getD 1 (.ofNat 0))

def receiver (l : Log) : Address := Address.ofWord (l.topics.getD 2 (.ofNat 0))

/-- What someone loses or gains by a log. -/
structure Share where
  log : Log
  owner : Address
  amount : Int

/-- The shares in a log: of who sends before who receives, unless that is the zero address. -/
def shares (l : Log) : List Share :=
  if l.IsTransfer then
    [⟨l, l.sender, -l.value⟩, ⟨l, l.receiver, l.value⟩].filter (·.owner ≠ Address.zero)
  else []

/-- A leg that records a share and where it is from. Of the index the low 64 bits are recorded. -/
structure Share.Recorded (x : Share) (t : Transfer) : Prop where
  block : x.log.block = some t.block
  transaction : x.log.transaction = some t.transaction
  index : x.log.index.map UInt64.ofNat = some t.logIndex
  token : t.token = x.log.token
  owner : t.owner = x.owner
  amount : t.amount = x.amount

variable {l : Log} {m : Movement} {ls : List Log} {ts : List Transfer}

/-- What a movement has from its log. -/
structure Movement.OfLog (m : Movement) (l : Log) : Prop where
  block : l.block = some m.block
  transaction : l.transaction = some m.transaction
  index : l.index.map UInt64.ofNat = some m.logIndex
  token : m.token = l.token
  sender : m.sender = l.sender
  receiver : m.receiver = l.receiver
  amount : m.amount = l.value

theorem movement?_of_transfer (h : l.IsTransfer) : ∃ m, l.movement? = some m ∧ m.OfLog l := by
  obtain ⟨token, topics, data, block, transaction, index⟩ := l
  obtain ⟨hblock, htransaction, hindex, htopics, hdata⟩ := h
  obtain ⟨block, rfl⟩ := Option.isSome_iff_exists.mp hblock
  obtain ⟨transaction, rfl⟩ := Option.isSome_iff_exists.mp htransaction
  obtain ⟨index, rfl⟩ := Option.isSome_iff_exists.mp hindex
  obtain ⟨signature, sender, receiver, rfl⟩ := List.length_eq_three.mp htopics
  exact ⟨_, if_pos hdata, rfl, rfl, rfl, rfl, rfl, rfl, rfl⟩

theorem movement?_eq_none (h : ¬ l.IsTransfer) : l.movement? = none := by
  unfold movement?
  split
  · next block transaction index _ sender receiver hblock htransaction hindex htopics =>
    refine if_neg fun hdata => h ⟨?_, ?_, ?_, ?_, hdata⟩
    · rw [hblock]; rfl
    · rw [htransaction]; rfl
    · rw [hindex]; rfl
    · rw [htopics]; rfl
  · rfl

/-! ## Legs -/

theorem Movement.OfLog.recorded (h : m.OfLog l) (owner : Address) (amount : Int) :
    Share.Recorded ⟨l, owner, amount⟩ (m.leg owner amount) :=
  ⟨h.block, h.transaction, h.index, h.token, rfl, rfl⟩

theorem shares_of_transfer (h : l.IsTransfer) :
    l.shares = (if l.sender = Address.zero then [] else [⟨l, l.sender, -l.value⟩]) ++
      (if l.receiver = Address.zero then [] else [⟨l, l.receiver, l.value⟩]) := by
  rw [shares, if_pos h]
  by_cases hs : l.sender = Address.zero <;> by_cases hr : l.receiver = Address.zero <;>
    simp [hs, hr]

theorem Movement.OfLog.legs_recorded (h : m.OfLog l) (hl : l.IsTransfer) :
    List.Forall₂ Share.Recorded l.shares m.legs := by
  rw [shares_of_transfer hl, Movement.legs, h.sender, h.receiver, h.amount]
  refine List.rel_append ?_ ?_
  · split
    · exact .nil
    · exact .cons (h.recorded _ _) .nil
  · split
    · exact .nil
    · exact .cons (h.recorded _ _) .nil

/-! ## Amounts that are too large -/

/-- A log of a transfer whose amount leaves no room for a sign. -/
def Overflows (l : Log) : Prop := l.IsTransfer ∧ 2 ^ 255 ≤ l.value

instance (l : Log) : Decidable l.Overflows :=
  inferInstanceAs (Decidable (l.IsTransfer ∧ 2 ^ 255 ≤ l.value))

def overflow (l : Log) : FetchError :=
  .rpc ("Transfer amount " ++ Json.Value.integerText l.value ++ " overflows")

theorem legs_of_overflows (h : l.Overflows) : l.legs = .error l.overflow := by
  obtain ⟨m, hm, hof⟩ := movement?_of_transfer h.1
  have hnot : ¬ m.amount < 2 ^ 255 := by
    rw [hof.amount]
    exact Nat.not_lt.mpr h.2
  rw [legs, hm, overflow, ← hof.amount]
  exact if_neg hnot

theorem legs_of_fits (h : ¬ l.Overflows) :
    ∃ ts, l.legs = .ok ts ∧ List.Forall₂ Share.Recorded l.shares ts := by
  by_cases hl : l.IsTransfer
  · obtain ⟨m, hm, hof⟩ := movement?_of_transfer hl
    have hfits : m.amount < 2 ^ 255 := by
      rw [hof.amount]
      exact Nat.lt_of_not_le fun hle => h ⟨hl, hle⟩
    refine ⟨m.legs, ?_, hof.legs_recorded hl⟩
    rw [legs, hm]
    exact if_pos hfits
  · refine ⟨[], ?_, ?_⟩
    · rw [legs, movement?_eq_none hl]
    · rw [shares, if_neg hl]
      exact .nil

/-- The first log whose amount is too large ends the work, whatever comes before and after it. -/
theorem allLegs_of_overflows (h : ls.find? (·.Overflows) = some l) :
    allLegs ls = .error l.overflow := by
  induction ls with
  | nil => cases h
  | cons l' rest ih =>
    rw [allLegs]
    by_cases hl' : l'.Overflows
    · simp only [List.find?_cons, decide_eq_true hl'] at h
      obtain rfl := Option.some.inj h
      rw [legs_of_overflows hl']
      rfl
    · simp only [List.find?_cons, decide_eq_false hl'] at h
      obtain ⟨ts, hts, -⟩ := legs_of_fits hl'
      rw [hts, ih h]
      rfl

/-- If no amount is too large, the legs are those of the shares. -/
theorem allLegs_of_fits (h : ∀ l ∈ ls, ¬ l.Overflows) :
    ∃ ts, allLegs ls = .ok ts ∧ List.Forall₂ Share.Recorded (ls.flatMap shares) ts := by
  induction ls with
  | nil => exact ⟨[], rfl, .nil⟩
  | cons l rest ih =>
    rw [List.forall_mem_cons] at h
    obtain ⟨ts, hts, hrecorded⟩ := legs_of_fits h.1
    obtain ⟨ts', hts', hrest⟩ := ih h.2
    refine ⟨ts ++ ts', ?_, ?_⟩
    · rw [allLegs, hts, hts']
      rfl
    · rw [List.flatMap_cons]
      exact List.rel_append hrecorded hrest

/-! ## Sums -/

def total (p : Log → Bool) (ls : List Log) : Int :=
  ((ls.filter p).map fun l => (l.value : Int)).sum

def minted (token : Address) : List Log → Int :=
  total fun l => l.IsTransfer ∧ l.token = token ∧ l.sender = Address.zero

def burned (token : Address) : List Log → Int :=
  total fun l => l.IsTransfer ∧ l.token = token ∧ l.receiver = Address.zero

theorem total_cons (p : Log → Bool) (l : Log) (ls : List Log) :
    total p (l :: ls) = total p [l] + total p ls := by
  simp only [total]
  rw [← List.sum_append, ← List.map_append, ← List.filter_append]
  rfl

def shareSum (token : Address) (xs : List Share) : Int :=
  ((xs.filter (·.log.token = token)).map (·.amount)).sum

theorem shareSum_append (token : Address) (xs ys : List Share) :
    shareSum token (xs ++ ys) = shareSum token xs + shareSum token ys := by
  simp [shareSum]

/-- One log moves a token between two parties, mints it or burns it, or is about something else. -/
theorem shareSum_shares (token : Address) (l : Log) :
    shareSum token l.shares = minted token [l] - burned token [l] := by
  by_cases hl : l.IsTransfer
  -- a party without a share leaves its part to what is minted or burned
  · by_cases ht : l.token = token <;> by_cases hs : l.sender = Address.zero <;>
      by_cases hr : l.receiver = Address.zero <;>
      simp [shares, shareSum, minted, burned, total, hl, ht, hs, hr]
  · simp [shares, shareSum, minted, burned, total, hl]

theorem shareSum_flatMap (token : Address) (ls : List Log) :
    shareSum token (ls.flatMap shares) = minted token ls - burned token ls := by
  induction ls with
  | nil => rfl
  | cons l rest ih =>
    have hminted : minted token (l :: rest) = minted token [l] + minted token rest :=
      total_cons _ l rest
    have hburned : burned token (l :: rest) = burned token [l] + burned token rest :=
      total_cons _ l rest
    rw [List.flatMap_cons, shareSum_append, shareSum_shares, ih, hminted, hburned]
    omega

end Log

def tokenSum (token : Address) (ts : List Transfer) : Int :=
  ((ts.filter (·.token = token)).map (·.amount)).sum

theorem tokenSum_of_recorded {xs : List Log.Share} {ts : List Transfer}
    (h : List.Forall₂ Log.Share.Recorded xs ts) (token : Address) :
    tokenSum token ts = Log.shareSum token xs := by
  induction h with
  | nil => rfl
  | @cons x t xs ts hx _ ih =>
    unfold tokenSum Log.shareSum at ih ⊢
    rw [List.filter_cons, List.filter_cons, hx.token]
    split
    · rw [List.map_cons, List.map_cons, List.sum_cons, List.sum_cons, ih, hx.amount]
    · exact ih

theorem owner_ne_zero_of_share {ls : List Log} :
    ∀ x ∈ ls.flatMap Log.shares, x.owner ≠ Address.zero := by
  intro x h
  obtain ⟨l, -, hx⟩ := List.mem_flatMap.mp h
  unfold Log.shares at hx
  split at hx
  · exact of_decide_eq_true (List.mem_filter.mp hx).2
  · cases hx

theorem owner_ne_zero_of_recorded {xs : List Log.Share} {ts : List Transfer}
    (h : List.Forall₂ Log.Share.Recorded xs ts) (hxs : ∀ x ∈ xs, x.owner ≠ Address.zero) :
    ∀ t ∈ ts, t.owner ≠ Address.zero := by
  induction h with
  | nil => exact fun t ht => by cases ht
  | @cons x t xs ts hx _ ih =>
    rw [List.forall_mem_cons] at hxs ⊢
    rw [hx.owner]
    exact ⟨hxs.1, ih hxs.2⟩

/-! ## Queries -/

section Query
variable {ν : Type} [Node ν] {s : Session ν} {range : Range BlockNumber} {tokens : List Address}
  {v : Json.Value} {logs : List Log}

theorem ask_transfers (hv : Answers s.limiter.timeout s.node (.logs range tokens) v)
    (hlogs : Log.listOfValue? v = some logs) :
    (ask (Question.transfers range tokens) s).1 = Log.allLegs logs := by
  rw [ask_of_answers hv]
  simp only [Question.transfers, Question.ofShape, hlogs]

/-- **Transfers are conserved.** A query that is answered with logs fails exactly if the amount of a
transfer among them leaves no room for a sign. Otherwise the legs record the shares of the logs in
their order. So the legs of each token add up to what was minted of it less what was burned, and no
leg is the zero address's. -/
theorem transfers_conserved (hv : Answers s.limiter.timeout s.node (.logs range tokens) v)
    (hlogs : Log.listOfValue? v = some logs) :
    ((∃ fault, (ask (Question.transfers range tokens) s).1 = .error fault) ↔
        ∃ l ∈ logs, l.IsTransfer ∧ 2 ^ 255 ≤ l.value) ∧
      ∀ legs, (ask (Question.transfers range tokens) s).1 = .ok legs →
        List.Forall₂ Log.Share.Recorded (logs.flatMap Log.shares) legs ∧
          (∀ token, tokenSum token legs = Log.minted token logs - Log.burned token logs) ∧
          ∀ t ∈ legs, t.owner ≠ Address.zero := by
  rw [ask_transfers hv hlogs]
  by_cases hfits : ∀ l ∈ logs, ¬ l.Overflows
  · obtain ⟨ts, hts, hrecorded⟩ := Log.allLegs_of_fits hfits
    rw [hts]
    refine ⟨⟨?_, fun ⟨l, hl, ho⟩ => absurd ho (hfits l hl)⟩, ?_⟩
    · rintro ⟨fault, h⟩
      cases h
    · rintro legs h
      obtain rfl := Except.ok.inj h
      refine ⟨hrecorded, fun token => ?_, ?_⟩
      · rw [tokenSum_of_recorded hrecorded, Log.shareSum_flatMap]
      · exact owner_ne_zero_of_recorded hrecorded owner_ne_zero_of_share
  · obtain ⟨l, hl, ho⟩ : ∃ l ∈ logs, l.Overflows := by simpa using hfits
    obtain ⟨l', hfind⟩ := Option.isSome_iff_exists.mp
      (List.find?_isSome (p := (·.Overflows)).mpr ⟨l, hl, decide_eq_true ho⟩)
    rw [Log.allLegs_of_overflows hfind]
    refine ⟨⟨fun _ => ⟨l, hl, ho⟩, fun _ => ⟨_, rfl⟩⟩, ?_⟩
    rintro legs h
    cases h

end Query

/-! ## A supply -/

namespace Supply

def log (block : Option BlockNumber) (parties : List Nat) (amount : Nat) : Log where
  token := .ofNat 7
  topics := transferTopic :: parties.map .ofNat
  data := balanceOf.octets amount 32
  block
  transaction := some (.ofNat 5)
  index := some 3

/-- The token is minted to 1, who sends some of it to 2 and burns some. A transfer of a block still
being built and a log with one party only stand between. -/
def logs : List Log :=
  [log (some 10) [0, 1] 100, log none [0, 2] 1000, log (some 11) [1, 2] 30, log (some 11) [1] 40,
   log (some 12) [1, 0] 20]

/-- A log as a node describes it. -/
def entry (l : Log) : Json.Value :=
  .record
    [("address", .text l.token.text), ("topics", .list (l.topics.map (.text ·.text))),
     ("data", .text (Text.hexOctets l.data)), ("transactionHash", .text (Hash.ofNat 5).text),
     ("blockNumber", (l.block.map Request.quantity).getD .null), ("logIndex", .text "0x3")]

def answer : Json.Value := .list (logs.map entry)

def session : Session MockProvider :=
  { limiter := .ofDelay 100 1 1000
    node := { replies := [("eth_getLogs", { result := .ok answer, delay := 500 })] } }

def query : Range BlockNumber := ⟨0, 20⟩

theorem answers : Answers session.limiter.timeout session.node (.logs query [.ofNat 7]) answer :=
  ⟨rfl, by decide +kernel⟩

theorem listOfValue?_answer : Log.listOfValue? answer = some logs := by decide +kernel

/-- Of 100 that were minted 20 were burned. -/
theorem eighty_left :
    Answers session.limiter.timeout session.node (.logs query [.ofNat 7]) answer ∧
      Log.listOfValue? answer = some logs ∧
      ∃ legs, (ask (Question.transfers query [.ofNat 7]) session).1 = .ok legs ∧
        legs.length = 4 ∧ tokenSum (.ofNat 7) legs = 80 ∧ ∀ t ∈ legs, t.owner ≠ Address.zero := by
  obtain ⟨hfails, hlegs⟩ := transfers_conserved answers listOfValue?_answer
  have hfits : ¬ ∃ l ∈ logs, l.IsTransfer ∧ 2 ^ 255 ≤ l.value := by decide +kernel
  have hshares : (logs.flatMap Log.shares).length = 4 := by decide +kernel
  have hsupply : Log.minted (.ofNat 7) logs - Log.burned (.ofNat 7) logs = 80 := by decide +kernel
  refine ⟨answers, listOfValue?_answer, ?_⟩
  cases hask : (ask (Question.transfers query [.ofNat 7]) session).1 with
  | error fault => exact absurd (hfails.mp ⟨fault, hask⟩) hfits
  | ok legs =>
    obtain ⟨hrecorded, hsum, howner⟩ := hlegs legs hask
    refine ⟨legs, rfl, ?_, ?_, howner⟩
    · rw [← hrecorded.length_eq, hshares]
    · rw [hsum, hsupply]

end Supply
end Backfill.Rpc
