import Backfill.Proofs.Rpc.Legs
import Backfill.Proofs.Rpc.Positions
import Backfill.Proofs.Text.Hex

/-!
# Integers that a node answers with

An integer in an answer is a hexadecimal text of any length. What is handed on of it is the integer
itself, or the call fails, with two exceptions: of the timestamp of a block and of the index of a
log only the low 64 bits are handed on, whatever lies above them.

Results:
* `latest_read`, `blockTime_read`, `number_read`: what is read in answers of one integer.
* `Log.itemOf_legs`: the integers of a leg are those of a log in the answer.
* `integers_handed_on`: the integers that questions and positions come to.
* `WideIntegers.low_bits_handed_on`: a timestamp and an index that are not handed on as they are.
-/
namespace Backfill.Rpc

open Text

variable {ν : Type} [Node ν]

/-! ## Answers of one integer -/

section Read

variable {v : Json.Value} {bits n : Nat} {block : BlockNumber}

theorem quantity?_eq_some :
    quantity? bits v = some n ↔ ∃ text, v = .text text ∧ Names text n ∧ n < 2 ^ bits := by
  cases v with
  | text s =>
    rw [quantity?, Option.filter_eq_some_iff, ofHexQuantity?_eq_some, decide_eq_true_iff]
    constructor
    · rintro ⟨hnames, hfits⟩
      exact ⟨s, rfl, hnames, hfits⟩
    · rintro ⟨text, heq, hnames, hfits⟩
      cases heq
      exact ⟨hnames, hfits⟩
  | _ => exact iff_of_false (by simp [quantity?]) (by simp)

theorem ofShape_read {α β : Type} {request : Request} {shape : Json.Value → Option α}
    {read : α → Except FetchError β} {b : β}
    (h : (Question.ofShape request shape read).read v = .ok b) :
    ∃ a, shape v = some a ∧ read a = .ok b := by
  unfold Question.ofShape at h
  dsimp only at h
  split at h
  · next a ha => exact ⟨a, ha, h⟩
  · cases h

theorem names_ofNat {text : String} (h : Names text n) (hfits : n < 2 ^ 64) :
    Names text (UInt64.ofNat n).toNat := by
  rw [UInt64.toNat_ofNat', Nat.mod_eq_of_lt hfits]
  exact h

theorem latest_read (h : Question.latest.read v = .ok block) :
    ∃ text, v = .text text ∧ Names text block.toNat := by
  obtain ⟨n, hn, hread⟩ := ofShape_read h
  obtain ⟨text, rfl, hnames, hfits⟩ := quantity?_eq_some.mp hn
  cases hread
  exact ⟨text, rfl, names_ofNat hnames hfits⟩

theorem timestamp?_eq_some (h : Question.timestamp? v = some (some n)) :
    ∃ text, v.get? "timestamp" = some (.text text) ∧ Names text n := by
  have hmember : (do return some (← quantity? 256 (← v.get? "timestamp"))) = some (some n) := by
    unfold Question.timestamp? at h
    split at h
    · cases h
    · exact h
  simp only [Option.bind_eq_bind, Option.bind_eq_some_iff, Option.pure_def, Option.some.injEq]
    at hmember
  obtain ⟨w, hget, m, hquantity, rfl⟩ := hmember
  obtain ⟨text, rfl, hnames, -⟩ := quantity?_eq_some.mp hquantity
  exact ⟨text, hget, hnames⟩

/-- The time of a block is what the low 64 bits of its timestamp say, in seconds. -/
theorem blockTime_read {time : Instant} (h : (Question.blockTime block).read v = .ok time) :
    ∃ text n, v.get? "timestamp" = some (.text text) ∧ Names text n ∧
      time.nanos = (n % 2 ^ 64 : Nat) * 1000000000 := by
  obtain ⟨seconds?, hshape, hread⟩ := ofShape_read h
  cases seconds? with
  | none => cases hread
  | some n =>
    obtain ⟨text, hget, hnames⟩ := timestamp?_eq_some hshape
    refine ⟨text, n, hget, hnames, ?_⟩
    dsimp only at hread
    split at hread
    · next time' htime =>
      cases hread
      split at htime
      · unfold Instant.ofSeconds? Instant.ofNanos? at htime
        split at htime
        · cases htime
          rfl
        · cases htime
      · cases htime
    · cases hread

theorem number_read {contract : Address} {data : List UInt8}
    (h : (Question.number contract data block).read v = .ok n) :
    ∃ text, v = .text text ∧ LeadingWord text n := by
  obtain ⟨octets, hshape, hread⟩ := ofShape_read h
  split at hread
  · next hlength =>
    cases hread
    cases v with
    | text s => exact ⟨s, rfl, leadingWord_of_ofHexData? hshape hlength⟩
    | _ => cases hshape
  · cases hread

end Read

/-! ## Logs -/

namespace Log

variable {item : Json.Value} {l : Log} {ls : List Log} {t : Transfer} {ts : List Transfer}

/-- The integers of a log are those that a node describes it with. -/
structure Described (item : Json.Value) (l : Log) : Prop where
  parsed : ofValue? item = some l
  block : ∀ b, l.block = some b →
    ∃ text, item.get? "blockNumber" = some (.text text) ∧ Names text b.toNat
  index : ∀ n, l.index = some n →
    ∃ text, item.get? "logIndex" = some (.text text) ∧ Names text n
  value : 32 ≤ l.data.length →
    ∃ text, item.get? "data" = some (.text text) ∧ LeadingWord text l.value

theorem optionalMember_eq_some {α : Type} {read : Json.Value → Option α} {v : Json.Value}
    {key : String} {a : α} (h : optionalMember read v key = some (some a)) :
    ∃ w, v.get? key = some w ∧ read w = some a := by
  unfold optionalMember at h
  split at h
  · cases h
  · cases h
  · next w _ hget =>
    obtain ⟨b, hread, hb⟩ := Option.map_eq_some_iff.mp h
    cases hb
    exact ⟨w, hget, hread⟩

theorem described_of_ofValue? (h : ofValue? item = some l) : Described item l := by
  obtain ⟨dataMember, hdata, hoctets, blockNumber, hblock, hblockEq, hindex⟩ :
      ∃ w, item.get? "data" = some w ∧ data? w = some l.data ∧
        ∃ b, optionalMember (quantity? 64) item "blockNumber" = some b ∧
          l.block = b.map UInt64.ofNat ∧
          optionalMember (quantity? 256) item "logIndex" = some l.index := by
    simp only [ofValue?, Option.bind_eq_bind, Option.bind_eq_some_iff, Option.pure_def] at h
    obtain ⟨topics, -, h⟩ := h
    split at h
    · simp only [Option.bind_eq_some_iff, Option.some.injEq] at h
      obtain ⟨_, -, _, -, _, -, w, hw, _, hdata, b, hb, _, -, _, hindex, rfl⟩ := h
      exact ⟨w, hw, hdata, b, hb, rfl, hindex⟩
    · cases h
  refine ⟨h, fun b hb => ?_, fun n hn => ?_, fun hlength => ?_⟩
  · rw [hblockEq, Option.map_eq_some_iff] at hb
    obtain ⟨n, rfl, rfl⟩ := hb
    obtain ⟨w, hget, hquantity⟩ := optionalMember_eq_some hblock
    obtain ⟨text, rfl, hnames, hfits⟩ := quantity?_eq_some.mp hquantity
    exact ⟨text, hget, names_ofNat hnames hfits⟩
  · rw [hn] at hindex
    obtain ⟨w, hget, hquantity⟩ := optionalMember_eq_some hindex
    obtain ⟨text, rfl, hnames, -⟩ := quantity?_eq_some.mp hquantity
    exact ⟨text, hget, hnames⟩
  · cases dataMember with
    | text text => exact ⟨text, hdata, leadingWord_of_ofHexData? hoctets hlength⟩
    | _ => cases hoctets

theorem described_of_listOfValue? {v : Json.Value} (h : listOfValue? v = some ls) :
    ∃ items, v = .list items ∧ ∀ l ∈ ls, ∃ item ∈ items, Described item l := by
  cases v with
  | list items =>
    refine ⟨items, rfl, ?_⟩
    have h : items.mapM ofValue? = some ls := h
    clear * - h
    induction items generalizing ls with
    | nil =>
      cases h
      exact List.forall_mem_nil _
    | cons item items ih =>
      simp only [List.mapM_cons, Option.bind_eq_bind, Option.bind_eq_some_iff, Option.pure_def,
        Option.some.injEq] at h
      obtain ⟨l, hl, rest, hrest, rfl⟩ := h
      intro l' hl'
      rcases List.mem_cons.mp hl' with rfl | hl'
      · exact ⟨item, List.mem_cons_self .., described_of_ofValue? hl⟩
      · obtain ⟨item', hitem', hdescribed⟩ := ih hrest l' hl'
        exact ⟨item', List.mem_cons_of_mem _ hitem', hdescribed⟩
  | _ => cases h

/-- A log in an answer, and a leg that has its integers: the block and the amount, which who sends
loses and who receives gains, and of the index the low 64 bits. -/
structure ItemOf (item : Json.Value) (t : Transfer) : Prop where
  block : ∃ text, item.get? "blockNumber" = some (.text text) ∧ Names text t.block.toNat
  index : ∃ text n, item.get? "logIndex" = some (.text text) ∧ Names text n ∧
    t.logIndex.toNat = n % 2 ^ 64
  amount : ∃ text n l, item.get? "data" = some (.text text) ∧ LeadingWord text n ∧
    ofValue? item = some l ∧
    (t.owner = l.sender ∧ t.amount = -(n : Int) ∨ t.owner = l.receiver ∧ t.amount = n)

theorem mem_shares {x : Share} (h : x ∈ l.shares) :
    l.IsTransfer ∧ (x = ⟨l, l.sender, -l.value⟩ ∨ x = ⟨l, l.receiver, l.value⟩) := by
  unfold shares at h
  split at h
  · next hl =>
    refine ⟨hl, ?_⟩
    simpa only [List.mem_cons, List.not_mem_nil, or_false] using List.mem_of_mem_filter h
  · cases h

theorem itemOf_of_recorded {x : Share} (hl : Described item l) (hx : x ∈ l.shares)
    (ht : x.Recorded t) : ItemOf item t := by
  obtain ⟨htransfer, hshare⟩ := mem_shares hx
  have hlog : x.log = l := by rcases hshare with rfl | rfl <;> rfl
  obtain ⟨n, hn⟩ := Option.isSome_iff_exists.mp htransfer.index
  refine ⟨?_, ?_, ?_⟩
  · exact hl.block _ (hlog ▸ ht.block)
  · obtain ⟨text, hget, hnames⟩ := hl.index n hn
    have hindex : UInt64.ofNat n = t.logIndex := by
      have := ht.index
      rw [hlog, hn] at this
      exact Option.some.inj this
    exact ⟨text, n, hget, hnames, by rw [← hindex, UInt64.toNat_ofNat']⟩
  · obtain ⟨text, hget, hword⟩ := hl.value htransfer.data
    refine ⟨text, l.value, l, hget, hword, hl.parsed, ?_⟩
    rw [ht.owner, ht.amount]
    rcases hshare with rfl | rfl
    · exact .inl ⟨rfl, rfl⟩
    · exact .inr ⟨rfl, rfl⟩

theorem not_overflows_of_allLegs (h : allLegs ls = .ok ts) : ∀ l ∈ ls, ¬ l.Overflows := by
  intro l hl ho
  obtain ⟨l', hfind⟩ := Option.isSome_iff_exists.mp
    (List.find?_isSome (p := (·.Overflows)).mpr ⟨l, hl, decide_eq_true ho⟩)
  rw [allLegs_of_overflows hfind] at h
  cases h

theorem exists_recorded {xs : List Share} (h : List.Forall₂ Share.Recorded xs ts) (ht : t ∈ ts) :
    ∃ x ∈ xs, x.Recorded t := by
  induction h with
  | nil => cases ht
  | @cons x t' xs ts hx _ ih =>
    rcases List.mem_cons.mp ht with rfl | ht
    · exact ⟨x, List.mem_cons_self .., hx⟩
    · obtain ⟨x', hx', hrecorded⟩ := ih ht
      exact ⟨x', List.mem_cons_of_mem _ hx', hrecorded⟩

/-- Every leg has the integers of a log in the answer. -/
theorem itemOf_legs {range : Range BlockNumber} {tokens : List Address} {v : Json.Value}
    (h : (Question.transfers range tokens).read v = .ok ts) :
    ∃ items, v = .list items ∧ ∀ t ∈ ts, ∃ item ∈ items, ItemOf item t := by
  obtain ⟨ls, hls, hlegs⟩ := ofShape_read h
  obtain ⟨items, rfl, hdescribed⟩ := described_of_listOfValue? hls
  refine ⟨items, rfl, fun t ht => ?_⟩
  obtain ⟨ts', hts', hrecorded⟩ := allLegs_of_fits (not_overflows_of_allLegs hlegs)
  rw [hts'] at hlegs
  cases hlegs
  obtain ⟨x, hx, hxt⟩ := exists_recorded hrecorded ht
  obtain ⟨l, hl, hx⟩ := List.mem_flatMap.mp hx
  obtain ⟨item, hitem, hitemOf⟩ := hdescribed l hl
  exact ⟨item, hitem, itemOf_of_recorded hitemOf hx hxt⟩

end Log

/-! ## Integers handed on -/

section HandedOn

variable {s s' : Session ν}

/-- A session heard the header of a block, and this time is what the low 64 bits of its timestamp
say. -/
def TimeHeard (s s' : Session ν) (block : BlockNumber) (time : Instant) : Prop :=
  ∃ v text n, s.Heard s' (.header block) v ∧ v.get? "timestamp" = some (.text text) ∧
    Names text n ∧ time.nanos = (n % 2 ^ 64 : Nat) * 1000000000

theorem timeHeard_of_learned {block : BlockNumber} {time : Instant}
    (h : s.Learned s' (Question.blockTime block) time) : TimeHeard s s' block time := by
  obtain ⟨v, hheard, hread⟩ := h
  obtain ⟨text, n, hget, hnames, htime⟩ := blockTime_read hread
  exact ⟨v, text, n, hheard, hget, hnames, htime⟩

/-- **What is handed on of an integer in an answer is the integer**, if the call does not fail: of
the highest block, of the block and the amount of a leg, and of a balance. Of the timestamp of a
block and of the index of a leg it is the low 64 bits. -/
theorem integers_handed_on :
    (∀ block, ask Question.latest s = (.ok block, s') →
      ∃ text, s.Heard s' .latest (.text text) ∧ Names text block.toNat) ∧
    (∀ block time, ask (Question.blockTime block) s = (.ok time, s') →
      TimeHeard s s' block time) ∧
    (∀ range tokens legs, ask (Question.transfers range tokens) s = (.ok legs, s') →
      ∃ items, s.Heard s' (.logs range tokens) (.list items) ∧
        ∀ t ∈ legs, ∃ item ∈ items, Log.ItemOf item t) ∧
    ∀ q pos, s.limiter.Timely s.now → fetchPosition q s = (.ok pos, s') →
      (∃ text, s.Heard s' (.call q.token (balanceOf q.owner) q.block) (.text text) ∧
        LeadingWord text pos.balance) ∧
      TimeHeard s s' q.block pos.time := by
  refine ⟨fun block h => ?_, fun block time h => timeHeard_of_learned (learned_ask h),
    fun range tokens legs h => ?_, fun q pos hs h => ?_⟩
  · obtain ⟨v, hheard, hread⟩ := learned_ask h
    obtain ⟨text, rfl, hnames⟩ := latest_read hread
    exact ⟨text, hheard, hnames⟩
  · obtain ⟨v, hheard, hread⟩ := learned_ask h
    obtain ⟨items, rfl, hitems⟩ := Log.itemOf_legs hread
    exact ⟨items, hheard, hitems⟩
  · have hposition := readPosition_fetchPosition hs h
    obtain ⟨v, hheard, hread⟩ := hposition.balance
    obtain ⟨text, rfl, hword⟩ := number_read hread
    exact ⟨⟨text, hheard, hword⟩, timeHeard_of_learned hposition.time⟩

end HandedOn

/-! ## Integers of more than 64 bits -/

namespace WideIntegers

def header : Json.Value := .record [("timestamp", .text "0x100000000000003e8")]

def log : Json.Value :=
  .record
    [("address", .text (Address.ofNat 7).text),
     ("topics", .list ((transferTopic :: [1, 2].map .ofNat).map (.text ·.text))),
     ("data", .text (Text.hexData 32 100)), ("transactionHash", .text (Hash.ofNat 5).text),
     ("blockNumber", .text "0x2a"), ("logIndex", .text "0x10000000000000003")]

def largest : Nat := 0xffffffffffffffffffffffffffffffffffffffffffffffffffffffffffffffff

def session : Session MockProvider :=
  { limiter := .ofDelay 100 1 1000
    node :=
      { replies :=
          [("eth_blockNumber", { result := .ok (.text "0xffffffffffffffff") }),
           ("eth_getBlockByNumber", { result := .ok header, delay := 300 }),
           ("eth_getLogs", { result := .ok (.list [log]) }),
           ("eth_call", { result := .ok (.text (Text.hexData 32 largest)), delay := 500 })] } }

def query : Range BlockNumber := ⟨40, 50⟩

def request : TransferDataParams :=
  { block := 77, token := .ofNat 7, tokenDecimals := 18, owner := .ofNat 1, shareRate := none }

theorem exists_ok {ε α γ : Type} {r : Except ε α} {f : α → γ} {c : γ}
    (h : r.toOption.map f = some c) : ∃ a, r = .ok a ∧ f a = c := by
  cases r with
  | error fault => cases h
  | ok a => exact ⟨a, rfl, Option.some.inj h⟩

/-- The highest block and the largest balance there can be are handed on. -/
theorem integers_handed_on_wide :
    (ask Question.latest session).1 = .ok (.ofNat (2 ^ 64 - 1)) ∧
      (∃ text, session.Heard (ask Question.latest session).2 .latest (.text text) ∧
        Names text (2 ^ 64 - 1)) ∧
      ∃ pos, (fetchPosition request session).1 = .ok pos ∧ pos.balance = largest ∧
        ∃ text, session.Heard (fetchPosition request session).2
          (.call (.ofNat 7) (balanceOf (.ofNat 1)) 77) (.text text) ∧ LeadingWord text largest := by
  have hs : session.limiter.Timely session.now := RpcLimiter.timely_ofDelay 100 1 1000
  have hlatest : (ask Question.latest session).1 = .ok (.ofNat (2 ^ 64 - 1)) := by decide +kernel
  obtain ⟨pos, hposition, hbalance⟩ :
      ∃ pos, (fetchPosition request session).1 = .ok pos ∧ pos.balance = largest :=
    exists_ok (by decide +kernel)
  have hpair : fetchPosition request session =
      (.ok pos, (fetchPosition request session).2) := Prod.ext hposition rfl
  have hheard := (integers_handed_on.2.2.2 request pos hs hpair).1
  rw [hbalance] at hheard
  exact ⟨hlatest, integers_handed_on.1 _ (Prod.ext hlatest rfl), pos, hposition, hbalance, hheard⟩

theorem heard_first {α : Type} {q : Question α} {v : Json.Value}
    (h : (Node.answer session.node q.request).1.result = .ok v) :
    session.Heard (ask q session).2 q.request v :=
  ⟨[], [], sent_ask q session, h⟩

/-- A time and an index that lie `2 ^ 64` below what the node answered. -/
theorem low_bits_handed_on :
    (session.Heard (ask (Question.blockTime 77) session).2 (.header 77) header ∧
      (∃ text, header.get? "timestamp" = some (.text text) ∧ Names text (2 ^ 64 + 1000)) ∧
      ∃ time, (ask (Question.blockTime 77) session).1 = .ok time ∧
        time.nanos = 1000 * 1000000000) ∧
    session.Heard (ask (Question.transfers query [.ofNat 7]) session).2 (.logs query [.ofNat 7])
        (.list [log]) ∧
      (∃ text, log.get? "logIndex" = some (.text text) ∧ Names text (2 ^ 64 + 3)) ∧
      ∃ legs, (ask (Question.transfers query [.ofNat 7]) session).1 = .ok legs ∧
        legs.map (·.logIndex) = [3, 3] := by
  refine ⟨⟨heard_first (q := Question.blockTime 77) rfl, ⟨_, rfl, ?_⟩,
      exists_ok (by decide +kernel)⟩,
    heard_first (q := Question.transfers query [.ofNat 7]) rfl, ⟨_, rfl, ?_⟩,
      exists_ok (by decide +kernel)⟩
  · exact ofHexQuantity?_eq_some.mp (by decide +kernel)
  · exact ofHexQuantity?_eq_some.mp (by decide +kernel)

end WideIntegers

end Backfill.Rpc
