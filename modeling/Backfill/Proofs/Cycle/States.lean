import Backfill.Cycle.Runner
import Backfill.Proofs.ImportState.ImportRanges
import Backfill.Proofs.Plan.Exactness

/-!
# Import states through a cycle

A cycle touches the store twice: states are made for products that have none, and outcomes are
folded into the states of the products they are about. Both leave every other key alone, because
products with different ids have different keys.

Stores are taken as they are meant: `LawfulImportStateStore` says that a store gives back what it
was given and that a key that can be read can be changed.

Results:
* `positionsKey_inj`: products with one key have one id.
* `buildRanges_grows`, `buildRanges_opens`: the states when ranges are determined.
* `holds_need`: what a product needs of the history.
* `load_updateStates_key`, `load_updateStates`: the states when outcomes are folded.
-/
namespace Backfill

open Axis Range

/-! ## Stores -/

/-- A store that gives back what it was given, keeps keys apart, and can change whatever it can
read. -/
class LawfulImportStateStore (σ : Type) (α : outParam Type) [ImportStateStore σ α] : Prop where
  load_save : ∀ {states states' : σ} {s : ImportState α},
    ImportStateStore.save states s = .ok states' → ∀ key,
      ImportStateStore.load states' key = if s.key = key then .ok
        (some s) else ImportStateStore.load states key
  load_update : ∀ {states : σ} {key : String} {found : Option (ImportState α)},
    ImportStateStore.load states key = .ok found → ∀ change, ∃ states' : σ,
      ImportStateStore.update states key change = .ok (found.map change, states') ∧
        ∀ key', ImportStateStore.load states' key' =
          if key = key' then .ok (found.map change) else ImportStateStore.load states key'

instance (α : Type) : LawfulImportStateStore (MemoryImportStateStore α) α where
  load_save h key := by
    cases h
    simp only [ImportStateStore.load, Table.get?_put]
    split <;> rfl
  load_update {states key found} h change := by
    simp only [ImportStateStore.load, Except.ok.injEq] at h
    subst h
    simp only [ImportStateStore.update, ImportStateStore.load]
    cases hget : states.states.get? key with
    | none =>
      refine ⟨states, rfl, fun key' => ?_⟩
      split
      · next heq => rw [← heq, hget]; rfl
      · rfl
    | some s =>
      refine ⟨_, rfl, fun key' => ?_⟩
      rw [Table.get?_put]
      split <;> rfl

/-! ## Keys -/

private theorem toDigits_inj {m n : Nat} (h : Nat.toDigits 10 m = Nat.toDigits 10 n) : m = n := by
  rw [← Nat.ofDigitChars_ten_toDigits (n := m), h, Nat.ofDigitChars_ten_toDigits]

private theorem neg_not_mem_toDigits (n : Nat) : '-' ∉ Nat.toDigits 10 n := fun h =>
  absurd (Nat.isDigit_of_mem_toDigits (by decide) (by decide) h) (by decide)

theorem integerText_inj {m n : Int} (h : Json.Value.integerText m = Json.Value.integerText n) :
    m = n := by
  have h := String.ofList_injective h
  have hm := neg_not_mem_toDigits m.natAbs
  have hn := neg_not_mem_toDigits n.natAbs
  split at h <;> split at h
  · have := toDigits_inj (List.append_cancel_left h)
    omega
  · rw [List.nil_append] at h
    exact absurd (by simp [← h]) hn
  · rw [List.nil_append] at h
    exact absurd (by simp [h]) hm
  · have := toDigits_inj h
    omega

theorem Product.positionsKey_inj {p q : Product} (h : p.positionsKey = q.positionsKey) :
    p.id = q.id :=
  Int64.toInt_inj.mp (integerText_inj ((String.append_right_inj _).mp h))

theorem Product.positionsKey_eq_iff {p q : Product} :
    p.positionsKey = q.positionsKey ↔ p.id = q.id :=
  ⟨positionsKey_inj, fun h =>
    congrArg (fun id : Int64 => "product:investment:" ++ Json.Value.integerText id.toInt) h⟩

theorem Product.nodup_positionsKey {ps : List Product} (h : (ps.map (·.id)).Nodup) :
    (ps.map (·.positionsKey)).Nodup := by
  rw [List.Nodup, List.pairwise_map] at h ⊢
  exact h.imp fun hne heq => hne (positionsKey_inj heq)

/-! ## When ranges are determined -/

/-- A product's state is as it was, or made anew if there was none. -/
def Opened (p : Product) (before after : Except StoreFault (Option (ImportState BlockNumber))) :
    Prop :=
  after = before ∨ before = .ok none ∧ ∃ origin time,
    after = .ok (some (ImportState.fresh p.positionsKey p.id p.chain origin time))

section Opened

variable {p q : Product} {a b c : Except StoreFault (Option (ImportState BlockNumber))}

theorem Opened.eq_of_some {s : ImportState BlockNumber} (h : Opened p (.ok (some s)) a) :
    a = .ok (some s) := by
  rcases h with rfl | ⟨hnone, -⟩
  · rfl
  · cases hnone

theorem Opened.trans (h : Opened p a b) (h' : Opened q b c) : Opened p a c ∨ Opened q a c := by
  rcases h with rfl | ⟨rfl, origin, time, rfl⟩
  · exact .inr h'
  · exact .inl (.inr ⟨rfl, origin, time, h'.eq_of_some⟩)

end Opened

section Demands

variable {σ : Type} [ImportStateStore σ BlockNumber] [LawfulImportStateStore σ BlockNumber]
  {i : Runner} {sources : Sources} {w : RangeContext} {p : Product} {states states' : σ}
  {trace : Trace}

omit [LawfulImportStateStore σ BlockNumber] in
/-- A state is made of where its contract was created, and is stored. Or none is made, and the store
stays as it is. -/
theorem createState_cases {s? : Option (ImportState BlockNumber)}
    (h : Runner.createImportState sources p states = (s?, states', trace)) :
    s? = none ∧ states' = states ∨ ∃ origin time,
      s? = some (ImportState.fresh p.positionsKey p.id p.chain origin time) ∧
        ImportStateStore.save states (ImportState.fresh p.positionsKey p.id p.chain origin time) =
          .ok states' := by
  unfold Runner.createImportState at h
  split at h
  · cases h
    exact .inl ⟨rfl, rfl⟩
  · cases h
    exact .inl ⟨rfl, rfl⟩
  · next creation _ =>
    dsimp only at h
    split at h
    · cases h
      exact .inl ⟨rfl, rfl⟩
    · next hsave =>
      cases h
      exact .inr ⟨creation.block, some (Stamp.ofInstant creation.time), rfl, hsave⟩

theorem createState_opens {s? : Option (ImportState BlockNumber)}
    (h : Runner.createImportState sources p states = (s?, states', trace))
    (hnone : ImportStateStore.load states p.positionsKey = .ok none) :
    (∀ key, p.positionsKey ≠ key → ImportStateStore.load states' key =
      ImportStateStore.load states key) ∧
      Opened p (ImportStateStore.load states p.positionsKey)
        (ImportStateStore.load states' p.positionsKey) ∧
        ∀ s, s? = some s → ImportStateStore.load states' p.positionsKey = .ok (some s) := by
  rcases createState_cases h with ⟨rfl, rfl⟩ | ⟨origin, time, rfl, hsave⟩
  · exact ⟨fun _ _ => rfl, .inl rfl, by simp⟩
  · have hload := LawfulImportStateStore.load_save hsave
    have hown : ImportStateStore.load states' p.positionsKey =
        .ok (some (ImportState.fresh p.positionsKey p.id p.chain origin time)) := by
      rw [hload]
      exact if_pos rfl
    refine ⟨fun key hne => ?_, .inr ⟨hnone, origin, time, hown⟩, fun s hs => ?_⟩
    · rw [hload key]
      exact if_neg hne
    · cases hs
      exact hown

omit [LawfulImportStateStore σ BlockNumber] in
theorem productRanges?_made (historical : i.behaviour.mode = .historical)
    {d : ProductRanges BlockNumber} (h : (i.productRanges? sources w p states).1 = some d) :
    ∃ s, w.productRanges? p (some s) = some d := by
  unfold Runner.productRanges? at h
  split at h
  · cases h
  · next s _ => exact ⟨s, h⟩
  · rw [historical] at h
    obtain ⟨s, -, hd⟩ := Option.bind_eq_some_iff.mp h
    exact ⟨s, hd⟩

/-- A product that takes part has a state by then, and its demand is made of that. -/
theorem productRanges?_opens (historical : i.behaviour.mode = .historical)
    {d? : Option (ProductRanges BlockNumber)} (h : i.productRanges? sources w p states =
      (d?, states', trace)) :
    (∀ key, p.positionsKey ≠ key → ImportStateStore.load states' key =
      ImportStateStore.load states key) ∧
      Opened p (ImportStateStore.load states p.positionsKey)
        (ImportStateStore.load states' p.positionsKey) ∧
        ∀ d, d? = some d → ∃ s, ImportStateStore.load states' p.positionsKey = .ok (some s) ∧
          w.productRanges? p (some s) = some d := by
  unfold Runner.productRanges? at h
  split at h
  · cases h
    exact ⟨fun _ _ => rfl, .inl rfl, by simp⟩
  · next s hload =>
    cases h
    exact ⟨fun _ _ => rfl, .inl rfl, fun d hd => ⟨s, hload, hd⟩⟩
  · next hload =>
    rw [historical] at h
    cases hcreate : Runner.createImportState sources p states with
    | mk s? rest =>
      obtain ⟨made, more⟩ := rest
      simp only [hcreate] at h
      cases h
      obtain ⟨hframe, hopened, hmade⟩ := createState_opens hcreate hload
      refine ⟨hframe, hopened, fun d hd => ?_⟩
      obtain ⟨s, rfl, hd⟩ := Option.bind_eq_some_iff.mp hd
      exact ⟨s, hmade s rfl, hd⟩

variable {ps : List Product} {ds : List (ProductRanges BlockNumber)}

/-- Determining ranges opens states of the products and touches no others. Demands are made of what
is found then. -/
theorem buildRanges_grows (historical : i.behaviour.mode = .historical)
    (h : i.buildRanges sources w ps states = (ds, states', trace)) :
    (∀ key, ImportStateStore.load states' key = ImportStateStore.load states key ∨
      ∃ p ∈ ps, p.positionsKey = key ∧
        Opened p (ImportStateStore.load states key) (ImportStateStore.load states' key)) ∧
      ∀ d ∈ ds, ∃ p ∈ ps, ∃ s, ImportStateStore.load states' p.positionsKey = .ok (some s) ∧
        w.productRanges? p (some s) = some d := by
  induction ps generalizing states states' ds trace with
  | nil =>
    cases h
    exact ⟨fun _ => .inl rfl, by simp⟩
  | cons p ps ih =>
    cases hone : i.productRanges? sources w p states with
    | mk d? rest =>
      obtain ⟨states₁, trace₁⟩ := rest
      cases hmore : i.buildRanges sources w ps states₁ with
      | mk ds' rest =>
        obtain ⟨states₂, trace₂⟩ := rest
        simp only [Runner.buildRanges, hone, hmore] at h
        cases h
        obtain ⟨hframe, hopened, hmade⟩ := productRanges?_opens historical hone
        obtain ⟨hgrows, hmade'⟩ := ih hmore
        refine ⟨fun key => ?_, fun d hd => ?_⟩
        · by_cases hkey : p.positionsKey = key
          -- the other products may have the same key, but then find a state there
          · subst hkey
            rcases hgrows p.positionsKey with hsame | ⟨q, hq, heq, hagain⟩
            · exact .inr ⟨p, List.mem_cons_self .., rfl, hsame ▸ hopened⟩
            · rcases hopened.trans hagain with h | h
              · exact .inr ⟨p, List.mem_cons_self .., rfl, h⟩
              · exact .inr ⟨q, List.mem_cons_of_mem _ hq, heq, h⟩
          · rw [← hframe key hkey]
            exact (hgrows key).imp_right fun ⟨q, hq, h⟩ => ⟨q, List.mem_cons_of_mem _ hq, h⟩
        · rcases List.mem_append.mp hd with hd | hd
          · obtain ⟨s, hs, hd⟩ := hmade d (Option.mem_toList.mp hd)
            refine ⟨p, List.mem_cons_self .., s, ?_, hd⟩
            -- a state that is there is not made again
            rcases hgrows p.positionsKey with hsame | ⟨q, -, -, hagain⟩
            · exact hsame.trans hs
            · exact (hs ▸ hagain).eq_of_some
          · obtain ⟨q, hq, h⟩ := hmade' d hd
            exact ⟨q, List.mem_cons_of_mem _ hq, h⟩

theorem buildRanges_opens (historical : i.behaviour.mode = .historical)
    (hkeys : (ps.map (·.positionsKey)).Nodup)
    (h : i.buildRanges sources w ps states = (ds, states', trace)) :
    (∀ key, (∀ p ∈ ps, p.positionsKey ≠ key) →
      ImportStateStore.load states' key = ImportStateStore.load states key) ∧
      (∀ p ∈ ps, Opened p (ImportStateStore.load states p.positionsKey)
        (ImportStateStore.load states' p.positionsKey)) ∧
      ∀ d ∈ ds, ∃ p ∈ ps, ∃ s, ImportStateStore.load states' p.positionsKey = .ok (some s) ∧
        w.productRanges? p (some s) = some d := by
  obtain ⟨hgrows, hdemands⟩ := buildRanges_grows historical h
  refine ⟨fun key hne => ?_, fun p hp => ?_, hdemands⟩
  · rcases hgrows key with hsame | ⟨p, hp, heq, -⟩
    · exact hsame
    · exact absurd heq (hne p hp)
  · rcases hgrows p.positionsKey with hsame | ⟨q, hq, heq, hopened⟩
    · exact .inl hsame
    · exact List.inj_on_of_nodup_map hkeys hq hp heq ▸ hopened

omit [LawfulImportStateStore σ BlockNumber] in
theorem buildRanges_recent (recent : i.behaviour.mode = .recent) :
    (i.buildRanges sources w ps states).2.1 = states := by
  have hone : ∀ p, (i.productRanges? sources w p states).2.1 = states := by
    intro p
    simp only [Runner.productRanges?, recent]
    split <;> rfl
  induction ps with
  | nil => rfl
  | cons p ps ih => simp only [Runner.buildRanges, hone, ih]

end Demands

/-! ## What a product wants -/

theorem BlockNumber.add_of_minus? {b c : BlockNumber} {n : Nat} (h : b.minus? n = some c) :
    c.toNat + n = b.toNat := by
  unfold BlockNumber.minus? at h
  split at h
  · obtain rfl := Option.some.inj h
    have := b.toNat_lt
    rw [UInt64.toNat_ofNat']
    omega
  · cases h

namespace RangeContext

/-- The blocks that a product may ask for: settled ones, and below the window if the product leaves
that to a runner of recent blocks. -/
structure Allows (w : RangeContext) (p : Product) (b : BlockNumber) : Prop where
  settled : b.toNat + w.behaviour.unsettled ≤ w.latest.toNat
  below : w.behaviour.skipRecent.appliesTo p.retired = true →
    b.toNat + (min w.maxSpan w.blocksPerHour + 1) + w.behaviour.unsettled ≤ w.latest.toNat

variable {w : RangeContext} {p : Product} {s : ImportState BlockNumber}
  {d : ProductRanges BlockNumber}

/-- What counts as imported or failed of a state. -/
def known (w : RangeContext) (s : ImportState BlockNumber) : ImportRanges BlockNumber :=
  if w.behaviour.ignoreState then {} else s.coverage

theorem known_eq (h : w.behaviour.ignoreState = false) :
    w.known s = s.coverage := by simp [known, h]

theorem known_sound (hs : s.coverage.Sound) : (w.known s).Sound := by
  unfold known
  split
  · exact ImportRanges.sound_empty
  · exact hs

theorem known_proper (hs : s.coverage.Proper) : (w.known s).Proper := by
  unfold known
  split
  · exact ImportRanges.sound_empty.toProper
  · exact hs

theorem holds_known_toRetry {b : BlockNumber} (h : Holds (w.known s).toRetry b) :
    w.behaviour.ignoreState = false ∧ Holds s.coverage.toRetry b := by
  unfold known at h
  split at h
  · simp at h
  · next hs => exact ⟨Bool.eq_false_iff.mpr hs, h⟩

/-- The part of the history of a product is in order, and it may ask for all of it. -/
theorem historicalRange?_spec {full : Range BlockNumber} (h : w.historicalRange? p s = some full) :
    full.Valid ∧ ∀ b ∈ full, w.Allows p b := by
  simp only [historicalRange?, Option.bind_eq_bind, head?] at h
  obtain ⟨head, hhead, h⟩ := Option.bind_eq_some_iff.mp h
  have hhead := BlockNumber.add_of_minus? hhead
  split at h
  · obtain ⟨last, hlast, h⟩ := Option.bind_eq_some_iff.mp h
    have hlast := BlockNumber.add_of_minus? hlast
    obtain ⟨rfl, hvalid⟩ := between?_eq_some.mp h
    refine ⟨hvalid, fun b hb => ?_⟩
    simp only [mem_def, coord_block, windowLen] at hb hlast
    exact ⟨by omega, fun _ => by omega⟩
  · next hskip =>
    obtain ⟨rfl, hvalid⟩ := between?_eq_some.mp h
    refine ⟨hvalid, fun b hb => ?_⟩
    simp only [mem_def, coord_block] at hb
    exact ⟨by omega, fun h => absurd h hskip⟩

theorem clamped_proper {rs : List (Range BlockNumber)} {bounds : Range BlockNumber} :
    ∀ r ∈ rs.filterMap (·.clamp bounds), r.Proper := by
  intro r hr
  obtain ⟨r', -, hclamp⟩ := List.mem_filterMap.mp hr
  exact proper_block.mpr (between?_eq_some.mp hclamp).2

variable (historical : w.behaviour.mode = .historical) (h : w.productRanges? p (some s) = some d)

include historical h

/-- A product wants its part of the history, less what is covered, and what waits. Forced bounds cut
down the history and what waits, but not what is covered. -/
theorem productRanges?_eq_some :
    ∃ full, w.historicalRange? p s = some full ∧ d.key = p.key ∧ d.covered = (w.known s).covered ∧
      (w.behaviour.forced = none ∧ d.full = full ∧ d.toRetry = (w.known s).toRetry ∨
        ∃ bounds, w.behaviour.forced = some bounds ∧ full.clamp bounds = some d.full ∧
          d.toRetry = merge ((w.known s).toRetry.filterMap (·.clamp bounds))) := by
  simp only [RangeContext.productRanges?, historical, Option.bind_eq_bind, Option.pure_def] at h
  split at h
  · next hforced =>
    obtain ⟨full, hfull, h⟩ := Option.bind_eq_some_iff.mp h
    cases h
    exact ⟨full, hfull, rfl, rfl, .inl ⟨hforced, rfl, rfl⟩⟩
  · next bounds hforced =>
    obtain ⟨full, hfull, h⟩ := Option.bind_eq_some_iff.mp h
    obtain ⟨part, hpart, h⟩ := Option.bind_eq_some_iff.mp h
    cases h
    exact ⟨full, hfull, rfl, rfl, .inr ⟨bounds, hforced, hpart, rfl⟩⟩

theorem productRanges?_key : d.key = p.key := (productRanges?_eq_some historical h).choose_spec.2.1

theorem full_valid : d.full.Valid := by
  obtain ⟨full, hfull, -, -, ⟨-, heq, -⟩ | ⟨bounds, -, hclamp, -⟩⟩ :=
    productRanges?_eq_some historical h
  · exact heq ▸ (historicalRange?_spec hfull).1
  · exact (between?_eq_some.mp hclamp).2

theorem proper_of_known (hs : (w.known s).Proper) : Plan.ProperRanges d := by
  have hfull := proper_block.mpr (full_valid historical h)
  obtain ⟨_, -, -, hcovered, hrest⟩ := productRanges?_eq_some historical h
  have hcovered' : ∀ r ∈ d.covered, r.Proper := hcovered ▸ hs.covered
  rcases hrest with ⟨-, -, htoRetry⟩ | ⟨bounds, -, -, htoRetry⟩
  · exact ⟨hfull, hcovered', htoRetry ▸ hs.toRetry⟩
  · exact ⟨hfull, hcovered', htoRetry ▸ (normal_merge clamped_proper).proper⟩

theorem proper_demand (hs : s.coverage.Sound) : Plan.ProperRanges d :=
  proper_of_known historical h (known_sound hs).toProper

theorem allows_of_mem_full {b : BlockNumber} (hb : b ∈ d.full) : w.Allows p b := by
  obtain ⟨full, hfull, -, -, ⟨-, heq, -⟩ | ⟨bounds, -, hclamp, -⟩⟩ :=
    productRanges?_eq_some historical h
  · exact (historicalRange?_spec hfull).2 b (heq ▸ hb)
  · exact (historicalRange?_spec hfull).2 b ((mem_clamp hclamp b).mp hb).1

theorem holds_of_holds_toRetry {b : BlockNumber} (hb : Holds d.toRetry b) :
    Holds (w.known s).toRetry b := by
  obtain ⟨full, -, -, -, ⟨-, -, htoRetry⟩ | ⟨bounds, -, -, htoRetry⟩⟩ :=
    productRanges?_eq_some historical h
  · exact htoRetry ▸ hb
  · rw [htoRetry, holds_merge clamped_proper (whole_block b)] at hb
    obtain ⟨r, hr, hb⟩ := hb
    obtain ⟨r', hr', hclamp⟩ := List.mem_filterMap.mp hr
    exact ⟨r', hr', ((mem_clamp hclamp b).mp hb).1⟩

/-- What a product needs it may ask for, or it waits; and it is not covered unless states are
ignored. -/
theorem holds_need (hs : s.coverage.Sound) {b : BlockNumber}
    (hb : Holds (Plan.need w.behaviour.ignoreState d).ranges b) :
    (w.Allows p b ∨ w.behaviour.ignoreState = false ∧ Holds s.coverage.toRetry b) ∧
      (w.behaviour.ignoreState = false → ¬ Holds s.coverage.covered b) := by
  have hd := proper_demand historical h hs
  have hretry : Holds d.toRetry b → w.behaviour.ignoreState = false ∧ Holds s.coverage.toRetry b :=
    fun hb => holds_known_toRetry (holds_of_holds_toRetry historical h hb)
  rcases (Plan.holds_need hd (whole_block b)).mp hb with hfresh | ⟨-, hb⟩
  · cases hignore : w.behaviour.ignoreState with
    | true =>
      rw [hignore] at hfresh
      exact ⟨.inl (allows_of_mem_full historical h
        (by simpa [ProductRanges.computeNeeded] using hfresh)), nofun⟩
    | false =>
      rw [hignore] at hfresh
      obtain ⟨hfull, hcovered, -⟩ := (Plan.holds_fresh hd (whole_block b) rfl).mp hfresh
      refine ⟨.inl (allows_of_mem_full historical h hfull), fun _ => ?_⟩
      obtain ⟨-, -, -, heq, -⟩ := productRanges?_eq_some historical h
      rwa [heq, known_eq hignore] at hcovered
  · exact ⟨.inr (hretry hb), fun _ hcovered =>
      hs.disjoint b (whole_block b) hcovered (hretry hb).2⟩

end RangeContext

/-! ## When outcomes are folded -/

namespace Cycle

variable {σ : Type} [ImportStateStore σ BlockNumber] [LawfulImportStateStore σ BlockNumber]
  {results : List (ImportRangeResult BlockNumber)} {ps : List Product} {states : σ}

def outcomesAt (results : List (ImportRangeResult BlockNumber)) (ps : List Product) (key : String) :
    List (RangeOutcome BlockNumber) :=
  (ps.filter (·.positionsKey = key)).flatMap fun p => outcomesOf p.key results

theorem outcomesAt_of_none {key : String} (h : ∀ p ∈ ps, p.positionsKey ≠ key) :
    outcomesAt results ps key = [] := by
  have hnone : ps.filter (·.positionsKey = key) = [] :=
    List.filter_eq_nil_iff.mpr fun p hp => by simpa using h p hp
  rw [outcomesAt, hnone, List.flatMap_nil]

theorem outcomesAt_nil (ps : List Product) (key : String) : outcomesAt [] ps key = [] :=
  List.flatMap_eq_nil_iff.mpr fun _ _ => rfl

theorem outcomesAt_of_mem (hkeys : (ps.map (·.positionsKey)).Nodup) {p : Product} (hp : p ∈ ps) :
    outcomesAt results ps p.positionsKey = outcomesOf p.key results := by
  rw [outcomesAt, Plan.filter_key hkeys hp, List.flatMap_singleton]

section Found

variable (now : UInt64) (found : Except StoreFault (Option (ImportState BlockNumber)))
  (os os' : List (RangeOutcome BlockNumber))

theorem map_applyResults_nil :
    found.map (Option.map (ImportState.applyResults now · [])) = found := by
  rcases found with e | none | s <;> rfl

theorem map_applyResults_append :
    (found.map (Option.map (ImportState.applyResults now · os))).map
        (Option.map (ImportState.applyResults now · os')) =
      found.map (Option.map (ImportState.applyResults now · (os ++ os'))) := by
  rcases found with e | none | s
  · rfl
  · rfl
  · simp [Except.map, ImportState.applyResults, ImportRanges.applyResults]

end Found

/-- Folding applies to each state the outcomes at its key. -/
theorem load_updateStates_key (now : UInt64)
    (hloaded : ∀ p ∈ ps, outcomesOf p.key results ≠ [] →
      ∃ found, ImportStateStore.load states p.positionsKey = .ok found) (key : String) :
    ImportStateStore.load (updateStates now Product.positionsKey results ps states).1 key =
      (ImportStateStore.load states key).map
        (Option.map (ImportState.applyResults now · (outcomesAt results ps key))) := by
  induction ps generalizing states with
  | nil => exact (map_applyResults_nil now _).symm
  | cons p ps ih =>
    rw [List.forall_mem_cons] at hloaded
    -- one product's step changes its own key only
    obtain ⟨states₁, hstep, hload⟩ : ∃ states₁ : σ,
        (updateStates now Product.positionsKey results (p :: ps) states).1 =
          (updateStates now Product.positionsKey results ps states₁).1 ∧
        ∀ key, ImportStateStore.load states₁ key =
          if p.positionsKey = key then (ImportStateStore.load states key).map
            (Option.map (ImportState.applyResults now · (outcomesOf p.key results)))
          else ImportStateStore.load states key := by
      rw [updateStates]
      cases hout : outcomesOf p.key results with
      | nil => exact ⟨states, rfl, fun key => by rw [map_applyResults_nil, ite_self]⟩
      | cons o os =>
        obtain ⟨found, hfound⟩ := hloaded.1 (by simp [hout])
        obtain ⟨states₁, hupdate, hload⟩ :=
          LawfulImportStateStore.load_update hfound (ImportState.applyResults now · (o :: os))
        refine ⟨states₁, by simp only [hupdate], fun key => ?_⟩
        rw [hload]
        split
        · next heq => rw [← heq, hfound]; rfl
        · rfl
    have hloaded' : ∀ q ∈ ps, outcomesOf q.key results ≠ [] →
        ∃ found, ImportStateStore.load states₁ q.positionsKey = .ok found := by
      intro q hq hne
      obtain ⟨found, hfound⟩ := hloaded.2 q hq hne
      rw [hload, hfound]
      split
      · exact ⟨_, rfl⟩
      · exact ⟨found, rfl⟩
    rw [hstep, ih hloaded', hload, outcomesAt, outcomesAt, List.filter_cons]
    by_cases hkey : p.positionsKey = key
    · simp only [hkey, decide_true, if_true, List.flatMap_cons]
      exact map_applyResults_append now _ _ _
    · simp only [hkey, decide_false, if_false, Bool.false_eq_true]

theorem load_updateStates (now : UInt64) (hkeys : (ps.map (·.positionsKey)).Nodup)
    (hloaded : ∀ p ∈ ps, outcomesOf p.key results ≠ [] →
      ∃ found, ImportStateStore.load states p.positionsKey = .ok found) :
    let states' := (updateStates now Product.positionsKey results ps states).1
    (∀ key, (∀ p ∈ ps, p.positionsKey ≠ key) →
      ImportStateStore.load states' key = ImportStateStore.load states key) ∧
      ∀ p ∈ ps, ImportStateStore.load states' p.positionsKey =
        (ImportStateStore.load states p.positionsKey).map
          (Option.map (ImportState.applyResults now · (outcomesOf p.key results))) := by
  refine ⟨fun key hne => ?_, fun p hp => ?_⟩
  · rw [load_updateStates_key now hloaded, outcomesAt_of_none hne, map_applyResults_nil]
  · rw [load_updateStates_key now hloaded, outcomesAt_of_mem hkeys hp]

end Cycle

end Backfill
