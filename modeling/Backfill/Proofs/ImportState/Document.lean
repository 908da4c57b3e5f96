import Backfill.ImportState.Store
import Backfill.Proofs.Json.Values
import Backfill.Proofs.Time.Text

/-!
# Import states are read as they were written

A state is written as a record of records and lists, down to positions and times. Each part is read
as it was written if its own parts are, so the state is if the positions of its axis are. The text
of one axis is no state of the other: the first position in it has another shape, and is refused.

Results:
* `Document.Faithful`: what is asked of an axis; both axes have it.
* `takes_range`, `takes_coverage`, `takes_state`: the parts of a state, and a state.
* `read_as_written`: the text of a state is read as that state, on both axes.
* `ofText_foreign`: and as no state of the other axis.
-/
namespace Backfill

open Json

/-! ## Positions -/

class Axis.Document.Faithful (α : Type) [Axis.Document α] : Prop where
  takes_write : ∀ a : α, Takes Axis.Document.read (Axis.Document.write a) a

theorem takes_count (n : UInt64) :
    Takes (integer 0 (2 ^ 64 - 1)) (.integer n.toNat) n.toNat := by
  have := n.toNat_lt
  exact takes_integer (by omega) (by omega) (by omega) (by omega)

theorem ofNat_toNat_count (n : UInt64) : UInt64.ofNat (n.toNat : Int).toNat = n := by
  rw [Int.toNat_natCast, UInt64.ofNat_toNat]

instance : Axis.Document.Faithful BlockNumber where
  takes_write b := by
    have hread := (takes_count b).map fun n => UInt64.ofNat n.toNat
    rwa [ofNat_toNat_count] at hread

instance : Axis.Document.Faithful Instant where
  takes_write t := (isScalar_text t.text).takes (Instant.ofText?_text t)

theorem refuses_instant (t : Instant) :
    Refuses (Axis.Document.read (α := BlockNumber)) (Axis.Document.write t) .mismatch :=
  Refuses.map ((isScalar_text t.text).refuses rfl) fun n : Int => UInt64.ofNat n.toNat

theorem refuses_block (b : BlockNumber) :
    Refuses (Axis.Document.read (α := Instant)) (Axis.Document.write b) .mismatch := by
  have := b.toNat_lt
  exact (isScalar_integer (n := b.toNat) (by omega) (by omega)).refuses rfl

/-! ## Up to the origin -/

section Axes

variable {α β : Type} [Axis.Document β]

/-- What has been gathered of a state before its origin. -/
def beforeOrigin (s : ImportState α) : ImportState.Draft β :=
  { key := some s.key, productId := some s.productId, chain := some s.chain }

/-- The members before the origin are read alike on both axes. -/
theorem read_before_origin (s : ImportState α) (depth : Nat) :
    Gathers (member (ImportState.fields (α := β)) depth)
      [("importKey", .text s.key), ("productId", .integer s.productId.toInt),
       ("chain", .text s.chain.name)] {} (beforeOrigin s) := by
  let key (x : String) : ImportState.Draft β := { key := some x }
  let productId (x : Int) : ImportState.Draft β :=
    { key s.key with productId := some (Int64.ofInt x) }
  let chain (x : Chain) : ImportState.Draft β :=
    { productId s.productId.toInt with chain := some x }
  have hread : Gathers (member ImportState.fields depth)
      [("importKey", .text s.key), ("productId", .integer s.productId.toInt),
       ("chain", .text s.chain.name)] {} (chain s.chain) :=
    .field rfl rfl ((takes_string s.key).map key) <|
      .field rfl rfl ((takes_signed s.productId).map productId) <|
        .field rfl rfl ((Takes.name (Chain.ofName?_name s.chain) depth).map chain) (.nil _)
  simpa only [beforeOrigin, chain, productId, key, Int64.ofInt_toInt] using hread

theorem ofText_refused [Axis.Document α] {fault : Json.Fault} (s : ImportState α)
    (h : Refuses (Axis.Document.read (α := β)) (Axis.Document.write s.origin) fault) :
    ImportState.ofText (α := β) s.text = .error fault := by
  have hvalue : s.value = .record
      ([("importKey", .text s.key), ("productId", .integer s.productId.toInt),
        ("chain", .text s.chain.name)] ++ ("origin", Axis.Document.write s.origin) ::
        [("originDatetime", ImportState.stampValue s.originTime), ("ranges", s.coverage.value)]) :=
    rfl
  rw [ImportState.ofText, ImportState.text, hvalue]
  let origin (x : β) : ImportState.Draft β := { beforeOrigin s with origin := some x }
  exact ((read_before_origin s 126).refuses rfl rfl (h.map origin)).readText

end Axes

/-! ## The parts of a state -/

section Parts

variable {α : Type} [Axis.Document α] [Axis.Document.Faithful α]

open Axis.Document.Faithful (takes_write)

theorem takes_range (r : Range α) (depth : Nat) :
    Takes (Range.reader (depth + 1)) r.value r := by
  let first (x : α) : Range.Draft α := { first := some x }
  let last (x : α) : Range.Draft α := { first r.first with last := some x }
  have hread : Gathers (member Range.fields depth)
      [("from", Axis.Document.write r.first), ("to", Axis.Document.write r.last)] {}
      (last r.last) :=
    .field rfl rfl ((takes_write r.first).map first) <|
      .field rfl rfl ((takes_write r.last).map last) (.nil _)
  exact Takes.record hread rfl

theorem takes_ranges (rs : List (Range α)) (depth : Nat) :
    Takes (list (depth + 2) Range.reader) (Value.list (rs.map Range.value)) rs :=
  Takes.list_map fun r _ => takes_range r depth

theorem takes_coverage (c : ImportRanges α) (depth : Nat) :
    Takes (ImportRanges.reader (depth + 3)) c.value c := by
  let lastImport (x : Int) : ImportRanges.Draft α := { lastImport := some (UInt64.ofNat x.toNat) }
  let covered (x : List (Range α)) : ImportRanges.Draft α :=
    { lastImport c.lastImport.toNat with covered := some x }
  let toRetry (x : List (Range α)) : ImportRanges.Draft α :=
    { covered c.covered with toRetry := some x }
  have hread : Gathers (member ImportRanges.fields (depth + 2))
      [("lastImportMs", .integer c.lastImport.toNat),
       ("coveredRanges", .list (c.covered.map Range.value)),
       ("toRetry", .list (c.toRetry.map Range.value))] {} (toRetry c.toRetry) :=
    .field rfl rfl ((takes_count c.lastImport).map lastImport) <|
      .field rfl rfl ((takes_ranges c.covered depth).map covered) <|
        .field rfl rfl ((takes_ranges c.toRetry depth).map toRetry) (.nil _)
  refine Takes.record hread ?_
  simp only [toRetry, covered, lastImport, ofNat_toNat_count]
  rfl

/-- A time that may be missing. -/
theorem takes_stamp (s : Option Stamp) :
    Takes (optional ImportState.stampReader) (ImportState.stampValue s) s := by
  cases s with
  | none => exact takes_null _
  | some s =>
    have hread : Takes ImportState.stampReader (Value.text s.text) s :=
      (isScalar_text s.text).takes (Stamp.ofText?_spell s Stamp.closes_mark)
    refine hread.optional fun bs hw b hb => ?_
    obtain ⟨more, hmore, -⟩ := quoted_read s.text
    rw [hw.of_single trivial, Value.scalarText, hmore] at hb
    rw [← Option.some.inj hb]
    decide

/-- A state is read, whatever comes after it. -/
theorem takes_state (s : ImportState α) (depth : Nat) :
    Takes (ImportState.reader (depth + 4)) s.value s := by
  let origin (x : α) : ImportState.Draft α := { beforeOrigin s with origin := some x }
  let originTime (x : Option Stamp) : ImportState.Draft α :=
    { origin s.origin with originTime := some x }
  let coverage (x : ImportRanges α) : ImportState.Draft α :=
    { originTime s.originTime with coverage := some x }
  have hread : Gathers (member ImportState.fields (depth + 3))
      [("origin", Axis.Document.write s.origin),
       ("originDatetime", ImportState.stampValue s.originTime), ("ranges", s.coverage.value)]
      (beforeOrigin s) (coverage s.coverage) :=
    .field rfl rfl ((takes_write s.origin).map origin) <|
      .field rfl rfl ((takes_stamp s.originTime).map originTime) <|
        .field rfl rfl ((takes_coverage s.coverage depth).map coverage) (.nil _)
  exact Takes.record ((read_before_origin s (depth + 3)).append hread) rfl

theorem ofText_text (s : ImportState α) : ImportState.ofText s.text = .ok s :=
  (takes_state s 123).readText

end Parts

/-! ## Whole texts -/

/-- The text of a state is read as that state. -/
theorem read_as_written :
    (∀ s : ImportState BlockNumber, ImportState.ofText s.text = .ok s) ∧
      ∀ s : ImportState Instant, ImportState.ofText s.text = .ok s :=
  ⟨ofText_text, ofText_text⟩

theorem ofText_foreign :
    (∀ s : ImportState BlockNumber, ImportState.ofText (α := Instant) s.text = .error .mismatch) ∧
      ∀ s : ImportState Instant, ImportState.ofText (α := BlockNumber) s.text = .error .mismatch :=
  ⟨fun s => ofText_refused s (refuses_block s.origin),
    fun s => ofText_refused s (refuses_instant s.origin)⟩

end Backfill
