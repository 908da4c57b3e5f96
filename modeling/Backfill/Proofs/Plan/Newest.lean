import Backfill.Proofs.Plan.Bounds
import Backfill.Proofs.Plan.Exactness
import Backfill.Proofs.Range.Foremost

/-!
# The newest positions first

A product has a budget of queries of its own. What it needs and was never asked for is cut into
pieces from above, until the budget is used up, and what is left of it goes to retries, cut the same
way. Where the cut falls does not matter: no position that could be asked for is left out above one
that is asked for. A retry is never asked for in place of a position that is new.

Results:
* `newest_firstPieces`: the first pieces from above are the newest.
* `newest_singles`: what the plan asks for on behalf of a product.
-/
namespace Backfill

open Axis

namespace Range

variable {α : Type} [Axis α] {P Q : α → Prop} {rs : List (Range α)}

/-- Proper ranges of positions that satisfy `P`, one below the other, that leave out none above one
of their own. -/
structure Newest (P : α → Prop) (rs : List (Range α)) : Prop where
  proper : ∀ r ∈ rs, r.Proper
  inside : ∀ a, Whole a → Holds rs a → P a
  descending : rs.Pairwise fun r s => coord s.last < coord r.first
  upward : ∀ a b, Whole a → Whole b → P a → Holds rs b → coord b ≤ coord a → Holds rs a

namespace Newest

theorem congr (h : Newest P rs) (hPQ : ∀ a, Whole a → (P a ↔ Q a)) : Newest Q rs where
  proper := h.proper
  inside a ha hm := (hPQ a ha).mp (h.inside a ha hm)
  descending := h.descending
  upward a b ha hb hQ := h.upward a b ha hb ((hPQ a ha).mpr hQ)

end Newest

theorem Foremost.newest (h : Foremost .descending P rs) : Newest P rs where
  proper := h.proper
  inside := h.inside
  descending := h.ordered
  upward a b ha hb hm hheld hle := h.foremost a b ha hb hm hheld (Int.not_lt.mpr hle)

theorem newest_firstPieces (h : ∀ r ∈ rs, r.Proper) (len n : Nat) :
    Newest (Holds rs) (firstPieces .descending len n rs) :=
  (foremost_firstPieces h .descending len n).newest

end Range

/-! ## On behalf of a product -/

namespace Plan

open Range

variable {α : Type} [Axis α] {limits : Limits} {d : ProductRanges α} {ds : List (ProductRanges α)}

/-- What a product needs and was never asked for. -/
def New (d : ProductRanges α) (a : α) : Prop := a ∈ d.full ∧ ¬ Holds d.covered a ∧
    ¬ Holds d.toRetry a

/-- A product gets the newest of what is new, and once it has all of that, the newest of its
retries. -/
theorem newest_piecesFor (hstate : limits.ignoreState = false) (hd : ProperRanges d) :
    ∃ fresh retries, piecesFor limits d = fresh ++ retries ∧ Newest (New d) fresh ∧
      Newest (Holds d.toRetry) retries ∧
      (retries ≠ [] → ∀ a, Whole a → New d a → Holds fresh a) ∧
      ((piecesFor limits d).length < limits.maxQueries → ∀ a, Whole a →
        New d a ∨ Holds d.toRetry a → Holds (piecesFor limits d) a) := by
  have hproper : ∀ r ∈ d.computeNeeded false, r.Proper := fresh_proper hd
  have hnew : ∀ a, Whole a → (Holds (d.computeNeeded false) a ↔ New d a) := fun a ha =>
    holds_fresh hd ha rfl
  let fresh := firstPieces .descending limits.maxSpan limits.maxQueries (d.computeNeeded false)
  let left := limits.maxQueries - fresh.length
  let retries := firstPieces .descending limits.maxSpan left d.toRetry
  have hpieces : piecesFor limits d = fresh ++ retries := by
    simp only [piecesFor, hstate, Bool.false_eq_true, if_false, fresh, retries, left]
  have hall : fresh.length < limits.maxQueries → ∀ a, Whole a → New d a → Holds fresh a :=
    fun hlt a ha hm => holds_firstPieces_of_lt hproper hlt ha ((hnew a ha).mpr hm)
  refine ⟨fresh, retries, hpieces, (newest_firstPieces hproper _ _).congr hnew,
    newest_firstPieces hd.toRetry _ left, fun hsome => hall ?_, fun hlt a ha hm => ?_⟩
  · -- retries only get what is left of the budget
    have hle : retries.length ≤ left :=
      (length_firstPieces_le hd.toRetry .descending limits.maxSpan left).1
    have hpos := List.length_pos_iff.mpr hsome
    simp only [left] at hle
    omega
  · rw [hpieces, List.length_append] at hlt
    rw [hpieces, holds_append]
    have hleft : retries.length < left := by
      simp only [left]
      omega
    exact hm.imp (hall (by omega) a ha) (holds_firstPieces_of_lt hd.toRetry hleft ha)

/-- **Newest first.** On behalf of a product whose state counts, the plan for single products asks
for pieces within the budget and the span, no two of which share a block. First come the new blocks,
the highest ones, from above: none is left out above one that is asked for. Retries come after
them, and only if no new block is left out; the highest come first again. If the budget is not used
up, nothing is left out. -/
theorem newest_singles {limits : Limits} {ds : List (ProductRanges BlockNumber)}
    {d : ProductRanges BlockNumber} (hkeys : (ds.map (·.key)).Nodup) (hd : d ∈ ds)
    (hstate : limits.ignoreState = false) (hspan : 0 < limits.maxSpan) (hfull : d.full.Valid)
    (hknown : ∀ r ∈ d.covered ++ d.toRetry, r.Valid) :
    let pieces := brought d.key (ofSingles limits ds).plan.queries
    pieces.length ≤ limits.maxQueries ∧ pieces.Pairwise Separate ∧
      (∀ r ∈ pieces, r.Valid ∧ {b | b ∈ r}.ncard ≤ limits.maxSpan) ∧
      ∃ fresh retries, pieces = fresh ++ retries ∧ Newest (New d) fresh ∧
        Newest (Holds d.toRetry) retries ∧
        (retries ≠ [] → ∀ b, New d b → Holds fresh b) ∧
        (pieces.length < limits.maxQueries → ∀ b, New d b ∨ Holds d.toRetry b →
          Holds pieces b) := by
  have hproper : ProperRanges d := {
    full := proper_block.mpr hfull
    covered := fun r hr => proper_block.mpr (hknown r (List.mem_append_left _ hr))
    toRetry := fun r hr => proper_block.mpr (hknown r (List.mem_append_right _ hr)) }
  intro pieces
  have hpieces : pieces = piecesFor limits d := brought_singles hkeys hd
  rw [hpieces]
  obtain ⟨fresh, retries, heq, hfresh, hretries, hsome, hall⟩ :=
    newest_piecesFor hstate hproper
  have hparts := parts_piecesFor limits hproper
  refine ⟨length_piecesFor_le limits hproper, hparts.separate, fun r hr => ?_, fresh, retries, heq,
    hfresh, hretries, fun h b => hsome h b (whole_block b), fun h b => hall h b (whole_block b)⟩
  have hvalid := (hparts.proper r hr).valid
  have hsize := size_piecesFor hproper hr
  refine ⟨hvalid, ?_⟩
  rw [ncard_range hvalid]
  omega

/-- Three pieces of new blocks, the last of them cut short by a covered range, and the newer of two
retries. -/
theorem newest_singles_one_retry :
    let limits : Limits :=
      { ignoreState := false, maxProducts := 1, maxSpan := 200, maxQueries := 4 }
    let d : ProductRanges BlockNumber := ⟨"a", ⟨0, 1000⟩, [⟨0, 499⟩], [⟨100, 199⟩, ⟨300, 349⟩]⟩
    let pieces := brought "a" (ofSingles limits [d]).plan.queries
    pieces = [⟨801, 1000⟩, ⟨601, 800⟩, ⟨500, 600⟩, ⟨300, 349⟩] ∧ pieces.length ≤ 4 ∧
      pieces.Pairwise Separate ∧ ∀ r ∈ pieces, r.Valid ∧ {b | b ∈ r}.ncard ≤ 200 := by
  intro limits d pieces
  have hfull : d.full.Valid := by decide +kernel
  have hknown : ∀ r ∈ d.covered ++ d.toRetry, r.Valid := by decide +kernel
  have hpieces : pieces = [⟨801, 1000⟩, ⟨601, 800⟩, ⟨500, 600⟩, ⟨300, 349⟩] := by decide +kernel
  obtain ⟨hlength, hseparate, hwithin, -⟩ := @newest_singles limits [d] d (by decide)
    (List.mem_singleton.mpr rfl) rfl (by decide) hfull hknown
  exact ⟨hpieces, hlength, hseparate, hwithin⟩

end Plan
end Backfill
