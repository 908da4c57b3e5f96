import Backfill.Proofs.Cycle.Results

/-!
# Results tile what was fetched

What was fetched for a range is cut at the blocks with transfers. Each of them is a result of its
own, once, however many transfers it has, and what lies between them comes out in gaps. So every
block of the range belongs to one result, also at the ends of the axis, and a failed record takes no
block with it but its own.

Results:
* `FetchedRange.exists_point`, `FetchedRange.eq_point_of_mem`: blocks with transfers.
* `FetchedRange.holds_results`: the blocks of all results.
* `FetchedRange.failure_iff`: which results are failures.
* `FetchedRange.results_tile`: all of it.
-/
namespace Backfill.FetchedRange

open Axis Range

section

variable {f : FetchedRange} {ts : List Transfer} {b : BlockNumber} (strict : Bool)
  (failed : List (String × BlockNumber)) (head : BlockNumber) (hts : f.transfers = some ts)

include hts

theorem exists_point (hb : b ∈ blocks ts) :
    ∃ o ∈ f.results strict failed head, o.range = Range.point b := by
  simp only [results, hts]
  exact ⟨_, List.mem_append_right _ (List.mem_map_of_mem (List.mem_map_of_mem hb)), rfl⟩

variable (hf : f.range.Valid) (hin : ∀ b ∈ blocks ts, b ∈ f.range)

include hf hin

theorem parts_results_of_some :
    Parts (· ∈ f.range) ((f.results strict failed head).map (·.range)) :=
  parts_results hf fun _ h b hb => hin b (Option.some.inj (hts.symm.trans h) ▸ hb)

/-- The results hold the blocks of the range. -/
theorem holds_results :
    Holds ((f.results strict failed head).map (·.range)) b ↔ b ∈ f.range := by
  constructor
  · rintro ⟨r, hr, hb⟩
    exact (parts_results_of_some strict failed head hts hf hin).inside r hr b (whole_block b) hb
  · intro hb
    by_cases hblock : b ∈ blocks ts
    · obtain ⟨o, ho, hpoint⟩ := exists_point strict failed head hts hblock
      exact ⟨o.range, List.mem_map_of_mem ho, hpoint ▸ mem_point.mpr rfl⟩
    · have hgap : ∃ o ∈ f.results strict failed head, o.success = true ∧ b ∈ o.range :=
        (succeeds_results hf b).mpr ⟨ts, hts, .inl ⟨hb, hblock⟩⟩
      obtain ⟨o, ho, -, hm⟩ := hgap
      exact ⟨o.range, List.mem_map_of_mem ho, hm⟩

variable {strict failed head} {o : ImportRangeResult BlockNumber}

theorem eq_point_of_mem (ho : o ∈ f.results strict failed head) (hb : b ∈ blocks ts)
    (hm : b ∈ o.range) : o.range = Range.point b := by
  have hparts := parts_results_of_some strict failed head hts hf hin
  obtain ⟨o', ho', hpoint⟩ := exists_point strict failed head hts hb
  rw [← hpoint]
  exact hparts.eq_of_mem (List.mem_map_of_mem ho) (List.mem_map_of_mem ho') (whole_block b) hm
    (hpoint ▸ mem_point.mpr rfl)

/-- A result is a failure in strict mode alone, and then if it is a block with a failed record. -/
theorem failure_iff (ho : o ∈ f.results strict failed head) :
    o.success = false ↔ strict = true ∧
      ∃ b ∈ blocks ts, o.range = Range.point b ∧ (f.product.key, b) ∈ failed := by
  constructor
  · intro hfails
    have hm : o.range.first ∈ o.range := ⟨Int.le_refl _, (results_valid hf ho).2⟩
    rcases (fails_results o.range.first).mp ⟨o, ho, hfails, hm⟩ with ⟨hnone, -⟩ | ⟨us, hus, hb, h⟩
    · rw [hts] at hnone
      cases hnone
    · obtain rfl := Option.some.inj (hts.symm.trans hus)
      exact ⟨h.1, _, hb, eq_point_of_mem hts hf hin ho hb hm, h.2⟩
  · rintro ⟨hstrict, b, hb, hpoint, hfailed⟩
    rw [← Bool.not_eq_true]
    intro hsuccess
    have hm : b ∈ o.range := hpoint ▸ mem_point.mpr rfl
    obtain ⟨us, hus, h⟩ := (succeeds_results hf b).mp ⟨o, ho, hsuccess, hm⟩
    obtain rfl := Option.some.inj (hts.symm.trans hus)
    exact h.elim (fun h => h.2 hb) fun h => h.2 ⟨hstrict, hfailed⟩

end

/-- **Tiling.** The results for a range and its transfers are valid, no two of them share a block,
and together they hold the blocks of the range. A block with transfers is a result of its own. A
result is a failure if and only if the mode is strict and it is a block with transfers of which a
record of the product failed; if records fail only in blocks with transfers, that is every result in
strict mode that holds a failed block. -/
theorem results_tile {f : FetchedRange} {ts : List Transfer} (hts : f.transfers = some ts)
    (hf : f.range.Valid) (hin : ∀ t ∈ ts, t.block ∈ f.range) (strict : Bool)
    (failed : List (String × BlockNumber)) (head : BlockNumber) :
    let found := f.results strict failed head
    (∀ o ∈ found, o.range.Valid) ∧
    found.Pairwise (fun o o' => ∀ b, b ∈ o.range → b ∉ o'.range) ∧
    (∀ b, (∃ o ∈ found, b ∈ o.range) ↔ b ∈ f.range) ∧
    (∀ t ∈ ts, (∃ o ∈ found, o.range = Range.point t.block) ∧
      ∀ o ∈ found, t.block ∈ o.range → o.range = Range.point t.block) ∧
    (∀ o ∈ found, o.success = false ↔ strict = true ∧
      ∃ t ∈ ts, o.range = Range.point t.block ∧ (f.product.key, t.block) ∈ failed) ∧
    ((∀ b ∈ f.range, (f.product.key, b) ∈ failed → ∃ t ∈ ts, t.block = b) →
      ∀ o ∈ found, o.success = false ↔
        strict = true ∧ ∃ b ∈ o.range, (f.product.key, b) ∈ failed) := by
  have hblocks : ∀ b ∈ blocks ts, b ∈ f.range := by
    intro b hb
    obtain ⟨t, ht, rfl⟩ := mem_blocks.mp hb
    exact hin t ht
  have hparts := parts_results_of_some strict failed head hts hf hblocks
  have hfails : ∀ o ∈ f.results strict failed head, o.success = false ↔ strict = true ∧
      ∃ b ∈ blocks ts, o.range = Range.point b ∧ (f.product.key, b) ∈ failed := fun o ho =>
    failure_iff hts hf hblocks ho
  have hblock : ∀ t ∈ ts, t.block ∈ blocks ts := fun t ht => mem_blocks.mpr ⟨t, ht, rfl⟩
  intro found
  refine ⟨fun o ho => (results_valid hf ho).2, ?_, fun b => ?_, fun t ht =>
    ⟨?_, ?_⟩, fun o ho => ?_,
    fun honly o ho => ?_⟩
  · exact (List.pairwise_map.mp hparts.separate).imp fun h b => h b (whole_block b)
  · rw [← holds_results strict failed head hts hf hblocks]
    simp [Holds, found]
  · exact exists_point strict failed head hts (hblock t ht)
  · exact fun o ho hm => eq_point_of_mem hts hf hblocks ho (hblock t ht) hm
  · rw [hfails o ho]
    refine and_congr_right fun _ => ⟨?_, ?_⟩
    · rintro ⟨b, hb, h⟩
      obtain ⟨t, ht, rfl⟩ := mem_blocks.mp hb
      exact ⟨t, ht, h⟩
    · rintro ⟨t, ht, h⟩
      exact ⟨t.block, hblock t ht, h⟩
  · rw [hfails o ho]
    refine and_congr_right fun _ => ⟨?_, ?_⟩
    · rintro ⟨b, -, hpoint, hfailed⟩
      exact ⟨b, hpoint ▸ mem_point.mpr rfl, hfailed⟩
    · rintro ⟨b, hm, hfailed⟩
      have hb := hparts.inside o.range (List.mem_map_of_mem ho) b (whole_block b) hm
      obtain ⟨t, ht, rfl⟩ := honly b hb hfailed
      exact ⟨t.block, hblock t ht, eq_point_of_mem hts hf hblocks ho (hblock t ht) hm, hfailed⟩

namespace AllBlocks

def product : Product :=
  { id := 7, key := "vault", chain := .fantom, shareFeed := 1, underlyingFeed := 2, retired := false
    data := .vault ⟨"vault", .ofNat 9, 18, 18⟩ }

/-- Transfers in the first two blocks of all, two of them in one, and in the last. -/
def transfers : List Transfer :=
  [⟨18446744073709551615, .ofNat 1, 0, .ofNat 9, .ofNat 5, 1⟩,
    ⟨1, .ofNat 2, 0, .ofNat 9, .ofNat 6, 1⟩, ⟨0, .ofNat 3, 0, .ofNat 9, .ofNat 6, -1⟩,
    ⟨1, .ofNat 2, 1, .ofNat 9, .ofNat 7, 2⟩]

def fetched : FetchedRange := ⟨product, ⟨0, 18446744073709551615⟩, some transfers⟩

/-- One gap and three blocks, of which the second has failed. The failed block of another product
does not count. -/
theorem results_tile_strict :
    fetched.transfers = some transfers ∧ fetched.range.Valid ∧
      (∀ t ∈ transfers, t.block ∈ fetched.range) ∧
      fetched.results true [("vault", 1), ("boost", 0)] 40 =
        [⟨"vault", ⟨2, 18446744073709551614⟩, true, 40⟩, ⟨"vault", ⟨0, 0⟩, true, 40⟩,
          ⟨"vault", ⟨1, 1⟩, false, 40⟩,
          ⟨"vault", ⟨18446744073709551615, 18446744073709551615⟩, true, 40⟩] ∧
      ∀ b, (∃ o ∈ fetched.results true [("vault", 1), ("boost", 0)] 40, b ∈ o.range) ↔
        b ∈ fetched.range := by
  have hvalid : fetched.range.Valid := by decide
  have hin : ∀ t ∈ transfers, t.block ∈ fetched.range := by
    simp only [← contains_iff]
    decide +kernel
  obtain ⟨-, -, htiled, -⟩ := results_tile rfl hvalid hin true [("vault", 1), ("boost", 0)] 40
  exact ⟨rfl, hvalid, hin, by decide +kernel, htiled⟩

end AllBlocks

end Backfill.FetchedRange
