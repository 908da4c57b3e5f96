import Backfill.Proofs.Plan.Bounds
import Backfill.Proofs.Plan.Exactness
import Backfill.Proofs.Range.Foremost
import Backfill.Proofs.Range.Holes

/-!
# No slice for nothing

Needs are fused over holes and then cut into slices without a look at what lies in them. A hole that
is filled has fewer positions than a slice, so no full slice fits into it. A slice that is not full
ends where the fused range does, and that is where some need ends. So every slice holds something
that is needed, and gets a query.

Results:
* `Range.holds_last_of_mem_mergeWithin`: where fused ranges end.
* `Range.ordered_splitAll`: slices follow one another.
* `exists_needed_of_mem_slices`: what a slice holds.
* `exists_query_of_mem_slices`: the query that a slice gets.
* `slices_needed`: all of it for blocks.
-/
namespace Backfill

open Axis

namespace Range

variable {α : Type} [Axis α] {gap len : Nat} {r t : Range α} {rs : List (Range α)}

/-- A range grows to where another one ends. -/
theorem exists_last_of_mem_fuseFrom (ht : t ∈ fuseFrom gap r rs) :
    ∃ s ∈ r :: rs, t.last = s.last := by
  induction rs generalizing r with
  | nil => exact ⟨t, ht, rfl⟩
  | cons s rs ih =>
    rw [fuseFrom] at ht
    split at ht
    · obtain ⟨u, hu, hlast⟩ := ih ht
      rcases List.mem_cons.mp hu with rfl | hu
      · dsimp only at hlast
        unfold greatest at hlast
        split at hlast
        · exact ⟨s, List.mem_cons_of_mem _ List.mem_cons_self, hlast⟩
        · exact ⟨r, List.mem_cons_self, hlast⟩
      · exact ⟨u, List.mem_cons_of_mem _ (List.mem_cons_of_mem _ hu), hlast⟩
    · rcases List.mem_cons.mp ht with rfl | ht
      · exact ⟨t, List.mem_cons_self, rfl⟩
      · obtain ⟨u, hu, hlast⟩ := ih ht
        exact ⟨u, List.mem_cons_of_mem _ hu, hlast⟩

theorem holds_last_of_mem_mergeWithin (h : ∀ r ∈ rs, r.Proper) (ht : t ∈ mergeWithin gap rs) :
    Holds rs t.last := by
  suffices hsorted : ∃ s ∈ sort rs, t.last = s.last by
    obtain ⟨s, hs, hlast⟩ := hsorted
    have hs := mem_sortBy.mp hs
    exact ⟨s, hs, hlast ▸ (h s hs).last_mem⟩
  unfold mergeWithin fuse at ht
  split at ht
  · exact absurd ht List.not_mem_nil
  · next heq => exact heq ▸ exists_last_of_mem_fuseFrom ht

/-- The pieces of spaced ranges follow one another. -/
theorem ordered_splitAll (len : Nat) (h : Spaced gap rs) :
    (splitAll len rs).Pairwise fun s t => coord s.last < coord t.first := by
  have hpieces : ∀ r ∈ rs, Foremost .ascending (· ∈ r) (split len r) := fun r hr =>
    foremost_pieces .ascending len _ (h.proper r hr)
  refine List.pairwise_flatMap.mpr ⟨fun r hr => (hpieces r hr).ordered, ?_⟩
  refine h.apart.imp_of_mem fun {r r'} hr hr' hapart s hs t ht => ?_
  have hproper := (hpieces r hr).proper s hs
  have hproper' := (hpieces r' hr').proper t ht
  have hbelow := (hpieces r hr).inside s.last hproper.last ⟨s, hs, hproper.last_mem⟩
  have habove := (hpieces r' hr').inside t.first hproper'.first ⟨t, ht, hproper'.first_mem⟩
  have hplace := (apart_iff (h.proper r hr) (h.proper r' hr')).mp hapart
  have hlt := (place_lt_place (h.proper r hr).last (h.proper r' hr').first).mp (by omega)
  exact Int.lt_of_le_of_lt hbelow.2 (Int.lt_of_lt_of_le hlt habove.1)

end Range

namespace Plan

open Range

variable {α : Type} [Axis α] {slice : Range α}

/-- A slice that is not shorter than a hole that is filled holds something that is needed. -/
theorem exists_needed_of_mem_slices {needs : List (List (Range α))} {gap span : Nat}
    (h : ∀ r ∈ needs.flatten, r.Proper) (hspan : 1 ≤ span) (hgap : gap ≤ span)
    (hs : slice ∈ slices needs gap span) : ∃ a, Whole a ∧ a ∈ slice ∧ Holds needs.flatten a := by
  obtain ⟨r, hr, hs⟩ := List.mem_flatMap.mp hs
  have hproper := (spaced_mergeWithin (max 1 gap) h).proper r hr
  have hpiece : slice ∈ pieces .ascending span r r.pieceBound := hs
  have hparts := parts_pieces .ascending span hproper r.pieceBound
  have hslice := hparts.proper slice hpiece
  rcases full_or_farEnd_of_mem_pieces hproper hpiece with hfull | hend
  · have hfirst := hparts.inside slice hpiece _ hslice.first hslice.first_mem
    rcases (holds_mergeWithin_iff h hslice.first).mp ⟨r, hr, hfirst⟩ with
      hm | ⟨p, q, hole, hlow, hhigh⟩
    · exact ⟨slice.first, hslice.first, hslice.first_mem, hm⟩
    · -- the slice begins in a hole and is long enough to reach the end of it
      have hsize := size_eq_place hslice
      have hshort := hole.short
      refine ⟨q, hole.whole_high, ?_, hole.high⟩
      rw [hslice.mem_iff hole.whole_high]
      omega
  · have hlast : slice.last = r.last := hend
    exact ⟨slice.last, hslice.last, hslice.last_mem, hlast ▸ holds_last_of_mem_mergeWithin h hr⟩

/-- Every slice of a shared plan gets a query that keeps to it. -/
theorem exists_query_of_mem_slices [Axis.Shown α] {limits : Limits} {ds : List (ProductRanges α)}
    (haccept : Acceptable limits ds) (hds : ∀ d ∈ ds, ProperRanges d) (draws : Draws)
    (hs : slice ∈ slices ((ds.map (need limits.ignoreState)).map (·.ranges)) limits.maxSpan
      limits.maxSpan) :
    ∃ q ∈ (ofShareds limits draws ds).plan.queries, ∀ a ∈ q.range, a ∈ slice := by
  have hslices := parts_slices limits hds limits.maxSpan limits.maxSpan
  obtain ⟨a, ha, hin, hneeded⟩ := exists_needed_of_mem_slices (needs_proper limits hds)
    haccept.maxSpan (Nat.le_refl _) hs
  obtain ⟨t, ⟨d, hd, ht⟩, hneed⟩ :
      ∃ t, (∃ d ∈ ds, t ∈ (need limits.ignoreState d).ranges) ∧ a ∈ t := by
    simpa [Holds] using hneeded
  -- what is needed of the slice is brought by some query, and that query is one of the slice
  obtain ⟨r, hr, har⟩ := (parts_brought_shareds draws haccept.maxProducts haccept.keys hds hd).2 a
    ha ⟨t, ht, hneed⟩
  obtain ⟨q, hq, hbrings⟩ := mem_brought.mp hr
  have hwithin := within_shared haccept hds hq
  obtain ⟨q, hshared, rfl⟩ := List.mem_map.mp hq
  obtain ⟨slice', hs', drawn, hslice⟩ := mem_shareds hshared
  have hkeeps : ∀ key r, (Query.shared q).Brings key r → ∀ a ∈ r, a ∈ slice' := by
    intro key r hb
    obtain ⟨c, hc, -, n, hn, -, hr⟩ := brings_sliceQueries hslice hb
    have hmem := mem_sortBy.mp (mem_of_mem_chunks hc hn)
    exact fun _ => (encloses_of_mem_sliceNeeds (proper_of_mem_needs limits hds)
      (hslices.proper slice' hs') hmem r hr).2.mem
  obtain rfl := hslices.eq_of_mem hs hs' ha hin (hkeeps _ _ hbrings a har)
  exact ⟨_, hq, hwithin.smallest slice hkeeps⟩

/-- **Slices.** Needs that are fused over holes shorter than a slice are cut into slices that follow
one another, keep to the length and hold every block that is needed; and each of them holds a block
that is needed. So a shared plan has a query for every slice. -/
theorem slices_needed {needs : List (List (Range BlockNumber))} {gap span : Nat}
    (h : ∀ rs ∈ needs, ∀ r ∈ rs, r.Valid) (hspan : 1 ≤ span) (hgap : gap ≤ span) :
    let found := slices needs gap span
    (∀ s ∈ found, s.Valid ∧ {b | b ∈ s}.ncard ≤ span) ∧
    found.Pairwise (fun s t => s.last < t.first) ∧
    (∀ rs ∈ needs, ∀ b, Holds rs b → Holds found b) ∧
    (∀ s ∈ found, ∃ b ∈ s, ∃ rs ∈ needs, Holds rs b) ∧
    ∀ (limits : Limits) (draws : Draws) (ds : List (ProductRanges BlockNumber)),
      check limits ds = .ok () → (∀ d ∈ ds, ∀ r ∈ d.covered ++ d.toRetry, r.Valid) →
      ∀ s ∈ slices ((ds.map (need limits.ignoreState)).map (·.ranges)) limits.maxSpan
          limits.maxSpan,
        ∃ q ∈ (ofShareds limits draws ds).plan.queries, ∀ b ∈ q.range, b ∈ s := by
  have hflat : ∀ r ∈ needs.flatten, r.Proper := by
    intro r hr
    obtain ⟨rs, hrs, hr⟩ := List.mem_flatten.mp hr
    exact proper_block.mpr (h rs hrs r hr)
  have hmerged := spaced_mergeWithin (max 1 gap) hflat
  have hparts := parts_splitAll span hmerged.parts
  intro found
  refine ⟨fun s hs => ?_, ?_, fun rs hrs b hb => ?_, fun s hs => ?_,
    fun limits draws ds hc hv => ?_⟩
  · have hvalid := (hparts.proper s hs).valid
    have hsize := size_splitAll hmerged.proper hs
    refine ⟨hvalid, ?_⟩
    rw [ncard_range hvalid]
    omega
  · refine (ordered_splitAll span hmerged).imp fun {s t} hlt => ?_
    simp only [coord_block] at hlt
    exact UInt64.lt_iff_toNat_lt.mpr (by omega)
  · refine (holds_splitAll span hmerged.proper (whole_block b)).mpr ?_
    refine holds_mergeWithin _ hflat (whole_block b) ?_
    obtain ⟨r, hr, hm⟩ := hb
    exact ⟨r, List.mem_flatten.mpr ⟨rs, hrs, hr⟩, hm⟩
  · obtain ⟨b, -, hb, r, hr, hm⟩ := exists_needed_of_mem_slices hflat hspan hgap hs
    obtain ⟨rs, hrs, hr⟩ := List.mem_flatten.mp hr
    exact ⟨b, hb, rs, hrs, r, hr, hm⟩
  · have haccept := check_eq_ok_iff.mp hc
    exact fun s hs => exists_query_of_mem_slices haccept (haccept.proper hv) draws hs

/-- The needs of two products, which leave four blocks between them, in slices of five. The second
slice begins in the hole. -/
theorem slices_needed_behind_hole :
    let needs : List (List (Range BlockNumber)) :=
      [[⟨8, 9⟩, ⟨18446744073709551614, 18446744073709551615⟩], [⟨0, 3⟩]]
    let limits : Limits :=
      { ignoreState := false, maxProducts := 2, maxSpan := 5, maxQueries := 1 }
    let ds : List (ProductRanges BlockNumber) :=
      [⟨"one", ⟨0, 9⟩, [⟨0, 7⟩], []⟩, ⟨"two", ⟨0, 3⟩, [], []⟩]
    (∀ rs ∈ needs, ∀ r ∈ rs, r.Valid) ∧ 1 ≤ 5 ∧ 5 ≤ 5 ∧
      slices needs 5 5 = [⟨0, 4⟩, ⟨5, 9⟩, ⟨18446744073709551614, 18446744073709551615⟩] ∧
      (∀ s ∈ slices needs 5 5, ∃ b ∈ s, ∃ rs ∈ needs, Holds rs b) ∧
      check limits ds = .ok () ∧ (∀ d ∈ ds, ∀ r ∈ d.covered ++ d.toRetry, r.Valid) ∧
      ∀ s ∈ [(⟨0, 4⟩ : Range BlockNumber), ⟨5, 9⟩],
        ∃ q ∈ (ofShareds limits (fun _ => 7) ds).plan.queries, ∀ b ∈ q.range, b ∈ s := by
  intro needs limits ds
  have hvalid : ∀ rs ∈ needs, ∀ r ∈ rs, r.Valid := by decide +kernel
  have haccepted : check limits ds = .ok () := by decide +kernel
  have hknown : ∀ d ∈ ds, ∀ r ∈ d.covered ++ d.toRetry, r.Valid := by decide +kernel
  have hplanned : slices ((ds.map (need limits.ignoreState)).map (·.ranges)) limits.maxSpan
      limits.maxSpan = [⟨0, 4⟩, ⟨5, 9⟩] := by decide +kernel
  obtain ⟨-, -, -, hneeded, hqueried⟩ := slices_needed hvalid (by decide : 1 ≤ 5) (Nat.le_refl 5)
  exact ⟨hvalid, by decide, Nat.le_refl 5, by decide +kernel, hneeded, haccepted, hknown,
    hplanned ▸ hqueried limits (fun _ => 7) ds haccepted hknown⟩

end Plan
end Backfill
