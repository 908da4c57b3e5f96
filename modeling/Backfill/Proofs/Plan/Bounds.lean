import Backfill.Proofs.Plan.Targets
import Backfill.Proofs.Range.Counts

/-!
# The limits of a plan

Queries for single products are pieces, which keep to a length and to a budget for each product.
Shared queries have no budget of their own: each lies in a slice and is made of a chunk, and there
are too many of them only where the plan for single products is taken instead.

Results:
* `within_single`, `within_shared`: a query of either kind keeps to the limits of the node.
* `length_singles_le`: how many queries the products get for themselves.
* `choose_within`: both for the plan chosen.
-/
namespace Backfill.Plan

open Axis Range

variable {α : Type} [Axis α] {limits : Limits}

/-- A query that a node answers: over few enough positions, none of them for nothing at either end,
and for few enough products, each once and with something to bring. -/
structure Query.Within (limits : Limits) (q : Query α) : Prop where
  valid : q.range.Valid
  span : q.range.size < limits.maxSpan
  holds : ∀ key r, q.Brings key r → ∀ a ∈ r, a ∈ q.range
  smallest : ∀ s : Range α, (∀ key r, q.Brings key r → ∀ a ∈ r, a ∈ s) → ∀ a ∈ q.range, a ∈ s
  ordered : q.keys = q.targets.map (·.key)
  distinct : q.keys.Nodup
  served : ∀ key ∈ q.keys, ∃ r, q.Brings key r
  some : q.keys ≠ []
  products : q.keys.length ≤ limits.maxProducts

/-! ## Queries for single products -/

section Single

variable {d : ProductRanges α} {ds : List (ProductRanges α)} {r : Range α}

theorem size_piecesFor (hd : ProperRanges d) (hr : r ∈ piecesFor limits d) :
    r.size ≤ limits.maxSpan - 1 := by
  have hfresh : ∀ s ∈ d.computeNeeded limits.ignoreState, s.Proper := fresh_proper hd
  unfold piecesFor at hr
  split at hr
  · exact size_firstPieces hfresh hr
  · rcases List.mem_append.mp hr with hr | hr
    · exact size_firstPieces hfresh hr
    · exact size_firstPieces hd.toRetry hr

/-- Retries only take what fresh pieces leave of the budget. -/
theorem length_piecesFor_le (limits : Limits) (hd : ProperRanges d) :
    (piecesFor limits d).length ≤ limits.maxQueries := by
  have hfresh : ∀ s ∈ d.computeNeeded limits.ignoreState, s.Proper := fresh_proper hd
  have hfirst := (length_firstPieces_le hfresh .descending limits.maxSpan limits.maxQueries).1
  unfold piecesFor
  split
  · exact hfirst
  · rw [List.length_append]
    have hretry := (length_firstPieces_le hd.toRetry .descending limits.maxSpan
      (limits.maxQueries - (firstPieces .descending limits.maxSpan limits.maxQueries
        (d.computeNeeded limits.ignoreState)).length)).1
    omega

theorem length_singles_le (limits : Limits) (hds : ∀ d ∈ ds, ProperRanges d) :
    (singles limits ds).length ≤ ds.length * limits.maxQueries := by
  induction ds with
  | nil => simp [singles]
  | cons d ds ih =>
    rw [List.forall_mem_cons] at hds
    have hhead := length_piecesFor_le limits hds.1
    have hrest := ih hds.2
    rw [singles, List.flatMap_cons, List.length_append, List.length_map, ← singles,
      List.length_cons, Nat.succ_mul]
    omega

theorem within_single (haccept : Acceptable limits ds) (hds : ∀ d ∈ ds, ProperRanges d)
    {q : Single α} (hq : q ∈ singles limits ds) : (Query.single q).Within limits := by
  obtain ⟨d, hd, -, hr⟩ := mem_singles.mp hq
  have hproper := (parts_piecesFor limits (hds d hd)).proper _ hr
  have hsize := size_piecesFor (hds d hd) hr
  have hspan := haccept.maxSpan
  have hown : (Query.single q).Brings q.key q.range := brings_single.mpr ⟨rfl, rfl⟩
  exact {
    valid := hproper.valid
    span := by
      simp only [Query.range]
      omega
    holds := by
      intro key r hb a ha
      rwa [(brings_single.mp hb).2] at ha
    smallest := fun s hs => hs q.key q.range hown
    ordered := rfl
    distinct := List.nodup_singleton _
    served := fun key hk => ⟨q.range, List.mem_singleton.mp hk ▸ hown⟩
    some := List.cons_ne_nil _ _
    products := haccept.maxProducts }

end Single

/-! ## Queries shared by products -/

section Shared

variable {draws : Draws} {slice : Range α} {needs : List (Need α)} {drawn : Nat}

/-- What is needed of a slice lies in it. -/
theorem encloses_of_mem_sliceNeeds (hneeds : ∀ m ∈ needs, ∀ r ∈ m.ranges, r.Proper)
    (hslice : slice.Proper) {n : SliceNeed α} (hn : n ∈ (sliceNeeds draws slice needs drawn).1) :
    ∀ r ∈ n.ranges, r.Valid ∧ slice.Encloses r := by
  obtain ⟨-, m, hm, -, hranges⟩ := mem_sliceNeeds hn
  have hone : ∀ s ∈ [slice], s.Proper := fun s hs => List.mem_singleton.mp hs ▸ hslice
  intro r hr
  rw [hranges] at hr
  have hproper := (normal_intersect (hneeds m hm) hone).proper r hr
  have hin : ∀ a, Whole a → a ∈ r → a ∈ slice := fun a ha har => by
    simpa using ((holds_intersect (hneeds m hm) hone ha).mp ⟨r, hr, har⟩).2
  exact ⟨hproper.valid, (hin _ hproper.first hproper.first_mem).1,
    (hin _ hproper.last hproper.last_mem).2⟩

/-- A query of a slice spans no more than the slice, and names the products of one chunk. -/
theorem within_sliceQuery (hkeys : (needs.map (·.key)).Nodup)
    (hneeds : ∀ m ∈ needs, ∀ r ∈ m.ranges, r.Proper) (hslice : slice.Proper)
    (hsize : slice.size < limits.maxSpan) {q : Shared α}
    (hq : q ∈ sliceQueries limits (sliceNeeds draws slice needs drawn).1) :
    (Query.shared q).Within limits := by
  obtain ⟨c, hc, hq⟩ := List.mem_filterMap.mp hq
  obtain ⟨range, hcover, rfl⟩ := Option.map_eq_some_iff.mp hq
  have hmem : ∀ n ∈ c, n ∈ (sliceNeeds draws slice needs drawn).1 :=
    fun n hn => mem_sortBy.mp (mem_of_mem_chunks hc hn)
  have hranges : ∀ r ∈ c.flatMap (·.ranges), r.Valid ∧ slice.Encloses r := by
    intro r hr
    obtain ⟨n, hn, hr⟩ := List.mem_flatMap.mp hr
    exact encloses_of_mem_sliceNeeds hneeds hslice (hmem n hn) r hr
  have hencloses := (encloses_cover hcover range).mp (.refl range)
  have hin : slice.Encloses range :=
    (encloses_cover hcover slice).mpr fun r hr => (hranges r hr).2
  -- a cover is that of some range, and the query brings just what it covers
  obtain ⟨r₀, hr₀⟩ : ∃ r, r ∈ c.flatMap (·.ranges) := by
    refine List.exists_mem_of_ne_nil _ fun hnil => ?_
    rw [hnil] at hcover
    cases hcover
  have hbrings : ∀ r, (∃ key, Query.Brings (.shared ⟨c.map (·.key), range, c.map fun n =>
      ⟨n.key, n.ranges⟩⟩) key r) ↔ r ∈ c.flatMap (·.ranges) := by
    intro r
    simp [Query.Brings, Query.targets]
  have hvalid := (hencloses r₀ hr₀).valid (hranges r₀ hr₀).1
  exact {
    valid := hvalid
    span := Nat.lt_of_le_of_lt hin.size_le hsize
    holds := fun key r hb a ha => (hencloses r ((hbrings r).mp ⟨key, hb⟩)).mem ha
    smallest := by
      intro s hs a ha
      refine ((encloses_cover hcover s).mpr fun r hr => ?_).mem ha
      obtain ⟨key, hb⟩ := (hbrings r).mpr hr
      exact .of_mem (hranges r hr).1 (hs key r hb)
    ordered := by simp [Query.keys, Query.targets, Function.comp_def]
    distinct := by
      have hranked : ((byRank (sliceNeeds draws slice needs drawn).1).map (·.key)).Nodup :=
        ((sortBy_perm _ _).map _).nodup_iff.mpr ((keys_sliceNeeds ..).nodup hkeys)
      exact ((sublist_of_mem_chunks hc).map _).nodup hranked
    served := by
      intro key hk
      obtain ⟨n, hn, rfl⟩ := List.mem_map.mp hk
      obtain ⟨r, hr⟩ := List.exists_mem_of_ne_nil _ (mem_sliceNeeds (hmem n hn)).1
      exact ⟨r, ⟨n.key, n.ranges⟩, List.mem_map_of_mem hn, rfl, hr⟩
    some := by
      obtain ⟨n, hn, -⟩ := List.mem_flatMap.mp hr₀
      exact List.ne_nil_of_mem (List.mem_map_of_mem hn)
    products := by
      rw [Query.keys, List.length_map]
      exact length_le_of_mem_chunks hc }

theorem within_shared {ds : List (ProductRanges α)} (haccept : Acceptable limits ds)
    (hds : ∀ d ∈ ds, ProperRanges d) {q : Query α}
    (hq : q ∈ (ofShareds limits draws ds).plan.queries) : q.Within limits := by
  obtain ⟨s, hs, rfl⟩ := List.mem_map.mp hq
  obtain ⟨slice, hslice, drawn, hs⟩ := mem_shareds hs
  have hproper := (parts_slices limits hds limits.maxSpan limits.maxSpan).proper slice hslice
  have hmerged := (spaced_mergeWithin (max 1 limits.maxSpan) (needs_proper limits hds)).proper
  have hsize := size_splitAll hmerged hslice
  have hspan := haccept.maxSpan
  have hkeys : ((ds.map (need limits.ignoreState)).map (·.key)).Nodup := by
    rw [keys_needs]
    exact haccept.keys
  exact within_sliceQuery hkeys (proper_of_mem_needs limits hds) hproper (by omega) hs

end Shared

/-! ## The plan chosen -/

section Choose

variable [Axis.Shown α] {draws : Draws} {ds : List (ProductRanges α)}

omit [Axis α] [Axis.Shown α] in
theorem length_better_le (single shared : Candidate α) :
    (better single shared).plan.length ≤ single.plan.length := by
  unfold better
  split
  · split <;> omega
  · split <;> omega

theorem within_choose (draws : Draws) (haccept : Acceptable limits ds)
    (hds : ∀ d ∈ ds, ProperRanges d) :
    ∃ plan, choose limits draws ds = .ok plan ∧ (∀ q ∈ plan.queries, q.Within limits) ∧
      plan.length ≤ ds.length * limits.maxQueries := by
  have hsingles := length_singles_le limits hds
  have hchoose : choose limits draws ds = .ok _ := choose_of_check (check_eq_ok_iff.mpr haccept)
  refine ⟨_, hchoose, fun q hq => ?_, ?_⟩
  · rcases (choose_eq_ok hchoose).2 with heq | heq
    · rw [heq] at hq
      obtain ⟨s, hs, rfl⟩ := List.mem_map.mp hq
      exact within_single haccept hds hs
    · rw [heq] at hq
      exact within_shared haccept hds hq
  · split
    · exact hsingles
    · exact Nat.le_trans (length_better_le _ _) hsingles

/-- **Limits.** Whatever is acceptable gets a plan that the node answers: every query is over the
smallest range that holds what it brings, of at most as many blocks as allowed, and names at most as
many products as allowed, each once and in the order of its targets. There are no more queries than
all products may get for themselves. -/
theorem choose_within {limits : Limits} {ds : List (ProductRanges BlockNumber)}
    (accepted : check limits ds = .ok ())
    (valid : ∀ d ∈ ds, ∀ r ∈ d.covered ++ d.toRetry, r.Valid) (draws : Draws) :
    ∃ plan, choose limits draws ds = .ok plan ∧
      (∀ q ∈ plan.queries, q.Within limits ∧ {b | b ∈ q.range}.ncard ≤ limits.maxSpan) ∧
      plan.length ≤ ds.length * limits.maxQueries := by
  have haccept := check_eq_ok_iff.mp accepted
  have hds : ∀ d ∈ ds, ProperRanges d := haccept.proper valid
  obtain ⟨plan, hplan, hwithin, hlength⟩ := within_choose draws haccept hds
  refine ⟨plan, hplan, fun q hq => ⟨hwithin q hq, ?_⟩, hlength⟩
  rw [ncard_range (hwithin q hq).valid]
  exact (hwithin q hq).span

/-- Two products in three slices, with an old retry and an imported range. Alone they would take
four queries. -/
theorem choose_within_sliced :
    let limits : Limits :=
      { ignoreState := false, maxProducts := 2, maxSpan := 100, maxQueries := 2 }
    let ds : List (ProductRanges BlockNumber) :=
      [⟨"one", ⟨0, 150⟩, [⟨20, 99⟩], [⟨10, 12⟩]⟩, ⟨"two", ⟨100, 250⟩, [], []⟩]
    check limits ds = .ok () ∧ (∀ d ∈ ds, ∀ r ∈ d.covered ++ d.toRetry, r.Valid) ∧
      ∃ plan, choose limits (fun _ => 7) ds = .ok plan ∧
        plan.queries.map (·.range) = [⟨0, 19⟩, ⟨100, 199⟩, ⟨200, 250⟩] ∧
        plan.queries.map (·.keys) = [["one"], ["two", "one"], ["two"]] ∧
        (∀ q ∈ plan.queries, q.Within limits ∧ {b | b ∈ q.range}.ncard ≤ 100) ∧
        plan.length ≤ 2 * 2 := by
  intro limits ds
  have haccepted : check limits ds = .ok () := by decide +kernel
  have hvalid : ∀ d ∈ ds, ∀ r ∈ d.covered ++ d.toRetry, r.Valid := by decide +kernel
  have hchosen : choose limits (fun _ => 7) ds = .ok (.addressBatch [
      ⟨["one"], ⟨0, 19⟩, [⟨"one", [⟨0, 19⟩]⟩]⟩,
      ⟨["two", "one"], ⟨100, 199⟩, [⟨"two", [⟨100, 199⟩]⟩, ⟨"one", [⟨100, 150⟩]⟩]⟩,
      ⟨["two"], ⟨200, 250⟩, [⟨"two", [⟨200, 250⟩]⟩]⟩]) := by decide +kernel
  obtain ⟨plan, hplan, hwithin, hlength⟩ := choose_within haccepted hvalid (fun _ => 7)
  obtain rfl := Except.ok.inj (hplan.symm.trans hchosen)
  exact ⟨haccepted, hvalid, _, hplan, rfl, rfl, hwithin, hlength⟩

end Choose

end Backfill.Plan
