import Mathlib.Data.List.Perm.Basic
import Backfill.Proofs.Plan.Exactness
import Backfill.Proofs.Range.Counts

/-!
# The order of the demands and the draws

Draws, and the order in which the demands come, decide which products meet in a query. What the
plans are compared by does not depend on that: a slice takes as many queries as hold the products
that need some of it, and the sizes of all targets together, even if their sum wraps around, are
those of what each product is brought. So the same kind of plan is chosen for every order and all
draws.

Results:
* `length_shareds`: how many queries a shared plan takes.
* `targetRanges_perm`: what a plan brings altogether is what it brings each product.
* `choose_alike`: plans for the same demands differ only in which products share a query.
-/
namespace Backfill.Plan

open Axis Range

variable {α : Type} [Axis α] {limits : Limits}

-- sums begin with the zero of the core library
attribute [local instance(high)] Zero.ofOfNat0

/-! ## How many queries -/

section Chunks

variable {β : Type} {size fuel : Nat} {xs : List β}

private theorem length_chunks_go (hsize : 0 < size) (hfuel : xs.length ≤ fuel) :
    (chunks.go size fuel xs).length = (xs.length + (size - 1)) / size := by
  fun_induction chunks.go size fuel xs with
  | case1 xs =>
    have hnil : xs.length = 0 := by omega
    rw [hnil, Nat.zero_add, Nat.div_eq_of_lt (by omega), List.length_nil]
  | case2 =>
    rw [List.length_nil, List.length_nil, Nat.zero_add, Nat.div_eq_of_lt (by omega)]
  | case3 fuel x xs ih =>
    rw [List.length_cons] at hfuel
    have hdrop : ((x :: xs).drop size).length = xs.length + 1 - size := List.length_drop
    rw [List.length_cons, List.length_cons, ih (by omega), hdrop]
    by_cases hone : xs.length + 1 ≤ size
    · -- the list is its only chunk
      rw [Nat.sub_eq_zero_of_le hone, Nat.zero_add, Nat.div_eq_of_lt (by omega : size - 1 < size)]
      exact (Nat.div_eq_of_lt_le (by omega) (by omega)).symm
    · rw [← Nat.add_div_right _ hsize]
      congr 1
      omega

theorem length_chunks (hsize : 0 < size) (xs : List β) :
    (chunks size xs).length = (xs.length + (size - 1)) / size :=
  length_chunks_go hsize (Nat.le_refl _)

theorem ne_nil_of_mem_chunks (hsize : 0 < size) {c : List β} (hc : c ∈ chunks size xs) :
    c ≠ [] := by
  unfold chunks at hc
  generalize xs.length = fuel at hc
  fun_induction chunks.go size fuel xs with
  | case1 => exact absurd hc (by simp)
  | case2 => exact absurd hc (by simp)
  | case3 fuel x xs ih =>
    rcases List.mem_cons.mp hc with rfl | hc
    · simp
      omega
    · exact ih hc

end Chunks

section Counts

variable {draws : Draws} {slice : Range α} {needs : List (Need α)} {drawn : Nat}

theorem length_sliceNeeds :
    (sliceNeeds draws slice needs drawn).1.length =
      needs.countP fun m => !(intersect m.ranges [slice]).isEmpty := by
  induction needs generalizing drawn with
  | nil => rfl
  | cons m needs ih =>
    unfold sliceNeeds
    split
    · next hnone => rw [ih, List.countP_cons_of_neg (by simp [hnone])]
    · next hsome => rw [List.length_cons, ih, List.countP_cons_of_pos (by simpa using hsome)]

/-- Every chunk of a slice makes a query, because each product in it needs something. -/
theorem length_sliceQueries (hmax : 0 < limits.maxProducts) :
    (sliceQueries limits (sliceNeeds draws slice needs drawn).1).length =
      ((needs.countP fun m => !(intersect m.ranges [slice]).isEmpty) + (limits.maxProducts - 1)) /
        limits.maxProducts := by
  have hall : ∀ c ∈ chunks limits.maxProducts (byRank (sliceNeeds draws slice needs drawn).1),
      (queryFor? c).isSome := by
    intro c hc
    obtain ⟨n, hn⟩ := List.exists_mem_of_ne_nil c (ne_nil_of_mem_chunks hmax hc)
    have hne := (mem_sliceNeeds (mem_sortBy.mp (mem_of_mem_chunks hc hn))).1
    have hranges : c.flatMap (·.ranges) ≠ [] := fun h => hne (List.flatMap_eq_nil_iff.mp h n hn)
    rw [queryFor?, Option.isSome_map, Option.isSome_iff_ne_none]
    exact fun h => hranges (cover_eq_none.mp h)
  rw [sliceQueries, List.length_filterMap_eq_countP, List.countP_eq_length.mpr hall,
    length_chunks hmax, byRank, length_sortBy, length_sliceNeeds]

theorem length_shareds (hmax : 0 < limits.maxProducts) (ss : List (Range α)) :
    (shareds limits draws needs ss drawn).length =
      (ss.map fun s => ((needs.countP fun m => !(intersect m.ranges [s]).isEmpty) +
        (limits.maxProducts - 1)) / limits.maxProducts).sum := by
  induction ss generalizing drawn with
  | nil => rfl
  | cons s ss ih =>
    rw [shareds, List.length_append, length_sliceQueries hmax, ih, List.map_cons, List.sum_cons]

end Counts

/-! ## What a plan brings altogether -/

def targetRanges (qs : List (Query α)) : List (Range α) :=
  qs.flatMap fun q => q.targets.flatMap (·.ranges)

section TargetRanges

variable {keys : List String} {qs : List (Query α)}

omit [Axis α] in
private theorem flatMap_own {key : String} (hkeys : keys.Nodup) (hk : key ∈ keys)
    (rs : List (Range α)) : (keys.flatMap fun k => if key = k then rs else []) = rs := by
  induction keys with
  | nil => exact absurd hk (by simp)
  | cons k keys ih =>
    rw [List.nodup_cons] at hkeys
    rw [List.flatMap_cons]
    by_cases h : key = k
    · have hrest : (keys.flatMap fun k => if key = k then rs else []) = [] := by
        rw [List.flatMap_eq_nil_iff]
        intro k' hk'
        exact if_neg fun heq => hkeys.1 (by rwa [← h, heq])
      rw [hrest, if_pos h, List.append_nil]
    · rw [if_neg h, ih hkeys.2 ((List.mem_cons.mp hk).resolve_left h), List.nil_append]

omit [Axis α] in
private theorem flatMap_ranges_perm (hkeys : keys.Nodup) {ts : List (Target α)}
    (h : ∀ t ∈ ts, ∀ r ∈ t.ranges, t.key ∈ keys) :
    (ts.flatMap (·.ranges)).Perm
      (keys.flatMap fun key => (ts.filter (·.key = key)).flatMap (·.ranges)) := by
  induction ts with
  | nil => simp
  | cons t ts ih =>
    rw [List.forall_mem_cons] at h
    have hsplit : ∀ key, ((t :: ts).filter (·.key = key)).flatMap (·.ranges) =
        (if t.key = key then t.ranges else []) ++ (ts.filter (·.key = key)).flatMap (·.ranges) := by
      intro key
      by_cases hk : t.key = key <;> simp [hk]
    have hown : (keys.flatMap fun key => if t.key = key then t.ranges else []) = t.ranges := by
      cases hr : t.ranges with
      | nil => simp
      | cons r rs => exact flatMap_own hkeys (h.1 r (by simp [hr])) _
    simp only [hsplit]
    refine .trans ?_ (List.flatMap_append_perm _ _ _)
    rw [List.flatMap_cons, hown]
    exact (ih h.2).append_left _

omit [Axis α] in
theorem targetRanges_perm (hkeys : keys.Nodup)
    (h : ∀ q ∈ qs, ∀ key r, q.Brings key r → key ∈ keys) :
    (targetRanges qs).Perm (keys.flatMap fun key => brought key qs) := by
  have htargets : ∀ t ∈ qs.flatMap (·.targets), ∀ r ∈ t.ranges, t.key ∈ keys := by
    intro t ht r hr
    obtain ⟨q, hq, ht⟩ := List.mem_flatMap.mp ht
    exact h q hq t.key r ⟨t, ht, rfl, hr⟩
  have hperm := flatMap_ranges_perm hkeys htargets
  simpa only [targetRanges, brought, Query.rangesFor, List.flatMap_assoc, List.filter_flatMap]
    using hperm

end TargetRanges

section ImportRanges

variable {draws : Draws} {ds : List (ProductRanges α)}

theorem key_mem_of_brings_singles {q : Query α} (hq : q ∈ (ofSingles limits ds).plan.queries)
    {key : String} {r : Range α} (hb : q.Brings key r) : key ∈ ds.map (·.key) := by
  obtain ⟨s, hs, rfl⟩ := List.mem_map.mp hq
  obtain ⟨rfl, -⟩ := brings_single.mp hb
  obtain ⟨d, hd, hk, -⟩ := mem_singles.mp hs
  exact hk ▸ List.mem_map_of_mem hd

theorem key_mem_of_brings_shareds {q : Query α} (hq : q ∈ (ofShareds limits draws ds).plan.queries)
    {key : String} {r : Range α} (hb : q.Brings key r) : key ∈ ds.map (·.key) := by
  obtain ⟨s, hs, rfl⟩ := List.mem_map.mp hq
  obtain ⟨-, -, m, hm, rfl, -⟩ := brings_shareds hs hb
  rw [← keys_needs limits]
  exact List.mem_map_of_mem hm

theorem coverage_ofSingles :
    (ofSingles limits ds).coverage =
      totalSize (targetRanges (ofSingles limits ds).plan.queries) := by
  have hranges : targetRanges (ofSingles limits ds).plan.queries =
      (singles limits ds).map (·.range) := by
    simp only [ofSingles, Plan.queries, targetRanges, List.flatMap_map, Query.targets,
      List.flatMap_singleton]
    exact List.map_eq_flatMap.symm
  rw [hranges]
  rfl

theorem coverage_ofShareds :
    (ofShareds limits draws ds).coverage =
      totalSize (targetRanges (ofShareds limits draws ds).plan.queries) := by
  simp only [ofShareds, Plan.queries, targetRanges, List.flatMap_map, Query.targets,
    totalSize_flatMap]
  rfl

end ImportRanges

/-! ## Plans that differ in their arrangement -/

/-- The same kind of plan, with as many queries, that brings each product the same ranges. -/
structure Alike (p p' : Plan α) : Prop where
  kind : p.kind = p'.kind
  length : p.length = p'.length
  brought : ∀ key, (brought key p.queries).Perm (brought key p'.queries)

section Alike

variable {draws draws' : Draws} {ds ds' : List (ProductRanges α)}

theorem Acceptable.of_perm (h : Acceptable limits ds) (hp : ds.Perm ds') :
    Acceptable limits ds' where
  maxProducts := h.maxProducts
  maxSpan := h.maxSpan
  maxQueries := h.maxQueries
  keys := (hp.map _).nodup_iff.mp h.keys
  full d hd := h.full d (hp.mem_iff.mpr hd)

theorem alike_singles (limits : Limits) (hp : ds.Perm ds') :
    (ofSingles limits ds).plan.Alike (ofSingles limits ds').plan := by
  have hsingles : (singles limits ds).Perm (singles limits ds') := hp.flatMap_right _
  exact ⟨rfl, hsingles.length_eq, fun key => brought_perm (hsingles.map _)⟩

theorem alike_shareds (hmax : 0 < limits.maxProducts) (hp : ds.Perm ds') :
    (ofShareds limits draws ds).plan.Alike (ofShareds limits draws' ds').plan := by
  have hneeds : (ds.map (need limits.ignoreState)).Perm (ds'.map (need limits.ignoreState)) :=
    hp.map _
  have hslices : slices ((ds.map (need limits.ignoreState)).map (·.ranges)) limits.maxSpan
      limits.maxSpan = slices ((ds'.map (need limits.ignoreState)).map (·.ranges)) limits.maxSpan
      limits.maxSpan := by
    rw [slices, mergeWithin_of_perm (hneeds.map _).flatten, ← slices]
  refine ⟨rfl, ?_, fun key => ?_⟩
  · simp only [ofShareds, Plan.length, length_shareds hmax, hslices]
    congr 2
    funext s
    rw [hneeds.countP_eq]
  · simp only [ofShareds, Plan.queries, hslices]
    refine (brought_shareds hmax _).trans (.trans ?_ (brought_shareds hmax _).symm)
    exact List.Perm.flatMap_left _ fun s _ => (hneeds.filter _).flatMap_right _

theorem Alike.totalSize {p p' : Plan α} (h : p.Alike p') {keys : List String}
    (hkeys : keys.Nodup) (hp : ∀ q ∈ p.queries, ∀ key r, q.Brings key r → key ∈ keys)
    (hp' : ∀ q ∈ p'.queries, ∀ key r, q.Brings key r → key ∈ keys) :
    totalSize (targetRanges p.queries) = totalSize (targetRanges p'.queries) := by
  rw [totalSize_perm (targetRanges_perm hkeys hp), totalSize_perm (targetRanges_perm hkeys hp')]
  exact totalSize_perm (.flatMap_left _ fun key _ => h.brought key)

omit [Axis α] in
/-- Of candidates that are alike, the better ones are. -/
theorem alike_better {single single' shared shared' : Candidate α}
    (hsingle : single.plan.Alike single'.plan) (hshared : shared.plan.Alike shared'.plan)
    (hcover : single.coverage = single'.coverage) (hcover' : shared.coverage = shared'.coverage) :
    (better single shared).plan.Alike (better single' shared').plan := by
  unfold better
  rw [hsingle.length, hshared.length, hcover, hcover']
  split
  · split
    · exact hsingle
    · exact hshared
  · split
    · exact hsingle
    · exact hshared

theorem alike_candidates (haccept : Acceptable limits ds) (hp : ds.Perm ds') :
    (better (ofSingles limits ds) (ofShareds limits draws ds)).plan.Alike
      (better (ofSingles limits ds') (ofShareds limits draws' ds')).plan := by
  have hsingles := alike_singles limits hp
  have hshareds : (ofShareds limits draws ds).plan.Alike (ofShareds limits draws' ds').plan :=
    alike_shareds haccept.maxProducts hp
  have hmem : ∀ {key}, key ∈ ds'.map (·.key) → key ∈ ds.map (·.key) :=
    (hp.map _).mem_iff.mpr
  refine alike_better hsingles hshareds ?_ ?_
  · rw [coverage_ofSingles, coverage_ofSingles]
    exact hsingles.totalSize haccept.keys (fun q hq key r => key_mem_of_brings_singles hq)
      fun q hq key r hb => hmem (key_mem_of_brings_singles hq hb)
  · rw [coverage_ofShareds, coverage_ofShareds]
    exact hshareds.totalSize haccept.keys (fun q hq key r => key_mem_of_brings_shareds hq)
      fun q hq key r hb => hmem (key_mem_of_brings_shareds hq hb)

/-- **Order and draws.** Whatever is acceptable is planned for in one way, up to which products
share a query: for the demands in any order and for any draws, the plan is of the same kind, takes
as many queries, and brings each product the same ranges. -/
theorem choose_alike [Axis.Shown α] (accepted : check limits ds = .ok ()) (same : ds.Perm ds')
    (draws draws' : Draws) :
    ∃ plan plan', choose limits draws ds = .ok plan ∧ choose limits draws' ds' = .ok plan' ∧
      plan.Alike plan' := by
  have haccept := check_eq_ok_iff.mp accepted
  have haccept' := haccept.of_perm same
  refine ⟨_, _, choose_of_check accepted, choose_of_check (check_eq_ok_iff.mpr haccept'), ?_⟩
  split
  · exact alike_singles limits same
  · exact alike_candidates haccept same

/-- Three products that need the same, two to the query. The draws, or the order, decide which of
them is left to the second query. -/
theorem choose_alike_drawn :
    let limits : Limits :=
      { ignoreState := false, maxProducts := 2, maxSpan := 100, maxQueries := 1 }
    let a : ProductRanges BlockNumber := ⟨"a", ⟨0, 9⟩, [], []⟩
    let b : ProductRanges BlockNumber := ⟨"b", ⟨0, 19⟩, [⟨10, 19⟩], []⟩
    let c : ProductRanges BlockNumber := ⟨"c", ⟨5, 9⟩, [], [⟨0, 4⟩]⟩
    check limits [a, b, c] = .ok () ∧ [a, b, c].Perm [c, a, b] ∧
      ∃ plan plan', choose limits UInt64.ofNat [a, b, c] = .ok plan ∧
        choose limits (fun _ => 0) [c, a, b] = .ok plan' ∧
        plan.queries.map (·.keys) = [["c", "b"], ["a"]] ∧
        plan'.queries.map (·.keys) = [["c", "a"], ["b"]] ∧ plan.Alike plan' := by
  intro limits a b c
  have haccepted : check limits [a, b, c] = .ok () := by decide +kernel
  have hsame : [a, b, c].Perm [c, a, b] := by decide
  have hfirst : choose limits UInt64.ofNat [a, b, c] = .ok (.addressBatch [
      ⟨["c", "b"], ⟨0, 9⟩, [⟨"c", [⟨0, 9⟩]⟩, ⟨"b", [⟨0, 9⟩]⟩]⟩,
      ⟨["a"], ⟨0, 9⟩, [⟨"a", [⟨0, 9⟩]⟩]⟩]) := by decide +kernel
  have hsecond : choose limits (fun _ => 0) [c, a, b] = .ok (.addressBatch [
      ⟨["c", "a"], ⟨0, 9⟩, [⟨"c", [⟨0, 9⟩]⟩, ⟨"a", [⟨0, 9⟩]⟩]⟩,
      ⟨["b"], ⟨0, 9⟩, [⟨"b", [⟨0, 9⟩]⟩]⟩]) := by decide +kernel
  obtain ⟨plan, plan', hplan, hplan', halike⟩ :=
    choose_alike haccepted hsame UInt64.ofNat (fun _ => 0)
  obtain rfl := Except.ok.inj (hplan.symm.trans hfirst)
  obtain rfl := Except.ok.inj (hplan'.symm.trans hsecond)
  exact ⟨haccepted, hsame, _, _, hplan, hplan', rfl, rfl, halike⟩

end Alike

end Backfill.Plan
