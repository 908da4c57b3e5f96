import Mathlib.Data.List.Nodup
import Backfill.Plan.Choice
import Backfill.Proofs.Range.Pieces

/-!
# What a plan brings each product

A query brings a product the ranges of its targets. In a plan of either kind these are parts of what
the product needs: no position is brought to a product twice, so a position tells the query that
brings it.

Results:
* `parts_piecesFor`: the ranges asked for on behalf of one product are parts of its need.
* `choose_allotted`: in the plan chosen, every range belongs to one demand and lies in its need, and
  a position of a product belongs to one range of one query.
-/
namespace Backfill.Plan

open Axis Range

variable {α : Type} [Axis α]

def Query.Brings (q : Query α) (key : String) (r : Range α) : Prop :=
  ∃ t ∈ q.targets, t.key = key ∧ r ∈ t.ranges

structure ProperRanges (d : ProductRanges α) : Prop where
  full : d.full.Proper
  covered : ∀ r ∈ d.covered, r.Proper
  toRetry : ∀ r ∈ d.toRetry, r.Proper

/-- Queries bring each product parts of what its demand needs. -/
structure Allotted (limits : Limits) (ds : List (ProductRanges α)) (qs : List (Query α)) :
    Prop where
  needed : ∀ q ∈ qs, ∀ key r, q.Brings key r → r.Proper ∧
    ∃ d ∈ ds, d.key = key ∧ ∀ a, Whole a → a ∈ r → Holds (need limits.ignoreState d).ranges a
  once : ∀ q ∈ qs, ∀ q' ∈ qs, ∀ key r r' a, q.Brings key r → q'.Brings key r' →
    Whole a → a ∈ r → a ∈ r' → q = q' ∧ r = r'

/-! ## Needs -/

section Need

variable {ignoreState : Bool} {d : ProductRanges α} {a : α}

theorem known_proper (hd : ProperRanges d) : ∀ r ∈ d.covered ++ d.toRetry, r.Proper :=
  fun r hr => (List.mem_append.mp hr).elim (hd.covered r) (hd.toRetry r)

theorem fresh_proper (hd : ProperRanges d) : ∀ r ∈ d.computeNeeded ignoreState, r.Proper := by
  unfold ProductRanges.computeNeeded
  split
  · simpa using hd.full
  · exact (normal_exclude (by simpa using hd.full) (known_proper hd)).proper

theorem holds_fresh (hd : ProperRanges d) (ha : Whole a) (hs : ignoreState = false) :
    Holds (d.computeNeeded ignoreState) a ↔ a ∈ d.full ∧ ¬ Holds d.covered a ∧
    ¬ Holds d.toRetry a := by
  rw [ProductRanges.computeNeeded, hs, if_neg (by decide),
    holds_exclude (by simpa using hd.full) (known_proper hd) ha]
  simp [not_or]

private theorem wanted_proper (hd : ProperRanges d) :
    ∀ r ∈ if ignoreState then d.computeNeeded ignoreState
      else d.computeNeeded ignoreState ++ d.toRetry,
      r.Proper := by
  intro r hr
  split at hr
  · exact fresh_proper hd r hr
  · exact (List.mem_append.mp hr).elim (fresh_proper hd r) (hd.toRetry r)

theorem need_proper (hd : ProperRanges d) : ∀ r ∈ (need ignoreState d).ranges, r.Proper :=
  (normal_merge (wanted_proper hd)).proper

theorem holds_need (hd : ProperRanges d) (ha : Whole a) :
    Holds (need ignoreState d).ranges a ↔
      Holds (d.computeNeeded ignoreState) a ∨ ignoreState = false ∧ Holds d.toRetry a := by
  rw [need, holds_merge (wanted_proper hd) ha]
  cases ignoreState <;> simp

end Need

/-! ## Queries for single products -/

/-- The ranges asked for on behalf of a product are parts of its need: what is fresh does not wait
for a retry. -/
theorem parts_piecesFor (limits : Limits) {d : ProductRanges α} (hd : ProperRanges d) :
    Parts (Holds (need limits.ignoreState d).ranges) (piecesFor limits d) := by
  unfold piecesFor
  have hproper : ∀ r ∈ d.computeNeeded limits.ignoreState, r.Proper := fresh_proper hd
  have hfresh := parts_firstPieces .descending limits.maxSpan limits.maxQueries hproper
  have hneed : ∀ a, Whole a → (Holds (need limits.ignoreState d).ranges a ↔
      Holds (d.computeNeeded limits.ignoreState) a ∨ limits.ignoreState = false ∧
        Holds d.toRetry a) :=
    fun a ha => holds_need hd ha
  split
  · exact hfresh.mono fun a ha hm => (hneed a ha).mpr (.inl hm)
  · next hs =>
    rw [Bool.not_eq_true] at hs
    refine (hfresh.append (parts_firstPieces _ _ _ hd.toRetry) fun a ha hm => ?_).mono
      fun a ha hm => (hneed a ha).mpr (hm.imp_right fun hm => ⟨hs, hm⟩)
    exact ((holds_fresh hd ha hs).mp hm).2.2

omit [Axis α] in
theorem brings_single {q : Single α} {key : String} {r : Range α} :
    (Query.single q).Brings key r ↔ key = q.key ∧ r = q.range := by
  simp only [Query.Brings, Query.targets, List.mem_singleton, exists_eq_left]
  exact and_congr_left' eq_comm

theorem mem_singles {limits : Limits} {ds : List (ProductRanges α)} {q : Single α} :
    q ∈ singles limits ds ↔ ∃ d ∈ ds, q.key = d.key ∧ q.range ∈ piecesFor limits d := by
  simp only [singles, List.mem_flatMap, List.mem_map]
  constructor
  · rintro ⟨d, hd, r, hr, rfl⟩
    exact ⟨d, hd, rfl, hr⟩
  · rintro ⟨d, hd, hk, hr⟩
    exact ⟨d, hd, q.range, hr, by cases q; simp_all⟩

theorem allotted_singles {limits : Limits} {ds : List (ProductRanges α)}
    (hkeys : (ds.map (·.key)).Nodup) (hds : ∀ d ∈ ds, ProperRanges d) :
    Allotted limits ds (ofSingles limits ds).plan.queries where
  needed q hq key r hb := by
    obtain ⟨s, hs, rfl⟩ := List.mem_map.mp hq
    obtain ⟨rfl, rfl⟩ := brings_single.mp hb
    obtain ⟨d, hd, hk, hr⟩ := mem_singles.mp hs
    have hparts := parts_piecesFor limits (hds d hd)
    exact ⟨hparts.proper _ hr, d, hd, hk.symm, hparts.inside _ hr⟩
  once q hq q' hq' key r r' a hb hb' ha hm hm' := by
    obtain ⟨s, hs, rfl⟩ := List.mem_map.mp hq
    obtain ⟨s', hs', rfl⟩ := List.mem_map.mp hq'
    obtain ⟨rfl, rfl⟩ := brings_single.mp hb
    obtain ⟨hk', rfl⟩ := brings_single.mp hb'
    obtain ⟨d, hd, hk, hr⟩ := mem_singles.mp hs
    obtain ⟨d', hd', hk'', hr'⟩ := mem_singles.mp hs'
    obtain rfl := List.inj_on_of_nodup_map hkeys hd hd' (by rw [← hk, ← hk'', hk'])
    have heq := (parts_piecesFor limits (hds d hd)).eq_of_mem hr hr' ha hm hm'
    cases s
    cases s'
    simp_all

/-! ## Queries shared by products -/

section Chunks

variable {β γ : Type} {size fuel : Nat} {xs c c' : List β}

private theorem chunks_go_spec (hc : c ∈ chunks.go size fuel xs) :
    c.Sublist xs ∧ c.length ≤ size := by
  fun_induction chunks.go size fuel xs with
  | case1 => exact absurd hc (by simp)
  | case2 => exact absurd hc (by simp)
  | case3 fuel y ys ih =>
    rcases List.mem_cons.mp hc with rfl | hc
    · exact ⟨List.take_sublist .., List.length_take_le ..⟩
    · obtain ⟨hsub, hlen⟩ := ih hc
      exact ⟨hsub.trans (List.drop_sublist ..), hlen⟩

theorem sublist_of_mem_chunks (hc : c ∈ chunks size xs) : c.Sublist xs := (chunks_go_spec hc).1

theorem length_le_of_mem_chunks (hc : c ∈ chunks size xs) : c.length ≤ size := (chunks_go_spec hc).2

theorem mem_of_mem_chunks {x : β} (hc : c ∈ chunks size xs) (hx : x ∈ c) : x ∈ xs :=
  (sublist_of_mem_chunks hc).subset hx

/-- Elements that a key tells apart lie in one chunk each. -/
theorem chunks_unique {f : β → γ} (h : (xs.map f).Nodup) (hc : c ∈ chunks size xs)
    (hc' : c' ∈ chunks size xs) {x y : β} (hx : x ∈ c) (hy : y ∈ c') (hf : f x = f y) : c = c' := by
  unfold chunks at hc hc'
  generalize xs.length = fuel at hc hc'
  fun_induction chunks.go size fuel xs with
  | case1 => exact absurd hc (by simp)
  | case2 => exact absurd hc (by simp)
  | case3 fuel z zs ih =>
    rw [← List.take_append_drop size (z :: zs), List.map_append, List.nodup_append] at h
    obtain ⟨-, hdrop, hne⟩ := h
    rcases List.mem_cons.mp hc, List.mem_cons.mp hc' with ⟨rfl | hc, rfl | hc'⟩
    · rfl
    · exact absurd hf (hne _ (List.mem_map_of_mem hx) _
        (List.mem_map_of_mem ((chunks_go_spec hc').1.subset hy)))
    · exact absurd hf.symm (hne _ (List.mem_map_of_mem hy) _
        (List.mem_map_of_mem ((chunks_go_spec hc).1.subset hx)))
    · exact ih hdrop hc hc'

end Chunks

section Slice

variable {draws : Draws} {slice : Range α} {needs : List (Need α)} {drawn : Nat}

/-- What is needed of a slice is the part of a need that lies in it, if there is one. -/
theorem mem_sliceNeeds {n : SliceNeed α} (h : n ∈ (sliceNeeds draws slice needs drawn).1) :
    n.ranges ≠ [] ∧ ∃ m ∈ needs, m.key = n.key ∧ n.ranges = intersect m.ranges [slice] := by
  induction needs generalizing drawn with
  | nil => exact absurd h (by simp [sliceNeeds])
  | cons m needs ih =>
    unfold sliceNeeds at h
    split at h
    · obtain ⟨hne, m', hm', h'⟩ := ih h
      exact ⟨hne, m', List.mem_cons_of_mem _ hm', h'⟩
    · next hsome =>
      rcases List.mem_cons.mp h with rfl | h
      · exact ⟨hsome, m, List.mem_cons_self .., rfl, rfl⟩
      · obtain ⟨hne, m', hm', h'⟩ := ih h
        exact ⟨hne, m', List.mem_cons_of_mem _ hm', h'⟩

theorem keys_sliceNeeds (draws : Draws) (slice : Range α) (needs : List (Need α)) (drawn : Nat) :
    ((sliceNeeds draws slice needs drawn).1.map (·.key)).Sublist (needs.map (·.key)) := by
  induction needs generalizing drawn with
  | nil => exact .slnil
  | cons m needs ih =>
    unfold sliceNeeds
    split
    · exact (ih _).cons _
    · exact (ih _).cons_cons _

theorem brings_sliceQueries {limits : Limits} {ns : List (SliceNeed α)} {q : Shared α}
    (hq : q ∈ sliceQueries limits ns) {key : String} {r : Range α}
    (hb : (Query.shared q).Brings key r) :
    ∃ c ∈ chunks limits.maxProducts (byRank ns), queryFor? c = some q ∧
      ∃ n ∈ c, n.key = key ∧ r ∈ n.ranges := by
  obtain ⟨c, hc, hq⟩ := List.mem_filterMap.mp hq
  refine ⟨c, hc, hq, ?_⟩
  obtain ⟨range, -, rfl⟩ := Option.map_eq_some_iff.mp hq
  obtain ⟨t, ht, hk, hr⟩ := hb
  obtain ⟨n, hn, rfl⟩ := List.mem_map.mp ht
  exact ⟨n, hn, hk, hr⟩

variable (hkeys : (needs.map (·.key)).Nodup) (hneeds : ∀ m ∈ needs, ∀ r ∈ m.ranges, r.Proper)

include hkeys hneeds

/-- In one slice a position of a product belongs to one range of one query. -/
theorem once_sliceQueries {limits : Limits} (hslice : slice.Proper) {q q' : Shared α}
    (hq : q ∈ sliceQueries limits (sliceNeeds draws slice needs drawn).1)
    (hq' : q' ∈ sliceQueries limits (sliceNeeds draws slice needs drawn).1)
    {key : String} {r r' : Range α} {a : α} (hb : (Query.shared q).Brings key r)
    (hb' : (Query.shared q').Brings key r') (ha : Whole a) (hm : a ∈ r) (hm' : a ∈ r') :
    q = q' ∧ r = r' := by
  obtain ⟨c, hc, hcq, n, hn, hk, hr⟩ := brings_sliceQueries hq hb
  obtain ⟨c', hc', hcq', n', hn', hk', hr'⟩ := brings_sliceQueries hq' hb'
  have hnodup := (keys_sliceNeeds draws slice needs drawn).nodup hkeys
  have hranked : ((byRank (sliceNeeds draws slice needs drawn).1).map (·.key)).Nodup :=
    ((sortBy_perm _ _).map _).nodup_iff.mpr hnodup
  obtain rfl := chunks_unique hranked hc hc' hn hn' (hk.trans hk'.symm)
  have hmem := mem_sortBy.mp (mem_of_mem_chunks hc hn)
  obtain rfl := List.inj_on_of_nodup_map hranked (mem_of_mem_chunks hc hn)
    (mem_of_mem_chunks hc hn') (hk.trans hk'.symm)
  obtain ⟨-, m, hmm, -, hranges⟩ := mem_sliceNeeds hmem
  have hparts := (normal_intersect (hneeds m hmm)
    (fun s hs => List.mem_singleton.mp hs ▸ hslice)).parts
  rw [hranges] at hr hr'
  exact ⟨Option.some.inj (hcq ▸ hcq'), hparts.eq_of_mem hr hr' ha hm hm'⟩

omit hkeys hneeds in
theorem mem_shareds {limits : Limits} {ss : List (Range α)} {q : Shared α}
    (hq : q ∈ shareds limits draws needs ss drawn) :
    ∃ s ∈ ss, ∃ drawn', q ∈ sliceQueries limits (sliceNeeds draws s needs drawn').1 := by
  induction ss generalizing drawn with
  | nil => exact absurd hq (by simp [shareds])
  | cons s ss ih =>
    rcases List.mem_append.mp hq with hq | hq
    · exact ⟨s, List.mem_cons_self .., drawn, hq⟩
    · obtain ⟨s', hs', h⟩ := ih hq
      exact ⟨s', List.mem_cons_of_mem _ hs', h⟩

omit hkeys hneeds in
theorem brings_shareds {limits : Limits} {ss : List (Range α)} {q : Shared α}
    (hq : q ∈ shareds limits draws needs ss drawn) {key : String} {r : Range α}
    (hb : (Query.shared q).Brings key r) :
    ∃ s ∈ ss, ∃ m ∈ needs, m.key = key ∧ r ∈ intersect m.ranges [s] := by
  obtain ⟨s, hs, drawn', hq⟩ := mem_shareds hq
  obtain ⟨c, hc, -, n, hn, hk, hr⟩ := brings_sliceQueries hq hb
  obtain ⟨-, m, hm, hk', hranges⟩ := mem_sliceNeeds (mem_sortBy.mp (mem_of_mem_chunks hc hn))
  exact ⟨s, hs, m, hm, hk'.trans hk, hranges ▸ hr⟩

omit hkeys in
theorem inside_of_brings_shareds {limits : Limits} {ss : List (Range α)}
    (hss : ∀ s ∈ ss, s.Proper) {q : Shared α} (hq : q ∈ shareds limits draws needs ss drawn)
    {key : String} {r : Range α} (hb : (Query.shared q).Brings key r) :
    r.Proper ∧ ∃ s ∈ ss, ∃ m ∈ needs, m.key = key ∧
      ∀ a, Whole a → a ∈ r → a ∈ s ∧ Holds m.ranges a := by
  obtain ⟨s, hs, m, hm, hk, hr⟩ := brings_shareds hq hb
  have hone : ∀ t ∈ [s], t.Proper := fun t ht => List.mem_singleton.mp ht ▸ hss s hs
  refine ⟨(normal_intersect (hneeds m hm) hone).proper r hr, s, hs, m, hm, hk, fun a ha har => ?_⟩
  have h := (holds_intersect (hneeds m hm) hone ha).mp ⟨r, hr, har⟩
  exact ⟨by simpa using h.2, h.1⟩

/-- Over separate slices a position of a product belongs to one range of one query. -/
theorem once_shareds {limits : Limits} {ss : List (Range α)} {P : α → Prop} (hss : Parts P ss)
    {q q' : Shared α} (hq : q ∈ shareds limits draws needs ss drawn)
    (hq' : q' ∈ shareds limits draws needs ss drawn) {key : String} {r r' : Range α} {a : α}
    (hb : (Query.shared q).Brings key r) (hb' : (Query.shared q').Brings key r') (ha : Whole a)
    (hm : a ∈ r) (hm' : a ∈ r') : q = q' ∧ r = r' := by
  induction ss generalizing drawn with
  | nil => exact absurd hq (by simp [shareds])
  | cons s ss ih =>
    have hsep := (List.pairwise_cons.mp hss.separate).1
    have hs := hss.proper s (List.mem_cons_self ..)
    -- a query of the first slice and one of another have no position in common
    have hcross : ∀ {q q' : Shared α} {r r' : Range α} {drawn drawn' : Nat},
        q ∈ sliceQueries limits (sliceNeeds draws s needs drawn).1 →
        q' ∈ shareds limits draws needs ss drawn' → (Query.shared q).Brings key r →
        (Query.shared q').Brings key r' → a ∈ r → a ∉ r' := by
      intro q q' r r' drawn drawn' hq hq' hb hb' hm hm'
      have hq : q ∈ shareds limits draws needs [s] drawn := by simpa [shareds] using hq
      obtain ⟨-, t, ht, m, -, -, hin⟩ := inside_of_brings_shareds hneeds (by simpa using hs) hq hb
      obtain ⟨-, u, hu, m', -, -, hin'⟩ := inside_of_brings_shareds hneeds hss.tail.proper hq' hb'
      rw [List.mem_singleton] at ht
      subst ht
      exact hsep u hu a ha (hin a ha hm).1 (hin' a ha hm').1
    rcases List.mem_append.mp hq, List.mem_append.mp hq' with ⟨hq | hq, hq' | hq'⟩
    · exact once_sliceQueries hkeys hneeds hs hq hq' hb hb' ha hm hm'
    · exact absurd hm' (hcross hq hq' hb hb' hm)
    · exact absurd hm (hcross hq' hq hb' hb hm')
    · exact ih hss.tail hq hq'

end Slice

section Slices

variable {limits : Limits} {ds : List (ProductRanges α)}

theorem keys_needs (limits : Limits) (ds : List (ProductRanges α)) :
    (ds.map (need limits.ignoreState)).map (·.key) = ds.map (·.key) := by
  simp [Function.comp_def, need]

theorem proper_of_mem_needs (limits : Limits) (hds : ∀ d ∈ ds, ProperRanges d) :
    ∀ m ∈ ds.map (need limits.ignoreState), ∀ r ∈ m.ranges, r.Proper := by
  intro m hm
  obtain ⟨d, hd, rfl⟩ := List.mem_map.mp hm
  exact need_proper (hds d hd)

theorem needs_proper (limits : Limits) (hds : ∀ d ∈ ds, ProperRanges d) :
    ∀ r ∈ ((ds.map (need limits.ignoreState)).map (·.ranges)).flatten, r.Proper := by
  intro r hr
  obtain ⟨rs, hrs, hr⟩ := List.mem_flatten.mp hr
  obtain ⟨m, hm, rfl⟩ := List.mem_map.mp hrs
  exact proper_of_mem_needs limits hds m hm r hr

theorem parts_slices (limits : Limits) (hds : ∀ d ∈ ds, ProperRanges d) (gap span : Nat) :
    let needs := (ds.map (need limits.ignoreState)).map (·.ranges)
    Parts (Holds (mergeWithin (max 1 gap) needs.flatten)) (slices needs gap span) :=
  parts_splitAll span (spaced_mergeWithin (max 1 gap) (needs_proper limits hds)).parts

theorem holds_slices (hds : ∀ d ∈ ds, ProperRanges d) (gap span : Nat) {d : ProductRanges α}
    (hd : d ∈ ds) {a : α} (ha : Whole a) (hm : Holds (need limits.ignoreState d).ranges a) :
    Holds (slices ((ds.map (need limits.ignoreState)).map (·.ranges)) gap span) a := by
  have hall := needs_proper limits hds
  rw [slices, holds_splitAll span (spaced_mergeWithin (max 1 gap) hall).proper ha]
  refine holds_mergeWithin _ hall ha ?_
  obtain ⟨r, hr, hm⟩ := hm
  rw [List.map_map]
  exact ⟨r, List.mem_flatten.mpr ⟨_, List.mem_map_of_mem hd, hr⟩, hm⟩

end Slices

theorem allotted_shareds {limits : Limits} {draws : Draws} {ds : List (ProductRanges α)}
    (hkeys : (ds.map (·.key)).Nodup) (hds : ∀ d ∈ ds, ProperRanges d) :
    Allotted limits ds (ofShareds limits draws ds).plan.queries := by
  have hkeys' : ((ds.map (need limits.ignoreState)).map (·.key)).Nodup := by
    rwa [keys_needs]
  have hneeds := proper_of_mem_needs limits hds
  have hslices := parts_slices limits hds limits.maxSpan limits.maxSpan
  constructor
  · intro q hq key r hb
    obtain ⟨s, hs, rfl⟩ := List.mem_map.mp hq
    obtain ⟨hr, t, -, m, hm, hk, hin⟩ :=
      inside_of_brings_shareds hneeds hslices.proper hs hb
    obtain ⟨d, hd, rfl⟩ := List.mem_map.mp hm
    exact ⟨hr, d, hd, hk, fun a ha har => (hin a ha har).2⟩
  · intro q hq q' hq' key r r' a hb hb' ha hm hm'
    obtain ⟨s, hs, rfl⟩ := List.mem_map.mp hq
    obtain ⟨s', hs', rfl⟩ := List.mem_map.mp hq'
    exact (once_shareds hkeys' hneeds hslices hs hs' hb hb' ha hm hm').imp_left
      (congrArg Query.shared)

/-! ## The plan chosen -/

private theorem repeated_go_eq_nil {seen found keys : List String} :
    repeated.go seen found keys = [] ↔ found = [] ∧ keys.Nodup ∧ ∀ k ∈ keys, k ∉ seen := by
  induction keys generalizing seen found with
  | nil => simp [repeated.go]
  | cons k keys ih =>
    unfold repeated.go
    by_cases hk : k ∈ seen
    · -- a key that was seen is among those found, now or before
      have hfound : (if k ∈ found then found else k :: found) ≠ [] := by
        split
        · next hmem => exact List.ne_nil_of_mem hmem
        · simp
      simp [hk, ih, hfound]
    · rw [if_neg hk, ih, List.nodup_cons, List.forall_mem_cons]
      refine and_congr_right fun _ => ⟨?_, ?_⟩
      · intro ⟨hn, hs⟩
        exact ⟨⟨fun hm => hs k hm (List.mem_cons_self ..), hn⟩, hk,
          fun k' hk' hm => hs k' hk' (List.mem_cons_of_mem _ hm)⟩
      · intro ⟨⟨hm, hn⟩, _, hs⟩
        refine ⟨hn, fun k' hk' hseen => ?_⟩
        rcases List.mem_cons.mp hseen with rfl | hseen
        · exact hm hk'
        · exact hs k' hk' hseen

theorem repeated_eq_nil {keys : List String} : repeated keys = [] ↔ keys.Nodup := by
  simp [repeated, repeated_go_eq_nil]

section Choose

variable [Axis.Shown α] {limits : Limits} {draws : Draws} {ds : List (ProductRanges α)}

/-- What is planned for: limits that allow something, different keys and valid full ranges. -/
structure Acceptable (limits : Limits) (ds : List (ProductRanges α)) : Prop where
  maxProducts : 0 < limits.maxProducts
  maxSpan : 0 < limits.maxSpan
  maxQueries : 0 < limits.maxQueries
  keys : (ds.map (·.key)).Nodup
  full : ∀ d ∈ ds, d.full.Valid

theorem check_eq_ok_iff : check limits ds = .ok () ↔ Acceptable limits ds := by
  constructor
  · intro h
    unfold check at h
    split at h
    · cases h
    split at h
    · cases h
    split at h
    · cases h
    split at h
    · cases h
    split at h
    · cases h
    next hproducts hspan hqueries _ hrep _ hfind =>
      refine ⟨by omega, by omega, by omega, repeated_eq_nil.mp hrep, fun d hd => ?_⟩
      simpa using List.find?_eq_none.mp hfind d hd
  · intro h
    have hfind : ds.find? (¬ ·.full.Valid) = none :=
      List.find?_eq_none.mpr fun d hd => by simpa using h.full d hd
    rw [check, if_neg (Nat.ne_of_gt h.maxProducts), if_neg (Nat.ne_of_gt h.maxSpan),
      if_neg (Nat.ne_of_gt h.maxQueries), repeated_eq_nil.mpr h.keys]
    simp only [hfind]

theorem Acceptable.proper {ds : List (ProductRanges BlockNumber)} (h : Acceptable limits ds)
    (valid : ∀ d ∈ ds, ∀ r ∈ d.covered ++ d.toRetry, r.Valid) : ∀ d ∈ ds, ProperRanges d :=
  fun d hd =>
    { full := proper_block.mpr (h.full d hd)
      covered := fun r hr => proper_block.mpr (valid d hd r (List.mem_append_left _ hr))
      toRetry := fun r hr => proper_block.mpr (valid d hd r (List.mem_append_right _ hr)) }

theorem check_eq_ok (h : check limits ds = .ok ()) :
    (ds.map (·.key)).Nodup ∧ ∀ d ∈ ds, d.full.Valid :=
  ⟨(check_eq_ok_iff.mp h).keys, (check_eq_ok_iff.mp h).full⟩

theorem maxProducts_pos (h : check limits ds = .ok ()) : 0 < limits.maxProducts :=
  (check_eq_ok_iff.mp h).maxProducts

omit [Axis α] [Axis.Shown α] in
theorem better_eq (single shared : Candidate α) :
    better single shared = single ∨ better single shared = shared := by
  unfold better
  split
  · split <;> simp
  · split <;> simp

theorem choose_of_check (h : check limits ds = .ok ()) :
    choose limits draws ds = .ok (if limits.maxProducts = 1 then (ofSingles limits ds).plan
      else (better (ofSingles limits ds) (ofShareds limits draws ds)).plan) := by
  simp only [choose, h, bind, Except.bind, pure, Except.pure]
  split <;> rfl

theorem choose_eq_ok {plan : Plan α} (h : choose limits draws ds = .ok plan) :
    check limits ds = .ok () ∧
      (plan = (ofSingles limits ds).plan ∨ plan = (ofShareds limits draws ds).plan) := by
  cases hc : check limits ds with
  | error e => simp [choose, hc, bind, Except.bind] at h
  | ok u =>
    rw [choose_of_check hc] at h
    obtain rfl := Except.ok.inj h
    refine ⟨rfl, ?_⟩
    split
    · exact .inl rfl
    · exact (better_eq _ _).imp (congrArg Candidate.plan) (congrArg Candidate.plan)

theorem choose_of_one {plan : Plan α} (h : choose limits draws ds = .ok plan)
    (hone : limits.maxProducts = 1) : plan = (ofSingles limits ds).plan := by
  rw [choose_of_check (choose_eq_ok h).1, if_pos hone] at h
  exact (Except.ok.inj h).symm

/-- **Targets.** Whatever plan is chosen brings each product parts of its need. -/
theorem choose_allotted {plan : Plan α} (h : choose limits draws ds = .ok plan)
    (hds : (∀ d ∈ ds, d.full.Valid) → ∀ d ∈ ds, ProperRanges d) :
    Allotted limits ds plan.queries := by
  obtain ⟨hc, hplan⟩ := choose_eq_ok h
  obtain ⟨hkeys, hfull⟩ := check_eq_ok hc
  rcases hplan with rfl | rfl
  · exact allotted_singles hkeys (hds hfull)
  · exact allotted_shareds hkeys (hds hfull)

end Choose

end Backfill.Plan
