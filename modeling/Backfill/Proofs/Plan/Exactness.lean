import Backfill.Proofs.Plan.Targets

/-!
# What a plan brings one product

Over all queries of a plan the ranges meant for one product form one list. In a plan for single
products it is the list of pieces asked for. In a shared plan ranks, draws and chunks only decide
which query brings what: in some order the list is the parts of the product's need in one slice
after the other.

Results:
* `brought_singles`, `brought_shareds`: the list, for either kind of plan.
* `choose_parts`: whatever plan is chosen, the list is parts of the product's need.
* `shareds_exact`: a shared plan brings each product exactly what it needs, and nothing twice.
-/
namespace Backfill.Plan

open Axis Range

variable {α : Type} [Axis α] {key : String}

omit [Axis α] in
/-- Where all that an element brings is its own, what some elements bring is their own. -/
theorem filter_flatMap_own {β γ : Type} {f : β → List γ} {own : γ → Bool} {owner : β → Bool}
    {xs : List β} (h : ∀ x ∈ xs, ∀ y ∈ f x, own y = owner x) :
    (xs.flatMap f).filter own = (xs.filter owner).flatMap f := by
  induction xs with
  | nil => rfl
  | cons x xs ih =>
    rw [List.forall_mem_cons] at h
    rw [List.flatMap_cons, List.filter_append, ih h.2, List.filter_cons]
    cases hx : owner x
    · have hnone : (f x).filter own = [] :=
        List.filter_eq_nil_iff.mpr fun y hy => by simp [h.1 y hy, hx]
      simp [hnone]
    · have hall : (f x).filter own = f x :=
        List.filter_eq_self.mpr fun y hy => (h.1 y hy).trans hx
      simp [hall]

omit [Axis α] in
/-- In a list with distinct keys one element has a key. -/
theorem filter_key {β γ : Type} [DecidableEq γ] {f : β → γ} {xs : List β} {x : β}
    (h : (xs.map f).Nodup) (hx : x ∈ xs) : xs.filter (f · = f x) = [x] := by
  induction xs with
  | nil => exact absurd hx (by simp)
  | cons y xs ih =>
    rw [List.map_cons, List.nodup_cons] at h
    rcases List.mem_cons.mp hx with rfl | hx
    · have hnone : xs.filter (f · = f x) = [] := by
        rw [List.filter_eq_nil_iff]
        intro z hz heq
        exact h.1 (of_decide_eq_true heq ▸ List.mem_map_of_mem hz)
      simp [hnone]
    · have hne : f y ≠ f x := fun heq => h.1 (heq ▸ List.mem_map_of_mem hx)
      simpa [hne] using ih h.2 hx

/-! ## The ranges meant for one product -/

def Query.rangesFor (key : String) (q : Query α) : List (Range α) :=
  (q.targets.filter (·.key = key)).flatMap (·.ranges)

def brought (key : String) (qs : List (Query α)) : List (Range α) := qs.flatMap (·.rangesFor key)

section Brought

variable {qs qs' : List (Query α)} {r : Range α}

omit [Axis α] in
theorem Query.mem_rangesFor {q : Query α} : r ∈ q.rangesFor key ↔ q.Brings key r := by
  simp only [rangesFor, List.mem_flatMap, List.mem_filter, decide_eq_true_eq, and_assoc,
    Query.Brings]

omit [Axis α] in
theorem mem_brought : r ∈ brought key qs ↔ ∃ q ∈ qs, q.Brings key r := by
  simp only [brought, List.mem_flatMap, Query.mem_rangesFor]

omit [Axis α] in
theorem brought_append : brought key (qs ++ qs') = brought key qs ++ brought key qs' :=
  List.flatMap_append

omit [Axis α] in
theorem brought_perm (h : qs.Perm qs') : (brought key qs).Perm (brought key qs') :=
  h.flatMap_right _

end Brought

/-! ## Queries for single products -/

omit [Axis α] in
private theorem brought_pieces (k : String) (rs : List (Range α)) :
    brought key ((rs.map fun r => (⟨k, r⟩ : Single α)).map .single) =
      if k = key then rs else [] := by
  by_cases h : k = key <;>
    simp [brought, Query.rangesFor, Query.targets, h, Function.comp_def, List.flatMap_map]

theorem brought_singles_filter (limits : Limits) (ds : List (ProductRanges α)) :
    brought key ((singles limits ds).map .single) =
      (ds.filter (·.key = key)).flatMap (piecesFor limits) := by
  induction ds with
  | nil => rfl
  | cons d ds ih =>
    rw [singles, List.flatMap_cons, List.map_append, brought_append, brought_pieces, ← singles,
      ih, List.filter_cons]
    split <;> simp_all

theorem brought_singles {limits : Limits} {ds : List (ProductRanges α)} {d : ProductRanges α}
    (hkeys : (ds.map (·.key)).Nodup) (hd : d ∈ ds) :
    brought d.key (ofSingles limits ds).plan.queries = piecesFor limits d := by
  simp only [ofSingles, Plan.queries, brought_singles_filter, filter_key hkeys hd,
    List.flatMap_singleton]

/-! ## Queries shared by products -/

section Chunks

variable {β : Type} {size fuel : Nat} {xs : List β}

private theorem flatten_chunks_go (hsize : 0 < size) (hfuel : xs.length ≤ fuel) :
    (chunks.go size fuel xs).flatten = xs := by
  fun_induction chunks.go size fuel xs with
  | case1 xs => simpa using hfuel
  | case2 => rfl
  | case3 fuel x xs ih =>
    have hshort : ((x :: xs).drop size).length ≤ fuel := by
      rw [List.length_drop]
      omega
    rw [List.flatten_cons, ih hshort, List.take_append_drop]

theorem flatten_chunks (hsize : 0 < size) (xs : List β) : (chunks size xs).flatten = xs :=
  flatten_chunks_go hsize (Nat.le_refl _)

end Chunks

section Slice

variable {limits : Limits} {draws : Draws} {slice : Range α} {needs : List (Need α)} {drawn : Nat}

theorem cover_eq_none {rs : List (Range α)} : cover rs = none ↔ rs = [] := by
  cases rs <;> simp [cover]

/-- A chunk brings a product its ranges. It makes no query only if it has none. -/
private theorem brought_queryFor? (ns : List (SliceNeed α)) :
    brought key ((queryFor? ns).toList.map .shared) =
      (ns.filter (·.key = key)).flatMap (·.ranges) := by
  unfold queryFor?
  cases h : cover (ns.flatMap (·.ranges)) with
  | none =>
    have hnone := List.flatMap_eq_nil_iff.mp (cover_eq_none.mp h)
    refine (List.flatMap_eq_nil_iff.mpr fun n hn => ?_).symm
    exact hnone n (List.mem_filter.mp hn).1
  | some range =>
    simp [brought, Query.rangesFor, Query.targets, List.filter_map, List.flatMap_map,
      Function.comp_def]

private theorem brought_chunks (cs : List (List (SliceNeed α))) :
    brought key ((cs.filterMap queryFor?).map .shared) =
      (cs.flatten.filter (·.key = key)).flatMap (·.ranges) := by
  induction cs with
  | nil => rfl
  | cons c cs ih =>
    have hsplit : (c :: cs).filterMap queryFor? =
        (queryFor? c).toList ++ cs.filterMap queryFor? := by
      cases h : queryFor? c <;> simp [h]
    rw [hsplit, List.map_append, brought_append, brought_queryFor?, ih, List.flatten_cons,
      List.filter_append, List.flatMap_append]

/-- What the products need of a slice is what their needs have in common with it. -/
private theorem ranges_sliceNeeds :
    ((sliceNeeds draws slice needs drawn).1.filter (·.key = key)).flatMap (·.ranges) =
      (needs.filter (·.key = key)).flatMap fun m => intersect m.ranges [slice] := by
  induction needs generalizing drawn with
  | nil => rfl
  | cons m needs ih =>
    unfold sliceNeeds
    split
    · next hnone =>
      rw [ih, List.filter_cons]
      split
      · rw [List.flatMap_cons, hnone, List.nil_append]
      · rfl
    · simp only [List.filter_cons]
      split
      · rw [List.flatMap_cons, List.flatMap_cons, ih]
      · exact ih

theorem brought_sliceQueries (hmax : 0 < limits.maxProducts) :
    (brought key ((sliceQueries limits (sliceNeeds draws slice needs drawn).1).map .shared)).Perm
      ((needs.filter (·.key = key)).flatMap fun m => intersect m.ranges [slice]) := by
  rw [sliceQueries, brought_chunks, flatten_chunks hmax, ← ranges_sliceNeeds]
  exact ((sortBy_perm _ _).filter _).flatMap_right _

theorem brought_shareds (hmax : 0 < limits.maxProducts) (ss : List (Range α)) :
    (brought key ((shareds limits draws needs ss drawn).map .shared)).Perm
      (ss.flatMap fun s =>
        (needs.filter (·.key = key)).flatMap fun m => intersect m.ranges [s]) := by
  induction ss generalizing drawn with
  | nil => exact .refl _
  | cons s ss ih =>
    rw [shareds, List.map_append, brought_append, List.flatMap_cons]
    exact (brought_sliceQueries hmax).append ih

end Slice

section Shared

variable {limits : Limits} (draws : Draws) {ds : List (ProductRanges α)} {d : ProductRanges α}

/-- A shared plan brings a product parts of its need, and leaves nothing of it. -/
theorem parts_brought_shareds (hmax : 0 < limits.maxProducts) (hkeys : (ds.map (·.key)).Nodup)
    (hds : ∀ d ∈ ds, ProperRanges d) (hd : d ∈ ds) :
    let found := brought d.key (ofShareds limits draws ds).plan.queries
    Parts (Holds (need limits.ignoreState d).ranges) found ∧
      ∀ a, Whole a → Holds (need limits.ignoreState d).ranges a → Holds found a := by
  intro found
  let ss := slices ((ds.map (need limits.ignoreState)).map (·.ranges)) limits.maxSpan
    limits.maxSpan
  have hslices := parts_slices limits hds limits.maxSpan limits.maxSpan
  have hneed : ∀ r ∈ (need limits.ignoreState d).ranges, r.Proper := need_proper (hds d hd)
  have hone : ∀ s ∈ ss, ∀ t ∈ [s], t.Proper := fun s hs t ht =>
    List.mem_singleton.mp ht ▸ hslices.proper s hs
  have hfilter : (ds.map (need limits.ignoreState)).filter (·.key = d.key) =
      [need limits.ignoreState d] := by
    rw [List.filter_map]
    exact congrArg (List.map _) (filter_key hkeys hd)
  have hperm : found.Perm
      (ss.flatMap fun s => intersect (need limits.ignoreState d).ranges [s]) := by
    refine (brought_shareds hmax ss).trans (.of_eq ?_)
    simp only [hfilter, List.flatMap_singleton]
  have hcut : ∀ s ∈ ss, ∀ a, Whole a →
      (Holds (intersect (need limits.ignoreState d).ranges [s]) a ↔
        a ∈ s ∧ Holds (need limits.ignoreState d).ranges a) := fun s hs a ha => by
    rw [holds_intersect hneed (hone s hs) ha, and_comm]
    simp
  constructor
  · refine (hslices.refine fun s hs => ?_).of_perm hperm.symm
    exact (normal_intersect hneed (hone s hs)).parts.mono fun a ha => (hcut s hs a ha).mp
  · intro a ha hm
    rw [Holds.of_perm hperm, holds_flatMap]
    obtain ⟨s, hs, has⟩ := holds_slices hds limits.maxSpan limits.maxSpan hd ha hm
    exact ⟨s, hs, (hcut s hs a ha).mpr ⟨has, hm⟩⟩

end Shared

/-- **Exactness.** A shared plan brings each product exactly what it needs: its ranges over all
queries have no block in common, and together they are what the product never asked for, and what
waits for a retry unless states are ignored. -/
theorem shareds_exact {limits : Limits} {ds : List (ProductRanges BlockNumber)}
    (accepted : check limits ds = .ok ())
    (valid : ∀ d ∈ ds, ∀ r ∈ d.covered ++ d.toRetry, r.Valid) (draws : Draws) :
    ∀ d ∈ ds,
      let found := brought d.key (ofShareds limits draws ds).plan.queries
      (∀ r ∈ found, r.Valid) ∧ (found.Pairwise fun r s => ∀ b, b ∈ r → b ∉ s) ∧
        ∀ b, Holds found b ↔ Holds (d.computeNeeded limits.ignoreState) b ∨
          limits.ignoreState = false ∧ Holds d.toRetry b := by
  intro d hd found
  obtain ⟨hkeys, hfull⟩ := check_eq_ok accepted
  have hds : ∀ e ∈ ds, ProperRanges e := fun e he =>
    ⟨proper_block.mpr (hfull e he),
      fun r hr => proper_block.mpr (valid e he r (List.mem_append_left _ hr)),
      fun r hr => proper_block.mpr (valid e he r (List.mem_append_right _ hr))⟩
  obtain ⟨hparts, hall⟩ := parts_brought_shareds draws (maxProducts_pos accepted) hkeys hds hd
  refine ⟨fun r hr => (hparts.proper r hr).valid,
    hparts.separate.imp fun h b => h b (whole_block b), fun b => ?_⟩
  rw [← holds_need (hds d hd) (whole_block b)]
  refine ⟨?_, hall b (whole_block b)⟩
  rintro ⟨r, hr, hm⟩
  exact hparts.inside r hr b (whole_block b) hm

/-- Three products over three slices, two of them to the query. The first product has imported and
failed blocks, and needs as much of the second slice as the second product does. -/
theorem shareds_exact_sliced :
    let limits : Limits :=
      { ignoreState := false, maxProducts := 2, maxSpan := 100, maxQueries := 1 }
    let ds : List (ProductRanges BlockNumber) :=
      [⟨"one", ⟨0, 250⟩, [⟨20, 99⟩], [⟨10, 12⟩, ⟨140, 160⟩]⟩, ⟨"two", ⟨100, 299⟩, [⟨200, 249⟩], []⟩,
        ⟨"three", ⟨150, 280⟩, [], [⟨270, 290⟩]⟩]
    let found := brought "one" (ofShareds limits (fun _ => 7) ds).plan.queries
    check limits ds = .ok () ∧ (∀ d ∈ ds, ∀ r ∈ d.covered ++ d.toRetry, r.Valid) ∧
      found = [⟨0, 19⟩, ⟨100, 199⟩, ⟨200, 250⟩] ∧
      (found.Pairwise fun r s => ∀ b, b ∈ r → b ∉ s) ∧
      ∀ b, Holds found b ↔ Holds [⟨0, 9⟩, ⟨13, 19⟩, ⟨100, 139⟩, ⟨161, 250⟩] b ∨
        Holds [⟨10, 12⟩, ⟨140, 160⟩] b := by
  intro limits ds found
  have haccepted : check limits ds = .ok () := by decide +kernel
  have hvalid : ∀ d ∈ ds, ∀ r ∈ d.covered ++ d.toRetry, r.Valid := by decide +kernel
  have hd :
      (⟨"one", ⟨0, 250⟩, [⟨20, 99⟩], [⟨10, 12⟩, ⟨140, 160⟩]⟩ : ProductRanges BlockNumber) ∈ ds :=
    List.mem_cons_self ..
  obtain ⟨-, hseparate, hholds⟩ := shareds_exact haccepted hvalid (fun _ => 7) _ hd
  refine ⟨haccepted, hvalid, by decide +kernel, hseparate, fun b => (hholds b).trans ?_⟩
  have hfresh : ProductRanges.computeNeeded false ⟨"one", ⟨0, 250⟩, [⟨20, 99⟩],
      [⟨10, 12⟩, ⟨140, 160⟩]⟩ =
      ([⟨0, 9⟩, ⟨13, 19⟩, ⟨100, 139⟩, ⟨161, 250⟩] : List (Range BlockNumber)) := by
    decide +kernel
  rw [hfresh]
  simp [limits]

/-! ## The plan chosen -/

section Choose

variable [Axis.Shown α] {limits : Limits} {draws : Draws} {ds : List (ProductRanges α)}

theorem choose_parts {plan : Plan α} (h : choose limits draws ds = .ok plan)
    (hds : (∀ d ∈ ds, d.full.Valid) → ∀ d ∈ ds, ProperRanges d) {d : ProductRanges α}
    (hd : d ∈ ds) :
    Parts (Holds (need limits.ignoreState d).ranges) (brought d.key plan.queries) := by
  obtain ⟨hc, hplan⟩ := choose_eq_ok h
  obtain ⟨hkeys, hfull⟩ := check_eq_ok hc
  rcases hplan with rfl | rfl
  · rw [brought_singles hkeys hd]
    exact parts_piecesFor limits (hds hfull d hd)
  · exact (parts_brought_shareds draws (maxProducts_pos hc) hkeys (hds hfull) hd).1

end Choose

end Backfill.Plan
