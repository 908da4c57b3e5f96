import Backfill.Proofs.Plan.Orders

/-!
# Budgets and ties

A budget may cut what a product is brought by queries of its own, never what it is brought by shared
queries. Where plans of either kind take equally many queries, the sizes of what they bring decide.
Sizes count steps, so a plan that cuts its ranges more often looks smaller than one that serves as
many blocks: a cut plan for single products can be preferred to a shared plan that serves more.

Results:
* `uncut_of_lt`, `Uncut.holds`: a budget that is not used up cuts nothing, and then nothing is lost.
* `ncard_pairs`: how many blocks a plan serves, product by product.
* `tie_serves`: what the plan taken in a tie serves; `tie_serves_less`: less than the other one.
-/
namespace Backfill.Plan

open Axis Range

variable {α : Type} [Axis α] {limits : Limits}

/-! ## Budgets -/

/-- A larger budget gets the products no other queries. -/
def Uncut (limits : Limits) (ds : List (ProductRanges α)) : Prop :=
  ∀ more, limits.maxQueries ≤ more →
    singles { limits with maxQueries := more } ds = singles limits ds

section Uncut

variable {ds : List (ProductRanges α)} {d : ProductRanges α} {more : Nat}

private theorem piecesFor_of_lt (hlt : (piecesFor limits d).length < limits.maxQueries)
    (hmore : limits.maxQueries ≤ more) :
    piecesFor { limits with maxQueries := more } d = piecesFor limits d := by
  unfold piecesFor at hlt ⊢
  cases hs : limits.ignoreState with
  | true =>
    simp only [hs, if_true] at hlt ⊢
    exact firstPieces_of_lt hlt hmore
  | false =>
    simp only [hs, Bool.false_eq_true, if_false, List.length_append] at hlt ⊢
    have hfresh : firstPieces .descending limits.maxSpan more (d.computeNeeded false) =
        firstPieces .descending limits.maxSpan limits.maxQueries (d.computeNeeded false) :=
      firstPieces_of_lt (by omega) hmore
    rw [hfresh, firstPieces_of_lt (by omega) (Nat.sub_le_sub_right hmore _)]

theorem uncut_of_lt (h : ∀ d ∈ ds, (piecesFor limits d).length < limits.maxQueries) :
    Uncut limits ds := by
  intro more hmore
  induction ds with
  | nil => rfl
  | cons d ds ih =>
    rw [List.forall_mem_cons] at h
    rw [singles, List.flatMap_cons, piecesFor_of_lt h.1 hmore, ← singles, ih h.2]
    rfl

theorem Uncut.piecesFor_eq (h : Uncut limits ds) (hkeys : (ds.map (·.key)).Nodup) (hd : d ∈ ds)
    (hmore : limits.maxQueries ≤ more) :
    piecesFor { limits with maxQueries := more } d = piecesFor limits d := by
  rw [← brought_singles hkeys hd, ← brought_singles hkeys hd, ofSingles, ofSingles, h more hmore]

/-- A product that is not cut is brought all that it needs. -/
theorem Uncut.holds (h : Uncut limits ds) (hkeys : (ds.map (·.key)).Nodup) (hd : d ∈ ds)
    (hproper : ProperRanges d) {a : α} (ha : Whole a)
    (hm : Holds (need limits.ignoreState d).ranges a) : Holds (piecesFor limits d) a := by
  have hfresh : ∀ r ∈ d.computeNeeded limits.ignoreState, r.Proper := fresh_proper hproper
  -- a budget with room for every position of what is fresh and of the retries
  obtain ⟨more, hmore, hroom⟩ : ∃ more, limits.maxQueries ≤ more ∧
      steps (merge (d.computeNeeded limits.ignoreState)) +
        (merge (d.computeNeeded limits.ignoreState)).length +
        (steps (merge d.toRetry) + (merge d.toRetry).length) ≤ more :=
    ⟨_, Nat.le_add_right _ _, Nat.le_add_left _ _⟩
  have hfirst := (length_firstPieces_le hfresh .descending limits.maxSpan more).2
  rw [← h.piecesFor_eq hkeys hd hmore]
  simp only [piecesFor]
  rcases (holds_need hproper ha).mp hm with hm | ⟨hs, hm⟩
  · have hall :
      Holds (firstPieces .descending limits.maxSpan more (d.computeNeeded limits.ignoreState)) a :=
      holds_firstPieces hfresh (by omega) ha hm
    split
    · exact hall
    · exact (holds_append ..).mpr (.inl hall)
  · rw [if_neg (by simp [hs]), holds_append]
    exact .inr (holds_firstPieces hproper.toRetry (by omega) ha hm)

end Uncut

/-! ## The blocks served -/

/-- The products and blocks that queries serve. -/
def pairs (qs : List (Query BlockNumber)) : Set (String × BlockNumber) :=
  {x | Holds (brought x.1 qs) x.2}

section Pairs

variable {keys : List String} {qs : List (Query BlockNumber)}

private theorem finite_of_keys (keys : List String) (f : String → List (Range BlockNumber)) :
    {x : String × BlockNumber | x.1 ∈ keys ∧ Holds (f x.1) x.2}.Finite := by
  have hall : ({k | k ∈ keys} ×ˢ (Set.univ : Set BlockNumber)).Finite :=
    (List.finite_toSet keys).prod Set.finite_univ
  exact hall.subset fun x hx => ⟨hx.1, Set.mem_univ _⟩

private theorem ncard_of_keys (hkeys : keys.Nodup) {f : String → List (Range BlockNumber)}
    (hparts : ∀ key ∈ keys, ∃ P, Parts P (f key)) :
    {x : String × BlockNumber | x.1 ∈ keys ∧ Holds (f x.1) x.2}.ncard =
      steps (keys.flatMap f) + (keys.flatMap f).length := by
  induction keys with
  | nil => simp
  | cons key keys ih =>
    rw [List.nodup_cons] at hkeys
    rw [List.forall_mem_cons] at hparts
    obtain ⟨⟨P, hP⟩, hrest⟩ := hparts
    have hsplit : {x : String × BlockNumber | x.1 ∈ key :: keys ∧ Holds (f x.1) x.2} =
        (key, ·) '' {b | Holds (f key) b} ∪ {x | x.1 ∈ keys ∧ Holds (f x.1) x.2} := by
      ext ⟨k, b⟩
      simp only [Set.mem_ofPred_eq, List.mem_cons, Set.mem_union, Set.mem_image, Prod.mk.injEq]
      constructor
      · intro ⟨hk, hb⟩
        rcases hk with rfl | hk
        · exact .inl ⟨b, hb, rfl, rfl⟩
        · exact .inr ⟨hk, hb⟩
      · intro h
        rcases h with ⟨b, hb, rfl, rfl⟩ | ⟨hk, hb⟩
        · exact ⟨.inl rfl, hb⟩
        · exact ⟨.inr hk, hb⟩
    have hdisjoint : Disjoint ((key, ·) '' {b | Holds (f key) b})
        {x : String × BlockNumber | x.1 ∈ keys ∧ Holds (f x.1) x.2} := by
      rw [Set.disjoint_left]
      intro x hx hx'
      obtain ⟨b, -, rfl⟩ := hx
      exact hkeys.1 hx'.1
    have himage : ((key, ·) '' {b | Holds (f key) b}).ncard = steps (f key) + (f key).length := by
      rw [Set.ncard_image_of_injective _ (Prod.mk_right_injective key), ncard_holds hP]
    rw [hsplit, Set.ncard_union_eq hdisjoint (Set.toFinite _) (finite_of_keys keys f), himage,
      ih hkeys.2 hrest, List.flatMap_cons, steps_append, List.length_append]
    omega

private theorem pairs_eq (h : ∀ q ∈ qs, ∀ key r, q.Brings key r → key ∈ keys) :
    pairs qs = {x | x.1 ∈ keys ∧ Holds (brought x.1 qs) x.2} := by
  ext ⟨key, b⟩
  refine ⟨fun hx => ⟨?_, hx⟩, And.right⟩
  obtain ⟨r, hr, -⟩ := hx
  obtain ⟨q, hq, hb⟩ := mem_brought.mp hr
  exact h q hq key r hb

theorem finite_pairs (h : ∀ q ∈ qs, ∀ key r, q.Brings key r → key ∈ keys) : (pairs qs).Finite := by
  rw [pairs_eq h]
  exact finite_of_keys keys fun key => brought key qs

/-- Queries that bring each product parts serve as many blocks as the sizes of all targets together,
and one more for each range. -/
theorem ncard_pairs (hkeys : keys.Nodup) (hparts : ∀ key ∈ keys, ∃ P, Parts P (brought key qs))
    (h : ∀ q ∈ qs, ∀ key r, q.Brings key r → key ∈ keys) :
    (pairs qs).ncard = steps (targetRanges qs) + (targetRanges qs).length := by
  have hperm := targetRanges_perm hkeys h
  rw [pairs_eq h, ncard_of_keys hkeys hparts, steps_perm hperm, hperm.length_eq]

end Pairs

/-! ## Ties -/

section Ties

variable {draws : Draws} {ds : List (ProductRanges BlockNumber)}

theorem exists_parts_singles (haccept : Acceptable limits ds) (hds : ∀ d ∈ ds, ProperRanges d) :
    ∀ key ∈ ds.map (·.key), ∃ P, Parts P (brought key (ofSingles limits ds).plan.queries) := by
  intro key hk
  obtain ⟨d, hd, rfl⟩ := List.mem_map.mp hk
  rw [brought_singles haccept.keys hd]
  exact ⟨_, parts_piecesFor limits (hds d hd)⟩

theorem exists_parts_shareds (haccept : Acceptable limits ds) (hds : ∀ d ∈ ds, ProperRanges d) :
    ∀ key ∈ ds.map (·.key), ∃ P, Parts P
    (brought key (ofShareds limits draws ds).plan.queries) := by
  intro key hk
  obtain ⟨d, hd, rfl⟩ := List.mem_map.mp hk
  exact ⟨_, (parts_brought_shareds draws haccept.maxProducts haccept.keys hds hd).1⟩

theorem ncard_pairs_singles (haccept : Acceptable limits ds) (hds : ∀ d ∈ ds, ProperRanges d)
    (hfits : steps (targetRanges (ofSingles limits ds).plan.queries) < 2 ^ 64) :
    (pairs (ofSingles limits ds).plan.queries).ncard =
      (ofSingles limits ds).coverage.toNat +
        (targetRanges (ofSingles limits ds).plan.queries).length := by
  rw [coverage_ofSingles, toNat_totalSize hfits]
  exact ncard_pairs haccept.keys (exists_parts_singles haccept hds)
    fun q hq key r => key_mem_of_brings_singles hq

theorem ncard_pairs_shareds (haccept : Acceptable limits ds) (hds : ∀ d ∈ ds, ProperRanges d)
    (hfits : steps (targetRanges (ofShareds limits draws ds).plan.queries) < 2 ^ 64) :
    (pairs (ofShareds limits draws ds).plan.queries).ncard =
      (ofShareds limits draws ds).coverage.toNat +
        (targetRanges (ofShareds limits draws ds).plan.queries).length := by
  rw [coverage_ofShareds, toNat_totalSize hfits]
  exact ncard_pairs haccept.keys (exists_parts_shareds haccept hds)
    fun q hq key r => key_mem_of_brings_shareds hq

theorem pairs_singles_subset (haccept : Acceptable limits ds) (hds : ∀ d ∈ ds, ProperRanges d) :
    pairs (ofSingles limits ds).plan.queries ⊆ pairs (ofShareds limits draws ds).plan.queries := by
  intro ⟨key, b⟩ ⟨r, hr, hb⟩
  obtain ⟨q, hq, hbrings⟩ := mem_brought.mp hr
  obtain ⟨d, hd, rfl⟩ := List.mem_map.mp (key_mem_of_brings_singles hq hbrings)
  rw [brought_singles haccept.keys hd] at hr
  have hneed := (parts_piecesFor limits (hds d hd)).inside r hr b (whole_block b) hb
  exact (parts_brought_shareds draws haccept.maxProducts haccept.keys hds hd).2 b (whole_block b)
    hneed

theorem pairs_shareds_subset (haccept : Acceptable limits ds) (hds : ∀ d ∈ ds, ProperRanges d)
    (huncut : Uncut limits ds) :
    pairs (ofShareds limits draws ds).plan.queries ⊆ pairs (ofSingles limits ds).plan.queries := by
  intro ⟨key, b⟩ ⟨r, hr, hb⟩
  obtain ⟨q, hq, hbrings⟩ := mem_brought.mp hr
  obtain ⟨d, hd, rfl⟩ := List.mem_map.mp (key_mem_of_brings_shareds hq hbrings)
  have hparts := (parts_brought_shareds draws haccept.maxProducts haccept.keys hds hd).1
  have hneed := hparts.inside r hr b (whole_block b) hb
  change Holds (brought d.key _) b
  rw [brought_singles haccept.keys hd]
  exact huncut.holds haccept.keys hd (hds d hd) (whole_block b) hneed

/-- **Ties.** Where plans of either kind take equally many queries, and neither brings as many steps
as do not fit in 64 bits, the one taken brings at least as many steps: it serves as many products
and blocks as the other one, if each range counts for one less. It serves as many outright, unless
it is a plan for single products that is cut. -/
theorem tie_serves (accepted : check limits ds = .ok ())
    (valid : ∀ d ∈ ds, ∀ r ∈ d.covered ++ d.toRetry, r.Valid) (several : limits.maxProducts ≠ 1)
    (draws : Draws)
    (fits : ∀ candidate ∈ [ofSingles limits ds, ofShareds limits draws ds],
      steps (targetRanges candidate.plan.queries) < 2 ^ 64)
    (tie : (ofSingles limits ds).plan.length = (ofShareds limits draws ds).plan.length) :
    let single := (ofSingles limits ds).plan
    let shared := (ofShareds limits draws ds).plan
    ∃ plan other, choose limits draws ds = .ok plan ∧
      (plan = single ∧ other = shared ∨ plan = shared ∧ other = single) ∧
      (pairs other.queries).ncard + (targetRanges plan.queries).length ≤
        (pairs plan.queries).ncard + (targetRanges other.queries).length ∧
      ((plan = single → Uncut limits ds) →
        (pairs other.queries).ncard ≤ (pairs plan.queries).ncard) := by
  intro single shared
  have haccept := check_eq_ok_iff.mp accepted
  have hds : ∀ d ∈ ds, ProperRanges d := haccept.proper valid
  have hchoose : choose limits draws ds = .ok _ := choose_of_check accepted
  have hsingle : (pairs single.queries).ncard = (ofSingles limits ds).coverage.toNat +
      (targetRanges single.queries).length :=
    ncard_pairs_singles haccept hds (fits _ (by simp))
  have hshared : (pairs shared.queries).ncard = (ofShareds limits draws ds).coverage.toNat +
      (targetRanges shared.queries).length :=
    ncard_pairs_shareds haccept hds (fits _ (by simp))
  rw [if_neg several, better, if_pos tie] at hchoose
  by_cases hmore : (ofShareds limits draws ds).coverage < (ofSingles limits ds).coverage
  · rw [if_pos hmore] at hchoose
    rw [UInt64.lt_iff_toNat_lt] at hmore
    refine ⟨single, shared, hchoose, .inl ⟨rfl, rfl⟩, by omega, fun huncut => ?_⟩
    exact Set.ncard_le_ncard (pairs_shareds_subset haccept hds (huncut rfl))
      (finite_pairs fun q hq key r => key_mem_of_brings_singles hq)
  · rw [if_neg hmore] at hchoose
    rw [UInt64.lt_iff_toNat_lt] at hmore
    refine ⟨shared, single, hchoose, .inr ⟨rfl, rfl⟩, by omega, fun _ => ?_⟩
    exact Set.ncard_le_ncard (pairs_singles_subset haccept hds)
      (finite_pairs fun q hq key r => key_mem_of_brings_shareds hq)

/-- A tie in which the plan for single products is taken, as the shared one cuts a range more. It is
not cut, and serves as many blocks. -/
theorem tie_serves_uncut :
    let limits : Limits :=
      { ignoreState := false, maxProducts := 2, maxSpan := 10, maxQueries := 2 }
    let ds : List (ProductRanges BlockNumber) := [⟨"a", ⟨0, 9⟩, [], []⟩, ⟨"b", ⟨5, 14⟩, [], []⟩]
    let single := (ofSingles limits ds).plan
    let shared := (ofShareds limits (fun _ => 0) ds).plan
    check limits ds = .ok () ∧ (∀ d ∈ ds, ∀ r ∈ d.covered ++ d.toRetry, r.Valid) ∧
      limits.maxProducts ≠ 1 ∧ single.length = shared.length ∧
      (∀ candidate ∈ [ofSingles limits ds, ofShareds limits (fun _ => 0) ds],
        steps (targetRanges candidate.plan.queries) < 2 ^ 64) ∧
      choose limits (fun _ => 0) ds = .ok single ∧ Uncut limits ds ∧
      (pairs shared.queries).ncard + 2 ≤ (pairs single.queries).ncard + 3 ∧
      (pairs shared.queries).ncard ≤ (pairs single.queries).ncard := by
  intro limits ds single shared
  have haccepted : check limits ds = .ok () := by decide +kernel
  have hvalid : ∀ d ∈ ds, ∀ r ∈ d.covered ++ d.toRetry, r.Valid := by decide +kernel
  have hseveral : limits.maxProducts ≠ 1 := by decide
  have htie : single.length = shared.length := by decide +kernel
  have hfits : ∀ candidate ∈ [ofSingles limits ds, ofShareds limits (fun _ => 0) ds],
      steps (targetRanges candidate.plan.queries) < 2 ^ 64 := by
    have hboth : steps (targetRanges single.queries) < 2 ^ 64 ∧
        steps (targetRanges shared.queries) < 2 ^ 64 := by
      decide +kernel
    simpa using hboth
  have hchosen : choose limits (fun _ => 0) ds = .ok single := by decide +kernel
  have huncut : Uncut limits ds := uncut_of_lt (by decide +kernel)
  obtain ⟨plan, other, hplan, hboth, hsteps, hserves⟩ :=
    tie_serves haccepted hvalid hseveral (fun _ => 0) hfits htie
  obtain rfl := Except.ok.inj (hplan.symm.trans hchosen)
  have hne : single ≠ shared := by decide +kernel
  obtain rfl : other = shared := by
    rcases hboth with ⟨-, h⟩ | ⟨h, -⟩
    · exact h
    · exact absurd h hne
  have hown : (targetRanges single.queries).length = 2 := by decide +kernel
  have hcut : (targetRanges shared.queries).length = 3 := by decide +kernel
  rw [hown, hcut] at hsteps
  exact ⟨haccepted, hvalid, hseveral, htie, hfits, hchosen, huncut, hsteps,
    hserves fun _ => huncut⟩

/-- The plan for single products leaves out two blocks of the second product and cuts no range. The
shared plan serves them all, cuts a range more, and is not taken: it brings fewer steps. -/
theorem tie_serves_less :
    let limits : Limits :=
      { ignoreState := false, maxProducts := 2, maxSpan := 10, maxQueries := 1 }
    let ds : List (ProductRanges BlockNumber) :=
      [⟨"a", ⟨0, 9⟩, [], []⟩, ⟨"b", ⟨3, 14⟩, [⟨4, 4⟩], []⟩]
    let single := (ofSingles limits ds).plan
    let shared := (ofShareds limits (fun _ => 0) ds).plan
    check limits ds = .ok () ∧
      (∀ d ∈ ds, (∀ r ∈ d.covered ++ d.toRetry, r.Valid) ∧
        (d.covered ++ d.toRetry).Pairwise Separate) ∧
      (∀ candidate ∈ [ofSingles limits ds, ofShareds limits (fun _ => 0) ds],
        steps (targetRanges candidate.plan.queries) < 2 ^ 64) ∧
      single.length = shared.length ∧ choose limits (fun _ => 0) ds = .ok single ∧
      (pairs single.queries).ncard = 20 ∧ (pairs shared.queries).ncard = 21 := by
  intro limits ds single shared
  have haccepted : check limits ds = .ok () := by decide +kernel
  have hvalid : ∀ d ∈ ds, ∀ r ∈ d.covered ++ d.toRetry, r.Valid := by decide +kernel
  have haccept := check_eq_ok_iff.mp haccepted
  have hds : ∀ d ∈ ds, ProperRanges d := haccept.proper hvalid
  have hfits : steps (targetRanges single.queries) < 2 ^ 64 ∧
      steps (targetRanges shared.queries) < 2 ^ 64 := by
    decide +kernel
  refine ⟨haccepted, fun d hd => ⟨hvalid d hd, ?_⟩, by simpa using hfits, by decide +kernel,
    by decide +kernel, ?_, ?_⟩
  · simp only [ds, List.mem_cons, List.not_mem_nil, or_false] at hd
    rcases hd with rfl | rfl <;> simp
  · rw [ncard_pairs_singles haccept hds hfits.1]
    decide +kernel
  · rw [ncard_pairs_shareds haccept hds hfits.2]
    decide +kernel

end Ties

end Backfill.Plan
