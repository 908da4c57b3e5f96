import Backfill.Cycle.FetchedRange
import Backfill.Proofs.Plan.Targets

/-!
# Results of a cycle, position by position

The results of a cycle are cut at blocks with transfers and come from queries and loads in any
order. Seen position by position none of that shows: a position of a product has succeeded if the
query that was to bring it was answered, unless the mode is strict and a record of its block failed.

Results:
* `FetchedRange.succeeds_results`, `FetchedRange.fails_results`: the results of one fetched range.
* `FetchedRange.parts_results`: these results are parts of the range.
* `mem_ofQueries`: what is fetched, query by query.
* `succeeds_outcomes`, `fails_outcomes`: the outcomes of one product in a whole cycle.
-/
namespace Backfill

open Axis Range

/-! ## One fetched range -/

namespace FetchedRange

theorem mem_insertBlock {b c : BlockNumber} {bs : List BlockNumber} :
    c ∈ insertBlock b bs ↔ c = b ∨ c ∈ bs := by
  induction bs with
  | nil => simp [insertBlock]
  | cons d bs ih =>
    unfold insertBlock
    split
    · simp
    · split
      · next h => simp [h]
      · simp only [List.mem_cons, ih]
        exact or_left_comm

theorem mem_blocks {b : BlockNumber} {ts : List Transfer} :
    b ∈ blocks ts ↔ ∃ t ∈ ts, t.block = b := by
  induction ts with
  | nil => simp [blocks]
  | cons t ts ih =>
    change b ∈ insertBlock t.block (blocks ts) ↔ _
    rw [mem_insertBlock, ih, List.exists_mem_cons_iff, eq_comm]

theorem mem_point {b c : BlockNumber} : c ∈ Range.point b ↔ c = b := by
  simp only [mem_def, Range.point, coord_block, ← UInt64.toNat_inj]
  omega

theorem point_valid (b : BlockNumber) : (Range.point b).Valid := Int.le_refl _

theorem holds_points {b : BlockNumber} {bs : List BlockNumber} :
    Holds (bs.map Range.point) b ↔ b ∈ bs := by
  simp [Holds, mem_point]

theorem block_mem_of_select {l : Loader} {p : Product} {r : Range BlockNumber}
    {ts : List Transfer} {t : Transfer} (h : t ∈ select l p r ts) : t.block ∈ r := by
  have hkept := (List.mem_filter.mp h).2
  simp only [Bool.and_eq_true] at hkept
  exact contains_iff.mp hkept.1.2

section Results

variable {strict : Bool} {failed : List (String × BlockNumber)} {head : BlockNumber}
  {f : FetchedRange}

private theorem holds_gaps (hf : f.range.Valid) (ts : List Transfer) (b : BlockNumber) :
    Holds (exclude [f.range] ((blocks ts).map Range.point)) b ↔ b ∈ f.range ∧ b ∉ blocks ts := by
  have hpoints : ∀ r ∈ (blocks ts).map Range.point, r.Proper := by
    intro r hr
    obtain ⟨c, -, rfl⟩ := List.mem_map.mp hr
    exact proper_block.mpr (point_valid c)
  rw [holds_exclude (by simpa using hf) hpoints (whole_block b), holds_points]
  simp

theorem key_of_mem_results {o : ImportRangeResult BlockNumber}
    (h : o ∈ f.results strict failed head) : o.key = f.product.key := by
  unfold results at h
  split at h
  · rw [List.mem_singleton.mp h]
  · rcases List.mem_append.mp h with h | h
    · obtain ⟨_, -, rfl⟩ := List.mem_map.mp h
      rfl
    · obtain ⟨_, -, rfl⟩ := List.mem_map.mp h
      rfl

/-- A result is about the product and a valid range. -/
theorem results_valid (hf : f.range.Valid) {o : ImportRangeResult BlockNumber}
    (h : o ∈ f.results strict failed head) : o.key = f.product.key ∧ o.range.Valid := by
  refine ⟨key_of_mem_results h, ?_⟩
  unfold results at h
  split at h
  · rw [List.mem_singleton.mp h]
    exact hf
  · rcases List.mem_append.mp h with h | h
    · obtain ⟨gap, hgap, rfl⟩ := List.mem_map.mp h
      refine ((normal_exclude (by simpa using hf) fun r hr => ?_).proper gap hgap).valid
      obtain ⟨c, -, rfl⟩ := List.mem_map.mp hr
      exact proper_block.mpr (point_valid c)
    · obtain ⟨r, hr, rfl⟩ := List.mem_map.mp h
      obtain ⟨c, -, rfl⟩ := List.mem_map.mp hr
      exact point_valid c

private theorem sorted_insertBlock (b : BlockNumber) {bs : List BlockNumber}
    (h : bs.Pairwise (· < ·)) : (insertBlock b bs).Pairwise (· < ·) := by
  induction bs with
  | nil => simp [insertBlock]
  | cons c bs ih =>
    obtain ⟨hc, hbs⟩ := List.pairwise_cons.mp h
    unfold insertBlock
    split
    · next hlt =>
      refine List.pairwise_cons.mpr ⟨fun d hd => ?_, h⟩
      rcases List.mem_cons.mp hd with rfl | hd
      · exact hlt
      · exact UInt64.lt_trans hlt (hc d hd)
    · next hle =>
      split
      · exact h
      · next hne =>
        refine List.pairwise_cons.mpr ⟨fun d hd => ?_, ih hbs⟩
        rcases mem_insertBlock.mp hd with rfl | hd
        · exact UInt64.lt_of_le_of_ne (UInt64.not_lt.mp hle) (Ne.symm hne)
        · exact hc d hd

theorem sorted_blocks (ts : List Transfer) : (blocks ts).Pairwise (· < ·) := by
  induction ts with
  | nil => exact .nil
  | cons t ts ih => exact sorted_insertBlock t.block ih

private theorem parts_points {bs : List BlockNumber} (h : bs.Nodup) :
    Parts (· ∈ bs) (bs.map Range.point) where
  proper r hr := by
    obtain ⟨c, -, rfl⟩ := List.mem_map.mp hr
    exact proper_block.mpr (point_valid c)
  inside r hr b _ hb := by
    obtain ⟨c, hc, rfl⟩ := List.mem_map.mp hr
    exact mem_point.mp hb ▸ hc
  separate := by
    refine List.pairwise_map.mpr (h.imp fun hne b _ hb hb' => hne ?_)
    exact (mem_point.mp hb).symm.trans (mem_point.mp hb')

/-- The results for a range are parts of it. -/
theorem parts_results (hf : f.range.Valid)
    (hin : ∀ ts, f.transfers = some ts → ∀ b ∈ blocks ts, b ∈ f.range) :
    Parts (· ∈ f.range) ((f.results strict failed head).map (·.range)) := by
  unfold results
  split
  · exact ⟨by simpa using hf, by simp, by simp⟩
  · next ts hts =>
    have hpoints := parts_points ((sorted_blocks ts).imp UInt64.ne_of_lt)
    have hrange : ∀ r ∈ [f.range], r.Proper := by simpa using hf
    have hgaps := (normal_exclude hrange hpoints.proper).parts
    rw [List.map_append, List.map_map, List.map_map]
    simp only [Function.comp_def, List.map_id']
    refine ((hgaps.append hpoints) fun b _ hb => ((holds_gaps hf ts b).mp hb).2).mono
      fun b _ hb => hb.elim (fun hb => ((holds_gaps hf ts b).mp hb).1) (hin ts hts b)

private theorem point_success {x : String × BlockNumber} :
    (!(strict && failed.contains x)) = true ↔ ¬ (strict = true ∧ x ∈ failed) := by
  cases strict <;> simp

/-- Which positions of a fetched range succeed: all of them, less failed blocks in strict mode. -/
theorem succeeds_results (hf : f.range.Valid) (b : BlockNumber) :
    (∃ o ∈ f.results strict failed head, o.success = true ∧ b ∈ o.range) ↔
      ∃ ts, f.transfers = some ts ∧ (b ∈ f.range ∧ b ∉ blocks ts ∨
        b ∈ blocks ts ∧ ¬ (strict = true ∧ (f.product.key, b) ∈ failed)) := by
  unfold results
  split
  · next hnone => simp [hnone]
  · next ts hsome =>
    have hgaps := holds_gaps hf ts b
    simp only [hsome, Option.some.injEq, exists_eq_left', ← hgaps]
    constructor
    · rintro ⟨o, ho, hs, hb⟩
      rcases List.mem_append.mp ho with ho | ho
      · obtain ⟨gap, hgap, rfl⟩ := List.mem_map.mp ho
        exact .inl ⟨gap, hgap, hb⟩
      · obtain ⟨r, hr, rfl⟩ := List.mem_map.mp ho
        obtain ⟨c, hc, rfl⟩ := List.mem_map.mp hr
        obtain rfl := mem_point.mp hb
        exact .inr ⟨hc, point_success.mp hs⟩
    · rintro (⟨gap, hgap, hb⟩ | ⟨hb, hfine⟩)
      · exact ⟨_, List.mem_append_left _ (List.mem_map_of_mem hgap), rfl, hb⟩
      · exact ⟨_, List.mem_append_right _ (List.mem_map_of_mem (List.mem_map_of_mem hb)),
          point_success.mpr hfine, mem_point.mpr rfl⟩

/-- Which positions of a fetched range fail: all of them if the query failed, and failed blocks in
strict mode. -/
theorem fails_results (b : BlockNumber) :
    (∃ o ∈ f.results strict failed head, o.success = false ∧ b ∈ o.range) ↔
      (f.transfers = none ∧ b ∈ f.range) ∨
        ∃ ts, f.transfers = some ts ∧ b ∈ blocks ts ∧ strict = true ∧
          (f.product.key, b) ∈ failed := by
  unfold results
  split
  · next hnone => simp [hnone]
  · next ts hsome =>
    simp only [hsome, reduceCtorEq, false_and, false_or, Option.some.injEq, exists_eq_left']
    constructor
    · rintro ⟨o, ho, hs, hb⟩
      rcases List.mem_append.mp ho with ho | ho
      · obtain ⟨gap, -, rfl⟩ := List.mem_map.mp ho
        exact absurd hs (by simp)
      · obtain ⟨r, hr, rfl⟩ := List.mem_map.mp ho
        obtain ⟨c, hc, rfl⟩ := List.mem_map.mp hr
        obtain rfl := mem_point.mp hb
        exact ⟨hc, by simpa [Range.point] using hs⟩
    · rintro ⟨hb, hfailed⟩
      refine ⟨_, List.mem_append_right _ (List.mem_map_of_mem (List.mem_map_of_mem hb)), ?_,
        mem_point.mpr rfl⟩
      simpa [Range.point] using hfailed

end Results

/-! ## All that is fetched -/

def answer (sources : Sources) (products : List Product) (q : Plan.Query BlockNumber) :
    Except FetchError (List Transfer) :=
  sources.transfers q.range ((served products q).map (·.1.contract))

section Queries

variable {l : Loader} {sources : Sources} {products : List Product}
  {qs : List (Plan.Query BlockNumber)} {f : FetchedRange}

/-- In a list with distinct keys the product of a key is the one that has it. -/
theorem find?_key (hkeys : (products.map (·.key)).Nodup) {key : String} {p : Product} :
    products.find? (·.key = key) = some p ↔ p ∈ products ∧ p.key = key := by
  constructor
  · intro h
    exact ⟨List.mem_of_find?_eq_some h, by simpa using List.find?_some h⟩
  · rintro ⟨hp, rfl⟩
    cases h : products.find? (·.key = p.key) with
    | none => simpa using List.find?_eq_none.mp h p hp
    | some q =>
      have hq : q.key = p.key := by simpa using List.find?_some h
      rw [List.inj_on_of_nodup_map hkeys (List.mem_of_find?_eq_some h) hp hq]

theorem fst_ofQuery {q : Plan.Query BlockNumber} :
    (ofQuery l sources products q).1 =
      deal l (served products q) (answer sources products q) := by
  simp only [ofQuery, answer]
  split <;> rfl

/-- What one query brings: the product's share of the answer for each range meant for it. -/
theorem mem_ofQuery {q : Plan.Query BlockNumber} (hkeys : (products.map (·.key)).Nodup) :
    f ∈ (ofQuery l sources products q).1 ↔
      f.product ∈ products ∧ q.Brings f.product.key f.range ∧
        f.transfers = match answer sources products q with
          | .ok ts => some (select l f.product f.range ts)
          | .error _ => none := by
  rw [fst_ofQuery]
  simp only [deal, served, List.mem_flatMap, List.mem_filterMap, Option.map_eq_some_iff,
    List.mem_map, Plan.Query.Brings]
  constructor
  · rintro ⟨⟨p, rs⟩, ⟨t, ht, p', hfind, heq⟩, r, hr, rfl⟩
    cases heq
    obtain ⟨hp, hk⟩ := (find?_key hkeys).mp hfind
    exact ⟨hp, ⟨t, ht, hk.symm, hr⟩, rfl⟩
  · rintro ⟨hp, ⟨t, ht, hk, hr⟩, htransfers⟩
    refine ⟨⟨f.product, t.ranges⟩, ⟨t, ht, f.product, (find?_key hkeys).mpr ⟨hp, hk.symm⟩, rfl⟩,
      f.range, hr, ?_⟩
    cases f
    exact congrArg (FetchedRange.mk _ _) htransfers.symm

theorem mem_ofQueries (hkeys : (products.map (·.key)).Nodup) :
    f ∈ (ofQueries l sources products qs).1 ↔ ∃ q ∈ qs,
      f.product ∈ products ∧ q.Brings f.product.key f.range ∧
        f.transfers = match answer sources products q with
          | .ok ts => some (select l f.product f.range ts)
          | .error _ => none := by
  simp only [ofQueries, List.mem_flatMap, List.mem_map, exists_exists_and_eq_and, mem_ofQuery hkeys]

end Queries

/-! ## Failures -/

/-- What fails to load is one of the jobs. -/
theorem mem_of_mem_failures {ρ : Type} [RecordSink ρ] {l : Loader} {sources : Sources}
    {jobs : List (Product × Transfer)} {records : ρ} {x : Failure}
    (h : x ∈ (loadAll l sources jobs records).1) : (x.product, x.transfer) ∈ jobs := by
  induction jobs generalizing records with
  | nil => exact absurd h (by simp [loadAll])
  | cons job jobs ih =>
    obtain ⟨p, t⟩ := job
    simp only [loadAll] at h
    split at h
    · exact List.mem_cons_of_mem _ (ih h)
    · rcases List.mem_cons.mp h with rfl | h
      · exact List.mem_cons_self ..
      · exact List.mem_cons_of_mem _ (ih h)

theorem mem_jobs {fs : List FetchedRange} {p : Product} {t : Transfer} :
    (p, t) ∈ jobs fs ↔ ∃ f ∈ fs, f.product = p ∧ ∃ ts, f.transfers = some ts ∧ t ∈ ts := by
  simp only [jobs, List.mem_flatMap, List.mem_map, Prod.mk.injEq]
  constructor
  · rintro ⟨f, hf, t', ht, hp, rfl⟩
    cases hs : f.transfers with
    | none => simp [hs] at ht
    | some ts => exact ⟨f, hf, hp, ts, hs, by simpa [hs] using ht⟩
  · rintro ⟨f, hf, hp, ts, hs, ht⟩
    exact ⟨f, hf, t, by simpa [hs] using ht, hp, rfl⟩

/-- A record of the product in the block was not loaded. -/
def Failed (failures : List Failure) (p : Product) (b : BlockNumber) : Prop :=
  ∃ x ∈ failures, x.product = p ∧ x.transfer.block = b

end FetchedRange

/-! ## The outcomes of a product -/

namespace Cycle

open FetchedRange

/-- A query that was answered was to bring the product the position. -/
def Served (sources : Sources) (products : List Product) (qs : List (Plan.Query BlockNumber))
    (p : Product) (b : BlockNumber) : Prop :=
  ∃ q ∈ qs, ∃ r, q.Brings p.key r ∧ b ∈ r ∧ ∃ ts, answer sources products q = .ok ts

/-- A query that failed was to bring the product the position. -/
def Missed (sources : Sources) (products : List Product) (qs : List (Plan.Query BlockNumber))
    (p : Product) (b : BlockNumber) : Prop :=
  ∃ q ∈ qs, ∃ r, q.Brings p.key r ∧ b ∈ r ∧ ∃ fault, answer sources products q = .error fault

section Outcomes

variable {l : Loader} {sources : Sources} {products : List Product}
  {qs : List (Plan.Query BlockNumber)} {limits : Plan.Limits}
  {ds : List (ProductRanges BlockNumber)} {strict : Bool} {head : BlockNumber}
  {failures : List Failure} {p : Product} {b : BlockNumber}

theorem exists_outcomesOf {key : String} {rs : List (ImportRangeResult BlockNumber)}
    {success : Bool} :
    (∃ o ∈ outcomesOf key rs, o.success = success ∧ b ∈ o.range) ↔
      ∃ o ∈ rs, o.key = key ∧ o.success = success ∧ b ∈ o.range := by
  simp only [outcomesOf, List.mem_map, List.mem_filter, decide_eq_true_eq]
  constructor
  · rintro ⟨-, ⟨o, ⟨ho, hk⟩, rfl⟩, h⟩
    exact ⟨o, ho, hk, h⟩
  · rintro ⟨o, ho, hk, h⟩
    exact ⟨o.outcome, ⟨o, ⟨ho, hk⟩, rfl⟩, h⟩

variable (hkeys : (products.map (·.key)).Nodup) (hplan : Plan.Allotted limits ds qs)

include hkeys hplan

theorem fetched_valid {f : FetchedRange} (hf : f ∈ (ofQueries l sources products qs).1) :
    f.product ∈ products ∧ f.range.Valid := by
  obtain ⟨q, hq, hp, hb, -⟩ := (mem_ofQueries hkeys).mp hf
  exact ⟨hp, (hplan.needed q hq _ _ hb).1.valid⟩

theorem fetched_once {f f' : FetchedRange} (hf : f ∈ (ofQueries l sources products qs).1)
    (hf' : f' ∈ (ofQueries l sources products qs).1) (hp : f.product = f'.product)
    (hb : b ∈ f.range) (hb' : b ∈ f'.range) : f = f' := by
  obtain ⟨q, hq, -, hbrings, ht⟩ := (mem_ofQueries hkeys).mp hf
  obtain ⟨q', hq', -, hbrings', ht'⟩ := (mem_ofQueries hkeys).mp hf'
  obtain ⟨rfl, hr⟩ := hplan.once q hq q' hq' _ _ _ b hbrings (hp ▸ hbrings') (whole_block b) hb hb'
  cases f
  cases f'
  simp_all

omit hplan in
theorem mem_range_of_mem_blocks {f : FetchedRange} {ts : List Transfer}
    (hf : f ∈ (ofQueries l sources products qs).1) (hts : f.transfers = some ts)
    (hb : b ∈ blocks ts) : b ∈ f.range := by
  obtain ⟨q, -, -, -, ht⟩ := (mem_ofQueries hkeys).mp hf
  obtain ⟨t, hmem, rfl⟩ := mem_blocks.mp hb
  rw [hts] at ht
  split at ht
  · obtain rfl := Option.some.inj ht
    exact block_mem_of_select hmem
  · cases ht

theorem mem_map_block (hp : p ∈ products)
    (hfailures : ∀ x ∈ failures,
      (x.product, x.transfer) ∈ jobs (ofQueries l sources products qs).1) :
    (p.key, b) ∈ failures.map Failure.block ↔ Failed failures p b := by
  simp only [List.mem_map, Failure.block, Prod.mk.injEq, Failed]
  refine exists_congr fun x => and_congr_right fun hx => and_congr_left' ⟨fun hk => ?_, ?_⟩
  · obtain ⟨f, hf, hfp, -⟩ := mem_jobs.mp (hfailures x hx)
    exact List.inj_on_of_nodup_map hkeys (hfp ▸ (fetched_valid hkeys hplan hf).1) hp hk
  · rintro rfl
    rfl

/-- The results of a product are those of what was fetched for it. -/
theorem exists_results (hp : p ∈ products) {failed : List (String × BlockNumber)}
    {success : Bool} :
    (∃ o ∈ outcomesOf p.key ((ofQueries l sources products qs).1.flatMap
      (results strict failed head)), o.success = success ∧ b ∈ o.range) ↔
      ∃ f ∈ (ofQueries l sources products qs).1, f.product = p ∧
        ∃ o ∈ f.results strict failed head, o.success = success ∧ b ∈ o.range := by
  rw [exists_outcomesOf]
  simp only [List.mem_flatMap]
  constructor
  · rintro ⟨o, ⟨f, hf, ho⟩, hk, h⟩
    obtain ⟨hmem, hv⟩ := fetched_valid hkeys hplan hf
    have hkey := (results_valid hv ho).1
    exact ⟨f, hf, List.inj_on_of_nodup_map hkeys hmem hp (hkey.symm.trans hk), o, ho, h⟩
  · rintro ⟨f, hf, rfl, o, ho, h⟩
    exact ⟨o, ⟨f, hf, ho⟩, (results_valid (fetched_valid hkeys hplan hf).2 ho).1, h⟩

theorem parts_fetched {f : FetchedRange} (hf : f ∈ (ofQueries l sources products qs).1)
    {failed : List (String × BlockNumber)} :
    Parts (· ∈ f.range) ((f.results strict failed head).map (·.range)) :=
  parts_results (fetched_valid hkeys hplan hf).2 fun _ hts _ hb =>
    mem_range_of_mem_blocks hkeys hf hts hb

/-- An outcome is about blocks that some query was to bring the product. -/
theorem outcome_brought {failed : List (String × BlockNumber)} {o : RangeOutcome BlockNumber}
    (ho : o ∈ outcomesOf p.key ((ofQueries l sources products qs).1.flatMap
      (results strict failed head))) :
    o.range.Proper ∧ ∃ q ∈ qs, ∃ r, q.Brings p.key r ∧ ∀ b ∈ o.range, b ∈ r := by
  obtain ⟨r, hr, rfl⟩ := List.mem_map.mp ho
  obtain ⟨hr, hkey⟩ := List.mem_filter.mp hr
  obtain ⟨f, hf, hr⟩ := List.mem_flatMap.mp hr
  have hparts : Parts (· ∈ f.range) ((f.results strict failed head).map (·.range)) :=
    parts_fetched hkeys hplan hf
  obtain ⟨q, hq, -, hbrings, -⟩ := (mem_ofQueries hkeys).mp hf
  have hfkey := (results_valid (fetched_valid hkeys hplan hf).2 hr).1
  rw [← hfkey, of_decide_eq_true hkey] at hbrings
  have hmem := List.mem_map_of_mem (f := ImportRangeResult.range) hr
  exact ⟨hparts.proper _ hmem, q, hq, f.range, hbrings, fun b hb =>
    hparts.inside _ hmem b (whole_block b) hb⟩

theorem outcomes_valid {failed : List (String × BlockNumber)} :
    ∀ o ∈ outcomesOf p.key ((ofQueries l sources products qs).1.flatMap
      (results strict failed head)), o.range.Proper :=
  fun _ ho => (outcome_brought hkeys hplan ho).1

variable (hp : p ∈ products)
  (hfailures : ∀ x ∈ failures, (x.product, x.transfer) ∈ jobs (ofQueries l sources products qs).1)

include hp hfailures

/-- The successes of a product: what answered queries were to bring, less the blocks in which a
record failed in strict mode. -/
theorem succeeds_outcomes :
    (∃ o ∈ outcomesOf p.key ((ofQueries l sources products qs).1.flatMap
      (results strict (failures.map Failure.block) head)), o.success = true ∧ b ∈ o.range) ↔
      Served sources products qs p b ∧ ¬ (strict = true ∧ Failed failures p b) := by
  rw [exists_results hkeys hplan hp, ← mem_map_block hkeys hplan hp hfailures]
  constructor
  · rintro ⟨f, hf, rfl, ho⟩
    obtain ⟨ts, hts, hb⟩ := (succeeds_results (fetched_valid hkeys hplan hf).2 b).mp ho
    have hin : b ∈ f.range := hb.elim And.left fun hb =>
      mem_range_of_mem_blocks hkeys hf hts hb.1
    refine ⟨?_, ?_⟩
    · obtain ⟨q, hq, -, hbrings, ht⟩ := (mem_ofQueries hkeys).mp hf
      refine ⟨q, hq, f.range, hbrings, hin, ?_⟩
      rw [hts] at ht
      split at ht
      · next ts heq => exact ⟨ts, heq⟩
      · cases ht
    · rintro ⟨hstrict, hfailed⟩
      refine hb.elim (fun hb => hb.2 ?_) fun hb => hb.2 ⟨hstrict, hfailed⟩
      -- a failed record of the block was fetched with this very range
      obtain ⟨x, hx, hxp, rfl⟩ := (mem_map_block hkeys hplan hp hfailures).mp hfailed
      obtain ⟨f', hf', hfp, ts', hts', hmem⟩ := mem_jobs.mp (hfailures x hx)
      have hblock := mem_blocks.mpr ⟨x.transfer, hmem, rfl⟩
      obtain rfl := fetched_once hkeys hplan hf hf' (hxp.symm.trans hfp.symm) hin
        (mem_range_of_mem_blocks hkeys hf' hts' hblock)
      rw [hts, Option.some.injEq] at hts'
      exact hts' ▸ hblock
  · rintro ⟨⟨q, hq, r, hbrings, hin, ts, hts⟩, hfine⟩
    refine ⟨⟨p, r, some (select l p r ts)⟩, (mem_ofQueries hkeys).mpr
      ⟨q, hq, hp, hbrings, by simp [hts]⟩, rfl, ?_⟩
    refine (succeeds_results (hplan.needed q hq _ _ hbrings).1.valid b).mpr ⟨_, rfl, ?_⟩
    by_cases hblock : b ∈ blocks (select l p r ts)
    · exact .inr ⟨hblock, hfine⟩
    · exact .inl ⟨hin, hblock⟩

/-- The failures of a product: what failed queries were to bring, and the blocks in which a record
failed in strict mode. -/
theorem fails_outcomes :
    (∃ o ∈ outcomesOf p.key ((ofQueries l sources products qs).1.flatMap
      (results strict (failures.map Failure.block) head)), o.success = false ∧ b ∈ o.range) ↔
      Missed sources products qs p b ∨ (strict = true ∧ Failed failures p b) := by
  rw [exists_results hkeys hplan hp, ← mem_map_block hkeys hplan hp hfailures]
  constructor
  · rintro ⟨f, hf, rfl, ho⟩
    rcases (fails_results b).mp ho with ⟨hnone, hin⟩ | ⟨ts, -, -, h⟩
    · obtain ⟨q, hq, -, hbrings, ht⟩ := (mem_ofQueries hkeys).mp hf
      refine .inl ⟨q, hq, f.range, hbrings, hin, ?_⟩
      rw [hnone] at ht
      split at ht
      · cases ht
      · next fault heq => exact ⟨fault, heq⟩
    · exact .inr h
  · rintro (⟨q, hq, r, hbrings, hin, fault, hfault⟩ | ⟨hstrict, hfailed⟩)
    · refine ⟨⟨p, r, none⟩, (mem_ofQueries hkeys).mpr ⟨q, hq, hp, hbrings, by simp [hfault]⟩,
        rfl, ?_⟩
      exact (fails_results b).mpr (.inl ⟨rfl, hin⟩)
    · obtain ⟨x, hx, rfl, rfl⟩ := (mem_map_block hkeys hplan hp hfailures).mp hfailed
      obtain ⟨f, hf, hfp, ts, hts, hmem⟩ := mem_jobs.mp (hfailures x hx)
      refine ⟨f, hf, hfp, (fails_results _).mpr (.inr ⟨ts, hts, ?_, hstrict, hfp ▸ hfailed⟩)⟩
      exact mem_blocks.mpr ⟨x.transfer, hmem, rfl⟩

end Outcomes

end Cycle
end Backfill
