import Backfill.Proofs.Cycle.Repeats

/-!
# A runner that ignores what it has imported

A runner that ignores its states takes every block for not imported yet, in each cycle anew. Nothing
tells a cycle where the one before has stopped. So what a product is brought is the same from cycle
to cycle as long as the kind of plan is: all that it wants by shared queries, and the highest blocks
of that by queries of its own, which are limited in number and in length.

Results:
* `Plan.holds_brought_ignoring`: what either kind of plan brings a product.
* `RangeContext.highest?_of_productRanges?`, `Runner.last_eq`: what a product wants ends at the same
  block in every cycle.
* `Runner.rescans_from_top`: which blocks each cycle targets, and when all are targeted in the end.
-/
namespace Backfill

open Axis Range

/-! ## Plans that ignore what was imported -/

namespace Plan

variable {α : Type} [Axis α] {limits : Limits} {ds : List (ProductRanges α)}
  {d : ProductRanges α} {a : α}

theorem piecesFor_ignoring (ignores : limits.ignoreState = true) (d : ProductRanges α) :
    piecesFor limits d = pieces .descending limits.maxSpan d.full limits.maxQueries := by
  have hone : merge [d.full] = [d.full] := rfl
  simp only [piecesFor, ignores, if_true, ProductRanges.computeNeeded, firstPieces, hone,
    List.reverse_singleton, piecesOfAll, List.append_nil]

/-- A plan that ignores what was imported brings a product its whole range if queries are shared,
and otherwise the highest positions of it, as many as fit into the queries for one product. -/
theorem holds_brought_ignoring [Axis.Shown α] {draws : Draws} {plan : Plan α}
    (h : choose limits draws ds = .ok plan) (ignores : limits.ignoreState = true)
    (hds : ∀ d ∈ ds, ProperRanges d) (hd : d ∈ ds) (ha : Whole a) :
    Holds (brought d.key plan.queries) a ↔ a ∈ d.full ∧
      ((∃ qs, plan = .addressBatch qs) ∨
        place d.full.last - place a < limits.maxQueries * limits.maxSpan) := by
  obtain ⟨hcheck, hplan⟩ := choose_eq_ok h
  have haccept := check_eq_ok_iff.mp hcheck
  rcases hplan with rfl | rfl
  · rw [brought_singles haccept.keys hd, piecesFor_ignoring ignores,
      holds_piecesDown haccept.maxSpan (hds d hd).full _ ha]
    simp [ofSingles]
  · obtain ⟨hparts, hall⟩ := parts_brought_shareds draws haccept.maxProducts haccept.keys hds hd
    have hneed : Holds (need limits.ignoreState d).ranges a ↔ a ∈ d.full := by
      rw [holds_need (hds d hd) ha, ignores]
      simp [ProductRanges.computeNeeded]
    rw [and_iff_left (.inl ⟨_, rfl⟩), ← hneed]
    refine ⟨?_, hall a ha⟩
    rintro ⟨r, hr, hm⟩
    exact hparts.inside r hr a ha hm

theorem not_shared_of_one [Axis.Shown α] {draws : Draws} {plan : Plan α}
    (h : choose limits draws ds = .ok plan) (hone : limits.maxProducts = 1) :
    ¬ ∃ qs, plan = .addressBatch qs := by
  rw [choose_of_one h hone]
  simp [ofSingles]

end Plan

/-! ## Where the history of a product ends -/

namespace RangeContext

/-- The highest block that a product may want of the history. -/
def highest? (w : RangeContext) (p : Product) : Option BlockNumber := do
  let head ← w.head?
  let last ←
    if w.behaviour.skipRecent.appliesTo p.retired then head.minus? (w.windowLen + 1) else some head
  return match w.behaviour.forced with
    | none => last
    | some bounds => least last bounds.last

/-- Whatever state a product has, its demand ends there. -/
theorem highest?_of_productRanges? {w : RangeContext} {p : Product} {s : ImportState BlockNumber}
    {d : ProductRanges BlockNumber} (historical : w.behaviour.mode = .historical)
    (h : w.productRanges? p (some s) = some d) : w.highest? p = some d.full.last := by
  obtain ⟨full, hfull, -, -, hrest⟩ := productRanges?_eq_some historical h
  have hlast : w.highest? p = some (match w.behaviour.forced with
      | none => full.last
      | some bounds => least full.last bounds.last) := by
    simp only [historicalRange?, Option.bind_eq_bind] at hfull
    obtain ⟨head, hhead, hfull⟩ := Option.bind_eq_some_iff.mp hfull
    simp only [highest?, hhead, Option.bind_eq_bind, Option.bind_some]
    split at hfull
    · obtain ⟨last, hlast, hfull⟩ := Option.bind_eq_some_iff.mp hfull
      rw [if_pos ‹_›, hlast, (between?_eq_some.mp hfull).1]
      rfl
    · rw [if_neg ‹_›, (between?_eq_some.mp hfull).1]
      rfl
  rcases hrest with ⟨hforced, heq, -⟩ | ⟨bounds, hforced, hclamp, -⟩
  · rw [hlast, hforced, heq]
  · rw [hlast, hforced, (between?_eq_some.mp hclamp).1]

theorem sound_known {w : RangeContext} {s : ImportState BlockNumber}
    (ignores : w.behaviour.ignoreState = true) : (w.known s).Sound := by
  rw [known, if_pos ignores]
  exact ImportRanges.sound_empty

end RangeContext

namespace Runner

variable {σ ρ : Type} [ImportStateStore σ BlockNumber] [LawfulImportStateStore σ BlockNumber]
  {i : Runner} {c : Conditions} {products : List Product} {b : RunnerState BlockNumber σ ρ}
  {g : Agenda}

section Ignoring

variable (historical : i.behaviour.mode = .historical) (ignores : i.behaviour.ignoreState = true)

include historical ignores

theorem proper_wanted_ignoring :
    ∀ d ∈ i.wanted c g b, Plan.ProperRanges d := by
  intro d hd
  obtain ⟨_, -, _, -, -, hdemand⟩ := wanted_spec historical d hd
  exact RangeContext.proper_of_known historical hdemand (RangeContext.sound_known ignores).toProper

variable (hg : i.agenda? c products b = some g)

include hg

/-- While states are ignored, a product is brought its whole range by shared queries, and otherwise
the highest blocks of it, as many as fit into the queries for one product. -/
theorem holds_brought_ignoring {d : ProductRanges BlockNumber} (hd : d ∈ i.wanted c g b)
    (a : BlockNumber) :
    Holds (Plan.brought d.key g.plan.queries) a ↔ a ∈ d.full ∧
      ((∃ qs, g.plan = .addressBatch qs) ∨
        d.full.last.toNat - a.toNat < i.behaviour.maxQueries * i.limits.maxSpan) := by
  rw [Plan.holds_brought_ignoring (agenda?_eq_some hg).2.2 ignores
    (proper_wanted_ignoring historical ignores) hd (whole_block a)]
  refine and_congr_right fun hm => or_congr_right ?_
  simp only [mem_def, place, coord_block, Axis.unit, Int.ediv_one, optimizerOptions] at hm ⊢
  generalize hroom : i.behaviour.maxQueries * i.limits.maxSpan = room
  rw [← Int.natCast_mul, hroom]
  omega

omit [LawfulImportStateStore σ BlockNumber] historical ignores in
theorem exists_wanted {key : String} {a : BlockNumber}
    (h : Holds (Plan.brought key g.plan.queries) a) : ∃ d ∈ i.wanted c g b, d.key = key := by
  obtain ⟨r, hr, -⟩ := h
  obtain ⟨q, hq, hbrings⟩ := Plan.mem_brought.mp hr
  exact exists_demand_of_query hg hq hbrings

end Ignoring

/-! ## Cycle after cycle -/

section Runs

variable [RecordSink ρ] {cs : Nat → Conditions} {latest : BlockNumber}

/-- The queries of some cycle are to bring the product the block. -/
def Targets (i : Runner) (cs : Nat → Conditions) (products : List Product)
    (b : RunnerState BlockNumber σ ρ) (n : Nat) (key : String) (a : BlockNumber) : Prop :=
  ∃ g, i.agenda? (cs n) products (i.stateAfter cs products b n) = some g ∧
    Holds (Plan.brought key g.plan.queries) a

variable (historical : i.behaviour.mode = .historical)
  (frontier : ∀ n, (cs n).sources.latest = .ok latest)

include historical frontier

/-- The demands of a product end at the same block in all cycles. -/
theorem last_eq {m n : Nat} {g h : Agenda}
    (hg : i.agenda? (cs m) products (i.stateAfter cs products b m) = some g)
    (hh : i.agenda? (cs n) products (i.stateAfter cs products b n) = some h)
    {d e : ProductRanges BlockNumber} (hd : d ∈ i.wanted (cs m) g (i.stateAfter cs products b m))
    (he : e ∈ i.wanted (cs n) h (i.stateAfter cs products b n)) (hkey : d.key = e.key) :
    d.full.last = e.full.last := by
  obtain ⟨hcollect, hlatest, -⟩ := agenda?_eq_some hg
  obtain ⟨hcollect', hlatest', -⟩ := agenda?_eq_some hh
  obtain ⟨p, hp, _, -, -, hdemand⟩ := wanted_spec historical d hd
  obtain ⟨q, hq, _, -, -, hdemand'⟩ := wanted_spec historical e he
  have hproducts : h.products = g.products := Except.ok.inj (hcollect'.symm.trans hcollect)
  have hheads : g.latest = h.latest :=
    Except.ok.inj ((hlatest.symm.trans (frontier m)).trans ((frontier n).symm.trans hlatest'))
  have hpq : p = q := List.inj_on_of_nodup_map (Product.collect_eq_ok hcollect).1 hp
    (hproducts ▸ hq) ((RangeContext.productRanges?_key historical hdemand).symm.trans
      (hkey.trans (RangeContext.productRanges?_key historical hdemand')))
  have hlast := RangeContext.highest?_of_productRanges? historical hdemand
  have hlast' := RangeContext.highest?_of_productRanges? historical hdemand'
  rw [hheads, hpq] at hlast
  -- what was imported last moves the window of a runner of recent blocks only
  exact Option.some.inj (hlast.symm.trans hlast')

/-- **Again from the top.** Cycles that ignore states begin anew each time. Of a product that takes
part, a cycle with shared queries targets all that it wants, and a cycle with queries for single
products the highest blocks, as many as these queries hold. So what a product wants is targeted in
full sooner or later if and only if it fits into the queries of one cycle, or some cycle that has
the product want all of it shares its queries. -/
theorem rescans_from_top (ignores : i.behaviour.ignoreState = true) (able : i.Able) :
    let initial := i.stateAfter cs products b
    let room := i.behaviour.maxQueries * i.limits.maxSpan
    (((products.filter (·.chain = i.chain)).map (·.key)).Nodup →
      ∀ n, ∃ g, i.agenda? (cs n) products (initial n) = some g) ∧
    ∀ n g, i.agenda? (cs n) products (initial n) = some g → ∀ d ∈ i.wanted (cs n) g (initial n),
      (∀ a, i.Targets cs products b n d.key a ↔ a ∈ d.full ∧
        ((∃ qs, g.plan = .addressBatch qs) ∨ d.full.last.toNat - a.toNat < room)) ∧
      ((∀ a ∈ d.full, ∃ m, i.Targets cs products b m d.key a) ↔ d.full.size < room ∨
        ∃ m h, i.agenda? (cs m) products (initial m) = some h ∧ (∃ qs, h.plan = .addressBatch qs) ∧
          ∃ e ∈ i.wanted (cs m) h (initial m), e.key = d.key ∧ ∀ a ∈ d.full, a ∈ e.full) := by
  intro initial room
  refine ⟨fun hkeys n => exists_agenda historical able (frontier n) hkeys, fun n g hg d hd => ?_⟩
  have hnow : ∀ a, i.Targets cs products b n d.key a ↔ a ∈ d.full ∧
      ((∃ qs, g.plan = .addressBatch qs) ∨ d.full.last.toNat - a.toNat < room) := by
    intro a
    rw [← holds_brought_ignoring historical ignores hg hd a]
    refine ⟨fun ⟨g', hg', hm⟩ => ?_, fun hm => ⟨g, hg, hm⟩⟩
    rwa [Option.some.inj (hg.symm.trans hg')]
  have hvalid := (proper_wanted_ignoring historical ignores d hd).full
  have hsize := size_eq_place hvalid
  simp only [place, coord_block, Axis.unit, Int.ediv_one] at hsize
  refine ⟨hnow, fun hall => ?_, ?_⟩
  · -- the lowest block decides
    obtain ⟨m, h, hh, hm⟩ := hall d.full.first hvalid.first_mem
    obtain ⟨e, he, hkey⟩ := exists_wanted hh hm
    have hlast := last_eq historical frontier hh hg he hd hkey
    obtain ⟨hfirst, hshared | hfits⟩ :=
      (holds_brought_ignoring historical ignores hh he d.full.first).mp (hkey ▸ hm)
    · refine .inr ⟨m, h, hh, hshared, e, he, hkey, fun a ha => ?_⟩
      rw [mem_def, hlast] at hfirst ⊢
      exact ⟨Int.le_trans hfirst.1 ha.1, ha.2⟩
    · rw [hlast] at hfits
      exact .inl (by omega)
  · rintro (hfits | ⟨m, h, hh, hshared, e, he, hkey, hwider⟩) a ha
    · refine ⟨n, (hnow a).mpr ⟨ha, .inr ?_⟩⟩
      simp only [mem_def, coord_block] at ha
      omega
    · refine ⟨m, h, hh, hkey ▸ ?_⟩
      exact (holds_brought_ignoring historical ignores hh he a).mpr ⟨hwider a ha, .inl hshared⟩

end Runs

end Runner

/-! ## Two vaults -/

namespace Rescan

open FourCycles (other healthy)
open StrictCycle (product initial)

def runner (maxQueries : Nat) : Runner :=
  { StrictCycle.runner with
    behaviour := { StrictCycle.runner.behaviour with ignoreState := true, maxQueries } }

def conditions (_ : Nat) : Runner.Conditions := healthy 40

theorem frontier (n : Nat) : (conditions n).sources.latest = .ok 40 := rfl

/-- In the first cycle a product takes part and wants a range. -/
def starts (i : Runner) (products : List Product) (p : Product) (full : Range BlockNumber) :
    Bool :=
  (i.agenda? (conditions 0) products initial).any fun g =>
    (i.wanted (conditions 0) g initial).any fun d => d.key = p.key ∧ d.full = full

theorem exists_of_starts {i : Runner} {products : List Product} {p : Product}
    {full : Range BlockNumber} (h : starts i products p full = true) :
    ∃ g, i.agenda? (conditions 0) products initial = some g ∧
      ∃ d ∈ i.wanted (conditions 0) g initial, d.key = p.key ∧ d.full = full := by
  obtain ⟨g, hg, hany⟩ := (Option.any_eq_true _ _).mp h
  obtain ⟨d, hd, hd'⟩ := List.any_eq_true.mp hany
  exact ⟨g, hg, d, hd, of_decide_eq_true hd'⟩

/-- Three queries hold the 21 blocks of the second vault, which are all targeted. -/
theorem rescans_from_top_vaults :
    let i := runner 3
    (∃ g, i.agenda? (conditions 0) [product, other] initial = some g ∧
      ∃ d ∈ i.wanted (conditions 0) g initial, d.key = other.key ∧ d.full = ⟨20, 40⟩) ∧
    ∀ a ∈ (⟨20, 40⟩ : Range BlockNumber), ∃ m,
      i.Targets conditions [product, other] initial m other.key a := by
  intro i
  have hstarts : starts i [product, other] other ⟨20, 40⟩ = true := by decide +kernel
  obtain ⟨g, hg, d, hd, hkey, hfull⟩ := exists_of_starts hstarts
  refine ⟨⟨g, hg, d, hd, hkey, hfull⟩, fun a ha => ?_⟩
  have hfits : d.full.size < i.behaviour.maxQueries * i.limits.maxSpan := by
    rw [hfull]
    decide
  have able : i.Able := ⟨by decide, by decide, by decide⟩
  have hall := ((Runner.rescans_from_top (b := initial) rfl frontier rfl able).2 0 g hg d hd).2
  exact hkey ▸ hall.mpr (.inl hfits) a (hfull ▸ ha)

/-- Two queries do not hold the 31 blocks of the first vault. Everything succeeds, cycle after
cycle, and its first block is never targeted. -/
theorem lowest_block_never_targeted :
    let i := runner 2
    (∀ n, (conditions n).sources.Answer) ∧
      (∃ g, i.agenda? (conditions 0) [product] initial = some g ∧
        ∃ d ∈ i.wanted (conditions 0) g initial, d.key = product.key ∧ d.full = ⟨10, 40⟩) ∧
      ∀ n, ¬ i.Targets conditions [product] initial n product.key 10 := by
  intro i
  have hstarts : starts i [product] product ⟨10, 40⟩ = true := by decide +kernel
  obtain ⟨g, hg, d, hd, hkey, hfull⟩ := exists_of_starts hstarts
  refine ⟨fun _ _ _ => ⟨_, rfl⟩, ⟨g, hg, d, hd, hkey, hfull⟩, fun n ⟨h, hh, hm⟩ => ?_⟩
  obtain ⟨e, he, hkey'⟩ := Runner.exists_wanted hh hm
  have hlast := Runner.last_eq (n := 0) rfl frontier hh hg he hd (hkey'.trans hkey.symm)
  obtain ⟨-, hshared | hfits⟩ :=
    (Runner.holds_brought_ignoring rfl rfl hh he 10).mp (hkey' ▸ hm)
  · exact Plan.not_shared_of_one (Runner.agenda?_eq_some hh).2.2 rfl hshared
  · rw [hlast, hfull] at hfits
    exact absurd hfits (by decide)

end Rescan

end Backfill
