import Backfill.Proofs.Range.Sets
import Backfill.Time.Instant

/-!
# A list divided by another

A second list divides a first into what only the first holds and what both hold. The two parts have
no position in common, and merged they are the first list again: both sides are in normal form and
hold the same positions.

Results:
* `merge_exclude_append_intersect`: the two parts together.
* `divided`: what the parts hold, their normal forms, and the parts together.
-/
namespace Backfill.Range

open Axis

variable {α : Type} [Axis α] {rs ss : List (Range α)}

section

variable (hrs : ∀ r ∈ rs, r.Proper) (hss : ∀ s ∈ ss, s.Proper)

include hrs hss

/-- What only the first list holds and what both hold make up the first list. -/
theorem merge_exclude_append_intersect : merge (exclude rs ss ++ intersect rs ss) = merge rs := by
  have hboth : ∀ t ∈ exclude rs ss ++ intersect rs ss, t.Proper := by
    intro t ht
    rcases List.mem_append.mp ht with ht | ht
    · exact (normal_exclude hrs hss).proper t ht
    · exact (normal_intersect hrs hss).proper t ht
  refine (normal_merge hboth).ext (normal_merge hrs) fun a ha => ?_
  rw [holds_merge hboth ha, holds_merge hrs ha, holds_append, holds_exclude hrs hss ha,
    holds_intersect hrs hss ha, ← and_or_left]
  exact and_iff_left (Classical.em _).symm

/-- **Division.** A difference holds what the first list holds and the second does not, an
intersection what both hold; both are in normal form, and merged with each other they are the first
list. The lists may come in any order and overlap. -/
theorem divided :
    (∀ a, Whole a → (Holds (exclude rs ss) a ↔ Holds rs a ∧ ¬ Holds ss a)) ∧
    (∀ a, Whole a → (Holds (intersect rs ss) a ↔ Holds rs a ∧ Holds ss a)) ∧
    Normal (exclude rs ss) ∧ Normal (intersect rs ss) ∧
    merge (exclude rs ss ++ intersect rs ss) = merge rs :=
  ⟨fun _ ha => holds_exclude hrs hss ha, fun _ ha => holds_intersect hrs hss ha,
    normal_exclude hrs hss, normal_intersect hrs hss, merge_exclude_append_intersect hrs hss⟩

end

namespace EndsOfAxes

def blocks : List (Range BlockNumber) := [⟨7, 18446744073709551615⟩, ⟨0, 9⟩]

def ends : List (Range BlockNumber) := [⟨18446744073709551615, 18446744073709551615⟩, ⟨0, 0⟩]

def times : List (Range Instant) :=
  [⟨Instant.earliest, ⟨-8334601228799990000000, by decide, by decide⟩⟩]

def moments : List (Range Instant) :=
  [point ⟨-8334601228799995000000, by decide, by decide⟩]

/-- Blocks up to both ends of the axis without those ends, and times from the first one on without a
moment among them. -/
theorem divided_at_ends :
    (∀ r ∈ blocks, r.Proper) ∧ (∀ r ∈ ends, r.Proper) ∧ (∀ r ∈ times, r.Proper) ∧
      (∀ r ∈ moments, r.Proper) ∧
      exclude blocks ends = [⟨1, 18446744073709551614⟩] ∧
      merge (exclude blocks ends ++ intersect blocks ends) = merge blocks ∧
      Normal (exclude times moments) ∧
      ∀ t, Whole t → (Holds (exclude times moments) t ↔ Holds times t ∧ ¬ Holds moments t) := by
  have hblocks : ∀ r ∈ blocks, r.Proper := by decide
  have hends : ∀ r ∈ ends, r.Proper := by decide
  have htimes : ∀ r ∈ times, r.Proper := by decide
  have hmoments : ∀ r ∈ moments, r.Proper := by decide
  obtain ⟨-, -, -, -, hmerge⟩ := divided hblocks hends
  obtain ⟨hholds, -, hnormal, -⟩ := divided htimes hmoments
  exact ⟨hblocks, hends, htimes, hmoments, by decide, hmerge, hnormal, hholds⟩

end EndsOfAxes

end Backfill.Range
