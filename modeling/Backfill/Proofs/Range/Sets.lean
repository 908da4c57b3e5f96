import Backfill.Proofs.Range.Grid

/-!
# Lists of ranges as sets

What `merge`, `intersect` and `exclude` hold, for proper ranges in any order, overlapping or not.

Results:
* `normal_merge`, `holds_merge`: merging gives the normal form of the same positions.
* `spaced_mergeWithin`, `holds_mergeWithin`: merging over holes leaves none of them and loses
  nothing.
* `normal_exclude`, `holds_exclude`: the positions of the first list only, in normal form.
* `normal_intersect`, `holds_intersect`: the positions of both lists, in normal form.
* `encloses_cover`: a cover is the smallest range that encloses the list.
-/
namespace Backfill.Range

open Axis

variable {α : Type} [Axis α] {a : α}

/-! ## Sorting -/

theorem precedes_total (r s : Range α) : r.precedes s = true ∨ s.precedes r = true := by
  simp only [precedes, Bool.or_eq_true, Bool.and_eq_true, decide_eq_true_eq, beq_iff_eq]
  omega

theorem precedes_trans (r s t : Range α) (h : r.precedes s = true) (h' : s.precedes t = true) :
    r.precedes t = true := by
  simp only [precedes, Bool.or_eq_true, Bool.and_eq_true, decide_eq_true_eq, beq_iff_eq] at *
  omega

theorem precedes_antisymm (r s : Range α) (h : r.precedes s = true) (h' : s.precedes r = true) :
    r = s := by
  simp only [precedes, Bool.or_eq_true, Bool.and_eq_true, decide_eq_true_eq, beq_iff_eq] at h h'
  have hfirst : r.first = s.first := coord_inj (by omega)
  have hlast : r.last = s.last := coord_inj (by omega)
  cases r
  cases s
  exact congr (congrArg Range.mk hfirst) hlast

theorem mergeWithin_of_perm {gap : Nat} {rs ss : List (Range α)} (h : rs.Perm ss) :
    mergeWithin gap rs = mergeWithin gap ss := by
  have hsort : sort rs = sort ss :=
    sortBy_of_perm precedes_total precedes_trans precedes_antisymm h
  rw [mergeWithin, mergeWithin, hsort]

structure Ascending (rs : List (Range α)) : Prop where
  proper : ∀ r ∈ rs, r.Proper
  sorted : rs.Pairwise fun r s => place r.first ≤ place s.first

theorem ascending_sort {rs : List (Range α)} (h : ∀ r ∈ rs, r.Proper) : Ascending (sort rs) := by
  have hp : ∀ r ∈ sort rs, r.Proper := fun r hr => h r (mem_sortBy.mp hr)
  refine ⟨hp, ?_⟩
  refine (pairwise_sortBy precedes_total precedes_trans rs).imp_of_mem fun hr hs hle => ?_
  rw [place_le_place (hp _ hr).first (hp _ hs).first]
  simp only [precedes, Bool.or_eq_true, Bool.and_eq_true, decide_eq_true_eq, beq_iff_eq] at hle
  omega

namespace Ascending

variable {r s : Range α} {rest : List (Range α)}

theorem head (h : Ascending (r :: rest)) : r.Proper := h.proper r (by simp)

theorem tail (h : Ascending (r :: rest)) : Ascending rest :=
  ⟨fun t ht => h.proper t (List.mem_cons_of_mem _ ht), (List.pairwise_cons.mp h.sorted).2⟩

theorem first_le (h : Ascending (r :: rest)) {t : Range α} (ht : t ∈ rest) :
    place r.first ≤ place t.first := (List.pairwise_cons.mp h.sorted).1 t ht

end Ascending

/-! ## Union -/

def grown (r s : Range α) : Range α := ⟨r.first, greatest r.last s.last⟩

theorem place_grown_last {r s : Range α} (hr : r.Proper) (hs : s.Proper) :
    place (grown r s).last = max (place r.last) (place s.last) := place_greatest hr.last hs.last

theorem proper_grown {r s : Range α} (hr : r.Proper) (hs : s.Proper) :
    (grown r s).Proper := by
  have hw := whole_greatest hr.last hs.last
  refine ⟨hr.first, hw, (place_le_place hr.first hw).mp ?_⟩
  have := hr.place_le
  have := place_grown_last hr hs
  simp only [grown] at *
  omega

theorem mem_grown {r s : Range α} (hr : r.Proper) (hs : s.Proper)
    (hfirst : place r.first ≤ place s.first) (ha : Whole a) :
    a ∈ grown r s ↔ a ∈ r ∨ a ∈ s ∨ place r.last < place a ∧ place a < place s.first := by
  have hrle := hr.place_le
  have hsle := hs.place_le
  rw [(proper_grown hr hs).mem_iff ha, place_grown_last hr hs, hr.mem_iff ha, hs.mem_iff ha]
  simp only [grown]
  omega

theorem Ascending.grow {r s : Range α} {rest : List (Range α)}
    (h : Ascending (r :: s :: rest)) : Ascending (grown r s :: rest) := by
  refine ⟨fun t ht => ?_, List.pairwise_cons.mpr ⟨fun t ht => ?_, h.tail.tail.sorted⟩⟩
  · rcases List.mem_cons.mp ht with rfl | ht
    · exact proper_grown h.head h.tail.head
    · exact h.tail.tail.proper t ht
  · exact h.first_le (List.mem_cons_of_mem _ ht)

theorem spaced_fuseFrom (gap : Nat) {r : Range α} {rest : List (Range α)}
    (h : Ascending (r :: rest)) :
    Spaced gap (fuseFrom gap r rest) ∧
      ∀ t ∈ fuseFrom gap r rest, place r.first ≤ place t.first := by
  induction rest generalizing r with
  | nil => simpa [fuseFrom] using Spaced.singleton h.head
  | cons s rest ih =>
    rw [fuseFrom]
    split
    · exact ih h.grow
    · next hfar =>
      rw [le_coord_stepUp h.tail.head.first h.head.last] at hfar
      obtain ⟨hspaced, hge⟩ := ih h.tail
      have hrs := h.first_le (List.mem_cons_self ..)
      refine ⟨hspaced.cons h.head fun t ht => ?_, fun t ht => ?_⟩
      · have := hge t ht
        omega
      · rcases List.mem_cons.mp ht with rfl | ht
        · exact Int.le_refl _
        · exact Int.le_trans hrs (hge t ht)

theorem holds_fuseFrom (gap : Nat) {r : Range α} {rest : List (Range α)}
    (h : Ascending (r :: rest)) (ha : Whole a) (hm : Holds (r :: rest) a) :
    Holds (fuseFrom gap r rest) a := by
  induction rest generalizing r with
  | nil => exact hm
  | cons s rest ih =>
    rw [fuseFrom]
    simp only [holds_cons] at hm ih ⊢
    split
    · refine ih h.grow ?_
      have hrs := h.first_le (List.mem_cons_self ..)
      change a ∈ grown r s ∨ _
      rw [mem_grown h.head h.tail.head hrs ha]
      rcases hm with hm | hm | hm
      · exact .inl (.inl hm)
      · exact .inl (.inr (.inl hm))
      · exact .inr hm
    · rcases hm with hm | hm
      · simp [hm]
      · simp [ih h.tail hm]

/-- A range that takes in only what touches it gains no position. -/
theorem holds_of_fuseFrom {r : Range α} {rest : List (Range α)} (h : Ascending (r :: rest))
    (ha : Whole a) (hm : Holds (fuseFrom 1 r rest) a) : Holds (r :: rest) a := by
  induction rest generalizing r with
  | nil => exact hm
  | cons s rest ih =>
    rw [fuseFrom] at hm
    simp only [holds_cons] at ih ⊢
    split at hm
    · next hnear =>
      rw [le_coord_stepUp h.tail.head.first h.head.last] at hnear
      rcases ih h.grow hm with hm | hm
      · rw [mem_grown h.head h.tail.head (h.first_le (List.mem_cons_self ..)) ha] at hm
        rcases hm with hm | hm | hm
        · exact .inl hm
        · exact .inr (.inl hm)
        · omega
      · exact .inr (.inr hm)
    · rcases (holds_cons ..).mp hm with hm | hm
      · exact .inl hm
      · exact .inr (ih h.tail hm)

section Merge

variable {rs : List (Range α)}

theorem spaced_mergeWithin (gap : Nat) (h : ∀ r ∈ rs, r.Proper) :
    Spaced gap (mergeWithin gap rs) := by
  have hasc := ascending_sort h
  unfold mergeWithin fuse
  split
  · exact .nil
  · next heq => exact (spaced_fuseFrom gap (heq ▸ hasc)).1

theorem holds_mergeWithin (gap : Nat) (h : ∀ r ∈ rs, r.Proper) (ha : Whole a)
    (hm : Holds rs a) : Holds (mergeWithin gap rs) a := by
  have hasc := ascending_sort h
  have hm := (Holds.of_perm (sortBy_perm precedes rs)).mpr hm
  unfold mergeWithin fuse
  change Holds (sort rs) a at hm
  split
  · next heq => rwa [heq] at hm
  · next heq => exact holds_fuseFrom gap (heq ▸ hasc) ha (heq ▸ hm)

theorem normal_merge (h : ∀ r ∈ rs, r.Proper) : Normal (merge rs) := spaced_mergeWithin 1 h

theorem holds_merge (h : ∀ r ∈ rs, r.Proper) (ha : Whole a) :
    Holds (merge rs) a ↔ Holds rs a := by
  refine ⟨fun hm => ?_, holds_mergeWithin 1 h ha⟩
  have hasc := ascending_sort h
  apply (Holds.of_perm (sortBy_perm precedes rs)).mp
  change Holds (sort rs) a
  unfold merge mergeWithin fuse at hm
  split at hm
  · exact absurd hm (holds_nil a)
  · next heq => exact heq ▸ holds_of_fuseFrom (heq ▸ hasc) ha hm

end Merge

/-! ## Intersection -/

theorem proper_clamp {r s t : Range α} (hr : r.Proper) (hs : s.Proper) (h : r.clamp s = some t) :
    t.Proper := by
  obtain ⟨rfl, hv⟩ := between?_eq_some.mp h
  exact ⟨whole_greatest hr.first hs.first, whole_least hr.last hs.last, hv⟩

theorem holds_clamp (r s : Range α) (a : α) :
    Holds (r.clamp s).toList a ↔ a ∈ r ∧ a ∈ s := by
  cases h : r.clamp s with
  | some t => simpa using mem_clamp h a
  | none =>
    simp only [Option.toList_none, holds_nil, false_iff, mem_def]
    simp only [clamp, between?, coord_greatest, coord_least, ite_eq_right_iff, reduceCtorEq,
      imp_false] at h
    omega

/-- What a sweep holds is in both lists: of two ranges the one that ends first is done, because what
follows the other begins behind its end. -/
theorem holds_sweep {rs ss : List (Range α)} (hr : Normal rs) (hs : Normal ss) (ha : Whole a) :
    Holds (sweep rs ss) a ↔ Holds rs a ∧ Holds ss a := by
  fun_induction sweep rs ss with
  | case1 r rs s ss ih1 ih2 =>
    rw [holds_append, holds_clamp]
    have hlt := place_lt_place hr.head.last hs.head.last
    have htail := fun h => hr.place_lt_of_holds (a := a) ha h
    have htail' := fun h => hs.place_lt_of_holds (a := a) ha h
    split
    · next hends =>
      rw [ih1 hr.tail hs]
      simp only [holds_cons, hr.head.mem_iff ha, hs.head.mem_iff ha]
      constructor
      · rintro (⟨h, h'⟩ | ⟨h, h'⟩)
        · exact ⟨.inl h, .inl h'⟩
        · exact ⟨.inr h, h'⟩
      · rintro ⟨h | h, h'⟩
        · rcases h' with h' | h'
          · exact .inl ⟨h, h'⟩
          · have := htail' h'
            omega
        · exact .inr ⟨h, h'⟩
    · next hends =>
      rw [ih2 hr hs.tail]
      simp only [holds_cons, hr.head.mem_iff ha, hs.head.mem_iff ha]
      constructor
      · rintro (⟨h, h'⟩ | ⟨h, h'⟩)
        · exact ⟨.inl h, .inl h'⟩
        · exact ⟨h, .inr h'⟩
      · rintro ⟨h, h' | h'⟩
        · rcases h with h | h
          · exact .inl ⟨h, h'⟩
          · have := htail h
            omega
        · exact .inr ⟨h, h'⟩
  | case2 rs ss hnil =>
    cases rs with
    | nil => simp
    | cons r rs =>
      cases ss with
      | nil => simp
      | cons s ss => exact absurd rfl (hnil r rs s ss rfl)

/-- Every range of a normal list holds its first position, so a bound on what a list holds is a
bound on where its ranges begin. -/
private theorem lt_first_of_holds {rs : List (Range α)} (h : ∀ t ∈ rs, t.Proper) {n : Int}
    (hlt : ∀ a, Whole a → Holds rs a → n < place a) : ∀ t ∈ rs, n < place t.first :=
  fun t ht => hlt t.first (h t ht).first ⟨t, ht, (h t ht).first_mem⟩

theorem normal_sweep {rs ss : List (Range α)} (hr : Normal rs) (hs : Normal ss) :
    Normal (sweep rs ss) := by
  fun_induction sweep rs ss with
  | case1 r rs s ss ih1 ih2 =>
    -- the common part of the heads ends before what the rest of the sweep holds begins
    have hhead : ∀ t ∈ (r.clamp s).toList, t.Proper ∧ place t.last ≤ place r.last ∧
        place t.last ≤ place s.last := by
      intro t ht
      rw [Option.mem_toList] at ht
      have hp := proper_clamp hr.head hs.head ht
      have hm := (mem_clamp ht t.last).mp hp.last_mem
      exact ⟨hp, ((hr.head.mem_iff hp.last).mp hm.1).2, ((hs.head.mem_iff hp.last).mp hm.2).2⟩
    have hclamp : Normal (r.clamp s).toList := by
      cases h : r.clamp s with
      | none => exact .nil
      | some t => exact .singleton (hhead t (by simp [h])).1
    split
    · have ih := ih1 hr.tail hs
      refine hclamp.append ih fun t ht => ?_
      have := (hhead t ht).2.1
      refine lt_first_of_holds ih.proper fun a ha hm => ?_
      have := hr.place_lt_of_holds ha ((holds_sweep hr.tail hs ha).mp hm).1
      omega
    · have ih := ih2 hr hs.tail
      refine hclamp.append ih fun t ht => ?_
      have := (hhead t ht).2.2
      refine lt_first_of_holds ih.proper fun a ha hm => ?_
      have := hs.place_lt_of_holds ha ((holds_sweep hr hs.tail ha).mp hm).2
      omega
  | case2 => exact .nil

section Intersect

variable {rs ss : List (Range α)} (hr : ∀ r ∈ rs, r.Proper) (hs : ∀ s ∈ ss, s.Proper)

include hr hs

theorem normal_intersect : Normal (intersect rs ss) :=
  normal_sweep (normal_merge hr) (normal_merge hs)

theorem holds_intersect (ha : Whole a) :
    Holds (intersect rs ss) a ↔ Holds rs a ∧ Holds ss a := by
  rw [intersect, holds_sweep (normal_merge hr) (normal_merge hs) ha, holds_merge hr ha,
    holds_merge hs ha]

end Intersect

/-! ## Difference -/

/-- What is left of a range before a hole. -/
private theorem before_hole {r hole : Range α} (hr : r.Proper) (hh : hole.Proper) :
    let left := if coord r.first < coord hole.first then [⟨r.first, prev hole.first⟩] else []
    Normal left ∧ ∀ a, Whole a →
      (Holds left a ↔ place r.first ≤ place a ∧ place a < place hole.first) := by
  have hfirst := place_lt_place hr.first hh.first
  intro left
  unfold left
  split
  · next hroom =>
    obtain ⟨hw, hp⟩ := prev_of_lt hr.first hh.first hroom
    have hprop : Proper (⟨r.first, prev hole.first⟩ : Range α) :=
      ⟨hr.first, hw, (place_le_place hr.first hw).mp (by omega)⟩
    refine ⟨.singleton hprop, fun a ha => ?_⟩
    simp only [holds_cons, holds_nil, or_false, hprop.mem_iff ha]
    omega
  · exact ⟨.nil, fun a ha => by simp only [holds_nil, false_iff]; omega⟩

/-- What is left of a range after a hole, with what further holes leave of it. -/
private theorem after_hole {r hole : Range α} (rest : List (Range α)) {P : α → Prop}
    (hr : r.Proper) (hh : hole.Proper)
    (hrest : ∀ s : Range α, s = ⟨next hole.last, r.last⟩ → s.Proper → place s.first =
      place hole.last + 1 → Normal rest ∧ ∀ a, Whole a → (Holds rest a ↔ a ∈ s ∧ P a)) :
    let left := if coord hole.last < coord r.last then rest else []
    Normal left ∧ ∀ a, Whole a →
      (Holds left a ↔ (place hole.last < place a ∧ place a ≤ place r.last) ∧ P a) := by
  have hlast := place_lt_place hh.last hr.last
  intro left
  unfold left
  split
  · next hroom =>
    obtain ⟨hw, hp⟩ := next_of_lt hh.last hr.last hroom
    have hprop : Proper (⟨next hole.last, r.last⟩ : Range α) :=
      ⟨hw, hr.last, (place_le_place hw hr.last).mp (by omega)⟩
    obtain ⟨hn, hs⟩ := hrest _ rfl hprop hp
    refine ⟨hn, fun a ha => ?_⟩
    rw [hs a ha, hprop.mem_iff ha]
    simp only [hp]
    exact and_congr_left' (by omega)
  · refine ⟨.nil, fun a ha => ?_⟩
    simp only [holds_nil, false_iff]
    omega

/-- What holes leave of a range, none of which ends below it. -/
theorem cut_spec {r : Range α} {holes : List (Range α)} (hr : r.Proper) (hh : Normal holes)
    (hreach : ∀ h ∈ holes, place r.first ≤ place h.last) :
    Normal (cut r holes) ∧
      ∀ a, Whole a → (Holds (cut r holes) a ↔ a ∈ r ∧ ¬ Holds holes a) := by
  induction holes generalizing r with
  | nil => exact ⟨.singleton hr, fun a _ => by simp [cut]⟩
  | cons hole holes ih =>
    have hhole := hh.head
    have hle := hhole.place_le
    have hends := place_lt_place hr.last hhole.first
    have hr0 := hreach hole (List.mem_cons_self ..)
    have htail := fun a ha h => hh.place_lt_of_holds (a := a) ha h
    rw [cut]
    split
    · -- the hole lies above the range, and so do the others
      refine ⟨.singleton hr, fun a ha => ?_⟩
      simp only [holds_cons, holds_nil, or_false, hr.mem_iff ha, hhole.mem_iff ha]
      refine ⟨fun h => ⟨h, ?_⟩, And.left⟩
      rintro (h' | h')
      · omega
      · have := htail a ha h'
        omega
    · obtain ⟨hnl, hleft⟩ := before_hole hr hhole
      obtain ⟨hnr, hright⟩ := after_hole (cut ⟨next hole.last, r.last⟩ holes)
        (P := fun a => ¬ Holds holes a) hr hhole fun s heq hs hfirst => by
          subst heq
          refine ih hs hh.tail fun h hm => ?_
          have := hh.place_lt_of_mem hm
          have := (hh.tail.proper h hm).place_le
          omega
      refine ⟨hnl.append hnr fun t ht u hu => ?_, fun a ha => ?_⟩
      · have hlt := (hleft t.last (hnl.proper t ht).last).mp ⟨t, ht, (hnl.proper t ht).last_mem⟩
        have hgt := (hright u.first (hnr.proper u hu).first).mp
          ⟨u, hu, (hnr.proper u hu).first_mem⟩
        omega
      · rw [holds_append, hleft a ha, hright a ha]
        simp only [holds_cons, hr.mem_iff ha, hhole.mem_iff ha, not_or]
        have := htail a ha
        constructor
        · rintro (h | ⟨h, h'⟩)
          · exact ⟨by omega, by omega, fun h' => by have := htail a ha h'; omega⟩
          · exact ⟨by omega, by omega, h'⟩
        · rintro ⟨h, h', h''⟩
          by_cases hb : place a < place hole.first
          · exact .inl (by omega)
          · exact .inr ⟨by omega, h''⟩

/-- The holes passed over end below the range. -/
private theorem holds_dropWhile {r : Range α} {holes : List (Range α)} (hr : r.Proper)
    (hh : Normal holes) :
    let met := holes.dropWhile fun h => coord h.last < coord r.first
    Normal met ∧ (∀ h ∈ met, place r.first ≤ place h.last) ∧
      ∀ a, Whole a → a ∈ r → (Holds met a ↔ Holds holes a) := by
  induction holes with
  | nil => exact ⟨.nil, by simp, by simp⟩
  | cons hole holes ih =>
    have hlt := place_lt_place hh.head.last hr.first
    rw [List.dropWhile_cons]
    simp only [decide_eq_true_eq]
    split
    · next hbelow =>
      obtain ⟨hn, hreach, hsame⟩ := ih hh.tail
      refine ⟨hn, hreach, fun a ha hm => ?_⟩
      rw [hsame a ha hm, holds_cons, or_iff_right]
      rw [hr.mem_iff ha] at hm
      rw [hh.head.mem_iff ha]
      omega
    · refine ⟨hh, fun h hm => ?_, fun _ _ _ => .rfl⟩
      rcases List.mem_cons.mp hm with rfl | hm
      · omega
      · have := hh.place_lt_of_mem hm
        have := (hh.tail.proper h hm).place_le
        have := hh.head.place_le
        omega

private theorem cut_dropWhile_spec {r : Range α} {holes : List (Range α)} (hr : r.Proper)
    (hh : Normal holes) :
    let left := cut r (holes.dropWhile fun h => coord h.last < coord r.first)
    Normal left ∧ ∀ a, Whole a → (Holds left a ↔ a ∈ r ∧ ¬ Holds holes a) := by
  obtain ⟨hn, hreach, hsame⟩ := holds_dropWhile hr hh
  obtain ⟨hnorm, hholds⟩ := cut_spec hr hn hreach
  refine ⟨hnorm, fun a ha => ?_⟩
  rw [hholds a ha]
  exact and_congr_right fun hm => not_congr (hsame a ha hm)

section Exclude

variable {rs holes : List (Range α)}

private theorem normal_flatMap_cut (hr : Normal rs) (hh : Normal holes) :
    Normal (rs.flatMap fun r => cut r (holes.dropWhile fun h => coord h.last < coord r.first)) := by
  induction rs with
  | nil => exact .nil
  | cons r rs ih =>
    rw [List.flatMap_cons]
    obtain ⟨hnorm, hholds⟩ := cut_dropWhile_spec hr.head hh
    refine hnorm.append (ih hr.tail) fun t ht u hu => ?_
    -- what is left of the head ends inside it, and what is left of the others begins inside them
    have htp := hnorm.proper t ht
    have hin := ((hholds t.last htp.last).mp ⟨t, ht, htp.last_mem⟩).1
    rw [hr.head.mem_iff htp.last] at hin
    obtain ⟨s, hs, hu⟩ := List.mem_flatMap.mp hu
    obtain ⟨hnorm', hholds'⟩ := cut_dropWhile_spec (hr.tail.proper s hs) hh
    have hup := hnorm'.proper u hu
    have hin' := ((hholds' u.first hup.first).mp ⟨u, hu, hup.first_mem⟩).1
    rw [(hr.tail.proper s hs).mem_iff hup.first] at hin'
    have := hr.place_lt_of_mem hs
    omega

variable (hr : ∀ r ∈ rs, r.Proper) (hh : ∀ h ∈ holes, h.Proper)

include hr hh

theorem normal_exclude : Normal (exclude rs holes) :=
  normal_flatMap_cut (normal_merge hr) (normal_merge hh)

/-- A difference holds what the first list holds and the second does not. -/
theorem holds_exclude (ha : Whole a) :
    Holds (exclude rs holes) a ↔ Holds rs a ∧ ¬ Holds holes a := by
  have hn := normal_merge hr
  have hcut := fun r hm => (cut_dropWhile_spec (hn.proper r hm) (normal_merge hh)).2 a ha
  rw [exclude, holds_flatMap, ← holds_merge hr ha, ← holds_merge hh ha]
  constructor
  · rintro ⟨r, hm, hleft⟩
    obtain ⟨h, h'⟩ := (hcut r hm).mp hleft
    exact ⟨⟨r, hm, h⟩, h'⟩
  · rintro ⟨⟨r, hm, h⟩, h'⟩
    exact ⟨r, hm, (hcut r hm).mpr ⟨h, h'⟩⟩

end Exclude

/-! ## Cover -/

def Encloses (r s : Range α) : Prop := coord r.first ≤ coord s.first ∧ coord s.last ≤ coord r.last

namespace Encloses

variable {r s : Range α}

theorem refl (r : Range α) : r.Encloses r := ⟨Int.le_refl _, Int.le_refl _⟩

theorem mem (h : r.Encloses s) (ha : a ∈ s) : a ∈ r :=
  ⟨Int.le_trans h.1 ha.1, Int.le_trans ha.2 h.2⟩

theorem of_mem (hs : s.Valid) (h : ∀ a ∈ s, a ∈ r) : r.Encloses s :=
  ⟨(h s.first ⟨Int.le_refl _, hs⟩).1, (h s.last ⟨hs, Int.le_refl _⟩).2⟩

theorem valid (h : r.Encloses s) (hs : s.Valid) : r.Valid :=
  Int.le_trans h.1 (Int.le_trans hs h.2)

theorem size_le (h : r.Encloses s) : s.size ≤ r.size := by
  obtain ⟨hfirst, hlast⟩ := h
  have hle : (coord s.last - coord s.first) / unit α ≤ (coord r.last - coord r.first) / unit α :=
    Int.ediv_le_ediv unit_pos (by omega)
  simp only [size, distance]
  omega

end Encloses

private theorem encloses_foldl (b r : Range α) (rest : List (Range α)) :
    b.Encloses (rest.foldl (fun c s => ⟨least c.first s.first, greatest c.last s.last⟩) r) ↔
      b.Encloses r ∧ ∀ s ∈ rest, b.Encloses s := by
  induction rest generalizing r with
  | nil => simp
  | cons s rest ih =>
    rw [List.foldl_cons, ih, List.forall_mem_cons, ← and_assoc]
    refine and_congr_left' ?_
    simp only [Encloses, coord_least, coord_greatest]
    omega

/-- What encloses the cover of some ranges is what encloses each of them. -/
theorem encloses_cover {rs : List (Range α)} {c : Range α} (h : cover rs = some c) (b : Range α) :
    b.Encloses c ↔ ∀ r ∈ rs, b.Encloses r := by
  cases rs with
  | nil => cases h
  | cons r rest =>
    obtain rfl := Option.some.inj h
    rw [encloses_foldl, List.forall_mem_cons]

end Backfill.Range
