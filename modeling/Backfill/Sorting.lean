/-!
# Sorting

Lists are sorted by inserting one element after the other, so what is sorted here can be evaluated
in a proof. Elements that may stand in either order keep theirs.
-/
namespace Backfill

variable {β : Type}

/-- Puts an element before the first that it may precede. -/
def insertBy (le : β → β → Bool) (x : β) : List β → List β
  | [] => [x]
  | y :: rest => if le x y then x :: y :: rest else y :: insertBy le x rest

/-- The elements in order. -/
def sortBy (le : β → β → Bool) (xs : List β) : List β := xs.foldr (insertBy le) []

@[simp] theorem sortBy_nil (le : β → β → Bool) : sortBy le [] = [] := rfl

@[simp] theorem sortBy_cons (le : β → β → Bool) (x : β) (xs : List β) :
    sortBy le (x :: xs) = insertBy le x (sortBy le xs) := rfl

theorem insertBy_perm (le : β → β → Bool) (x : β) (xs : List β) :
    (insertBy le x xs).Perm (x :: xs) := by
  induction xs with
  | nil => exact .refl _
  | cons y rest ih =>
    unfold insertBy
    split
    · exact .refl _
    · exact (ih.cons y).trans (.swap x y rest)

/-- Nothing is lost and nothing is added. -/
theorem sortBy_perm (le : β → β → Bool) (xs : List β) : (sortBy le xs).Perm xs := by
  induction xs with
  | nil => exact .refl _
  | cons x rest ih => exact (insertBy_perm le x _).trans (ih.cons x)

@[simp] theorem mem_sortBy {le : β → β → Bool} {xs : List β} {x : β} :
    x ∈ sortBy le xs ↔ x ∈ xs := (sortBy_perm le xs).mem_iff

@[simp] theorem length_sortBy (le : β → β → Bool) (xs : List β) :
    (sortBy le xs).length = xs.length := (sortBy_perm le xs).length_eq

theorem pairwise_insertBy {le : β → β → Bool}
    (total : ∀ a b, le a b = true ∨ le b a = true)
    (trans : ∀ a b c, le a b = true → le b c = true → le a c = true)
    (x : β) {xs : List β} (h : xs.Pairwise (le · · = true)) :
    (insertBy le x xs).Pairwise (le · · = true) := by
  induction xs with
  | nil => simp [insertBy]
  | cons y rest ih =>
    unfold insertBy
    rw [List.pairwise_cons] at h
    split
    · next hxy =>
      refine List.pairwise_cons.mpr ⟨fun z hz => ?_, List.pairwise_cons.mpr h⟩
      rcases List.mem_cons.mp hz with rfl | hz
      · exact hxy
      · exact trans x y z hxy (h.1 z hz)
    · next hxy =>
      refine List.pairwise_cons.mpr ⟨fun z hz => ?_, ih h.2⟩
      rcases List.mem_cons.mp ((insertBy_perm le x rest).mem_iff.mp hz) with rfl | hz
      · exact (total z y).resolve_left hxy
      · exact h.1 z hz

/-- The answer is sorted, if any two elements may stand in one order and the orders fit together. -/
theorem pairwise_sortBy {le : β → β → Bool}
    (total : ∀ a b, le a b = true ∨ le b a = true)
    (trans : ∀ a b c, le a b = true → le b c = true → le a c = true) (xs : List β) :
    (sortBy le xs).Pairwise (le · · = true) := by
  induction xs with
  | nil => exact .nil
  | cons x rest ih => exact pairwise_insertBy total trans x ih

/-- If only equal elements may stand in either order, then what is sorted does not tell in which
order the elements came. -/
theorem sortBy_of_perm {le : β → β → Bool}
    (total : ∀ a b, le a b = true ∨ le b a = true)
    (trans : ∀ a b c, le a b = true → le b c = true → le a c = true)
    (antisymm : ∀ a b, le a b = true → le b a = true → a = b) {xs ys : List β}
    (h : xs.Perm ys) : sortBy le xs = sortBy le ys := by
  have hperm : (sortBy le xs).Perm (sortBy le ys) :=
    (sortBy_perm le xs).trans (h.trans (sortBy_perm le ys).symm)
  exact hperm.eq_of_pairwise (fun a b _ _ => antisymm a b) (pairwise_sortBy total trans xs)
    (pairwise_sortBy total trans ys)

end Backfill
