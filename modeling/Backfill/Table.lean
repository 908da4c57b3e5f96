/-!
# Tables

A table holds one value to the key and lists its keys in the order in which they came. Putting a
value under a key that is there replaces it in place.
-/
namespace Backfill

/-- Values by key. -/
structure Table (κ β : Type) where
  entries : List (κ × β) := []
  nodup : (entries.map (·.1)).Nodup := by simp

namespace Table

variable {κ β : Type}

def empty : Table κ β := {}

instance : Inhabited (Table κ β) := ⟨empty⟩

def size (t : Table κ β) : Nat := t.entries.length

def keys (t : Table κ β) : List κ := t.entries.map (·.1)

variable [DecidableEq κ]

def find (k : κ) : List (κ × β) → Option β
  | [] => none
  | (k', v) :: rest => if k' = k then some v else find k rest

/-- Replaces the value under a key, or adds it at the end. -/
def place (k : κ) (v : β) : List (κ × β) → List (κ × β)
  | [] => [(k, v)]
  | (k', v') :: rest => if k' = k then (k, v) :: rest else (k', v') :: place k v rest

theorem map_fst_place (k : κ) (v : β) (es : List (κ × β)) :
    (place k v es).map (·.1) = if k ∈ es.map (·.1) then es.map (·.1) else es.map (·.1) ++ [k] := by
  induction es with
  | nil => simp [place]
  | cons e rest ih =>
    obtain ⟨k', v'⟩ := e
    unfold place
    by_cases h : k' = k
    · simp [h]
    · have h' : k ≠ k' := fun e => h e.symm
      rw [if_neg h, List.map_cons, ih]
      by_cases hm : k ∈ rest.map (·.1) <;> simp_all

theorem nodup_place {k : κ} {v : β} {es : List (κ × β)} (h : (es.map (·.1)).Nodup) :
    ((place k v es).map (·.1)).Nodup := by
  rw [map_fst_place]
  split
  · exact h
  · next hk =>
    rw [List.nodup_append]
    refine ⟨h, by simp, fun a ha b hb => ?_⟩
    rintro rfl
    simp only [List.mem_singleton] at hb
    exact hk (hb ▸ ha)

def get? (t : Table κ β) (k : κ) : Option β := find k t.entries

def put (t : Table κ β) (k : κ) (v : β) : Table κ β := ⟨place k v t.entries, nodup_place t.nodup⟩

def erase (t : Table κ β) (k : κ) : Table κ β :=
  ⟨t.entries.filter (·.1 ≠ k), (List.filter_sublist.map _).nodup t.nodup⟩

/-- The table in which later values replace earlier ones. -/
def ofList (es : List (κ × β)) : Table κ β := es.foldl (fun t e => t.put e.1 e.2) empty

@[simp] theorem get?_empty (k : κ) : (empty : Table κ β).get? k = none := rfl

theorem find_place (k k' : κ) (v : β) (es : List (κ × β)) :
    find k' (place k v es) = if k = k' then some v else find k' es := by
  induction es with
  | nil => simp [place, find]
  | cons e rest ih =>
    obtain ⟨k₁, v₁⟩ := e
    unfold place
    by_cases h : k₁ = k
    · subst h; by_cases hk : k₁ = k' <;> simp [find, hk]
    · by_cases h₁ : k₁ = k'
      · subst h₁
        have h' : k ≠ k₁ := fun e => h e.symm
        simp [find, h, h']
      · simp [find, h, h₁, ih]

@[simp] theorem get?_put (t : Table κ β) (k k' : κ) (v : β) :
    (t.put k v).get? k' = if k = k' then some v else t.get? k' := find_place ..

@[simp] theorem get?_erase (t : Table κ β) (k k' : κ) :
    (t.erase k).get? k' = if k = k' then none else t.get? k' := by
  simp only [get?, erase]
  induction t.entries with
  | nil => simp [find]
  | cons e rest ih =>
    obtain ⟨k₁, v₁⟩ := e
    by_cases h : k₁ = k
    · subst h
      by_cases hk : k₁ = k'
      · subst hk; simpa [find] using ih
      · simp_all [find]
    · by_cases h₁ : k₁ = k'
      · subst h₁
        have h' : k ≠ k₁ := fun e => h e.symm
        simp [find, h, h']
      · simpa [find, h, h₁] using ih

theorem get?_isSome_iff (t : Table κ β) (k : κ) : (t.get? k).isSome ↔ k ∈ t.keys := by
  simp only [get?, keys]
  induction t.entries with
  | nil => simp [find]
  | cons e rest ih =>
    obtain ⟨k₁, v₁⟩ := e
    by_cases h : k₁ = k
    · simp [find, h]
    · have h' : k ≠ k₁ := fun e => h e.symm
      simp only [find, h, if_false, ih, List.map_cons, List.mem_cons, h', false_or]

end Table
end Backfill
