import Mathlib.Data.List.Forall2
import Backfill.Proofs.Json.Numbers

/-!
# Values are read as they were written

A value is read back by the reader for its shape, however it is laid out, and whatever comes after
it in a document. A list is read if its items are and a record if its members are, with fuel for as
many as there are. A record is refused at the first member that is, and what stands behind it is not
looked at. A value that nobody knows the shape of is read as itself, unless it is nested too deeply.

Results:
* `IsScalar.takes`, `IsScalar.refuses`: a value without parts, of the wanted shape or another.
* `Takes.list`, `Takes.record`: values with parts.
* `Gathers.refuses`: a member that is refused.
* `Nests.takes_any`: a value of no known shape.
* `Takes.readOctets`, `Takes.readText`: a whole text.
-/
namespace Backfill.Json

/-! ## Readers -/

/-- A value is read as `a`, however it is laid out, and whatever may follow it. It begins with a
token, and not the end of a list, so that it is recognised where a value is awaited. -/
structure Takes {α : Type} (read : Reader α) (v : Value) (a : α) : Prop where
  opens : ∀ bs, Written v bs → ∃ b more, bs = b :: more ∧ isBlank b = false ∧ b ≠ octet ']'
  takes : ∀ gap bs rest, Blanks gap → Written v bs → Follows rest →
    read (gap ++ (bs ++ rest)) = .ok (a, rest)

/-- A value is refused, however it is laid out, and whatever may follow it. -/
def Refuses {α : Type} (read : Reader α) (v : Value) (fault : Fault) : Prop :=
  ∀ gap bs rest, Blanks gap → Written v bs → Follows rest →
    read (gap ++ (bs ++ rest)) = .error fault

/-! ## Scalars -/

/-- A value without parts has a text that is read as that value, whatever may follow it. -/
structure IsScalar (v : Value) : Prop where
  single : v.Single
  begins : ∃ b bs, octets v.scalarText = b :: bs ∧ isBlank b = false ∧ b ≠ octet ']' ∧
    ∀ rest, Follows rest → scalar? b (bs ++ rest) = some (.ok (v, rest))

theorem isScalar_text (s : String) : IsScalar (.text s) where
  single := trivial
  begins := by
    obtain ⟨bs, hbs, hread⟩ := quoted_read s
    refine ⟨octet '"', bs, hbs, by decide, by decide, fun rest _ => ?_⟩
    have h : scalar? (octet '"') (bs ++ rest) =
        some ((stringBody (bs ++ rest)).map fun x => (Value.text x.1, x.2)) := rfl
    rw [h, hread rest]
    rfl

theorem isScalar_null : IsScalar .null where
  single := trivial
  begins := ⟨octet 'n', "ull".toList.map octet, octets_ascii (s := "null") (by simp), by decide,
    by decide, fun _ _ => rfl⟩

theorem isScalar_bool (b : Bool) : IsScalar (.bool b) where
  single := trivial
  begins := by
    cases b with
    | false =>
      exact ⟨octet 'f', "alse".toList.map octet, octets_ascii (s := "false") (by simp), by decide,
        by decide, fun _ _ => rfl⟩
    | true =>
      exact ⟨octet 't', "rue".toList.map octet, octets_ascii (s := "true") (by simp), by decide,
        by decide, fun _ _ => rfl⟩

theorem isScalar_integer {n : Int} (hlow : -2 ^ 63 ≤ n) (hhigh : n < 2 ^ 64) :
    IsScalar (.integer n) where
  single := trivial
  begins := by
    obtain ⟨b, bs, hbs, hb⟩ := octets_integerText n
    have hnumber : ∀ rest, Follows rest → number (b :: (bs ++ rest)) = .ok (.integer n, rest) := by
      intro rest h
      rw [← number_integerText hlow hhigh h, hbs, List.cons_append]
    have hother : ∀ k < 256, let b := UInt8.ofNat k; (b = octet '-' ∨ isDigit b = true) →
        isBlank b = false ∧ b ≠ octet ']' ∧ b ≠ octet 'n' ∧ b ≠ octet 't' ∧ b ≠ octet 'f' ∧
          b ≠ octet '"' := by decide +kernel
    obtain ⟨hblank, hclose, hn, ht, hf, hquote⟩ :=
      hother b.toNat b.toNat_lt (by rwa [UInt8.ofNat_toNat])
    rw [UInt8.ofNat_toNat] at hblank hclose hn ht hf hquote
    refine ⟨b, bs, hbs, hblank, hclose, fun rest h => ?_⟩
    rw [scalar?, if_neg hn, if_neg ht, if_neg hf, if_neg hquote, if_pos hb, hnumber rest h]

namespace IsScalar

variable {α : Type} {v : Value} {a : α}

theorem opens (h : IsScalar v) (bs : List UInt8) (hw : Written v bs) :
    ∃ b more, bs = b :: more ∧ isBlank b = false ∧ b ≠ octet ']' := by
  obtain ⟨b, more, hbs, hblank, hclose, -⟩ := h.begins
  exact ⟨b, more, (hw.of_single h.single).trans hbs, hblank, hclose⟩

theorem takes {want : Value → Option α} (h : IsScalar v) (ha : want v = some a) :
    Takes (scalar want) v a where
  opens := h.opens
  takes gap bs rest hgap hw hrest := by
    obtain ⟨b, more, hbs, hblank, -, hread⟩ := h.begins
    rw [hw.of_single h.single, hbs, List.cons_append, scalar, skipBlanks_token hgap hblank]
    simp only [hread rest hrest, ha]

theorem refuses {want : Value → Option α} (h : IsScalar v) (hv : want v = none) :
    Refuses (scalar want) v .mismatch := by
  intro gap bs rest hgap hw hrest
  obtain ⟨b, more, hbs, hblank, -, hread⟩ := h.begins
  rw [hw.of_single h.single, hbs, List.cons_append, scalar, skipBlanks_token hgap hblank]
  simp only [hread rest hrest, hv]

end IsScalar

theorem takes_string (s : String) : Takes string (.text s) s := (isScalar_text s).takes rfl

theorem takes_bool (b : Bool) : Takes bool (.bool b) b := (isScalar_bool b).takes rfl

theorem takes_integer {lo hi n : Int} (hlo : lo ≤ n) (hhi : n ≤ hi) (hlow : -2 ^ 63 ≤ n)
    (hhigh : n < 2 ^ 64) : Takes (integer lo hi) (.integer n) n :=
  (isScalar_integer hlow hhigh).takes (if_pos ⟨hlo, hhi⟩)

theorem takes_signed (n : Int64) :
    Takes (integer (-2 ^ 63) (2 ^ 63 - 1)) (.integer n.toInt) n.toInt := by
  have hlow := n.le_toInt
  have hhigh := n.toInt_lt
  exact takes_integer (by omega) (by omega) (by omega) (by omega)

theorem takes_null {α : Type} (read : Reader α) : Takes (optional read) .null none where
  opens := isScalar_null.opens
  takes gap bs rest hgap hw hrest := by
    have htext : octets Value.null.scalarText = octet 'n' :: "ull".toList.map octet :=
      octets_ascii (s := "null") (by simp)
    have hblank : isBlank (octet 'n') = false := by decide
    rw [hw.of_single trivial, htext, List.cons_append, optional, skipBlanks_token hgap hblank]
    rfl

namespace Takes

variable {α β : Type} {read : Reader α} {v : Value} {a : α}

theorem map (h : Takes read v a) (f : α → β) :
    Takes (fun bs => do let (x, bs) ← read bs; return (f x, bs)) v (f a) where
  opens := h.opens
  takes gap bs rest hgap hw hrest := by
    simp only [h.takes gap bs rest hgap hw hrest, bind, Except.bind, pure, Except.pure]

theorem optional (h : Takes read v a)
    (hn : ∀ bs, Written v bs → ∀ b ∈ bs.head?, b ≠ octet 'n') :
    Takes (Json.optional read) v (some a) where
  opens := h.opens
  takes gap bs rest hgap hw hrest := by
    obtain ⟨b, more, rfl, hblank, -⟩ := h.opens bs hw
    have hb : b ≠ octet 'n' := hn _ hw b rfl
    have hread := h.takes gap _ rest hgap hw hrest
    rw [List.cons_append] at hread ⊢
    simp only [Json.optional, skipBlanks_token hgap hblank, if_neg hb, hread]
    rfl

theorem name {ofName? : String → Option α} {s : String} (hs : ofName? s = some a) (depth : Nat) :
    Takes (name ofName? depth) (.text s) a where
  opens := (isScalar_text s).opens
  takes gap bs rest hgap hw _ := by
    obtain ⟨more, hmore, hread⟩ := quoted_read s
    have hquote : isBlank (octet '"') = false := by decide
    rw [hw.of_single trivial, Value.scalarText, hmore, List.cons_append]
    simp only [Json.name, skipBlanks_token hgap hquote, if_true, hread, hs, bind, Except.bind, pure,
      Except.pure]

end Takes

theorem Refuses.map {α β : Type} {read : Reader α} {v : Value} {fault : Fault}
    (h : Refuses read v fault) (f : α → β) :
    Refuses (fun bs => do let (x, bs) ← read bs; return (f x, bs)) v fault := by
  intro gap bs rest hgap hw hrest
  simp only [h gap bs rest hgap hw hrest, bind, Except.bind]

/-! ## Lists -/

private theorem nextItem_open {first : Bool} {before : List UInt8} {b : UInt8}
    (h : Before first before) (hblank : isBlank b = false) (hclose : b ≠ octet ']')
    (bs : List UInt8) : nextItem first (before ++ b :: bs) = .ok (some (b :: bs)) := by
  cases h with
  | first hgap => simp [nextItem, skipBlanks_token hgap hblank, hclose]
  | next hgap hgap' =>
    have hcomma : isBlank (octet ',') = false := by decide
    have hne : octet ',' ≠ octet ']' := by decide
    simp [nextItem, skipBlanks_token hgap hcomma, skipBlanks_token hgap' hblank, hclose, hne]

/-- The items of a list, up to its end. -/
theorem items_read {α : Type} {read : Reader α} {vs : List Value} {as : List α}
    (h : List.Forall₂ (Takes read) vs as) {first : Bool} {bs gap : List UInt8}
    (hw : WrittenItems first vs bs) (hgap : Blanks gap) {fuel : Nat} (hfuel : vs.length < fuel)
    (rest : List UInt8) :
    items read fuel first (bs ++ (gap ++ octet ']' :: rest)) = .ok (as, rest) := by
  induction h generalizing first bs fuel with
  | nil =>
    obtain ⟨fuel, rfl⟩ : ∃ n, fuel = n + 1 := ⟨fuel - 1, by simp at hfuel; omega⟩
    have hclose : isBlank (octet ']') = false := by decide
    cases hw
    simp [items, nextItem, closeList, skipBlanks_token hgap hclose, bind, Except.bind, pure,
      Except.pure]
  | @cons v a vs as hv _ ih =>
    rw [List.length_cons] at hfuel
    obtain ⟨fuel, rfl⟩ : ∃ n, fuel = n + 1 := ⟨fuel - 1, by omega⟩
    cases hw with
    | @cons _ _ _ before bs more hcomma hvalue hmore =>
      have hend : Follows (more ++ (gap ++ octet ']' :: rest)) :=
        hmore.follows (hgap.follows (follows_list_end rest))
      have hread := hv.takes [] bs _ blanks_nil hvalue hend
      obtain ⟨b, bs, rfl, hblank, hclose⟩ := hv.opens bs hvalue
      have hnext := nextItem_open hcomma hblank hclose
        (bs ++ (more ++ (gap ++ octet ']' :: rest)))
      simp only [List.nil_append, List.cons_append] at hread
      simp only [items, List.append_assoc, List.cons_append, hnext, hread,
        ih hmore (Nat.lt_of_succ_lt_succ hfuel), bind, Except.bind, pure, Except.pure]

/-- Each item has an octet of its own. -/
private theorem length_le_written {α : Type} {read : Reader α} {vs : List Value} {as : List α}
    (h : List.Forall₂ (Takes read) vs as) {first : Bool} {bs : List UInt8}
    (hw : WrittenItems first vs bs) : vs.length ≤ bs.length := by
  induction h generalizing first bs with
  | nil => exact Nat.zero_le _
  | cons hv _ ih =>
    cases hw with
    | cons _ hvalue hmore =>
      obtain ⟨b, bs, rfl, -⟩ := hv.opens _ hvalue
      have := ih hmore
      simp only [List.length_append, List.length_cons]
      omega

/-- A list begins with a bracket, and its items are read from there to its end. -/
theorem items_whole {α : Type} {read : Reader α} {vs : List Value} {as : List α}
    (h : List.Forall₂ (Takes read) vs as) {bs : List UInt8} (hw : Written (.list vs) bs) :
    ∃ more, bs = octet '[' :: more ∧
      ∀ rest, items read ((more ++ rest).length + 1) true (more ++ rest) = .ok (as, rest) := by
  cases hw with
  | single hv => exact absurd hv id
  | @list _ bs gap hitems hgap =>
    refine ⟨bs ++ (gap ++ [octet ']']), rfl, fun rest => ?_⟩
    have hlength := length_le_written h hitems
    rw [List.append_assoc, List.append_assoc, List.singleton_append]
    refine items_read h hitems hgap ?_ rest
    rw [List.length_append]
    omega

theorem Takes.list {α : Type} {read : Nat → Reader α} {depth : Nat} {vs : List Value} {as : List α}
    (h : List.Forall₂ (Takes (read depth)) vs as) :
    Takes (list (depth + 1) read) (.list vs) as where
  opens bs hw := by
    obtain ⟨more, rfl, -⟩ := items_whole h hw
    exact ⟨_, _, rfl, by decide, by decide⟩
  takes gap bs rest hgap hw _ := by
    obtain ⟨more, rfl, hread⟩ := items_whole h hw
    have hblank : isBlank (octet '[') = false := by decide
    rw [List.cons_append, Json.list, skipBlanks_token hgap hblank]
    exact hread rest

theorem Takes.list_map {α : Type} {read : Nat → Reader α} {depth : Nat} {write : α → Value}
    {as : List α} (h : ∀ a ∈ as, Takes (read depth) (write a) a) :
    Takes (Json.list (depth + 1) read) (.list (as.map write)) as :=
  .list (List.forall₂_map_left_iff.mpr (List.forall₂_same.mpr h))

/-! ## Records -/

section Records

variable {ρ α : Type}

/-- Members are read one after the other into what has been gathered, each by the reader that its
key calls for. -/
inductive Gathers (member : String → ρ → Reader ρ) : List (String × Value) → ρ → ρ → Prop where
  | nil (r : ρ) : Gathers member [] r r
  | cons {k : String} {v : Value} {ms : List (String × Value)} {r r₁ r₂ : ρ} {read : Reader ρ}
      (key : ∀ bs, member k r bs = colon bs >>= read) (value : Takes read v r₁)
      (rest : Gathers member ms r₁ r₂) : Gathers member ((k, v) :: ms) r r₂

theorem Gathers.append {member : String → ρ → Reader ρ} {ms ms' : List (String × Value)}
    {r r₁ r₂ : ρ} (h : Gathers member ms r r₁) (h' : Gathers member ms' r₁ r₂) :
    Gathers member (ms ++ ms') r r₂ := by
  induction h with
  | nil => exact h'
  | cons key value _ ih => exact .cons key value (ih h')

private theorem nextKey_open {first : Bool} {before : List UInt8} (h : Before first before)
    (bs : List UInt8) : nextKey first (before ++ octet '"' :: bs) = .ok (some bs) := by
  have hquote : isBlank (octet '"') = false := by decide
  have hne : octet '"' ≠ octet '\x7d' := by decide
  cases h with
  | first hgap => simp [nextKey, skipBlanks_token hgap hquote, hne]
  | next hgap hgap' =>
    have hcomma : isBlank (octet ',') = false := by decide
    have hne' : octet ',' ≠ octet '\x7d' := by decide
    simp [nextKey, skipBlanks_token hgap hcomma, skipBlanks_token hgap' hquote, hne']

theorem members_cons {member : String → ρ → Reader ρ} {k : String} {r : ρ} {read : Reader ρ}
    (key : ∀ bs, member k r bs = colon bs >>= read) {first : Bool} {before gap : List UInt8}
    (hcomma : Before first before) (hgap : Blanks gap) (fuel : Nat) (bs : List UInt8) :
    members member (fuel + 1) first r
      (before ++ (octets (Value.quoted k) ++ (gap ++ octet ':' :: bs))) =
      (do let (r, bs) ← read bs
          members member fuel false r bs) := by
  obtain ⟨ks, hks, hread⟩ := quoted_read k
  have hblank : isBlank (octet ':') = false := by decide
  have hcolon : colon (gap ++ octet ':' :: bs) = .ok bs := by
    rw [colon, skipBlanks_token hgap hblank]
    rfl
  simp only [members, hks, List.cons_append, nextKey_open hcomma, hread, key, hcolon, bind,
    Except.bind]

/-- Members are read up to the end of their record. -/
theorem Gathers.members_read {member : String → ρ → Reader ρ} {ms : List (String × Value)}
    {r r' : ρ} (h : Gathers member ms r r') {first : Bool} {bs gap : List UInt8}
    (hw : WrittenMembers first ms bs) (hgap : Blanks gap) {fuel : Nat} (hfuel : ms.length < fuel)
    (rest : List UInt8) :
    members member fuel first r (bs ++ (gap ++ octet '\x7d' :: rest)) = .ok (r', rest) := by
  induction h generalizing first bs fuel with
  | nil r =>
    obtain ⟨fuel, rfl⟩ : ∃ n, fuel = n + 1 := ⟨fuel - 1, by simp at hfuel; omega⟩
    have hclose : isBlank (octet '\x7d') = false := by decide
    cases hw
    simp [members, nextKey, closeRecord, skipBlanks_token hgap hclose, bind, Except.bind, pure,
      Except.pure]
  | @cons k v ms r r₁ r₂ read key value _ ih =>
    rw [List.length_cons] at hfuel
    obtain ⟨fuel, rfl⟩ : ∃ n, fuel = n + 1 := ⟨fuel - 1, by omega⟩
    cases hw with
    | @cons _ _ _ _ before gap₁ gap₂ bs more hcomma hblank hblank' hvalue hmore =>
      have hend : Follows (more ++ (gap ++ octet '\x7d' :: rest)) :=
        hmore.follows (hgap.follows (follows_record_end rest))
      simp only [List.append_assoc, List.cons_append, members_cons key hcomma hblank,
        value.takes _ _ _ hblank' hvalue hend, ih hmore (Nat.lt_of_succ_lt_succ hfuel), bind,
        Except.bind]

/-- Members are read up to the first that is refused, and nothing behind it is. -/
theorem Gathers.members_refused {member : String → ρ → Reader ρ}
    {before after : List (String × Value)} {k : String} {v : Value} {start r : ρ} {read : Reader ρ}
    {fault : Fault} (h : Gathers member before start r)
    (key : ∀ bs, member k r bs = colon bs >>= read) (hv : Refuses read v fault) {first : Bool}
    {bs rest : List UInt8} (hw : WrittenMembers first (before ++ (k, v) :: after) bs)
    (hrest : Follows rest) {fuel : Nat} (hfuel : (before ++ (k, v) :: after).length < fuel) :
    members member fuel first start (bs ++ rest) = .error fault := by
  induction h generalizing first bs fuel with
  | nil r =>
    obtain ⟨fuel, rfl⟩ : ∃ n, fuel = n + 1 := ⟨fuel - 1, by omega⟩
    cases hw with
    | @cons _ _ _ _ before gap₁ gap₂ bs more hcomma hblank hblank' hvalue hmore =>
      simp only [List.append_assoc, List.cons_append, members_cons key hcomma hblank,
        hv _ _ _ hblank' hvalue (hmore.follows hrest), bind, Except.bind]
  | @cons k' v' ms r r₁ r₂ read' key' value _ ih =>
    rw [List.cons_append, List.length_cons] at hfuel
    obtain ⟨fuel, rfl⟩ : ∃ n, fuel = n + 1 := ⟨fuel - 1, by omega⟩
    cases hw with
    | @cons _ _ _ _ before gap₁ gap₂ bs more hcomma hblank hblank' hvalue hmore =>
      simp only [List.append_assoc, List.cons_append, members_cons key' hcomma hblank,
        value.takes _ _ _ hblank' hvalue (hmore.follows hrest),
        ih key hmore (Nat.lt_of_succ_lt_succ hfuel), bind, Except.bind]

theorem WrittenMembers.length_le {first : Bool} {ms : List (String × Value)} {bs : List UInt8}
    (hw : WrittenMembers first ms bs) : ms.length ≤ bs.length := by
  induction ms generalizing first bs with
  | nil => exact Nat.zero_le _
  | cons m ms ih =>
    cases hw with
    | cons _ _ _ _ hmore =>
      have := ih hmore
      simp only [List.length_append, List.length_cons]
      omega

/-- A record begins with a brace, and its members are read from there to its end. -/
theorem Gathers.whole {member : String → ρ → Reader ρ} {ms : List (String × Value)} {start r : ρ}
    (h : Gathers member ms start r) {bs : List UInt8} (hw : Written (.record ms) bs) :
    ∃ more, bs = octet '\x7b' :: more ∧
      ∀ rest, members member ((more ++ rest).length + 1) true start (more ++ rest) =
        .ok (r, rest) := by
  cases hw with
  | single hv => exact absurd hv id
  | @record _ bs gap hmembers hgap =>
    refine ⟨bs ++ (gap ++ [octet '\x7d']), rfl, fun rest => ?_⟩
    have hlength := hmembers.length_le
    rw [List.append_assoc, List.append_assoc, List.singleton_append]
    refine h.members_read hmembers hgap ?_ rest
    rw [List.length_append]
    omega

variable {fields : List (FieldReader ρ)} {depth : Nat}

theorem member_field {field : FieldReader ρ} {k : String} {r : ρ}
    (find : fields.find? (·.name = k) = some field) (has : field.has r = false) (bs : List UInt8) :
    member fields depth k r bs = colon bs >>= field.read depth r := by
  simp only [member, find, has, Bool.false_eq_true, if_false]

theorem Gathers.field {field : FieldReader ρ} {k : String} {v : Value} {ms : List (String × Value)}
    {r r₁ r₂ : ρ} (find : fields.find? (·.name = k) = some field) (has : field.has r = false)
    (value : Takes (field.read depth r) v r₁) (rest : Gathers (member fields depth) ms r₁ r₂) :
    Gathers (member fields depth) ((k, v) :: ms) r r₂ :=
  .cons (member_field find has) value rest

private theorem record_open {start : ρ} {finish : ρ → Option α} {gap : List UInt8}
    (hgap : Blanks gap) (bs : List UInt8) :
    record fields start finish (depth + 1) (gap ++ octet '\x7b' :: bs) = (do
      let (r, bs) ← members (member fields depth) (bs.length + 1) true start bs
      match finish r with
      | some a => return (a, bs)
      | none => throw .mismatch) := by
  have hblank : isBlank (octet '\x7b') = false := by decide
  rw [record, skipBlanks_token hgap hblank]
  rfl

theorem Takes.record {start r : ρ} {finish : ρ → Option α} {ms : List (String × Value)} {a : α}
    (h : Gathers (member fields depth) ms start r) (hfinish : finish r = some a) :
    Takes (record fields start finish (depth + 1)) (.record ms) a where
  opens bs hw := by
    obtain ⟨more, rfl, -⟩ := h.whole hw
    exact ⟨_, _, rfl, by decide, by decide⟩
  takes gap bs rest hgap hw _ := by
    obtain ⟨more, rfl, hread⟩ := h.whole hw
    simp only [List.cons_append, record_open hgap, hread, hfinish, bind, Except.bind, pure,
      Except.pure]

/-- A record is refused at its first member that is, whatever stands behind it. -/
theorem Gathers.refuses {start r : ρ} {finish : ρ → Option α}
    {before after : List (String × Value)} {k : String} {v : Value} {field : FieldReader ρ}
    {fault : Fault} (h : Gathers (member fields depth) before start r)
    (find : fields.find? (·.name = k) = some field) (has : field.has r = false)
    (hv : Refuses (field.read depth r) v fault) :
    Refuses (record fields start finish (depth + 1)) (.record (before ++ (k, v) :: after))
      fault := by
  intro gap bs rest hgap hw _
  cases hw with
  | single hv => exact absurd hv id
  | @record _ bs inner hmembers hinner =>
    have hend : Follows (inner ++ octet '\x7d' :: rest) :=
      hinner.follows (follows_record_end rest)
    have hlength := hmembers.length_le
    have hfuel : (before ++ (k, v) :: after).length <
        (bs ++ (inner ++ octet '\x7d' :: rest)).length + 1 := by
      generalize (before ++ (k, v) :: after).length = count at hlength ⊢
      rw [List.length_append]
      omega
    rw [List.cons_append, List.append_assoc, List.append_assoc, List.singleton_append]
    simp only [record_open hgap, h.members_refused (member_field find has) hv hmembers hend hfuel,
      bind, Except.bind]

end Records

/-! ## Any value -/

/-- A value nested `depth` levels at most, whose numbers are integers of 64 bits. -/
inductive Nests : Nat → Value → Prop where
  | null (depth : Nat) : Nests depth .null
  | bool (depth : Nat) (b : Bool) : Nests depth (.bool b)
  | integer (depth : Nat) {n : Int} (low : -2 ^ 63 ≤ n) (high : n < 2 ^ 64) :
      Nests depth (.integer n)
  | text (depth : Nat) (s : String) : Nests depth (.text s)
  | list {depth : Nat} {vs : List Value} (items : ∀ v ∈ vs, Nests depth v) :
      Nests (depth + 1) (.list vs)
  | record {depth : Nat} {ms : List (String × Value)} (members : ∀ m ∈ ms, Nests depth m.2) :
      Nests (depth + 1) (.record ms)

theorem IsScalar.takes_any {v : Value} (h : IsScalar v) (depth : Nat) : Takes (any depth) v v where
  opens := h.opens
  takes gap bs rest hgap hw hrest := by
    obtain ⟨b, more, hbs, hblank, -, hread⟩ := h.begins
    rw [hw.of_single h.single, hbs, List.cons_append, any.eq_def]
    simp only [skipBlanks_token hgap hblank, hread rest hrest]

/-- The member function of a record of anything. -/
def anyMember (depth : Nat) (key : String) (ms : List (String × Value)) :
    Reader (List (String × Value)) := fun bs => do
  let (v, bs) ← any depth (← colon bs)
  return (ms ++ [(key, v)], bs)

theorem gathers_any {depth : Nat} {ms : List (String × Value)}
    (h : ∀ m ∈ ms, Takes (any depth) m.2 m.2) (before : List (String × Value)) :
    Gathers (anyMember depth) ms before (before ++ ms) := by
  induction ms generalizing before with
  | nil => simpa using Gathers.nil before
  | cons m ms ih =>
    rw [List.forall_mem_cons] at h
    have hrest := ih h.2 (before ++ [m])
    rw [List.append_assoc, List.singleton_append] at hrest
    exact .cons (fun _ => rfl) (h.1.map fun v => before ++ [(m.1, v)]) hrest

/-- A value that nobody knows the shape of is read as itself. -/
theorem Nests.takes_any {depth : Nat} {v : Value} (h : Nests depth v) : Takes (any depth) v v := by
  induction h with
  | null depth => exact isScalar_null.takes_any depth
  | bool depth b => exact (isScalar_bool b).takes_any depth
  | integer depth low high => exact (isScalar_integer low high).takes_any depth
  | text depth s => exact (isScalar_text s).takes_any depth
  | @list depth vs _ ih =>
    have hitems := List.forall₂_same.mpr ih
    refine ⟨fun bs hw => ?_, fun gap bs rest hgap hw _ => ?_⟩
    · obtain ⟨more, rfl, -⟩ := items_whole hitems hw
      exact ⟨_, _, rfl, by decide, by decide⟩
    · obtain ⟨more, rfl, hread⟩ := items_whole hitems hw
      have hblank : isBlank (octet '[') = false := by decide
      rw [List.cons_append, any.eq_def]
      dsimp only
      rw [skipBlanks_token hgap hblank]
      change Except.map _ (items (any depth) _ _ _) = _
      rw [hread]
      rfl
  | @record depth ms _ ih =>
    have hmembers := gathers_any ih []
    refine ⟨fun bs hw => ?_, fun gap bs rest hgap hw _ => ?_⟩
    · obtain ⟨more, rfl, -⟩ := hmembers.whole hw
      exact ⟨_, _, rfl, by decide, by decide⟩
    · obtain ⟨more, rfl, hread⟩ := hmembers.whole hw
      have hblank : isBlank (octet '\x7b') = false := by decide
      rw [List.cons_append, any.eq_def]
      dsimp only
      rw [skipBlanks_token hgap hblank]
      change Except.map _ (members (anyMember depth) _ _ _ _) = _
      rw [hread]
      rfl

/-! ## Whole texts -/

section Whole

variable {α : Type} {read : Nat → Reader α} {v : Value} {a : α} {fault : Fault}

theorem Takes.readOctets (h : Takes (read maxDepth) v a) {bs : List UInt8} (hw : Written v bs) :
    readOctets read bs = .ok a := by
  have hread := h.takes [] bs [] blanks_nil hw follows_nil
  rw [List.nil_append, List.append_nil] at hread
  rw [Json.readOctets, hread]
  rfl

theorem Refuses.readOctets (h : Refuses (read maxDepth) v fault) {bs : List UInt8}
    (hw : Written v bs) : readOctets read bs = .error fault := by
  have hread := h [] bs [] blanks_nil hw follows_nil
  rw [List.nil_append, List.append_nil] at hread
  rw [Json.readOctets, hread]
  rfl

theorem Takes.readText (h : Takes (read maxDepth) v a) : readText read v.compact = .ok a :=
  h.readOctets (written_compact v)

theorem Refuses.readText (h : Refuses (read maxDepth) v fault) :
    readText read v.compact = .error fault :=
  h.readOctets (written_compact v)

end Whole

end Backfill.Json
