import Backfill.Proofs.Json.Strings

/-!
# How values are laid out

Blanks may stand between the tokens of a value, any number of them. The two layouts that are written
differ in nothing else, so what is shown of a value however it is laid out holds of both.

Results:
* `skipBlanks_token`: blanks before a token are passed over.
* `Written`: the octets that a value is written as, with blanks anywhere between its tokens.
* `written_compact`, `written_indented`: both layouts are among them.
-/
namespace Backfill.Json

/-! ## Blanks -/

def Blanks (gap : List UInt8) : Prop := ∀ b ∈ gap, isBlank b = true

theorem blanks_nil : Blanks [] := fun _ hb => absurd hb List.not_mem_nil

/-- A new line and its indentation are blanks. -/
theorem blanks_newLine (level : Nat) : Blanks (octets (Value.newLine level)) := by
  have hline : octets "\n" = [octet '\n'] := octets_ascii (by simp)
  have hspace : String.utf8EncodeChar ' ' = [octet ' '] := utf8EncodeChar_ascii (by decide)
  intro b hb
  rw [Value.newLine, octets_append, hline, octets_ofList, List.flatMap_replicate, hspace,
    List.singleton_append, List.mem_cons] at hb
  rcases hb with rfl | hb
  · decide
  · obtain ⟨bs, hbs, hb⟩ := List.mem_flatten.mp hb
    rw [List.eq_of_mem_replicate hbs, List.mem_singleton] at hb
    rw [hb]
    decide

section Skipping

variable {gap : List UInt8} {b : UInt8}

theorem skipBlanks_append (h : Blanks gap) (bs : List UInt8) :
    skipBlanks (gap ++ bs) = skipBlanks bs :=
  List.dropWhile_append_of_pos h

theorem skipBlanks_cons (h : isBlank b = false) (bs : List UInt8) :
    skipBlanks (b :: bs) = b :: bs := by
  rw [skipBlanks, List.dropWhile_cons, if_neg (by simp [h])]

theorem skipBlanks_token (h : Blanks gap) (hb : isBlank b = false) (bs : List UInt8) :
    skipBlanks (gap ++ b :: bs) = b :: bs := by
  rw [skipBlanks_append h, skipBlanks_cons hb]

end Skipping

/-! ## Values -/

/-- A value without parts. -/
def Value.Single : Value → Prop
  | list _ | record _ => False
  | _ => True

/-- What stands before an item or a member: blanks, and among them a comma unless it is the
first. -/
inductive Before : Bool → List UInt8 → Prop where
  | first {gap : List UInt8} (blank : Blanks gap) : Before true gap
  | next {gap gap' : List UInt8} (blank : Blanks gap) (blank' : Blanks gap') :
      Before false (gap ++ octet ',' :: gap')

mutual

/-- A value is written as some octets, with blanks anywhere between its tokens. -/
inductive Written : Value → List UInt8 → Prop where
  | single {v : Value} (h : v.Single) : Written v (octets v.scalarText)
  | list {vs : List Value} {bs gap : List UInt8} (items : WrittenItems true vs bs)
      (blank : Blanks gap) : Written (.list vs) (octet '[' :: (bs ++ (gap ++ [octet ']'])))
  | record {ms : List (String × Value)} {bs gap : List UInt8} (members : WrittenMembers true ms bs)
      (blank : Blanks gap) :
      Written (.record ms) (octet '\x7b' :: (bs ++ (gap ++ [octet '\x7d'])))

/-- The items of a list, from the first one or from a later one on. -/
inductive WrittenItems : Bool → List Value → List UInt8 → Prop where
  | nil (first : Bool) : WrittenItems first [] []
  | cons {first : Bool} {v : Value} {vs : List Value} {before bs more : List UInt8}
      (comma : Before first before) (value : Written v bs) (rest : WrittenItems false vs more) :
      WrittenItems first (v :: vs) (before ++ (bs ++ more))

/-- The members of a record, from the first one or from a later one on. -/
inductive WrittenMembers : Bool → List (String × Value) → List UInt8 → Prop where
  | nil (first : Bool) : WrittenMembers first [] []
  | cons {first : Bool} {k : String} {v : Value} {ms : List (String × Value)}
      {before gap gap' bs more : List UInt8} (comma : Before first before) (blank : Blanks gap)
      (blank' : Blanks gap') (value : Written v bs) (rest : WrittenMembers false ms more) :
      WrittenMembers first ((k, v) :: ms)
        (before ++ (octets (Value.quoted k) ++ (gap ++ octet ':' :: (gap' ++ (bs ++ more)))))

end

theorem Written.of_single {v : Value} {bs : List UInt8} (h : Written v bs) (hv : v.Single) :
    bs = octets v.scalarText := by
  cases h with
  | single _ => rfl
  | list _ _ => exact absurd hv id
  | record _ _ => exact absurd hv id

theorem WrittenItems.after {v : Value} {vs : List Value} {bs : List UInt8}
    (h : WrittenItems true (v :: vs) bs) : WrittenItems false (v :: vs) (octet ',' :: bs) := by
  cases h with
  | cons comma value rest =>
    cases comma with
    | first blank => exact .cons (.next blanks_nil blank) value rest

theorem WrittenMembers.after {m : String × Value} {ms : List (String × Value)} {bs : List UInt8}
    (h : WrittenMembers true (m :: ms) bs) :
    WrittenMembers false (m :: ms) (octet ',' :: bs) := by
  cases h with
  | cons comma blank blank' value rest =>
    cases comma with
    | first blank₀ => exact .cons (.next blanks_nil blank₀) blank blank' value rest

/-! ## Both layouts -/

private theorem octets_comma : octets "," = [octet ','] := octets_ascii (by simp)

private theorem octets_colon : octets ":" = [octet ':'] := octets_ascii (by simp)

private theorem octets_colon_blank : octets ": " = [octet ':', octet ' '] := octets_ascii (by simp)

private theorem octets_list_open : octets "[" = [octet '['] := octets_ascii (by simp)

private theorem octets_list_close : octets "]" = [octet ']'] := octets_ascii (by simp)

private theorem octets_record_open : octets "\x7b" = [octet '\x7b'] := octets_ascii (by simp)

private theorem octets_record_close : octets "\x7d" = [octet '\x7d'] := octets_ascii (by simp)

mutual

/-- A value is written without blanks. -/
theorem written_compact : ∀ v : Value, Written v (octets v.compact)
  | .null => .single trivial
  | .bool _ => .single trivial
  | .integer _ => .single trivial
  | .fractional _ => .single trivial
  | .text _ => .single trivial
  | .list vs => by
    simpa [Value.compact, octets_append, octets_list_open, octets_list_close] using
      Written.list (written_compactItems vs) blanks_nil
  | .record ms => by
    simpa [Value.compact, octets_append, octets_record_open, octets_record_close] using
      Written.record (written_compactMembers ms) blanks_nil

theorem written_compactItems :
    ∀ vs : List Value, WrittenItems true vs (octets (Value.compactItems vs))
  | [] => by
    simpa [Value.compactItems, octets_eq] using WrittenItems.nil true
  | [v] => by
    simpa [Value.compactItems] using
      WrittenItems.cons (.first blanks_nil) (written_compact v) (.nil false)
  | v :: w :: vs => by
    have hrest := (written_compactItems (w :: vs)).after
    simpa [Value.compactItems, octets_append, octets_comma] using
      WrittenItems.cons (.first blanks_nil) (written_compact v) hrest

theorem written_compactMembers :
    ∀ ms : List (String × Value), WrittenMembers true ms (octets (Value.compactMembers ms))
  | [] => by
    simpa [Value.compactMembers, octets_eq] using WrittenMembers.nil true
  | [(k, v)] => by
    simpa [Value.compactMembers, octets_append, octets_colon] using
      WrittenMembers.cons (k := k) (.first blanks_nil) blanks_nil blanks_nil (written_compact v)
        (.nil false)
  | (k, v) :: m :: ms => by
    have hrest := (written_compactMembers (m :: ms)).after
    simpa [Value.compactMembers, octets_append, octets_comma, octets_colon] using
      WrittenMembers.cons (k := k) (.first blanks_nil) blanks_nil blanks_nil (written_compact v)
        hrest

end

private theorem blanks_space : Blanks [octet ' '] := by simp [Blanks, isBlank]

mutual

/-- A value is written with an item or a member to the line. -/
theorem written_indented : ∀ (level : Nat) (v : Value), Written v (octets (v.indented level))
  | _, .null => .single trivial
  | _, .bool _ => .single trivial
  | _, .integer _ => .single trivial
  | _, .fractional _ => .single trivial
  | _, .text _ => .single trivial
  | _, .list [] => by
    have htext : octets "[]" = [octet '[', octet ']'] := octets_ascii (by simp)
    simpa [Value.indented, Value.scalarText, htext] using Written.list (.nil true) blanks_nil
  | level, .list (v :: vs) => by
    simpa [Value.indented, octets_append, octets_list_open, octets_list_close] using
      Written.list (written_indentedItems (level + 1) (v :: vs)) (blanks_newLine level)
  | _, .record [] => by
    have htext : octets "\x7b\x7d" = [octet '\x7b', octet '\x7d'] := octets_ascii (by simp)
    simpa [Value.indented, Value.scalarText, htext] using Written.record (.nil true) blanks_nil
  | level, .record (m :: ms) => by
    simpa [Value.indented, octets_append, octets_record_open, octets_record_close] using
      Written.record (written_indentedMembers (level + 1) (m :: ms)) (blanks_newLine level)

theorem written_indentedItems : ∀ (level : Nat) (vs : List Value),
    WrittenItems true vs (octets (Value.indentedItems level vs))
  | _, [] => by
    simpa [Value.indentedItems, octets_eq] using WrittenItems.nil true
  | level, [v] => by
    simpa [Value.indentedItems, octets_append] using
      WrittenItems.cons (.first (blanks_newLine level)) (written_indented level v) (.nil false)
  | level, v :: w :: vs => by
    have hrest := (written_indentedItems level (w :: vs)).after
    simpa [Value.indentedItems, octets_append, octets_comma] using
      WrittenItems.cons (.first (blanks_newLine level)) (written_indented level v) hrest

theorem written_indentedMembers : ∀ (level : Nat) (ms : List (String × Value)),
    WrittenMembers true ms (octets (Value.indentedMembers level ms))
  | _, [] => by
    simpa [Value.indentedMembers, octets_eq] using WrittenMembers.nil true
  | level, [(k, v)] => by
    simpa [Value.indentedMembers, octets_append, octets_colon_blank] using
      WrittenMembers.cons (k := k) (.first (blanks_newLine level)) blanks_nil blanks_space
        (written_indented level v) (.nil false)
  | level, (k, v) :: m :: ms => by
    have hrest := (written_indentedMembers level (m :: ms)).after
    simpa [Value.indentedMembers, octets_append, octets_comma, octets_colon_blank] using
      WrittenMembers.cons (k := k) (.first (blanks_newLine level)) blanks_nil blanks_space
        (written_indented level v) hrest

end

end Backfill.Json
