import Backfill.Proofs.ImportState.Document

/-!
# One table for two axes

The states of both axes may be kept as texts in one table, or apart in memory, a store to each axis.
As long as a key is used on one axis only, nobody can tell which it is. A key that was last saved on
the other axis has a text that is no state of this one. It cannot be read or changed, and an attempt
leaves the table alone.

Results:
* `StateStep.onTexts_other`: a step changes its own key only.
* `StateStep.onTexts_mirrors`, `SharedStep.onTable_matches`: what one step answers and leaves, on
  one axis and on either.
* `SharedStep.heldOn_after`: a key holds a state of the axis on which it was last saved.
* `shared_table`: a whole sequence of steps, and a step on the wrong axis.
-/
namespace Backfill

/-! ## Steps -/

/-- One use of a store of one axis. -/
inductive StateStep (α : Type) where
  | load (key : String)
  | save (s : ImportState α)
  /-- Applies outcomes at a time of the clock. -/
  | update (key : String) (now : UInt64) (outcomes : List (RangeOutcome α))
  | reset (key : String)

namespace StateStep

variable {α σ : Type}

def key : StateStep α → String
  | load key | update key _ _ | reset key => key
  | save s => s.key

def Reads : StateStep α → Prop
  | load _ | update .. => True
  | save _ | reset _ => False

/-- The state that is found or made, if any, and the store after. A step that fails leaves the store
as it was. -/
def run [Axis α] [ImportStateStore σ α] (store : σ) :
    StateStep α → Except StoreFault (Option (ImportState α)) × σ
  | load key => (ImportStateStore.load store key, store)
  | save s =>
    match ImportStateStore.save store s with
    | .ok store => (.ok none, store)
    | .error fault => (.error fault, store)
  | update key now outcomes =>
    match ImportStateStore.update store key (ImportState.applyResults now · outcomes) with
    | .ok (found, store) => (.ok found, store)
    | .error fault => (.error fault, store)
  | reset key => (.ok none, ImportStateStore.reset store key)

def onTexts [Axis α] [Axis.Document α] (t : SqliteImportStateStore) (x : StateStep α) :
    Except StoreFault (Option (ImportState α)) × SqliteImportStateStore :=
  let r := x.run (SqliteImportStateStore.On.mk (α := α) t)
  (r.1, r.2.all)

end StateStep

inductive Side where
  | blocks
  | times
  deriving DecidableEq

/-- One use of the stores of both axes. -/
inductive SharedStep where
  | block (step : StateStep BlockNumber)
  | time (step : StateStep Instant)

inductive Answer where
  | block (found : Except StoreFault (Option (ImportState BlockNumber)))
  | time (found : Except StoreFault (Option (ImportState Instant)))

def Answer.fault? : Answer → Option StoreFault
  | block (.error fault) | time (.error fault) => some fault
  | block (.ok _) | time (.ok _) => none

/-- A store in memory for each axis. -/
structure MemoryPair where
  blocks : MemoryImportStateStore BlockNumber := {}
  times : MemoryImportStateStore Instant := {}

namespace SharedStep

def key : SharedStep → String
  | block step => step.key
  | time step => step.key

def side : SharedStep → Side
  | block _ => .blocks
  | time _ => .times

def Reads : SharedStep → Prop
  | block step => step.Reads
  | time step => step.Reads

def onTable (t : SqliteImportStateStore) : SharedStep → Answer × SqliteImportStateStore
  | block step => (.block (step.onTexts t).1, (step.onTexts t).2)
  | time step => (.time (step.onTexts t).1, (step.onTexts t).2)

def onPair (p : MemoryPair) : SharedStep → Answer × MemoryPair
  | block step => (.block (step.run p.blocks).1, { p with blocks := (step.run p.blocks).2 })
  | time step => (.time (step.run p.times).1, { p with times := (step.run p.times).2 })

/-- The axis on which a key has a state after a step, if it has one. -/
def saves (side : Option Side) : SharedStep → Option Side
  | block (.save _) => some .blocks
  | time (.save _) => some .times
  | block (.reset _) | time (.reset _) => none
  | block (.load _) | block (.update ..) | time (.load _) | time (.update ..) => side

section Runs

variable {τ : Type}

def after (run : τ → SharedStep → Answer × τ) (t : τ) (steps : List SharedStep) : τ :=
  steps.foldl (fun t x => (run t x).2) t

def answers (run : τ → SharedStep → Answer × τ) : τ → List SharedStep → List Answer
  | _, [] => []
  | t, x :: steps => (run t x).1 :: answers run (run t x).2 steps

/-- The axis on which a key was last saved, unless it was reset since. -/
def lastSaved (key : String) (steps : List SharedStep) : Option Side :=
  steps.foldl (fun side x => if x.key = key then x.saves side else side) none

end Runs

/-- Each key is used on one axis only. -/
def KeptApart (steps : List SharedStep) : Prop :=
  ∀ x ∈ steps, ∀ y ∈ steps, x.key = y.key → x.side = y.side

end SharedStep

/-! ## Steps on one axis -/

namespace StateStep

section Axes

variable {α : Type} [Axis.Document α] {t : SqliteImportStateStore} {key : String}

/-- The texts under some keys are those of the states in memory. -/
def Mirrors (keys : String → Prop) (t : SqliteImportStateStore) (m : MemoryImportStateStore α) :
    Prop :=
  ∀ key, keys key → t.texts.get? key = (m.states.get? key).map ImportState.text

/-- The text of a state is under a key. -/
def Held (α : Type) [Axis.Document α] (t : SqliteImportStateStore) (key : String) : Prop :=
  ∃ s : ImportState α, t.texts.get? key = some s.text

theorem read_text [Axis.Document.Faithful α] {found : Option (ImportState α)}
    (h : t.texts.get? key = found.map ImportState.text) :
    SqliteImportStateStore.On.read (⟨t⟩ : SqliteImportStateStore.On α) key = .ok found := by
  cases found with
  | none => simp only [SqliteImportStateStore.On.read, h, Option.map_none]
  | some s => simp only [SqliteImportStateStore.On.read, h, Option.map_some, ofText_text]

variable [Axis α]

/-- A step leaves the texts of other keys alone. -/
theorem onTexts_other (t : SqliteImportStateStore) (x : StateStep α) (h : key ≠ x.key) :
    (x.onTexts t).2.texts.get? key = t.texts.get? key := by
  have h' : x.key ≠ key := fun e => h e.symm
  cases x with
  | load k => rfl
  | save s => exact (Table.get?_put ..).trans (if_neg h')
  | reset k => exact (Table.get?_erase ..).trans (if_neg h')
  | update k now os =>
    simp only [onTexts, run, ImportStateStore.update]
    cases hread : SqliteImportStateStore.On.read (⟨t⟩ : SqliteImportStateStore.On α) k with
    | error fault => rfl
    | ok found =>
      cases found with
      | none => rfl
      | some s => exact (Table.get?_put ..).trans (if_neg h')

theorem onTexts_unread {x : StateStep α} {fault : StoreFault} (hx : x.Reads)
    (h : SqliteImportStateStore.On.read (⟨t⟩ : SqliteImportStateStore.On α) x.key = .error fault) :
    x.onTexts t = (.error fault, t) := by
  cases x with
  | load k => exact Prod.ext h rfl
  | update k now os =>
    change SqliteImportStateStore.On.read (⟨t⟩ : SqliteImportStateStore.On α) k = _ at h
    simp only [onTexts, run, ImportStateStore.update, h]
  | save s => exact hx.elim
  | reset k => exact hx.elim

variable [Axis.Document.Faithful α]

/-- A step finds as texts what it finds in memory, and leaves the same. -/
theorem onTexts_mirrors {keys : String → Prop} {m : MemoryImportStateStore α} (h : Mirrors keys t m)
    {x : StateStep α} (hx : keys x.key) :
    (x.onTexts t).1 = (x.run m).1 ∧ Mirrors keys (x.onTexts t).2 (x.run m).2 := by
  have hread : SqliteImportStateStore.On.read (⟨t⟩ : SqliteImportStateStore.On α) x.key =
      .ok (m.states.get? x.key) :=
    read_text (h x.key hx)
  cases x with
  | load k => exact ⟨hread, h⟩
  | save s =>
    refine ⟨rfl, fun key hkey => ?_⟩
    change (t.texts.put s.key s.text).get? key = ((m.states.put s.key s).get? key).map _
    rw [Table.get?_put, Table.get?_put, h key hkey]
    split <;> rfl
  | reset k =>
    refine ⟨rfl, fun key hkey => ?_⟩
    change (t.texts.erase k).get? key = ((m.states.erase k).get? key).map _
    rw [Table.get?_erase, Table.get?_erase, h key hkey]
    split <;> rfl
  | update k now os =>
    change SqliteImportStateStore.On.read (⟨t⟩ : SqliteImportStateStore.On α) k =
      .ok (m.states.get? k) at hread
    simp only [onTexts, run, ImportStateStore.update, hread]
    cases m.states.get? k with
    | none => exact ⟨rfl, h⟩
    | some s =>
      refine ⟨rfl, fun key hkey => ?_⟩
      change (t.texts.put k (s.applyResults now os).text).get? key =
        ((m.states.put k (s.applyResults now os)).get? key).map _
      rw [Table.get?_put, Table.get?_put, h key hkey]
      split <;> rfl

/-- A load or update of a key of the axis leaves it one. -/
theorem onTexts_held {x : StateStep α} (hx : x.Reads) (h : Held α t x.key) :
    Held α (x.onTexts t).2 x.key := by
  obtain ⟨s, hs⟩ := h
  have hread : SqliteImportStateStore.On.read (⟨t⟩ : SqliteImportStateStore.On α) x.key =
      .ok (some s) :=
    read_text (show t.texts.get? x.key = (some s).map ImportState.text from hs)
  cases x with
  | load k => exact ⟨s, hs⟩
  | update k now os =>
    change SqliteImportStateStore.On.read (⟨t⟩ : SqliteImportStateStore.On α) k = _ at hread
    simp only [onTexts, run, ImportStateStore.update, hread]
    exact ⟨s.applyResults now os, (Table.get?_put ..).trans (if_pos rfl)⟩
  | save s => exact hx.elim
  | reset k => exact hx.elim

end Axes

theorem unread_block {t : SqliteImportStateStore} {key : String} (h : Held Instant t key) :
    SqliteImportStateStore.On.read (⟨t⟩ : SqliteImportStateStore.On BlockNumber) key =
      .error (.unreadable .mismatch) := by
  obtain ⟨s, hs⟩ := h
  simp only [SqliteImportStateStore.On.read, hs, ofText_foreign.2 s]

theorem unread_time {t : SqliteImportStateStore} {key : String} (h : Held BlockNumber t key) :
    SqliteImportStateStore.On.read (⟨t⟩ : SqliteImportStateStore.On Instant) key =
      .error (.unreadable .mismatch) := by
  obtain ⟨s, hs⟩ := h
  simp only [SqliteImportStateStore.On.read, hs, ofText_foreign.1 s]

end StateStep

/-! ## Steps on both axes -/

namespace SharedStep

open StateStep (Mirrors Held)

/-- The table has the texts of both stores, under the keys of their axes. -/
structure Matches (owner : String → Side) (t : SqliteImportStateStore) (p : MemoryPair) : Prop where
  blocks : Mirrors (owner · = .blocks) t p.blocks
  times : Mirrors (owner · = .times) t p.times

/-- A step on the axis that owns its key finds and leaves the same in the table and in memory. -/
theorem onTable_matches {owner : String → Side} {t : SqliteImportStateStore} {p : MemoryPair}
    (h : Matches owner t p) {x : SharedStep} (hx : owner x.key = x.side) :
    (x.onTable t).1 = (x.onPair p).1 ∧ Matches owner (x.onTable t).2 (x.onPair p).2 := by
  cases x with
  | block x =>
    obtain ⟨hanswer, hblocks⟩ := StateStep.onTexts_mirrors h.blocks (x := x) hx
    refine ⟨congrArg Answer.block hanswer, hblocks, fun key hkey => ?_⟩
    have hne : key ≠ x.key := by
      rintro rfl
      cases hx.symm.trans hkey
    exact (StateStep.onTexts_other t x hne).trans (h.times key hkey)
  | time x =>
    obtain ⟨hanswer, htimes⟩ := StateStep.onTexts_mirrors h.times (x := x) hx
    refine ⟨congrArg Answer.time hanswer, fun key hkey => ?_, htimes⟩
    have hne : key ≠ x.key := by
      rintro rfl
      cases hx.symm.trans hkey
    exact (StateStep.onTexts_other t x hne).trans (h.blocks key hkey)

theorem answers_matches {owner : String → Side} {steps : List SharedStep}
    (hsteps : ∀ x ∈ steps, owner x.key = x.side) {t : SqliteImportStateStore} {p : MemoryPair}
    (h : Matches owner t p) : answers onTable t steps = answers onPair p steps := by
  induction steps generalizing t p with
  | nil => rfl
  | cons x steps ih =>
    rw [List.forall_mem_cons] at hsteps
    obtain ⟨hanswer, hafter⟩ := onTable_matches h hsteps.1
    rw [answers, answers, hanswer, ih hsteps.2 hafter]

/-- The text of a state of an axis is under a key, if it is to be one. -/
def HeldOn (t : SqliteImportStateStore) (key : String) : Option Side → Prop
  | some .blocks => Held BlockNumber t key
  | some .times => Held Instant t key
  | none => True

theorem HeldOn.of_eq {t t' : SqliteImportStateStore} {key : String} {side : Option Side}
    (h : HeldOn t key side) (heq : t'.texts.get? key = t.texts.get? key) : HeldOn t' key side := by
  match side, h with
  | some .blocks, ⟨s, hs⟩ => exact ⟨s, heq.trans hs⟩
  | some .times, ⟨s, hs⟩ => exact ⟨s, heq.trans hs⟩
  | none, _ => trivial

/-- A load or update on the axis where the key was not last saved fails, and leaves the table
alone. -/
theorem onTable_foreign {t : SqliteImportStateStore} {x : SharedStep} {side : Side} (hx : x.Reads)
    (h : HeldOn t x.key (some side)) (hside : side ≠ x.side) :
    (x.onTable t).1.fault? = some (.unreadable .mismatch) ∧ (x.onTable t).2 = t := by
  cases x with
  | block x =>
    cases side with
    | blocks => exact absurd rfl hside
    | times =>
      rw [onTable, StateStep.onTexts_unread hx (StateStep.unread_block h)]
      exact ⟨rfl, rfl⟩
  | time x =>
    cases side with
    | times => exact absurd rfl hside
    | blocks =>
      rw [onTable, StateStep.onTexts_unread hx (StateStep.unread_time h)]
      exact ⟨rfl, rfl⟩

/-- A load or update leaves a key on the axis where it was last saved. -/
theorem HeldOn.reads {t : SqliteImportStateStore} {x : SharedStep} {side : Option Side}
    (hx : x.Reads) (h : HeldOn t x.key side) : HeldOn (x.onTable t).2 x.key side := by
  cases side with
  | none => trivial
  | some side =>
    by_cases hside : side = x.side
    · subst hside
      cases x with
      | block x => exact StateStep.onTexts_held hx h
      | time x => exact StateStep.onTexts_held hx h
    · rw [(onTable_foreign hx h hside).2]
      exact h

/-- What is under a key after a step. -/
theorem HeldOn.step {t : SqliteImportStateStore} {key : String} {side : Option Side}
    (h : HeldOn t key side) (x : SharedStep) :
    HeldOn (x.onTable t).2 key (if x.key = key then x.saves side else side) := by
  by_cases hkey : x.key = key
  · subst hkey
    rw [if_pos rfl]
    match x, h with
    | block (.save s), _ => exact ⟨s, (Table.get?_put ..).trans (if_pos rfl)⟩
    | time (.save s), _ => exact ⟨s, (Table.get?_put ..).trans (if_pos rfl)⟩
    | block (.reset _), _ => trivial
    | time (.reset _), _ => trivial
    | block (.load _), h => exact HeldOn.reads (x := block _) trivial h
    | time (.load _), h => exact HeldOn.reads (x := time _) trivial h
    | block (.update ..), h => exact HeldOn.reads (x := block _) trivial h
    | time (.update ..), h => exact HeldOn.reads (x := time _) trivial h
  · rw [if_neg hkey]
    have hne : key ≠ x.key := fun e => hkey e.symm
    cases x with
    | block x => exact h.of_eq (StateStep.onTexts_other t x hne)
    | time x => exact h.of_eq (StateStep.onTexts_other t x hne)

/-- A key holds a state of the axis on which it was last saved, whatever was done meanwhile. -/
theorem heldOn_after (key : String) (steps : List SharedStep) (t : SqliteImportStateStore) :
    HeldOn (after onTable t steps) key (lastSaved key steps) := by
  have hrun : ∀ side t, HeldOn t key side → HeldOn (after onTable t steps) key
      (steps.foldl (fun side x => if x.key = key then x.saves side else side) side) := by
    induction steps with
    | nil => exact fun _ _ h => h
    | cons x steps ih => exact fun side t h => ih _ _ (h.step x)
  exact hrun none t trivial

/-- Keys that are used on one axis only have an owner. -/
theorem exists_owner {steps : List SharedStep} (h : KeptApart steps) :
    ∃ owner : String → Side, ∀ x ∈ steps, owner x.key = x.side := by
  classical
  refine ⟨fun key => if ∃ y ∈ steps, y.key = key ∧ y.side = .blocks then .blocks else .times,
    fun x hx => ?_⟩
  dsimp only
  split
  · next hy =>
    obtain ⟨y, hy, hkey, hside⟩ := hy
    rw [← hside, h y hy x hx hkey]
  · next hno =>
    cases hside : x.side with
    | blocks => exact absurd ⟨x, hx, rfl, hside⟩ hno
    | times => rfl

end SharedStep

/-! ## The table and the stores in memory -/

open SharedStep

/-- As long as each key is used on one axis only, the table answers what two stores in memory would.
A load or update of a key that was last saved on the other axis fails and leaves the table as it
was, whatever was done before. -/
theorem shared_table :
    (∀ steps : List SharedStep, KeptApart steps →
      answers onTable {} steps = answers onPair {} steps) ∧
    ∀ (t : SqliteImportStateStore) (steps : List SharedStep) (x : SharedStep)
    (side : Side), x.Reads →
      lastSaved x.key steps = some side → side ≠ x.side →
      (x.onTable (after onTable t steps)).1.fault? = some (.unreadable .mismatch) ∧
        (x.onTable (after onTable t steps)).2 = after onTable t steps := by
  refine ⟨fun steps h => ?_, fun t steps x side hx hlast hside => ?_⟩
  · obtain ⟨owner, howner⟩ := exists_owner h
    exact answers_matches howner ⟨fun _ _ => rfl, fun _ _ => rfl⟩
  · have hheld := heldOn_after x.key steps t
    rw [hlast] at hheld
    exact onTable_foreign hx hheld hside

namespace TwoAxes

def blockState : ImportState BlockNumber := .fresh "a" 1 .polygon 100 none

def timeState : ImportState Instant :=
  .fresh "t" 1 .polygon .epoch (some (.ofInstant .epoch))

def steps : List SharedStep :=
  [.block (.load "a"), .block (.save blockState), .time (.save timeState),
   .block (.update "a" 7 [⟨⟨100, 200⟩, true⟩, ⟨⟨150, 300⟩, false⟩]),
   .time (.update "t" 8 [⟨⟨.epoch, .epoch⟩, false⟩]), .block (.load "a"), .time (.load "t"),
   .block (.reset "a"), .block (.update "a" 9 []), .time (.load "t")]

theorem keptApart_steps : KeptApart steps := by
  unfold KeptApart
  decide

theorem shared_table_in_turns :
    answers onTable {} steps = answers onPair {} steps ∧
      lastSaved "t" steps = some .times ∧
      ((SharedStep.block (.load "t")).onTable (after onTable {} steps)).1.fault? =
        some (.unreadable .mismatch) := by
  have hlast : lastSaved "t" steps = some .times := by decide
  exact ⟨shared_table.1 steps keptApart_steps, hlast,
    (shared_table.2 {} steps (.block (.load "t")) .times trivial hlast (by decide)).1⟩

end TwoAxes
end Backfill
