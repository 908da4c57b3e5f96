import Backfill.Fault
import Backfill.ImportState.Document
import Backfill.Table

/-!
# Stores of import states

A store keeps import states by key. A change is read, made and written as one, and a key without a
state is left alone. Two kinds of store hold them: one in memory for one axis, and one table of JSON
texts for all axes. The states of two axes do not read as one another, so a key of one axis cannot
be read or changed from another.
-/
namespace Backfill

/-- A store of import states of an axis. Mirrors `ImportStateStore`. -/
class ImportStateStore (σ : Type) (α : outParam Type) where
  load : σ → String → Except StoreFault (Option (ImportState α))
  save : σ → ImportState α → Except StoreFault σ
  /-- Changes the state of a key, if it has one. -/
  update : σ → String → (ImportState α → ImportState α) →
    Except StoreFault (Option (ImportState α) × σ)
  /-- Forgets a key. -/
  reset : σ → String → σ

/-! ## In memory -/

/-- Mirrors `MemoryImportStateStore`. -/
structure MemoryImportStateStore (α : Type) where
  states : Table String (ImportState α) := {}

instance (α : Type) : ImportStateStore (MemoryImportStateStore α) α where
  load m key := .ok (m.states.get? key)
  save m s := .ok ⟨m.states.put s.key s⟩
  update m key change :=
    match m.states.get? key with
    | none => .ok (none, m)
    | some s => .ok (some (change s), ⟨m.states.put key (change s)⟩)
  reset m key := ⟨m.states.erase key⟩

/-! ## As texts -/

/-- Import states of all axes as texts, in one table. Mirrors `SqliteImportStateStore`. -/
structure SqliteImportStateStore where
  texts : Table String String := {}

/-- The table as the store of one axis. -/
structure SqliteImportStateStore.On (α : Type) where
  all : SqliteImportStateStore

namespace SqliteImportStateStore.On

variable {α : Type} [Axis.Document α]

def read (t : SqliteImportStateStore.On α) (key : String) :
    Except StoreFault (Option (ImportState α)) :=
  match t.all.texts.get? key with
  | none => .ok none
  | some text =>
    match ImportState.ofText text with
    | .ok s => .ok (some s)
    | .error fault => .error (.unreadable fault)

def write (t : SqliteImportStateStore.On α) (key : String) (s : ImportState α) :
    SqliteImportStateStore.On α :=
  ⟨⟨t.all.texts.put key s.text⟩⟩

instance : ImportStateStore (SqliteImportStateStore.On α) α where
  load := read
  save t s := .ok (t.write s.key s)
  update t key change :=
    match t.read key with
    | .error fault => .error fault
    | .ok none => .ok (none, t)
    | .ok (some s) => .ok (some (change s), t.write key (change s))
  reset t key := ⟨⟨t.all.texts.erase key⟩⟩

end SqliteImportStateStore.On
end Backfill
