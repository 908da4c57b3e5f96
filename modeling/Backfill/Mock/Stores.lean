import Backfill.Cycle.Rounds
import Backfill.Mock.Chain

/-!
# Stores that fail

An import-state store that fails for some keys, and a record sink that refuses some rows. In
everything else they are the store and the sink that they wrap. A cycle on a mock chain begins with
them as the mock chain says, and they are cleared away after it.
-/
namespace Backfill

/-- An import-state store that fails for some keys, and forgets others just before they are
updated. -/
structure Unreliable (σ : Type) where
  inner : σ
  brokenLoads : List String := []
  brokenSaves : List String := []
  brokenUpdates : List String := []
  vanishing : List String := []

namespace Unreliable

def fault : StoreFault := .refused [] "database is locked"

instance {σ α : Type} [ImportStateStore σ α] : ImportStateStore (Unreliable σ) α where
  load u key := if key ∈ u.brokenLoads then .error fault else ImportStateStore.load u.inner key
  save u s :=
    if s.key ∈ u.brokenSaves then .error fault
    else (ImportStateStore.save u.inner s).map fun inner => { u with inner }
  update u key change :=
    if key ∈ u.brokenUpdates then .error fault
    else
      let inner := if key ∈ u.vanishing then ImportStateStore.reset u.inner key else u.inner
      (ImportStateStore.update inner key change).map fun (found, inner) => (found, { u with inner })
  reset u key := { u with inner := ImportStateStore.reset u.inner key }

section Eq

variable {σ α : Type} [ImportStateStore σ α] {u u' : Unreliable σ} {key : String}

theorem load_eq (u : Unreliable σ) (key : String) :
    ImportStateStore.load u key =
      if key ∈ u.brokenLoads then .error fault else ImportStateStore.load u.inner key := rfl

/-- What is saved is saved in the store that it wraps. -/
theorem save_eq_ok {s : ImportState α} (h : ImportStateStore.save u s = .ok u') :
    ∃ inner', ImportStateStore.save u.inner s = .ok inner' ∧ u' = { u with inner := inner' } := by
  change (if s.key ∈ u.brokenSaves then _ else Except.map _ (ImportStateStore.save u.inner s)) =
    _ at h
  split at h
  · cases h
  cases hsave : ImportStateStore.save u.inner s with
  | error fault =>
    rw [hsave] at h
    cases h
  | ok inner =>
    rw [hsave] at h
    cases h
    exact ⟨inner, rfl, rfl⟩

/-- What is changed is changed in the store that it wraps, once that has forgotten the key if it is
to. -/
theorem update_eq_ok {change : ImportState α → ImportState α} {found : Option (ImportState α)}
    (h : ImportStateStore.update u key change = .ok (found, u')) :
    ∃ inner', ImportStateStore.update (if key ∈ u.vanishing then ImportStateStore.reset u.inner key
      else u.inner) key change = .ok (found, inner') ∧ u' = { u with inner := inner' } := by
  change (if key ∈ u.brokenUpdates then _ else Except.map _ (ImportStateStore.update
    (if key ∈ u.vanishing then ImportStateStore.reset u.inner key else u.inner) key change)) =
    _ at h
  split at h
  · cases h
  cases hupdate : ImportStateStore.update
    (if key ∈ u.vanishing then ImportStateStore.reset u.inner key else u.inner) key change with
  | error fault =>
    rw [hupdate] at h
    cases h
  | ok x =>
    rw [hupdate] at h
    cases h
    exact ⟨x.2, rfl, rfl⟩

end Eq

end Unreliable

/-- A record sink that refuses some rows. -/
structure Refusing (ρ : Type) where
  inner : ρ
  /-- What it refuses: `block:` or `price:` and a block number, `investor:` and an address, or
  `investment:` and a block number. -/
  broken : List String := []

namespace Refusing

variable {ρ : Type} [RecordSink ρ]

def accepting {β : Type} (r : Refusing ρ) (kind name : String) (go : Except StoreFault β) :
    Except StoreFault β :=
  if (kind ++ ":" ++ name) ∈ r.broken then .error (.refused [kind ++ " row"] "disk is full") else go

def blockName (b : BlockNumber) : String := Axis.Shown.display b

instance : RecordSink (Refusing ρ) where
  upsertBlock r row :=
    r.accepting "block" (blockName row.block) <|
      (RecordSink.upsertBlock r.inner row).map fun inner => { r with inner }
  upsertInvestor r a :=
    r.accepting "investor" a.text <|
      (RecordSink.upsertInvestor r.inner a).map fun (id, inner) => (id, { r with inner })
  upsertPrice r row :=
    r.accepting "price" (blockName row.block) <|
      (RecordSink.upsertPrice r.inner row).map fun inner => { r with inner }
  upsertInvestment r row :=
    r.accepting "investment" (blockName row.block) <|
      (RecordSink.upsertInvestment r.inner row).map fun inner => { r with inner }
  tables r := RecordSink.tables r.inner

end Refusing
end Backfill

/-! ## Cycles on a mock chain -/

namespace Backfill.MockChain

variable {α σ ρ : Type}

def failing (r : MockChain) (states : σ) : Unreliable σ :=
  { inner := states, brokenLoads := r.brokenLoads, brokenSaves := r.brokenSaves
    brokenUpdates := r.brokenUpdates, vanishing := r.vanishing }

/-- The runner state with stores that fail. -/
def setUp (r : MockChain) (b : RunnerState α σ ρ) : RunnerState α (Unreliable σ) (Refusing ρ) :=
  { progress := b.progress, states := r.failing b.states
    records := ⟨b.records, r.brokenRows⟩, trace := b.trace }

/-- The runner state with the stores themselves. -/
def clear (b : RunnerState α (Unreliable σ) (Refusing ρ)) : RunnerState α σ ρ :=
  { progress := b.progress, states := b.states.inner, records := b.records.inner
    trace := b.trace }

/-- Called off from the start, or once a call of a listed kind is made. -/
def cancelled (r : MockChain) (fromStart : Bool) : Cancellation := fun t =>
  fromStart || t.calls.any fun c => r.cancelOn = some c.kind

end Backfill.MockChain
