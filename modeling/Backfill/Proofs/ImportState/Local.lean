import Backfill.Proofs.ImportState.ImportRanges
import Backfill.Mock.Stores

/-!
# Stores that a key cannot tell apart

Two stores may differ a lot and still be the same to whoever uses one key of them. `SameAt` says so:
whatever is done under the key does alike in both stores, now and later, and whatever is done under
other keys in one of them makes no difference. It is the greatest relation of that kind. A store
that mixed its keys up would not be related to itself.

States count as the same if they have the same ranges, for the stamps on them come from a clock.

Results:
* `ImportState.Agree.applyResults`: outcomes keep states the same, in any order and at any time.
* `keeps_sameAt`: the relation is kept by everything that is done with stores.
* `MemoryImportStateStore.sameAt`, `Unreliable.sameAt`: stores of which it holds.
-/
namespace Backfill

variable {α : Type} [Axis α]

/-! ## The same state -/

namespace ImportState

def stamped (s : ImportState α) (last : UInt64) : ImportState α :=
  { s with coverage := { s.coverage with lastImport := last } }

/-- Both are one state but for the stamp, and its ranges are proper. -/
structure Agree (s s' : ImportState α) : Prop where
  proper : s.coverage.Proper
  stamp : ∃ last, s' = s.stamped last

namespace Agree

variable {s s' : ImportState α}

theorem refl (h : s.coverage.Proper) : Agree s s := ⟨h, s.coverage.lastImport, rfl⟩

theorem symm (h : Agree s s') : Agree s' s := by
  obtain ⟨hproper, last, rfl⟩ := h
  exact ⟨⟨hproper.covered, hproper.toRetry⟩, s.coverage.lastImport, rfl⟩

/-- Outcomes keep states the same, in any order and at any time. -/
theorem applyResults {os os' : List (RangeOutcome α)} (h : Agree s s')
    (hos : ∀ o ∈ os, o.range.Proper) (hperm : os.Perm os') (now now' : UInt64) :
    Agree (s.applyResults now os) (s'.applyResults now' os') := by
  obtain ⟨hproper, last, rfl⟩ := h
  refine ⟨hproper.applyResults hos, ((s.stamped last).applyResults now' os').coverage.lastImport,
    ?_⟩
  obtain ⟨hcovered, htoRetry⟩ := ImportRanges.applyResults_now s.coverage os' last now now'
  rw [← hproper.applyResults_perm hperm hos] at hcovered htoRetry
  have hcoverage : ((s.stamped last).applyResults now' os').coverage =
      { (s.applyResults now os).coverage with
        lastImport := ((s.stamped last).applyResults now' os').coverage.lastImport } :=
    ImportRanges.ext rfl hcovered htoRetry
  exact congrArg (fun coverage => { s with coverage }) hcoverage

theorem option_symm {x x' : Option (ImportState α)} (h : Option.Rel Agree x x') :
    Option.Rel Agree x' x := by
  cases h with
  | some h => exact .some h.symm
  | none => exact .none

end Agree
end ImportState

/-! ## The same store -/

/-- Both fail, or what comes of both is related. -/
def Both {ε β γ : Type} (R : β → γ → Prop) : Except ε β → Except ε γ → Prop
  | .ok x, .ok y => R x y
  | .error _, .error _ => True
  | _, _ => False

theorem Both.mono {ε β γ : Type} {R S : β → γ → Prop} (h : ∀ x y, R x y → S x y)
    {x : Except ε β} {y : Except ε γ} (hxy : Both R x y) : Both S x y := by
  cases x <;> cases y
  · trivial
  · exact hxy.elim
  · exact hxy.elim
  · exact h _ _ hxy

theorem Both.map {ε β β' γ γ' : Type} {R : β → γ → Prop} {S : β' → γ' → Prop} {f : β → β'}
    {g : γ → γ'} (h : ∀ x y, R x y → S (f x) (g y)) {x : Except ε β} {y : Except ε γ}
    (hxy : Both R x y) : Both S (x.map f) (y.map g) := by
  cases x <;> cases y
  · trivial
  · exact hxy.elim
  · exact hxy.elim
  · exact h _ _ hxy

theorem Both.unless {ε β γ : Type} {R : β → γ → Prop} {refused refused' : Prop} [Decidable refused]
    [Decidable refused'] {fault : ε} {x : Except ε β} {y : Except ε γ} (h : refused ↔ refused')
    (hxy : Both R x y) :
    Both R (if refused then .error fault else x) (if refused' then .error fault else y) := by
  by_cases hr : refused
  · rw [if_pos hr, if_pos (h.mp hr)]
    trivial
  · rw [if_neg hr, if_neg fun hr' => hr (h.mpr hr')]
    exact hxy

section SameAt

variable {σ : Type} [ImportStateStore σ α]

/-- A relation of stores that lasts, whatever is done: alike to both under the key, or to one of
them under another key. -/
structure Keeps (key : String) (R : σ → σ → Prop) : Prop where
  symm : ∀ {u u'}, R u u' → R u' u
  load : ∀ {u u'}, R u u' →
    Both (Option.Rel ImportState.Agree) (ImportStateStore.load u key) (ImportStateStore.load u' key)
  save : ∀ {u u'} {s : ImportState α}, R u u' → s.key = key → s.coverage.Proper →
    Both R (ImportStateStore.save u s) (ImportStateStore.save u' s)
  update : ∀ {u u'} {f f' : ImportState α → ImportState α}, R u u' →
    (∀ s s', s.Agree s' → (f s).Agree (f' s')) →
      Both (fun x x' => R x.2 x'.2) (ImportStateStore.update u key f)
        (ImportStateStore.update u' key f')
  reset : ∀ {u u'}, R u u' → R (ImportStateStore.reset u key) (ImportStateStore.reset u' key)
  save_other : ∀ {u u' v} {s : ImportState α}, R u u' → s.key ≠ key →
    ImportStateStore.save u s = .ok v → R v u'
  update_other : ∀ {u u' v} {other : String} {f : ImportState α → ImportState α}
    {found : Option (ImportState α)}, R u u' → other ≠ key →
      ImportStateStore.update u other f = .ok (found, v) → R v u'
  reset_other : ∀ {u u'} {other : String}, R u u' → other ≠ key →
    R (ImportStateStore.reset u other) u'

/-- Stores that a key cannot tell apart. -/
def SameAt (key : String) (u u' : σ) : Prop := ∃ R, Keeps key R ∧ R u u'

variable {key : String}

theorem Keeps.sameAt {R : σ → σ → Prop} (h : Keeps key R) {u u' : σ} (hu : R u u') :
    SameAt key u u' := ⟨R, h, hu⟩

theorem keeps_sameAt (key : String) : Keeps key (SameAt (σ := σ) key) where
  symm := fun ⟨_, hR, h⟩ => hR.sameAt (hR.symm h)
  load := fun ⟨_, hR, h⟩ => hR.load h
  save := fun ⟨_, hR, h⟩ hkey hproper => (hR.save h hkey hproper).mono fun _ _ => hR.sameAt
  update := fun ⟨_, hR, h⟩ hf => (hR.update h hf).mono fun _ _ => hR.sameAt
  reset := fun ⟨_, hR, h⟩ => hR.sameAt (hR.reset h)
  save_other := fun ⟨_, hR, h⟩ hne hsave => hR.sameAt (hR.save_other h hne hsave)
  update_other := fun ⟨_, hR, h⟩ hne hupdate => hR.sameAt (hR.update_other h hne hupdate)
  reset_other := fun ⟨_, hR, h⟩ hne => hR.sameAt (hR.reset_other h hne)

end SameAt

/-! ## In memory -/

namespace MemoryImportStateStore

def Match (key : String) (m m' : MemoryImportStateStore α) : Prop :=
  Option.Rel ImportState.Agree (m.states.get? key) (m'.states.get? key)

theorem keeps_match (key : String) : Keeps key (Match (α := α) key) where
  symm h := ImportState.Agree.option_symm h
  load h := h
  save {m m' s} h hkey hproper := by
    subst hkey
    simp only [ImportStateStore.save, Both, Match, Table.get?_put, if_true]
    exact .some (.refl hproper)
  update {m m' f f'} h hf := by
    unfold Match at h
    simp only [ImportStateStore.update]
    cases hm : m.states.get? key <;> cases hm' : m'.states.get? key <;> rw [hm, hm'] at h
    · simp only [Both, Match, hm, hm']
      exact h
    · cases h
    · cases h
    · cases h with
      | some h =>
        simp only [Both, Match, Table.get?_put, if_true]
        exact .some (hf _ _ h)
  reset {m m'} _ := by
    simp only [Match, ImportStateStore.reset, Table.get?_erase, if_true]
    exact .none
  save_other {m m' v s} h hne hsave := by
    cases hsave
    unfold Match at h ⊢
    rwa [Table.get?_put, if_neg hne]
  update_other {m m' v other f found} h hne hupdate := by
    simp only [ImportStateStore.update] at hupdate
    unfold Match at h ⊢
    split at hupdate
    · cases hupdate
      exact h
    · cases hupdate
      rwa [Table.get?_put, if_neg hne]
  reset_other {m m' other} h hne := by
    unfold Match at h ⊢
    simp only [ImportStateStore.reset]
    rwa [Table.get?_erase, if_neg hne]

theorem sameAt {key : String} {m m' : MemoryImportStateStore α} (h : m.Match key m') :
    SameAt key m m' :=
  (keeps_match key).sameAt h

end MemoryImportStateStore

/-! ## Stores that fail -/

namespace Unreliable

variable {σ : Type} [ImportStateStore σ α] {key : String}

structure Match (key : String) (u u' : Unreliable σ) : Prop where
  inner : SameAt key u.inner u'.inner
  loads : key ∈ u.brokenLoads ↔ key ∈ u'.brokenLoads
  saves : key ∈ u.brokenSaves ↔ key ∈ u'.brokenSaves
  updates : key ∈ u.brokenUpdates ↔ key ∈ u'.brokenUpdates
  vanishing : key ∈ u.vanishing ↔ key ∈ u'.vanishing

theorem sameAt_forgetting {inner inner' : σ} (h : SameAt key inner inner') {other : String}
    (hne : other ≠ key) (forgets : Prop) [Decidable forgets] :
    SameAt key (if forgets then ImportStateStore.reset inner other else inner) inner' := by
  split
  · exact (keeps_sameAt key).reset_other h hne
  · exact h

theorem keeps_match (key : String) : Keeps key (Match (σ := σ) key) where
  symm h := ⟨(keeps_sameAt key).symm h.inner, h.loads.symm, h.saves.symm, h.updates.symm,
    h.vanishing.symm⟩
  load h := Both.unless h.loads ((keeps_sameAt key).load h.inner)
  save {u u' s} h hkey hproper := by
    have hsave := (keeps_sameAt key).save h.inner hkey hproper
    subst hkey
    exact Both.unless h.saves (hsave.map fun _ _ hinner => { h with inner := hinner })
  update {u u' f f'} h hf := by
    have hinner :
        SameAt key (if key ∈ u.vanishing then ImportStateStore.reset u.inner key else u.inner)
        (if key ∈ u'.vanishing then ImportStateStore.reset u'.inner key else u'.inner) := by
      by_cases hforgets : key ∈ u.vanishing
      · rw [if_pos hforgets, if_pos (h.vanishing.mp hforgets)]
        exact (keeps_sameAt key).reset h.inner
      · rw [if_neg hforgets, if_neg fun hforgets' => hforgets (h.vanishing.mpr hforgets')]
        exact h.inner
    exact Both.unless h.updates
      (((keeps_sameAt key).update hinner hf).map fun _ _ hinner => { h with inner := hinner })
  reset h := { h with inner := (keeps_sameAt key).reset h.inner }
  save_other {u u' v s} h hne hsave := by
    obtain ⟨inner, hinner, rfl⟩ := save_eq_ok hsave
    exact { h with inner := (keeps_sameAt key).save_other h.inner hne hinner }
  update_other {u u' v other f found} h hne hupdate := by
    obtain ⟨inner, hinner, rfl⟩ := update_eq_ok hupdate
    exact { h with
      inner := (keeps_sameAt key).update_other (sameAt_forgetting h.inner hne _) hne hinner }
  reset_other h hne := { h with inner := (keeps_sameAt key).reset_other h.inner hne }

theorem sameAt {u u' : Unreliable σ} (h : u.Match key u') : SameAt key u u' :=
  (keeps_match key).sameAt h

end Unreliable
end Backfill
