/-!
# Batches

Things that arrive one by one are grouped into batches. Time is cut into windows. At the end of a
window whatever has arrived in it is sent off as one batch, and when nothing more will arrive the
rest is. So a slow arrival holds the others up for one window at most.
-/
namespace Backfill

/-- Things that come together. -/
structure Batch (β : Type) where
  /-- When it is sent off, in milliseconds. -/
  time : Nat
  items : List β
  deriving DecidableEq, Repr

namespace Batch

variable {β : Type}

/-- When things arrive that are each ready some time after the one before it. The shorter of the two
lists decides how many there are. -/
def arrivals (now : Nat) : List Nat → List β → List (Nat × β)
  | d :: ds, x :: xs => (now + d, x) :: arrivals (now + d) ds xs
  | _, _ => []

def nextTime (finish : Nat) : List (Nat × β) → Nat
  | [] => finish
  | (time, _) :: _ => time

/-- Mirrors the loop of `buffer_time`: the batches from a time on when some things are held. What
comes first is next: the window ends at `due`, or a thing arrives, or it is clear at `finish` that
nothing more will. A thing that arrives when the window ends still belongs to it. -/
def collect (window finish due : Nat) (held : List β) (rest : List (Nat × β)) : List (Batch β) :=
  if due < nextTime finish rest then
    match held with
    | [] => collect window finish (due + max 1 window) [] rest
    | x :: xs => ⟨due, x :: xs⟩ :: collect window finish (due + max 1 window) [] rest
  else
    match rest with
    | [] =>
      match held with
      | [] => []
      | x :: xs => [⟨finish, x :: xs⟩]
    | (_, x) :: rest => collect window finish due (held ++ [x]) rest
termination_by (rest.length, nextTime finish rest - due)

/-- Mirrors `buffer_time`: the batches of arrivals after which it is clear at a time that nothing
more will arrive. -/
def groups (window finish : Nat) (arrivals : List (Nat × β)) : List (Batch β) :=
  collect window finish window [] arrivals

def endOf (arrivals : List (Nat × β)) : Nat := (arrivals.getLast?.map (·.1)).getD 0

/-- The batches of arrivals that end with the last thing, without a pause. -/
def ofArrivals (window : Nat) (arrivals : List (Nat × β)) : List (Batch β) :=
  groups window (endOf arrivals) arrivals

end Batch
end Backfill
