import Backfill.CommandLine.Refusal

/-!
# Commands

A command has options, which are given by name, and operands, which are given by place; each puts
what its value says into a draft. The value of an option is put there only when the next argument is
reached, so an unknown argument is noticed before a wrong value in front of it.

An unknown name is answered with one that is like it. Two texts are compared by the characters that
they share at nearly the same place, after Jaro: the shares of either text that are matched and the
share of matches in the right order are averaged.
-/
namespace Backfill.Text

/-! ## Likeness of texts -/

/-- Takes the first free character equal to `c` at a place from `lo` up to `hi`; `j` is the place of
the list's head. -/
def claim? (c : Char) (lo hi : Nat) : Nat → List (Char × Bool) → Option (List (Char × Bool))
  | _, [] => none
  | j, (d, taken) :: rest =>
    if lo ≤ j ∧ j < hi ∧ d = c ∧ taken = false then some ((d, true) :: rest)
    else (claim? c lo hi (j + 1) rest).map ((d, taken) :: ·)

/-- The characters of the first text that find a partner within `reach` places, and the second text
with the partners marked; `i` is the place of the first text's head. -/
def partners (reach : Nat) : Nat → List Char → List (Char × Bool) → List Char × List (Char × Bool)
  | _, [], bs => ([], bs)
  | i, c :: cs, bs =>
    match claim? c (i - reach) (i + reach + 1) 0 bs with
    | some bs =>
      let (found, bs) := partners reach (i + 1) cs bs
      (c :: found, bs)
    | none => partners reach (i + 1) cs bs

/-- The likeness of two texts is seven tenths at least. -/
def isAlike (a b : List Char) : Bool :=
  let (found, marked) := partners (max a.length b.length / 2 - 1) 0 a (b.map (·, false))
  let partner := (marked.filter (·.2)).map (·.1)
  let m := found.length
  let swapped := ((found.zip partner).filter fun (c, d) => c ≠ d).length / 2
  m ≠ 0 && decide (21 * a.length * b.length * m
    ≤ 10 * (m * m * (a.length + b.length) + (m - swapped) * a.length * b.length))

end Backfill.Text

namespace Backfill.CommandLine

/-- How an option without a value stands for one. -/
inductive Arity where
  /-- Given or not. -/
  | flag
  | value
  /-- May be given again and again. -/
  | values
  deriving DecidableEq, Repr

/-- An option or an operand, with the draft that it works on. -/
structure Parameter (δ : Type) where
  name : String
  arity : Arity := .value
  /-- The variable of the environment that stands in for it. -/
  env : Option String := none
  put : String → δ → Except Refusal δ

structure Command (δ : Type) where
  options : List (Parameter δ)
  operands : List (Parameter δ) := []
  subcommands : List String := []
  /-- Shows a version. -/
  versioned : Bool := false

/-! ## Arguments -/

/-- What an argument looks like. -/
inductive Shape where
  /-- Two dashes: only operands follow. -/
  | dashes
  | long (name : String) (value : Option String)
  /-- One dash, and the character after it. -/
  | short (first : Char)
  | plain
  deriving DecidableEq, Repr

def splitEquals (cs : List Char) : String × Option String :=
  match cs.span (· ≠ '=') with
  | (name, _ :: value) => (String.ofList name, some (String.ofList value))
  | (name, []) => (String.ofList name, none)

/-- What an argument looks like. A single dash is plain. -/
def Shape.of (word : String) : Shape :=
  match word.toList with
  | ['-', '-'] => dashes
  | '-' :: '-' :: cs =>
    let (name, value) := splitEquals cs
    long name value
  | '-' :: c :: _ => short c
  | _ => plain

/-! ## Reading -/

/-- How far arguments have been read. -/
structure Reading (δ : Type) where
  draft : δ
  /-- The parameters whose values are in the draft. -/
  given : List String := []
  /-- A parameter whose value is not in the draft yet, or still to come. -/
  pending : Option (Parameter δ × Option String) := none
  /-- The operands still to come. -/
  operands : List (Parameter δ)

namespace Reading
variable {δ : Type}

/-- The next argument is the value of an option. -/
def awaitsValue (r : Reading δ) : Bool :=
  match r.pending with
  | some (_, none) => true
  | _ => false

def put (p : Parameter δ) (value : String) (r : Reading δ) : Except Refusal (Reading δ) :=
  if p.name ∈ r.given ∧ p.arity ≠ .values then .error (.repeated p.name)
  else do return { r with draft := ← p.put value r.draft, given := p.name :: r.given }

def settle (r : Reading δ) : Except Refusal (Reading δ) :=
  match r.pending with
  | none => .ok r
  | some (p, none) => .error (.invalidValue p.name)
  | some (p, some value) => { r with pending := none }.put p value

def operand (word : String) (r : Reading δ) (otherwise : Refusal) : Except Refusal (Reading δ) :=
  match r.operands with
  | [] => .error otherwise
  | p :: rest => do
    let r ← r.settle
    return { r with operands := rest, pending := some (p, some word) }

/-- Takes the value of a variable unless the parameter is given already. -/
def fromEnv (env : String → Option String) (r : Reading δ) (p : Parameter δ) :
    Except Refusal (Reading δ) :=
  if p.name ∈ r.given then .ok r
  else
    match p.env.bind env with
    | some value => r.put p value
    | none => .ok r

end Reading

namespace Command
variable {δ : Type}

def start (c : Command δ) (draft : δ) : Reading δ := { draft, operands := c.operands }

def long (c : Command δ) (name : String) (value : Option String) (r : Reading δ) :
    Except Refusal (Reading δ) :=
  if name = "help" ∨ (name = "version" ∧ c.versioned = true) then
    match value with
    | some _ => .error (.unneededValue name)
    | none => do
      let _ ← r.settle
      .error (if name = "help" then .help else .version)
  else
    match c.options.find? (·.name = name), value with
    | none, _ => .error (.unknownArgument ("--" ++ name))
    | some p, none => do
      let r ← r.settle
      if p.arity = .flag then r.put p "true" else return { r with pending := some (p, none) }
    | some p, some value =>
      if p.arity = .flag then .error (.unneededValue name) else do (← r.settle).put p value

/-- Takes options by one letter: help, and the version. -/
def short (c : Command δ) (first : Char) (r : Reading δ) : Except Refusal (Reading δ) := do
  if first = 'h' then
    let _ ← r.settle
    .error .help
  else if first = 'V' ∧ c.versioned = true then
    let _ ← r.settle
    .error .version
  else .error (.unknownArgument ("-" ++ first.toString))

/-- The refusal of one operand too many. -/
def excess (c : Command δ) (word : String) : Refusal :=
  if c.subcommands.any fun s => Text.isAlike word.toList s.toList then .unknownSubcommand word
  else .unknownArgument word

/-- Takes operands only. The name of a subcommand does not name it here. -/
def trailing (c : Command δ) : List String → Reading δ → Except Refusal (Reading δ)
  | [], r => .ok r
  | w :: ws, r => do
    let otherwise := if w ∈ c.subcommands then .unknownArgument w else c.excess w
    c.trailing ws (← r.operand w otherwise)

/-- Takes arguments up to a subcommand: what has been read, and the subcommand with the arguments
that follow it. -/
def read (c : Command δ) :
    List String → Reading δ → Except Refusal (Reading δ × Option (String × List String))
  | [], r => .ok (r, none)
  | w :: ws, r =>
    if w ∈ c.subcommands ∧ r.awaitsValue = false then .ok (r, some (w, ws))
    else
      match Shape.of w with
      | .dashes => do return (← c.trailing ws r, none)
      | .long name value => do c.read ws (← c.long name value r)
      | .short first => do c.read ws (← c.short first r)
      | .plain =>
        match r.pending with
        | some (p, none) => c.read ws { r with pending := some (p, some w) }
        | _ => do c.read ws (← r.operand w (c.excess w))

/-- Takes all arguments of a command without subcommands. -/
def run (c : Command δ) (draft : δ) (words : List String) : Except Refusal δ := do
  let (r, _) ← c.read words (c.start draft)
  return (← r.settle).draft

end Command
end Backfill.CommandLine
