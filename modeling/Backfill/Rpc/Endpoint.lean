import Backfill.Text.Characters
import Backfill.Text.Hex

/-!
# Endpoints

Where a node is reached: a URL, checked by the rules that browsers go by. Schemes of the web need a
host and share its syntax; any other scheme may go without one.
-/
namespace Backfill.Rpc.Endpoint

/-! ## Numbers and addresses -/

/-- The number in a part of an address: hexadecimal after `0x`, octal after another leading zero. -/
def partNumber? : List Char → Option Nat
  | [] => none
  | '0' :: 'x' :: ds => digits? 16 ds
  | '0' :: d :: ds => digits? 8 (d :: ds)
  | ds => digits? 10 ds
where
  /-- The value of digits in a base. -/
  digits? (base : Nat) (ds : List Char) : Option Nat :=
    ds.foldl (fun n c => do
      let d ← Text.hexDigit? c
      if d < base then return (← n) * base + d else none) (some 0)

/-- The parts of a domain; a dot at its end adds none. -/
def parts (domain : List Char) : List (List Char) :=
  let ps := domain.splitOn '.'
  if ps.length > 1 ∧ ps.getLast? = some [] then ps.dropLast else ps

/-- The last part is a number, so that the whole has to be an address of four octets. -/
def endsInNumber (domain : List Char) : Bool :=
  match (parts domain).getLast? with
  | some last => (last ≠ [] && last.all Char.isDigit) || (partNumber? last).isSome
  | none => false

/-- An address of four octets: four parts at most, of which the last one stands for all octets that
the others leave. -/
def isFourOctets (domain : List Char) : Bool :=
  match (parts domain).mapM partNumber? with
  | none => false
  | some ns =>
    ns.length ≤ 4 && ns.dropLast.all (· < 256) && ns.getLastD 0 < 256 ^ (5 - ns.length)

/-- An octet in decimal, without leading zeros. -/
def isOctet (ds : List Char) : Bool :=
  ds ≠ [] && ds.all Char.isDigit && (ds.length = 1 || ds.head? ≠ some '0')
    && Nat.ofDigitChars 10 ds 0 < 256

/-- How many groups of 16 bits a group of an address stands for, if it is one. The last group may
be four octets in decimal. -/
def groupSize? (isLast : Bool) (g : List Char) : Option Nat :=
  if g ≠ [] ∧ g.length ≤ 4 ∧ g.all (Text.hexDigit? · |>.isSome) then some 1
  else if isLast && (g.splitOn '.').length = 4 && (g.splitOn '.').all isOctet then some 2
  else none

/-- The groups that a part of an address stands for; `atEnd` if nothing follows the part. -/
def groups? (atEnd : Bool) (cs : List Char) : Option Nat :=
  if cs = [] then some 0 else go (cs.splitOn ':')
where
  /-- The sum over the groups. -/
  go : List (List Char) → Option Nat
    | [] => some 0
    | [g] => groupSize? atEnd g
    | g :: rest => do return (← groupSize? false g) + (← go rest)

def splitDouble? : List Char → Option (List Char × List Char)
  | ':' :: ':' :: rest => some ([], rest)
  | c :: rest => (splitDouble? rest).map fun (before, after) => (c :: before, after)
  | [] => none

/-- An address of eight groups; a double colon stands for one group or more. -/
def isEightGroups (cs : List Char) : Bool :=
  match splitDouble? cs with
  | none => groups? true cs = some 8
  | some (before, after) =>
    match groups? false before, groups? true after with
    | some m, some n => m + n ≤ 7
    | _, _ => false

/-! ## Hosts -/

/-- The octets that a text stands for, each `%` with two hexadecimal digits being one of them. -/
def percentDecoded : List Char → List UInt8
  | [] => []
  | '%' :: a :: b :: rest =>
    match Text.hexDigit? a, Text.hexDigit? b with
    | some m, some n => UInt8.ofNat (m * 16 + n) :: percentDecoded rest
    | _, _ => '%'.toUInt8 :: percentDecoded (a :: b :: rest)
  | c :: rest => (String.singleton c).toUTF8.toList ++ percentDecoded rest
termination_by cs => cs.length

def isForbidden (c : Char) : Bool :=
  c = '\x00' || c ∈ [' ', '\t', '\n', '\r', '#', '/', ':', '<', '>', '?', '@'] ||
    c ∈ ['[', '\\', ']', '^', '|']

/-- Characters that no domain contains. -/
def isForbiddenInDomain (c : Char) : Bool :=
  isForbidden c || c.toNat < 0x20 || c = '%' || c = '\x7f' || Text.isBlank c || c = '\ufffd'

/-- A domain, or the address that it is if it ends in a number. -/
def isDomain (cs : List Char) : Bool :=
  match String.fromUTF8? (ByteArray.mk (percentDecoded cs).toArray) with
  | none => false
  | some s =>
    let domain := s.toList.map Char.toLower
    domain ≠ [] && !domain.any isForbiddenInDomain
      && (!endsInNumber domain || isFourOctets domain)

/-- An address between brackets, or else something for which a test holds. -/
def bracketedOr (other : List Char → Bool) (cs : List Char) : Bool :=
  match cs with
  | '[' :: rest => rest.getLast? = some ']' && isEightGroups rest.dropLast
  | _ => other cs

/-! ## URLs -/

/-- The ways to read what follows a scheme. -/
inductive Scheme where
  /-- A host is needed. -/
  | web
  /-- A host may be given. -/
  | file
  /-- A host may be given, and may be any text. -/
  | other
  deriving DecidableEq

def Scheme.ofName (name : List Char) : Scheme :=
  let name := String.ofList (name.map Char.toLower)
  if name ∈ ["http", "https", "ws", "wss", "ftp"] then .web
  else if name = "file" then .file
  else .other

/-- The scheme before the first colon, and what follows. -/
def scheme? (cs : List Char) : Option (List Char × List Char) :=
  match cs with
  | [] => none
  | c :: _ =>
    if c.isAlpha then
      let (name, rest) := cs.span fun c => c.isAlphanum || c = '+' || c = '-' || c = '.'
      match rest with
      | ':' :: rest => some (name, rest)
      | _ => none
    else none

/-- Ends the part of a URL that names the host. -/
def endsAuthority (s : Scheme) (c : Char) : Bool :=
  c = '/' || c = '?' || c = '#' || (s ≠ .other && c = '\\')

/-- Cuts off the host: up to a colon outside of brackets. -/
def splitHost (inside : Bool) : List Char → List Char × List Char
  | [] => ([], [])
  | c :: rest =>
    if c = ':' && !inside then ([], c :: rest)
    else
      let (host, after) := splitHost (c = '[' || (inside && c ≠ ']')) rest
      (c :: host, after)

/-- A port: decimal digits up to 65535, if any. A backslash ends it in every scheme. -/
def isPort (cs : List Char) : Bool :=
  let cs := cs.takeWhile (· ≠ '\\')
  cs.all Char.isDigit && Nat.ofDigitChars 10 cs 0 ≤ 65535

/-- The part between a mark and the last `@`, if there is one, and what follows it. -/
def splitUser (cs : List Char) : Option (List Char) × List Char :=
  match cs.reverse.span (· ≠ '@') with
  | (host, '@' :: user) => (some user.reverse, host.reverse)
  | (host, _) => (none, host.reverse)

/-- A host with an optional user before and an optional port after it; `endsHere` if nothing
follows. -/
def isAuthority (s : Scheme) (endsHere : Bool) (cs : List Char) : Bool :=
  let (user, hostPort) := splitUser cs
  let (host, port) := splitHost false hostPort
  let needsHost :=
    match user with
    | none => false
    | some [] => hostPort = [] && !endsHere
    | some user => user ≠ [':'] && host = []
  !needsHost && (host ≠ [] || (s = .other && port = []))
    && (host = [] || bracketedOr (if s = .other then (!·.any isForbidden) else isDomain) host)
    && (port = [] || isPort port.tail)

def isDrive (cs : List Char) : Bool :=
  match cs with
  | [c, m] => c.isAlpha && (m = ':' || m = '|')
  | _ => false

def isBody (s : Scheme) (cs : List Char) : Bool :=
  let authority (cs : List Char) : Bool :=
    let (named, rest) := cs.span (!endsAuthority s ·)
    isAuthority s (rest = []) named
  match s, cs with
  | .web, cs => authority (cs.dropWhile fun c => c = '/' || c = '\\')
  | .other, '/' :: '/' :: cs => authority cs
  | .file, a :: b :: cs =>
    if (a = '/' || a = '\\') && (b = '/' || b = '\\') then
      let host := cs.takeWhile (!endsAuthority s ·)
      host = [] || isDrive host || bracketedOr isDomain host
    else true
  | _, _ => true

/-- Controls and blanks at either end do not count. -/
def isPadding (c : Char) : Bool := c.toNat ≤ 0x20

/-- A text is an absolute URL. Tabs and line ends in it do not count. -/
def isUrl (s : String) : Bool :=
  let trimmed := ((s.toList.dropWhile isPadding).reverse.dropWhile isPadding).reverse
  match scheme? (trimmed.filter fun c => c ≠ '\t' && c ≠ '\n' && c ≠ '\r') with
  | none => false
  | some (name, rest) => isBody (Scheme.ofName name) rest

end Backfill.Rpc.Endpoint

namespace Backfill.Rpc

/-- Where a node is reached. -/
structure Endpoint where
  url : String
  isUrl_url : Endpoint.isUrl url = true

structure InvalidUrl where
  url : String
  deriving DecidableEq, Repr

def InvalidUrl.message (e : InvalidUrl) : String := "Invalid RPC url '" ++ e.url ++ "'"

/-- Mirrors `RpcClient::new`. -/
def Endpoint.ofText (s : String) : Except InvalidUrl Endpoint :=
  if h : Endpoint.isUrl s = true then .ok ⟨s, h⟩ else .error ⟨s⟩

end Backfill.Rpc
