import Backfill.Product.Basic

/-!
# The catalog

The catalog is a JSON list of products. What kind of product it is stands in the member `type` of
`productData`, anywhere among the others, so that record is gathered whole before it is understood.
-/
namespace Backfill.Product

open Json

/-! ## Writing -/

def vaultValue (v : Vault) : Value :=
  .record
    [("id", .text v.id), ("contract_address", .text v.contract.text),
     ("token_decimals", .integer v.tokenDecimals.toNat),
     ("want_decimals", .integer v.wantDecimals.toNat)]

def boostValue (b : Boost) : Value :=
  .record
    [("id", .text b.id), ("contract_address", .text b.contract.text),
     ("staked_token_address", .text b.stakedToken.text),
     ("staked_token_decimals", .integer b.stakedDecimals.toNat),
     ("vault_want_decimals", .integer b.vaultWantDecimals.toNat)]

def kindName : ProductData → String
  | .vault _ => "beefy:vault"
  | .govVault _ => "beefy:gov-vault"
  | .boost _ => "beefy:boost"

def dataValue (d : ProductData) : Value :=
  .record <| ("type", .text (kindName d)) ::
    match d with
    | .vault v | .govVault v => [("vault", vaultValue v)]
    | .boost b => [("boost", boostValue b)]

def value (p : Product) : Value :=
  .record
    [("productId", .integer p.id.toInt), ("productKey", .text p.key),
     ("chain", .text p.chain.name), ("priceFeedId1", .integer p.shareFeed.toInt),
     ("priceFeedId2", .integer p.underlyingFeed.toInt), ("eol", .bool p.retired),
     ("productData", dataValue p.data)]

def catalogText (ps : List Product) : String := (Value.list (ps.map value)).indented 0

/-! ## Reading -/

/-- The value of a member that occurs once. -/
def soleMember? (key : String) (ms : List (String × Value)) : Option Value :=
  match ms.filter (·.1 = key) with
  | [(_, v)] => some v
  | _ => none

/-- The values of named members, each of which occurs once, or of a list of that many items. -/
def parts? (keys : List String) : Value → Option (List Value)
  | .record ms => keys.mapM (soleMember? · ms)
  | .list vs => if vs.length = keys.length then some vs else none
  | _ => none

def decimals? : Value → Option UInt32
  | .integer n => if 0 ≤ n ∧ n < 2 ^ 32 then some (UInt32.ofNat n.toNat) else none
  | _ => none

def address? : Value → Option Address
  | .text s => Address.ofText? s
  | _ => none

def vault? (v : Value) : Option Vault := do
  match ← parts? ["id", "contract_address", "token_decimals", "want_decimals"] v with
  | [.text id, contract, token, want] =>
    return ⟨id, ← address? contract, ← decimals? token, ← decimals? want⟩
  | _ => none

def boost? (v : Value) : Option Boost := do
  let keys :=
    ["id", "contract_address", "staked_token_address", "staked_token_decimals",
     "vault_want_decimals"]
  match ← parts? keys v with
  | [.text id, contract, staked, decimals, want] =>
    return ⟨id, ← address? contract, ← address? staked, ← decimals? decimals, ← decimals? want⟩
  | _ => none

/-- A kind of product, by how the value that describes it is understood. -/
abbrev Kind := Value → Option ProductData

def kind? (s : String) : Option Kind :=
  let sole (key : String) (v : Value) : Option Value :=
    match parts? [key] v with
    | some [part] => some part
    | _ => none
  if s = "beefy:vault" then some fun v => (sole "vault" v).bind vault? |>.map .vault
  else if s = "beefy:gov-vault" then some fun v => (sole "vault" v).bind vault? |>.map .govVault
  else if s = "beefy:boost" then some fun v => (sole "boost" v).bind boost? |>.map .boost
  else none

def kindReader : Reader Kind := scalar fun
  | .text s => kind? s
  | _ => none

/-- The kind of a product and what describes it: the members other than `type`, or the items after
the first. -/
def dataReader (depth : Nat) : Reader ProductData := fun bs =>
  let understand (kind : Kind) (v : Value) (bs : List UInt8) :
      Except Fault (ProductData × List UInt8) :=
    match kind v with
    | some d => .ok (d, bs)
    | none => .error .mismatch
  match skipBlanks bs with
  | [] => .error .truncated
  | b :: rest =>
    if b = octet '[' then
      match depth with
      | 0 => .error .malformed
      | depth + 1 => do
        match ← nextItem true rest with
        | none => throw .mismatch
        | some bs =>
          let (kind, bs) ← kindReader bs
          let (vs, bs) ← items (any depth) (bs.length + 1) false bs
          understand kind (.list vs) bs
    else if b = octet '\x7b' then
      match depth with
      | 0 => .error .malformed
      | depth + 1 => do
        let member := fun key (r : Option Kind × List (String × Value)) bs =>
          if key = "type" then
            if r.1.isSome then .error .mismatch
            else do
              let (kind, bs) ← kindReader (← colon bs)
              return ((some kind, r.2), bs)
          else do
            let (v, bs) ← any depth (← colon bs)
            return ((r.1, r.2 ++ [(key, v)]), bs)
        let ((kind, ms), bs) ← members member (rest.length + 1) true (none, []) rest
        match kind with
        | some kind => understand kind (.record ms) bs
        | none => throw .mismatch
    else .error (wrongShape b rest)

structure Draft where
  id : Option Int64 := none
  key : Option String := none
  chain : Option Chain := none
  shareFeed : Option Int64 := none
  underlyingFeed : Option Int64 := none
  retired : Option Bool := none
  data : Option ProductData := none

def signed64 : Reader Int64 := fun bs =>
  (integer (-2 ^ 63) (2 ^ 63 - 1) bs).map fun (n, bs) => (Int64.ofInt n, bs)

def fields : List (FieldReader Draft) :=
  [{ name := "productId", has := (·.id.isSome)
     read := fun _ d bs => do let (x, bs) ← signed64 bs; return ({ d with id := some x }, bs) },
   { name := "productKey", has := (·.key.isSome)
     read := fun _ d bs => do let (x, bs) ← string bs; return ({ d with key := some x }, bs) },
   { name := "chain", has := (·.chain.isSome)
     read := fun n d bs => do
       let (x, bs) ← Chain.reader n bs; return ({ d with chain := some x }, bs) },
   { name := "priceFeedId1", has := (·.shareFeed.isSome)
     read := fun _ d bs => do
       let (x, bs) ← signed64 bs; return ({ d with shareFeed := some x }, bs) },
   { name := "priceFeedId2", has := (·.underlyingFeed.isSome)
     read := fun _ d bs => do
       let (x, bs) ← signed64 bs; return ({ d with underlyingFeed := some x }, bs) },
   { name := "eol", has := (·.retired.isSome)
     read := fun _ d bs => do let (x, bs) ← bool bs; return ({ d with retired := some x }, bs) },
   { name := "productData", has := (·.data.isSome)
     read := fun n d bs => do
       let (x, bs) ← dataReader n bs; return ({ d with data := some x }, bs) }]

/-- The product with these fields. Only whether it is retired may be left open. -/
def Draft.finish (d : Draft) : Option Product := do
  return {
    id := ← d.id, key := ← d.key, chain := ← d.chain, shareFeed := ← d.shareFeed,
    underlyingFeed := ← d.underlyingFeed, retired := d.retired.getD false, data := ← d.data }

def reader : Nat → Reader Product := record fields {} Draft.finish

/-- The products of a catalog. Mirrors `load_catalog`. -/
def catalogOf (octets : List UInt8) : Except Fault (List Product) :=
  readOctets (fun depth => list depth reader) octets

end Backfill.Product
