import Backfill.Product.Catalog
import Backfill.Proofs.Json.Values
import Backfill.Proofs.Text.Hex

/-!
# Catalogs are read as they were written

A catalog is written with a member to the line. What describes a product is read whole, as a value
of no known shape, and only then understood by the kind that is named beside it, so three things
come together: the value is read as itself, its parts are found in it under their names, and each
part is understood as what it was written for. Nothing is asked of a product.

Results:
* `Address.ofText?_text`: an address is read as it was written.
* `vault?_vaultValue`, `boost?_boostValue`: what describes a product is understood.
* `takes_data`: the kind of a product and what describes it.
* `catalog_read_as_written`: the text of a catalog is read as that catalog.
-/
namespace Backfill

open Json

theorem Address.ofText?_text (a : Address) : Address.ofText? a.text = some a := by
  have hbits : a.bits.toNat < 16 ^ (2 * 20) := a.bits.isLt
  rw [Address.ofText?, Address.text, Text.ofHexWord?_hexData (by decide) hbits, Option.map_some,
    Address.ofNat, BitVec.ofNat_toNat, BitVec.setWidth_eq]

namespace Product

/-! ## What describes a product -/

theorem address?_text (a : Address) : address? (.text a.text) = some a := Address.ofText?_text a

theorem decimals?_toNat (n : UInt32) : decimals? (.integer n.toNat) = some n := by
  have hn := n.toNat_lt
  have hrange : (0 : Int) ≤ n.toNat ∧ (n.toNat : Int) < 2 ^ 32 := by omega
  rw [decimals?, if_pos hrange, Int.toNat_natCast, UInt32.ofNat_toNat]

theorem vault?_vaultValue (v : Vault) : vault? (vaultValue v) = some v := by
  have hparts : parts? ["id", "contract_address", "token_decimals", "want_decimals"]
      (vaultValue v) = some [.text v.id, .text v.contract.text, .integer v.tokenDecimals.toNat,
        .integer v.wantDecimals.toNat] := rfl
  simp only [vault?, hparts, Option.bind_eq_bind, Option.bind_some, address?_text, decimals?_toNat,
    pure]

theorem boost?_boostValue (b : Boost) : boost? (boostValue b) = some b := by
  have hparts : parts? ["id", "contract_address", "staked_token_address", "staked_token_decimals",
      "vault_want_decimals"] (boostValue b) = some [.text b.id, .text b.contract.text,
        .text b.stakedToken.text, .integer b.stakedDecimals.toNat,
        .integer b.vaultWantDecimals.toNat] := rfl
  simp only [boost?, hparts, Option.bind_eq_bind, Option.bind_some, address?_text, decimals?_toNat,
    pure]

def described : ProductData → String × Value
  | .vault v | .govVault v => ("vault", vaultValue v)
  | .boost b => ("boost", boostValue b)

theorem dataValue_eq (d : ProductData) :
    dataValue d = .record [("type", .text (kindName d)), described d] := by
  cases d <;> rfl

/-- The kind that is named understands the member beside the name. -/
theorem kind_understands (d : ProductData) :
    ∃ kind, kind? (kindName d) = some kind ∧ kind (.record [described d]) = some d := by
  cases d with
  | vault v =>
    refine ⟨_, rfl, ?_⟩
    change ((some (vaultValue v)).bind vault?).map ProductData.vault = _
    rw [Option.bind_some, vault?_vaultValue, Option.map_some]
  | govVault v =>
    refine ⟨_, rfl, ?_⟩
    change ((some (vaultValue v)).bind vault?).map ProductData.govVault = _
    rw [Option.bind_some, vault?_vaultValue, Option.map_some]
  | boost b =>
    refine ⟨_, rfl, ?_⟩
    change ((some (boostValue b)).bind boost?).map ProductData.boost = _
    rw [Option.bind_some, boost?_boostValue, Option.map_some]

theorem nests_decimals (depth : Nat) (n : UInt32) : Nests depth (.integer n.toNat) := by
  have := n.toNat_lt
  exact .integer depth (by omega) (by omega)

/-- What describes a product is nested one level. -/
theorem nests_described (d : ProductData) (depth : Nat) : Nests (depth + 1) (described d).2 := by
  have hvault (v : Vault) : Nests (depth + 1) (vaultValue v) := by
    refine .record ?_
    simp only [List.forall_mem_cons, List.not_mem_nil, false_implies, implies_true, and_true]
    exact ⟨.text _ _, .text _ _, nests_decimals _ _, nests_decimals _ _⟩
  have hboost (b : Boost) : Nests (depth + 1) (boostValue b) := by
    refine .record ?_
    simp only [List.forall_mem_cons, List.not_mem_nil, false_implies, implies_true, and_true]
    exact ⟨.text _ _, .text _ _, .text _ _, nests_decimals _ _, nests_decimals _ _⟩
  cases d with
  | vault v => exact hvault v
  | govVault v => exact hvault v
  | boost b => exact hboost b

theorem described_ne_type (d : ProductData) : (described d).1 ≠ "type" := by
  cases d <;> simp [described]

/-! ## The kind of a product -/

/-- The member function of what kind of product it is: the kind, and the other members as they
are. -/
def dataMember (depth : Nat) (key : String) (r : Option Kind × List (String × Value)) :
    Reader (Option Kind × List (String × Value)) := fun bs =>
  if key = "type" then
    if r.1.isSome then .error .mismatch
    else do
      let (kind, bs) ← kindReader (← colon bs)
      return ((some kind, r.2), bs)
  else do
    let (v, bs) ← any depth (← colon bs)
    return ((r.1, r.2 ++ [(key, v)]), bs)

/-- The kind is read by its name, and the member beside it as itself. -/
theorem gathers_data {d : ProductData} {kind : Kind} (hkind : kind? (kindName d) = some kind)
    (depth : Nat) :
    Gathers (dataMember (depth + 1)) [("type", .text (kindName d)), described d] (none, [])
      (some kind, [described d]) := by
  have htype : Takes kindReader (.text (kindName d)) kind :=
    (isScalar_text (kindName d)).takes hkind
  have hother (bs : List UInt8) : dataMember (depth + 1) (described d).1 (some kind, []) bs =
      (do let (v, bs) ← any (depth + 1) (← colon bs)
          return ((some kind, [((described d).1, v)]), bs)) :=
    if_neg (described_ne_type d)
  exact .cons (fun _ => rfl)
      (htype.map fun kind => ((some kind, []) : Option Kind × List (String × Value))) <|
    .cons hother ((nests_described d depth).takes_any.map fun v =>
      ((some kind, [((described d).1, v)]) : Option Kind × List (String × Value))) (.nil _)

private theorem dataReader_open {gap : List UInt8} (hgap : Blanks gap) (depth : Nat)
    (bs : List UInt8) :
    dataReader (depth + 1) (gap ++ octet '\x7b' :: bs) = (do
      let ((kind, ms), bs) ← members (dataMember depth) (bs.length + 1) true (none, []) bs
      match kind with
      | some kind =>
        match kind (.record ms) with
        | some d => return (d, bs)
        | none => throw .mismatch
      | none => throw .mismatch) := by
  have hblank : isBlank (octet '\x7b') = false := by decide
  rw [dataReader, skipBlanks_token hgap hblank]
  rfl

/-- The kind of a product and what describes it are read, however they are laid out. -/
theorem takes_data (d : ProductData) (depth : Nat) :
    Takes (dataReader (depth + 2)) (dataValue d) d := by
  obtain ⟨kind, hkind, hunderstands⟩ := kind_understands d
  have hmembers := gathers_data hkind depth
  rw [dataValue_eq]
  refine ⟨fun bs hw => ?_, fun gap bs rest hgap hw _ => ?_⟩
  · obtain ⟨more, rfl, -⟩ := hmembers.whole hw
    exact ⟨_, _, rfl, by decide, by decide⟩
  · obtain ⟨more, rfl, hread⟩ := hmembers.whole hw
    simp only [List.cons_append, dataReader_open hgap, hread, hunderstands, bind, Except.bind, pure,
      Except.pure]

/-! ## Products and catalogs -/

theorem takes_signed64 (n : Int64) : Takes signed64 (.integer n.toInt) n := by
  have hread := (takes_signed n).map Int64.ofInt
  rwa [Int64.ofInt_toInt] at hread

/-- A product is read, however it is laid out. -/
theorem takes_product (p : Product) (depth : Nat) :
    Takes (Product.reader (depth + 3)) p.value p := by
  let id (x : Int64) : Draft := { id := some x }
  let key (x : String) : Draft := { id p.id with key := some x }
  let chain (x : Chain) : Draft := { key p.key with chain := some x }
  let shareFeed (x : Int64) : Draft := { chain p.chain with shareFeed := some x }
  let underlyingFeed (x : Int64) : Draft := { shareFeed p.shareFeed with underlyingFeed := some x }
  let retired (x : Bool) : Draft := { underlyingFeed p.underlyingFeed with retired := some x }
  let data (x : ProductData) : Draft := { retired p.retired with data := some x }
  have hread : Gathers (member fields (depth + 2))
      [("productId", .integer p.id.toInt), ("productKey", .text p.key),
       ("chain", .text p.chain.name), ("priceFeedId1", .integer p.shareFeed.toInt),
       ("priceFeedId2", .integer p.underlyingFeed.toInt), ("eol", .bool p.retired),
       ("productData", dataValue p.data)] {} (data p.data) :=
    .field rfl rfl ((takes_signed64 p.id).map id) <|
    .field rfl rfl ((takes_string p.key).map key) <|
    .field rfl rfl ((Takes.name (Chain.ofName?_name p.chain) (depth + 2)).map chain) <|
    .field rfl rfl ((takes_signed64 p.shareFeed).map shareFeed) <|
    .field rfl rfl ((takes_signed64 p.underlyingFeed).map underlyingFeed) <|
    .field rfl rfl ((takes_bool p.retired).map retired) <|
    .field rfl rfl ((takes_data p.data depth).map data) (.nil _)
  exact Takes.record hread rfl

/-- The text of a catalog is read as that catalog. -/
theorem catalog_read_as_written (ps : List Product) :
    catalogOf (catalogText ps).toUTF8.toList = .ok ps := by
  have hread : Takes (list maxDepth Product.reader) (.list (ps.map value)) ps :=
    Takes.list_map fun p _ => takes_product p 123
  exact hread.readOctets (written_indented 0 _)

end Product
end Backfill
