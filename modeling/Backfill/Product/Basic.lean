import Backfill.Address
import Backfill.Chain

/-!
# Products

A product is a contract whose share token investors hold: a vault, a vault for governance tokens, or
a boost in which shares of a vault are staked. Its positions and its share price are imported under
keys of their own.
-/
namespace Backfill

/-- Mirrors `VaultInfo`. -/
structure Vault where
  id : String
  contract : Address
  tokenDecimals : UInt32
  wantDecimals : UInt32
  deriving DecidableEq, Repr

/-- A boost, in which the shares of a vault are staked. Mirrors `BoostInfo`. -/
structure Boost where
  id : String
  contract : Address
  stakedToken : Address
  stakedDecimals : UInt32
  vaultWantDecimals : UInt32
  deriving DecidableEq, Repr

/-- Mirrors `ProductData`. -/
inductive ProductData where
  | vault (vault : Vault)
  | govVault (vault : Vault)
  | boost (boost : Boost)
  deriving DecidableEq, Repr

/-- How to read on chain how much of its underlying token a share is worth. Mirrors
`ShareRateParams`. -/
structure ShareRateParams where
  vault : Address
  vaultDecimals : UInt32
  underlyingDecimals : UInt32
  deriving DecidableEq, Repr

/-- A product of the catalog. Mirrors `Product`. -/
structure Product where
  id : Int64
  key : String
  chain : Chain
  /-- The feed of its share price. -/
  shareFeed : Int64
  /-- The feed of the price of its underlying token. -/
  underlyingFeed : Int64
  /-- No longer offered. -/
  retired : Bool
  data : ProductData
  deriving DecidableEq

namespace Product

/-- The contract whose share token is transferred. Mirrors `Product::contract_address`. -/
def contract (p : Product) : Address :=
  match p.data with
  | .vault v | .govVault v => v.contract
  | .boost b => b.contract

/-- Mirrors `Product::token_decimals`. -/
def tokenDecimals (p : Product) : UInt32 :=
  match p.data with
  | .vault v | .govVault v => v.tokenDecimals
  | .boost b => b.stakedDecimals

/-- A boost has the share price of the vault staked in it, a vault for governance tokens has none.
Mirrors `Product::share_rate_params`. -/
def shareRateParams (p : Product) : Option ShareRateParams :=
  match p.data with
  | .vault v => some ⟨v.contract, v.tokenDecimals, v.wantDecimals⟩
  | .boost b => some ⟨b.stakedToken, b.stakedDecimals, b.vaultWantDecimals⟩
  | .govVault _ => none

/-- Mirrors `Product::investment_import_key`. -/
def positionsKey (p : Product) : String :=
  "product:investment:" ++ Json.Value.integerText p.id.toInt

/-- The key of the import of its share price, which products with one feed have in common. Mirrors
`Product::share_rate_import_key`. -/
def shareRateKey (p : Product) : String :=
  "price:feed:" ++ Json.Value.integerText p.shareFeed.toInt

end Product
end Backfill
