import Backfill.Text.Hex
import Backfill.Json.Reader

/-!
# Addresses and hashes

An account or contract has an address of 20 octets, a transaction a hash of 32. Both are written as
data in lower case.
-/
namespace Backfill

/-- The address of an account or a contract. -/
structure Address where
  bits : BitVec 160
  deriving DecidableEq, Repr

/-- The hash of a transaction. -/
structure Hash where
  bits : BitVec 256
  deriving DecidableEq, Repr

namespace Address

/-- Nobody: tokens come from it when minted and go to it when burned. -/
def zero : Address := ⟨0⟩

def ofNat (n : Nat) : Address := ⟨BitVec.ofNat 160 n⟩

def text (a : Address) : String := Text.hexData 20 a.bits.toNat

/-- The address in the last 20 octets of a 32-octet word. -/
def ofWord (h : Hash) : Address := ⟨h.bits.setWidth 160⟩

/-- The address a text stands for in a document. -/
def ofText? (s : String) : Option Address := (Text.ofHexWord? 20 s).map ofNat

/-- The address a text stands for when someone types it in. -/
def ofTyped? (s : String) : Option Address := (Text.ofHexDigits? 20 s).map ofNat

end Address

namespace Hash

def ofNat (n : Nat) : Hash := ⟨BitVec.ofNat 256 n⟩

def text (h : Hash) : String := Text.hexData 32 h.bits.toNat

def ofText? (s : String) : Option Hash := (Text.ofHexWord? 32 s).map ofNat

end Hash
end Backfill
