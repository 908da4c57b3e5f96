import Backfill.Address
import Backfill.Amount.Decimal
import Backfill.Plan.Basic

/-!
# Faults

What can go wrong with a remote call, with a record, with a store and with a whole cycle, and where
it went wrong.
-/
namespace Backfill

/-- A failed remote call. A later one may succeed. Mirrors `FetchError`. -/
inductive FetchError where
  | unavailable (cause : String)
  /-- The node no longer has the state at the block. -/
  | archiveNeeded (block : BlockNumber)
  | timeout
  | rpc (cause : String)
  deriving DecidableEq, Repr

def FetchError.message : FetchError → String
  | .unavailable cause => "Remote source unavailable: " ++ cause
  | .archiveNeeded block => "Archive node needed to read block " ++ Axis.Shown.display block
  | .timeout => "Request timed out"
  | .rpc cause => "RPC error: " ++ cause

/-- An import-state store or a record sink that did not do what it was asked. -/
inductive StoreFault where
  /-- What is stored cannot be read. -/
  | unreadable (fault : Json.Fault)
  /-- What was being done, from the outside in, and why it failed. -/
  | refused (contexts : List String) (cause : String)
  deriving DecidableEq

namespace StoreFault

/-- What was being done, and why it failed. -/
def layers : StoreFault → List String
  | unreadable fault => [fault.category]
  | refused contexts cause => contexts ++ [cause]

/-- The wording of a fault: only its outermost layer. -/
def message (f : StoreFault) : String := f.layers.headD ""

def account (f : StoreFault) : String := String.intercalate ": " f.layers

end StoreFault

/-- A record that was not loaded. Mirrors `LoadError`. -/
inductive LoadError where
  | fetch (fault : FetchError)
  | conversion (unfit : Decimal.Unfit)
  | store (fault : StoreFault)
  deriving DecidableEq

def LoadError.message : LoadError → String
  | .fetch fault => "Couldn't fetch transfer data: " ++ fault.message
  | .conversion unfit =>
    "Couldn't convert " ++ unfit.value ++ " with " ++ String.ofList (Nat.toDigits 10 unfit.decimals)
      ++ " decimals"
  | .store fault => "Couldn't store record: " ++ fault.account

/-- What ends a whole cycle. Mirrors `ImportError`. -/
inductive ImportError where
  | plan (fault : Plan.Fault)
  /-- The head of the chain is unknown. -/
  | frontier (fault : FetchError)
  deriving DecidableEq, Repr

def ImportError.message : ImportError → String
  | .plan fault => fault.message
  | .frontier fault => "Couldn't get the latest block: " ++ fault.message

/-- Where something went wrong. Mirrors `ErrorContext`. -/
inductive ErrorContext where
  | query (productKey : String) (range : Range BlockNumber)
  | record (productKey : String) (block : BlockNumber) (transaction : Hash)
  | importState (productKey : String)
  | snapshot (productKey : String) (range : Range Instant)
  deriving DecidableEq

namespace ErrorContext

def productKey : ErrorContext → String
  | query key _ | record key _ _ | importState key | snapshot key _ => key

def text : ErrorContext → String
  | query key range => "query " ++ range.display ++ " of " ++ key
  | record key block transaction =>
    "record " ++ transaction.text ++ " at block " ++ Axis.Shown.display block ++ " of " ++ key
  | importState key => "import state of " ++ key
  | snapshot key range => "snapshot " ++ range.display ++ " of " ++ key

end ErrorContext
end Backfill
