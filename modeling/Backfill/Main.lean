import Backfill.CommandLine.Invocation
import Backfill.Product.Catalog
import Backfill.Rpc.Endpoint

/-!
# The program

Reads what is asked for, checks the endpoint and the catalog, and says which products take part.
Nothing is asked of a node.
-/
namespace Backfill.CommandLine

def readEnvironment : IO (String → Option String) := do
  let names := (setupCommand.options ++ setupCommand.operands).filterMap (·.env)
  let found ← names.mapM fun name => return (name, ← IO.getEnv name)
  return fun name => (found.find? (·.1 = name)).bind (·.2)

/-- Says which products of a catalog take part. -/
def report (i : Invocation) (octets : List UInt8) : IO UInt32 :=
  match Product.catalogOf octets with
  | .error fault => do
    IO.eprintln (i.setup.products ++ ": " ++ fault.category)
    return 1
  | .ok products => do
    for p in products do
      if p.chain = i.chain then IO.println (p.key ++ " " ++ p.contract.text)
    return 0

def check (i : Invocation) : IO UInt32 :=
  match Rpc.Endpoint.ofText i.rpcUrl with
  | .error fault => do
    IO.eprintln fault.message
    return 1
  | .ok _ => do report i (← IO.FS.readBinFile i.setup.products).toList

/-- Runs a command line. Help and the version are no failures. -/
def runWords (words : List String) : IO UInt32 := do
  match Invocation.ofArguments (← readEnvironment) words with
  | .ok i => check i
  | .error refusal =>
    IO.eprintln refusal.message
    return if refusal ∈ [.help, .version] then 0 else 2

end Backfill.CommandLine

def main (words : List String) : IO UInt32 := Backfill.CommandLine.runWords words
