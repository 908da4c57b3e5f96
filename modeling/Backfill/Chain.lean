import Backfill.Json.Reader

/-!
# Chains

The chains that products live on, what their public nodes accept, and how fast they produce blocks.
-/
namespace Backfill

/-- Mirrors `Chain`. The order is that of the names. -/
inductive Chain where
  | arbitrum | aurora | avax | bsc | celo | cronos | emerald | fantom | fuse | harmony | heco
  | metis | moonbeam | moonriver | optimism | polygon | syscoin
  deriving DecidableEq, Repr

namespace Chain

def all : List Chain :=
  [arbitrum, aurora, avax, bsc, celo, cronos, emerald, fantom, fuse, harmony, heco, metis, moonbeam,
   moonriver, optimism, polygon, syscoin]

theorem mem_all (c : Chain) : c ∈ all := by cases c <;> decide

/-- Mirrors `Chain::as_str`. -/
def name : Chain → String
  | arbitrum => "arbitrum"
  | aurora => "aurora"
  | avax => "avax"
  | bsc => "bsc"
  | celo => "celo"
  | cronos => "cronos"
  | emerald => "emerald"
  | fantom => "fantom"
  | fuse => "fuse"
  | harmony => "harmony"
  | heco => "heco"
  | metis => "metis"
  | moonbeam => "moonbeam"
  | moonriver => "moonriver"
  | optimism => "optimism"
  | polygon => "polygon"
  | syscoin => "syscoin"

def ofName? (s : String) : Option Chain := all.find? (·.name = s)

/-- The widest span of blocks that public nodes answer a log query for. Mirrors
`Chain::max_get_logs_block_span`. -/
def maxLogSpan : Chain → UInt64
  | avax => 2048
  | harmony => 1024
  | _ => 3000

/-- Mirrors `Chain::ms_per_block_estimate`. -/
def blockMillis : Chain → Nat
  | arbitrum => 2200
  | aurora => 1000
  | avax => 3400
  | bsc => 3630
  | celo => 4000
  | cronos => 5840
  | emerald => 10000
  | fantom => 1900
  | fuse => 5000
  | harmony => 3000
  | heco => 3000
  | metis => 6000
  | moonbeam => 3000
  | moonriver => 13000
  | optimism => 1500
  | polygon => 2170
  | syscoin => 100000

/-- About how many blocks a number of milliseconds brings. Mirrors `Chain::blocks_in`. -/
def blocksIn (c : Chain) (millis : Nat) : Nat := millis / c.blockMillis

def blocksPerHour (c : Chain) : Nat := c.blocksIn 3600000

theorem ofName?_name (c : Chain) : ofName? c.name = some c := by cases c <;> decide

def reader : Nat → Json.Reader Chain := Json.name ofName?

end Chain
end Backfill
