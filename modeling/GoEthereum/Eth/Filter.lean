import GoEthereum.Core.BlockChain
import GoEthereum.Lib.Steps

-- Filters over the logs of the canonical chain.

namespace Filters

open Common Core

abbrev Log := State.Log

-- Where a filter takes headers and receipts from. Block number -1 stands for the latest block and
-- -2 for the pending one.
structure Backend (ε : Type) where
  chainDb        : ChainDb
  headerByNumber : Int64 → Except ε (Option Header)
  getReceipts    : Hash → Except ε (List Receipt)

-- The backend of a full node.
def ethApiBackend {ε : Type} (bc : BlockChain) (pendingBlock : Block) : Backend ε where
  chainDb        := bc.chainDb
  headerByNumber := fun blockNr =>
    if blockNr = -2 then .ok (some pendingBlock.header)
    else if blockNr = -1 then .ok (some bc.currentBlock.header)
    else
      let number := blockNr.toUInt64
      let hash := bc.chainDb.getCanonicalHash number
      .ok (if hash = Hash.zero then none else bc.chainDb.getHeader hash number)
  getReceipts    := fun hash =>
    .ok (bc.chainDb.getBlockReceipts hash (bc.chainDb.getBlockNumber hash))

structure Filter (ε : Type) where
  backend   : Backend ε
  useMipMap : Bool
  begin_    : Int64
  end_      : Int64
  addresses : List Address
  topics    : List (List Hash)

def includes (addresses : List Address) (a : Address) : Bool :=
  addresses.any (· = a)

-- Whether the log has one of the alternatives at every position. `common.Hash{}` is a match all
-- (wildcard).
def matchTopics (topics : List (List Hash)) (log : Log) : Bool :=
  -- If the to filtered topics is greater than the amount of topics in logs, skip.
  topics.length ≤ log.topics.length &&
    (topics.zip log.topics).all fun (alternatives, topic) =>
      alternatives.any fun t => t = Hash.zero || topic = t

-- The logs matching the given criteria. The bounds are numbers that fit into 64 bits.
def filterLogs (logs : List Log) (fromBlock toBlock : Option Int64) (addresses : List Address)
    (topics : List (List Hash)) : List Log :=
  logs.filter fun log =>
    !(fromBlock.any fun n => 0 ≤ n ∧ log.blockNumber < n.toUInt64) &&
    !(toBlock.any fun n => 0 ≤ n ∧ n.toUInt64 < log.blockNumber) &&
    !(addresses ≠ [] ∧ !includes addresses log.address) &&
    matchTopics topics log

def bloomFilter (H : Hashes) (bloom : Bloom) (addresses : List Address) (topics : List (List Hash)) :
    Bool :=
  (addresses.isEmpty || addresses.any fun addr => bloomLookup H bloom addr.val) &&
    topics.all fun sub => sub.any fun topic => topic = Hash.zero || bloomLookup H bloom topic.bytes

-- The value of `float64(n)`: the nearest number with a mantissa of 53 bits, to even on ties.
def float64 (n : Nat) : Nat :=
  if n < 2 ^ 53 then n
  else
    let e := n.log2 - 52
    let q := n / 2 ^ e
    let r := n % 2 ^ e
    (if 2 ^ e < 2 * r ∨ 2 * r = 2 ^ e ∧ q % 2 = 1 then q + 1 else q) * 2 ^ e

-- `uint64(math.Max(float64(a), float64(b)))`
def floatMax (a b : UInt64) : UInt64 :=
  .ofNat (max (float64 a.toNat) (float64 b.toNat))

-- `uint64(math.Min(float64(a), float64(b)))`
def floatMin (a b : UInt64) : UInt64 :=
  .ofNat (min (float64 a.toNat) (float64 b.toNat))

namespace Filter

variable {ε : Type} (H : Hashes) (f : Filter ε)

-- The loop over the block numbers. It ends with the logs of the first block that has some.
def searchBlocks (last : UInt64) : List UInt64 → List Log × UInt64 × Option ε
  | []          => ([], last, none)
  | number :: is =>
    match f.backend.headerByNumber number.toInt64 with
    | .error err         => ([], last, some err)
    | .ok none           => ([], last, none)
    | .ok (some header)  =>
      -- Use bloom filtering to see if this block is interesting given the current parameters
      if bloomFilter H header.bloom f.addresses f.topics then
        match f.backend.getReceipts (H.header header) with
        | .error err   => ([], last, some err)
        | .ok receipts =>
          let unfiltered := receipts.flatMap Receipt.logs
          let logs := filterLogs unfiltered none none f.addresses f.topics
          if logs ≠ [] then (logs, number, none) else searchBlocks last is
      else searchBlocks last is

-- The values of the counter of a loop, for bounds that are not so close to 2^64 that it wraps.
def counter (first last step : UInt64) : List UInt64 :=
  (steps first.toNat last.toNat step.toNat).map .ofNat

def getLogs (start last : UInt64) : List Log × UInt64 × Option ε :=
  f.searchBlocks H last (counter start last 1)

-- The loop over the addresses. `search` is what a search of the range finds. The first address is
-- not checked against the filter.
def searchAddresses (bloom : Bloom) (search : List Log × UInt64) :
    Bool → List Address → Option (List Log × UInt64)
  | _, []                => none
  | first, addr :: addrs =>
    if first || bloom.testBytes H addr.val then
      if search.1 ≠ [] then some search else searchAddresses bloom search false addrs
    else searchAddresses bloom search first addrs

-- `levels` are the levels from `MIPMapLevels[depth]` on.
def mipFind : List UInt64 → UInt64 → UInt64 → List Log × UInt64
  | [], _, last              => ([], last)
  | level :: levels, start, last =>
    let found := (counter (start / level * level) last level).findSome? fun num =>
      let bloom := f.backend.chainDb.getMipmapBloom num level
      let start' := floatMax num start
      let last' := floatMin (num + level - 1) last
      let search :=
        if levels = [] then
          let (logs, blockNumber, _) := f.getLogs H start' last'
          (logs, blockNumber)
        else mipFind levels start' last'
      searchAddresses H bloom search true f.addresses
    found.getD ([], last)

-- All matching entries from the first block that contains matches. The start point of the filter is
-- updated accordingly.
def findOnce : (List Log × Option ε) × Filter ε :=
  match f.backend.headerByNumber (-1) with
  | .error _        => (([], none), f)
  | .ok none        => (([], none), f)
  | .ok (some head) =>
    let beginBlockNo := if f.begin_ = -1 then head.number else f.begin_.toUInt64
    let endBlockNo := if f.end_ = -1 then head.number else f.end_.toUInt64
    if !f.useMipMap || f.addresses.isEmpty then
      let (logs, blockNumber, err) := f.getLogs H beginBlockNo endBlockNo
      ((logs, err), { f with begin_ := (blockNumber + 1).toInt64 })
    else
      let (logs, blockNumber) := f.mipFind H mipMapLevels beginBlockNo endBlockNo
      ((logs, none), { f with begin_ := (blockNumber + 1).toInt64 })

-- The loop of `Find`. It collects the logs block by block; `none` if it runs out of fuel.
def findLoop : Nat → List Log → Filter ε → Option (List Log × Option ε)
  | 0, _, _           => none
  | fuel + 1, logs, f =>
    let ((newLogs, err), f) := f.findOnce H
    if newLogs = [] ∨ err.isSome then some (logs, err)
    else findLoop fuel (logs ++ newLogs) f

def find (fuel : Nat) : Option (List Log × Option ε) :=
  findLoop H fuel [] f

end Filter

end Filters
