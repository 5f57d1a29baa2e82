import GoEthereum.Lib.BlockTree
import GoEthereum.State.StateDB

-- Headers, transactions, blocks and receipts.

namespace Core

open Common

-- `types.Bloom`, an array of 256 bytes, by the big endian number that it is.
abbrev Bloom := BitVec 2048

structure Header where
  parentHash  : Hash
  uncleHash   : Hash
  coinbase    : Address
  root        : Hash
  txHash      : Hash
  receiptHash : Hash
  bloom       : Bloom
  difficulty  : Nat
  -- The database keeps the number in 64 bits.
  number      : UInt64
  gasLimit    : Nat
  gasUsed     : Nat
  time        : Nat
  extra       : Bytes
  mixDigest   : Hash
  nonce       : UInt64
  deriving DecidableEq

structure Transaction where
  accountNonce : UInt64
  price        : Int
  gasLimit     : Int
  recipient    : Option Address
  amount       : Int
  payload      : Bytes
  v            : Int
  r            : Int
  s            : Int
  deriving DecidableEq

structure Body where
  transactions : List Transaction
  uncles       : List Header
  deriving DecidableEq

structure Block where
  header       : Header
  transactions : List Transaction
  uncles       : List Header
  deriving DecidableEq

structure Receipt where
  postState         : Bytes
  cumulativeGasUsed : Nat
  bloom             : Bloom
  logs              : List State.Log
  txHash            : Hash
  contractAddress   : Address
  gasUsed           : Nat
  deriving DecidableEq

-- The digests that the code takes: Keccak-256 of bytes, and of the RLP encodings of values.
structure Hashes where
  keccak      : Bytes → Hash
  header      : Header → Hash
  transaction : Transaction → Hash
  -- `types.CalcUncleHash`
  uncles      : List Header → Hash
  -- `types.DeriveSha` of transactions
  txRoot      : List Transaction → Hash

namespace Block

def parentHash (b : Block) : Hash :=
  b.header.parentHash

def number (b : Block) : UInt64 :=
  b.header.number

def difficulty (b : Block) : Nat :=
  b.header.difficulty

def hash (b : Block) (H : Hashes) : Hash :=
  H.header b.header

def body (b : Block) : Body where
  transactions := b.transactions
  uncles       := b.uncles

-- `types.NewBlockWithHeader(header).WithBody(body.Transactions, body.Uncles)`
def ofBody (header : Header) (body : Body) : Block where
  header       := header
  transactions := body.transactions
  uncles       := body.uncles

@[simp]
theorem ofBody_body (b : Block) : ofBody b.header b.body = b :=
  rfl

end Block

def txDifference (H : Hashes) (a b : List Transaction) : List Transaction :=
  a.filter fun tx => H.transaction tx ∉ b.map H.transaction

def headerTree (H : Hashes) (genesis : Header) : BlockTree Header Hash where
  key    := H.header
  parent := Header.parentHash
  height := fun h => h.number.toNat
  weight := Header.difficulty
  root   := genesis

def blockTree (H : Hashes) (genesis : Block) : BlockTree Block Hash where
  key    := fun b => b.hash H
  parent := Block.parentHash
  height := fun b => b.number.toNat
  weight := Block.difficulty
  root   := genesis

section

variable (H : Hashes) (genesis h : Header) (origin b : Block)

@[simp]
theorem headerTree_key : (headerTree H genesis).key h = H.header h :=
  rfl

@[simp]
theorem headerTree_parent : (headerTree H genesis).parent h = h.parentHash :=
  rfl

@[simp]
theorem headerTree_height : (headerTree H genesis).height h = h.number.toNat :=
  rfl

@[simp]
theorem headerTree_weight : (headerTree H genesis).weight h = h.difficulty :=
  rfl

@[simp]
theorem headerTree_root : (headerTree H genesis).root = genesis :=
  rfl

@[simp]
theorem blockTree_key : (blockTree H origin).key b = b.hash H :=
  rfl

@[simp]
theorem blockTree_parent : (blockTree H origin).parent b = b.parentHash :=
  rfl

@[simp]
theorem blockTree_height : (blockTree H origin).height b = b.number.toNat :=
  rfl

@[simp]
theorem blockTree_weight : (blockTree H origin).weight b = b.difficulty :=
  rfl

@[simp]
theorem blockTree_root : (blockTree H origin).root = origin :=
  rfl

end

theorem pred_of_succ {m n : UInt64} (h : m.toNat = n.toNat + 1) : m - 1 = n := by
  apply UInt64.toNat_inj.mp
  rw [UInt64.toNat_sub_of_le _ _ (UInt64.le_iff_toNat_le.mpr (by simp; omega))]
  simp [h]

end Core
