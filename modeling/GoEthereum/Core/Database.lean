import GoEthereum.Core.Bloom

-- The chain database. Each kind of key is a table of its own.

namespace Core

open Common

structure TxMeta where
  blockHash  : Hash
  blockIndex : UInt64
  index      : Nat
  deriving DecidableEq

abbrev BlockKey := UInt64 × Hash

structure ChainDb where
  canonical     : GoMap UInt64 Hash
  numbers       : GoMap Hash UInt64
  headers       : GoMap BlockKey Header
  bodies        : GoMap BlockKey Body
  tds           : GoMap BlockKey Nat
  blockReceipts : GoMap BlockKey (List Receipt)
  transactions  : GoMap Hash Transaction
  txMetas       : GoMap Hash TxMeta
  receipts      : GoMap Hash Receipt
  mipmaps       : GoMap (UInt64 × UInt64) Bloom
  headHeader    : Hash
  headBlock     : Hash
  headFastBlock : Hash

def mipMapLevels : List UInt64 :=
  [1000000, 500000, 100000, 50000, 1000]

-- `missingNumber` is returned if no header with the given hash has been stored in the database.
def missingNumber : UInt64 :=
  0xffffffffffffffff

namespace ChainDb

def empty : ChainDb where
  canonical     := ∅
  numbers       := ∅
  headers       := ∅
  bodies        := ∅
  tds           := ∅
  blockReceipts := ∅
  transactions  := ∅
  txMetas       := ∅
  receipts      := ∅
  mipmaps       := ∅
  headHeader    := Hash.zero
  headBlock     := Hash.zero
  headFastBlock := Hash.zero

section

variable (db : ChainDb)

def getCanonicalHash (number : UInt64) : Hash :=
  (db.canonical.lookup number).getD Hash.zero

def getBlockNumber (hash : Hash) : UInt64 :=
  (db.numbers.lookup hash).getD missingNumber

def getHeader (hash : Hash) (number : UInt64) : Option Header :=
  db.headers.lookup (number, hash)

def getBody (hash : Hash) (number : UInt64) : Option Body :=
  db.bodies.lookup (number, hash)

def getTd (hash : Hash) (number : UInt64) : Option Nat :=
  db.tds.lookup (number, hash)

def getBlock (hash : Hash) (number : UInt64) : Option Block := do
  let header ← db.getHeader hash number
  let body ← db.getBody hash number
  return Block.ofBody header body

def getBlockReceipts (hash : Hash) (number : UInt64) : List Receipt :=
  (db.blockReceipts.lookup (number, hash)).getD []

def getTransaction (hash : Hash) : Option (Transaction × TxMeta) := do
  let tx ← db.transactions.lookup hash
  let info ← db.txMetas.lookup hash
  return (tx, info)

def getReceipt (txHash : Hash) : Option Receipt :=
  db.receipts.lookup txHash

def mipmapKey (num level : UInt64) : UInt64 × UInt64 :=
  (level, num / level * level)

def getMipmapBloom (number level : UInt64) : Bloom :=
  (db.mipmaps.lookup (mipmapKey number level)).getD 0

end

section

variable (H : Hashes) (db : ChainDb)

def writeCanonicalHash (hash : Hash) (number : UInt64) : ChainDb :=
  { db with canonical := db.canonical.insert number hash }

def writeHeadHeaderHash (hash : Hash) : ChainDb :=
  { db with headHeader := hash }

def writeHeadBlockHash (hash : Hash) : ChainDb :=
  { db with headBlock := hash }

def writeHeadFastBlockHash (hash : Hash) : ChainDb :=
  { db with headFastBlock := hash }

def writeHeader (header : Header) : ChainDb :=
  { db with
    numbers := db.numbers.insert (H.header header) header.number
    headers := db.headers.insert (header.number, H.header header) header }

def writeBody (hash : Hash) (number : UInt64) (body : Body) : ChainDb :=
  { db with bodies := db.bodies.insert (number, hash) body }

def writeTd (hash : Hash) (number : UInt64) (td : Nat) : ChainDb :=
  { db with tds := db.tds.insert (number, hash) td }

def writeBlock (block : Block) : ChainDb :=
  (db.writeBody (block.hash H) block.number block.body).writeHeader H block.header

def writeBlockReceipts (hash : Hash) (number : UInt64) (receipts : List Receipt) : ChainDb :=
  { db with blockReceipts := db.blockReceipts.insert (number, hash) receipts }

def writeTransaction (block : Block) (i : Nat) (tx : Transaction) : ChainDb :=
  { db with
    transactions := db.transactions.insert (H.transaction tx) tx
    txMetas      := db.txMetas.insert (H.transaction tx)
      { blockHash := block.hash H, blockIndex := block.number, index := i } }

def writeTransactions (block : Block) : ChainDb :=
  block.transactions.zipIdx.foldl (fun db tx => db.writeTransaction H block tx.2 tx.1) db

def writeReceipt (receipt : Receipt) : ChainDb :=
  { db with receipts := db.receipts.insert receipt.txHash receipt }

def writeReceipts (receipts : List Receipt) : ChainDb :=
  receipts.foldl writeReceipt db

def writeMipmapBloom (number : UInt64) (receipts : List Receipt) : ChainDb :=
  mipMapLevels.foldl (fun db level =>
    let bloom := receipts.foldl (fun bloom receipt =>
      receipt.logs.foldl (fun bloom log => bloom.add H (ofBigEndian log.address.val)) bloom)
      (db.getMipmapBloom number level)
    { db with mipmaps := db.mipmaps.insert (mipmapKey number level) bloom }) db

end

variable (db : ChainDb)

def deleteCanonicalHash (number : UInt64) : ChainDb :=
  { db with canonical := db.canonical.erase number }

def deleteHeader (hash : Hash) (number : UInt64) : ChainDb :=
  { db with
    numbers := db.numbers.erase hash
    headers := db.headers.erase (number, hash) }

def deleteTd (hash : Hash) (number : UInt64) : ChainDb :=
  { db with tds := db.tds.erase (number, hash) }

def deleteTransaction (hash : Hash) : ChainDb :=
  { db with
    transactions := db.transactions.erase hash
    txMetas      := db.txMetas.erase hash }

def deleteReceipt (hash : Hash) : ChainDb :=
  { db with receipts := db.receipts.erase hash }

end ChainDb

end Core
