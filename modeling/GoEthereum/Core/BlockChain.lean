import GoEthereum.Core.HeaderChain

-- The canonical chain of blocks, and how it is reorganised.

namespace Core

open Common

def HeaderChain.setCurrentHeader (H : Hashes) (head : Header) (hc : HeaderChain) : HeaderChain :=
  { hc with
    chainDb           := hc.chainDb.writeHeadHeaderHash (H.header head)
    currentHeader     := head
    currentHeaderHash := H.header head }

-- The block chain and its header chain use one database.
structure BlockChain where
  hc               : HeaderChain
  currentBlock     : Block
  currentFastBlock : Block

-- What a reorganisation posts: the transactions and logs that are gone, and the blocks that were
-- left behind.
structure ReorgEvents where
  removedTxs  : List Transaction
  removedLogs : List State.Log
  sideBlocks  : List Block
  deriving DecidableEq

def ReorgEvents.none : ReorgEvents where
  removedTxs  := []
  removedLogs := []
  sideBlocks  := []

namespace ChainDb

-- Goes down from a block to the given number, and collects the blocks on the way.
def reduceChain (db : ChainDb) (number : UInt64) :
    Nat → Option Block → List Block → Option Block × List Block
  | 0, block, chain            => (block, chain)
  | _ + 1, none, chain         => (none, chain)
  | fuel + 1, some block, chain =>
    if block.number = number then (some block, chain)
    else
      db.reduceChain number fuel (db.getBlock block.parentHash (block.number - 1)) (chain ++ [block])

-- Goes down from two blocks of the same number to the block that they have in common.
def findCommon (H : Hashes) (db : ChainDb) :
    Nat → Block → Block → List Block → List Block → Go ChainError (List Block × List Block)
  | 0, _, _, _, _ => Go.panics
  | fuel + 1, oldBlock, newBlock, oldChain, newChain =>
    if oldBlock.hash H = newBlock.hash H then .ok (oldChain, newChain)
    else
      match db.getBlock oldBlock.parentHash (oldBlock.number - 1),
        db.getBlock newBlock.parentHash (newBlock.number - 1) with
      | none, _          => Go.fail .invalidOldChain
      | some _, none     => Go.fail .invalidNewChain
      | some old, some new =>
        db.findCommon H fuel old new (oldChain ++ [oldBlock]) (newChain ++ [newBlock])

-- The logs of a block, as the receipts in the database have them.
def collectLogs (db : ChainDb) (hash : Hash) : List State.Log :=
  (db.getBlockReceipts hash (db.getBlockNumber hash)).flatMap Receipt.logs

def dropTxs (H : Hashes) (db : ChainDb) (txs : List Transaction) : ChainDb :=
  txs.foldl (fun db tx =>
    (db.deleteReceipt (H.transaction tx)).deleteTransaction (H.transaction tx)) db

-- What the database says about the transactions of a canonical block.
def writeLookups (H : Hashes) (db : ChainDb) (block : Block) (receipts : List Receipt) : ChainDb :=
  ((db.writeTransactions H block).writeReceipts receipts).writeMipmapBloom H block.number receipts

end ChainDb

namespace BlockChain

variable (H : Hashes)

def chainDb (bc : BlockChain) : ChainDb :=
  bc.hc.chainDb

def updateDb (f : ChainDb → ChainDb) (bc : BlockChain) : BlockChain :=
  { bc with hc := { bc.hc with chainDb := f bc.hc.chainDb } }

-- Injects a new head block, and resets the other heads to it if they are on a different side chain.
def insert (block : Block) (bc : BlockChain) : BlockChain :=
  let updateHeads := bc.chainDb.getCanonicalHash block.number ≠ block.hash H
  let bc := bc.updateDb fun db =>
    (db.writeCanonicalHash (block.hash H) block.number).writeHeadBlockHash (block.hash H)
  let bc := { bc with currentBlock := block }
  if updateHeads then
    let bc := { bc with hc := bc.hc.setCurrentHeader H block.header }
    let bc := bc.updateDb fun db => db.writeHeadFastBlockHash (block.hash H)
    { bc with currentFastBlock := block }
  else bc

def adopt (block : Block) (bc : BlockChain) : BlockChain :=
  (bc.insert H block).updateDb fun db =>
    db.writeLookups H block (db.getBlockReceipts (block.hash H) block.number)

def adoptAll (bc : BlockChain) (newChain : List Block) : BlockChain :=
  newChain.foldl (fun bc block => bc.adopt H block) bc

-- What is gone with the old chain, taken from the chains at their end.
def reorgEvents (bc : BlockChain) (oldChain newChain : List Block) : ReorgEvents where
  removedTxs  := txDifference H (oldChain.flatMap Block.transactions)
    (newChain.flatMap Block.transactions)
  removedLogs := oldChain.flatMap fun block => bc.chainDb.collectLogs (block.hash H)
  sideBlocks  := oldChain

-- Makes the new chain canonical and posts an event about the transactions that are missing in it.
def reorg (oldBlock newBlock : Block) : Act BlockChain ChainError ReorgEvents := fun bc =>
  let (old, new, oldChain, newChain) :=
    if newBlock.number < oldBlock.number then
      let (old, oldChain) := bc.chainDb.reduceChain newBlock.number (oldBlock.number.toNat + 1)
        (some oldBlock) []
      (old, some newBlock, oldChain, [])
    else
      let (new, newChain) := bc.chainDb.reduceChain oldBlock.number (newBlock.number.toNat + 1)
        (some newBlock) []
      (some oldBlock, new, [], newChain)
  match old, new with
  | none, _            => (Go.fail .invalidOldChain, bc)
  | some _, none       => (Go.fail .invalidNewChain, bc)
  | some old, some new =>
    match bc.chainDb.findCommon H (old.number.toNat + 1) old new oldChain newChain with
    | .error e                 => (.error e, bc)
    | .ok (oldChain, newChain) =>
      let events := bc.reorgEvents H oldChain newChain
      let bc := bc.adoptAll H newChain
      (.ok events, bc.updateDb fun db => db.dropTxs H events.removedTxs)

-- Writes the block to the chain. `coin` is the outcome of `mrand.Float64() < 0.5`.
def writeBlock (block : Block) (coin : Bool) :
    Act BlockChain ChainError (WriteStatus × ReorgEvents) := fun bc =>
  match bc.chainDb.getTd block.parentHash (block.number - 1) with
  | none     => (Go.fail (.parent block.parentHash), bc)
  | some ptd =>
    let localTd := bc.chainDb.getTd (bc.currentBlock.hash H) bc.currentBlock.number
    let externTd := block.difficulty + ptd
    let bc := bc.updateDb fun db =>
      (db.writeTd (block.hash H) block.number externTd).writeBlock H block
    match localTd with
    | none         => (Go.panics, bc)
    | some localTd =>
      if localTd < externTd ∨ externTd = localTd ∧ coin = true then
        if block.parentHash ≠ bc.currentBlock.hash H then
          match bc.reorg H bc.currentBlock block with
          | (.error e, bc)   => (.error e, bc)
          | (.ok events, bc) => (.ok (.canonStatTy, events), bc.insert H block)
        else (.ok (.canonStatTy, .none), bc.insert H block)
      else (.ok (.sideStatTy, .none), bc)

-- `InsertChain` for a block that has been processed, with the receipts of its transactions.
def insertBlock (block : Block) (receipts : List Receipt) (coin : Bool) :
    Act BlockChain ChainError (WriteStatus × ReorgEvents) := fun bc =>
  let bc := bc.updateDb fun db => db.writeBlockReceipts (block.hash H) block.number receipts
  match writeBlock H block coin bc with
  | (.error e, bc)             => (.error e, bc)
  | (.ok (status, events), bc) =>
    (.ok (status, events),
      if status = .canonStatTy then bc.updateDb fun db => db.writeLookups H block receipts else bc)

-- `ResetWithGenesisBlock` over an empty database.
def new (genesis : Block) : BlockChain :=
  let db := (ChainDb.empty.writeTd (genesis.hash H) genesis.number genesis.difficulty).writeBlock H
    genesis
  let hc : HeaderChain := {
    chainDb           := db
    genesisHeader     := genesis.header
    currentHeader     := genesis.header
    currentHeaderHash := genesis.hash H }
  insert H genesis { hc := hc, currentBlock := genesis, currentFastBlock := genesis }

end BlockChain

end Core
