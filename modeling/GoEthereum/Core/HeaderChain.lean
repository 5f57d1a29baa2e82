import GoEthereum.Core.Database

-- The basic header chain logic.

namespace Core

open Common

inductive WriteStatus
  | nonStatTy
  | canonStatTy
  | sideStatTy
  deriving DecidableEq

inductive ChainError
  | parent (hash : Hash)
  | invalidOldChain
  | invalidNewChain
  deriving DecidableEq

structure HeaderChain where
  chainDb           : ChainDb
  genesisHeader     : Header
  currentHeader     : Header
  currentHeaderHash : Hash

namespace ChainDb

-- `for i := number + 1; ; i++` up to the first number without an assignment. There are no more
-- iterations than entries.
def deleteAbove : Nat → UInt64 → ChainDb → ChainDb
  | 0, _, db        => db
  | fuel + 1, i, db =>
    if db.getCanonicalHash i = Hash.zero then db
    else deleteAbove fuel (i + 1) (db.deleteCanonicalHash i)

-- Overwrites any stale canonical number assignments, down to the first one that fits.
def overwriteStale : Nat → Hash → UInt64 → Option Header → Act ChainDb ChainError Unit
  | 0, _, _, _ => Act.panics
  | fuel + 1, headHash, headNumber, headHeader => fun db =>
    if db.getCanonicalHash headNumber = headHash then (.ok (), db)
    else
      let db := db.writeCanonicalHash headHash headNumber
      match headHeader with
      | none        => (Go.panics, db)
      | some header =>
        let headHash := header.parentHash
        let headNumber := header.number - 1
        overwriteStale fuel headHash headNumber (db.getHeader headHash headNumber) db

end ChainDb

namespace HeaderChain

variable (H : Hashes)

def setHeadHeader (header : Header) : Act HeaderChain ChainError WriteStatus := fun hc =>
  let db := hc.chainDb.deleteAbove (hc.chainDb.canonical.entries.length + 1) (header.number + 1)
  let headHash := header.parentHash
  let headNumber := header.number - 1
  match db.overwriteStale (header.number.toNat + 2) headHash headNumber
      (db.getHeader headHash headNumber) with
  | (.error e, db) => (.error e, { hc with chainDb := db })
  | (.ok (), db)   =>
    let hash := H.header header
    (.ok .canonStatTy,
      { hc with
        chainDb           := (db.writeCanonicalHash hash header.number).writeHeadHeaderHash hash
        currentHeader     := header
        currentHeaderHash := hash })

-- Writes a header, given that its parent is already known. The canonical chain is re-routed if the
-- total difficulty becomes greater. `coin` is the outcome of `mrand.Float64() < 0.5`.
def writeHeader (header : Header) (coin : Bool) : Act HeaderChain ChainError WriteStatus := fun hc =>
  match hc.chainDb.getTd header.parentHash (header.number - 1) with
  | none     => (Go.fail (.parent header.parentHash), hc)
  | some ptd =>
    let localTd := hc.chainDb.getTd hc.currentHeaderHash hc.currentHeader.number
    let externTd := header.difficulty + ptd
    let hc := { hc with
      chainDb := (hc.chainDb.writeTd (H.header header) header.number externTd).writeHeader H header }
    match localTd with
    | none         => (Go.panics, hc)
    | some localTd =>
      if localTd < externTd ∨ externTd = localTd ∧ coin = true then setHeadHeader H header hc
      else (.ok .sideStatTy, hc)

-- The headers from the current one down to number `head`, which are deleted.
def deleteHeaders (head : UInt64) : Nat → Option Header → ChainDb → Option Header × ChainDb
  | 0, current, db               => (current, db)
  | _ + 1, none, db              => (none, db)
  | fuel + 1, some current, db   =>
    if head < current.number then
      let hash := H.header current
      let num := current.number
      let db := (db.deleteHeader hash num).deleteTd hash num
      deleteHeaders head fuel (db.getHeader current.parentHash (current.number - 1)) db
    else (some current, db)

-- `for i := height; i > head; i--`
def rollBack (head : UInt64) : Nat → UInt64 → ChainDb → ChainDb
  | 0, _, db        => db
  | fuel + 1, i, db =>
    if head < i then rollBack head fuel (i - 1) (db.deleteCanonicalHash i) else db

-- Rewinds the local chain to a new head. Everything above the new head will be deleted and the
-- new one set.
def setHead (head : UInt64) (hc : HeaderChain) : HeaderChain :=
  let height := hc.currentHeader.number
  let (current, db) := deleteHeaders H head (height.toNat + 1) (some hc.currentHeader) hc.chainDb
  let db := rollBack head height.toNat height db
  let currentHeader := current.getD hc.genesisHeader
  { hc with
    chainDb           := db.writeHeadHeaderHash (H.header currentHeader)
    currentHeader     := currentHeader
    currentHeaderHash := H.header currentHeader }

def new (genesis : Header) : HeaderChain where
  chainDb           :=
    (((ChainDb.empty.writeTd (H.header genesis) genesis.number genesis.difficulty).writeHeader H
      genesis).writeCanonicalHash (H.header genesis) genesis.number).writeHeadHeaderHash
      (H.header genesis)
  genesisHeader     := genesis
  currentHeader     := genesis
  currentHeaderHash := H.header genesis

end HeaderChain

end Core
