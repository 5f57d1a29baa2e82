import GoEthereum.Core.BlockChain

-- Validation of headers, of blocks and of the uncles in them.

namespace Core

open Common

structure ChainConfig where
  homesteadBlock : Option Nat
  daoForkBlock   : Option Nat
  daoForkSupport : Bool
  eip150Block    : Option Nat
  eip150Hash     : Hash

def ChainConfig.isHomestead (config : ChainConfig) (num : Nat) : Bool :=
  match config.homesteadBlock with
  | none   => false
  | some n => n ≤ num

inductive HeaderError
  | extraTooLong (length : Nat)
  | tsTooBig
  | future
  | equalTS
  | difficulty (remote : Nat) (expected : Int)
  | gasLimit (remote localMax : Nat)
  | number
  | nonce (number : UInt64) (hash : Hash) (nonce : UInt64)
  | daoProForkExtra (extra : Bytes)
  | daoNoForkExtra (extra : Bytes)
  | eip150Hash (have_ want : Hash)
  deriving DecidableEq

inductive BlockError
  | knownBlock (number : UInt64) (hash : Hash)
  | parent (hash : Hash)
  | header (e : HeaderError)
  | tooManyUncles (length : Nat)
  | uncleNotUnique (i : Nat) (hash : Hash)
  | uncleIsAncestor (i : Nat) (hash : Hash)
  | uncleParent (i : Nat) (hash parentHash : Hash)
  | uncleHeader (i : Nat) (hash : Hash) (e : HeaderError)
  | unclesRoot (remote expected : Hash)
  | txRoot (remote expected : Hash)
  deriving DecidableEq

-- What validation takes from outside: the chain configuration, the proof of work, the clock, and
-- the state roots that can be opened.
structure Validator where
  config   : ChainConfig
  verify   : Header → Bool
  now      : Int
  hasState : Hash → Bool

def failIf {ε : Type} (c : Prop) [Decidable c] (e : ε) : Except ε Unit :=
  if c then .error e else .ok ()

variable {ε : Type}

theorem failIf_eq_ok {c : Prop} [Decidable c] {e : ε} : failIf c e = .ok () ↔ ¬ c := by
  unfold failIf
  split <;> simp_all

theorem failIf_eq_error {c : Prop} [Decidable c] {e e' : ε} :
    failIf c e = .error e' ↔ c ∧ e = e' := by
  unfold failIf
  split <;> simp_all

theorem seq_eq_ok {x y : Except ε Unit} :
    (do x; y) = .ok () ↔ x = .ok () ∧ y = .ok () := by
  cases x <;> simp [bind, Except.bind]

theorem seq_eq_error {x y : Except ε Unit} {e : ε} :
    (do x; y) = .error e ↔ x = .error e ∨ x = .ok () ∧ y = .error e := by
  cases x <;> simp [bind, Except.bind]

def difficultyBoundDivisor : Int := 2048

def minimumDifficulty : Int := 131072

def durationLimit : Int := 13

def expDiffPeriod : Nat := 100000

def calcDifficultyHomestead (time parentTime : UInt64) (parentNumber parentDiff : Nat) : Int :=
  -- max(1 - (block_timestamp - parent_timestamp) // 10, -99)
  let x := max (1 - ((time.toNat : Int) - parentTime.toNat) / 10) (-99)
  -- minimum difficulty can ever be (before exponential factor)
  let x := max (parentDiff + parentDiff / difficultyBoundDivisor * x) minimumDifficulty
  let periodCount := (parentNumber + 1) / expDiffPeriod
  -- the exponential factor, commonly referred to as "the bomb"
  if 1 < periodCount then x + 2 ^ (periodCount - 2) else x

def calcDifficultyFrontier (time parentTime : UInt64) (parentNumber parentDiff : Nat) : Int :=
  let adjust := parentDiff / difficultyBoundDivisor
  let diff := if (time.toNat : Int) - parentTime.toNat < durationLimit then parentDiff + adjust
    else parentDiff - adjust
  let diff := max diff minimumDifficulty
  let periodCount := (parentNumber + 1) / expDiffPeriod
  if 1 < periodCount then max (diff + 2 ^ (periodCount - 2)) minimumDifficulty else diff

-- The difficulty that a new block should have when created at time given the parent block's time
-- and difficulty.
def calcDifficulty (config : ChainConfig) (time parentTime : UInt64) (parentNumber parentDiff : Nat) :
    Int :=
  if config.isHomestead (parentNumber + 1) then
    calcDifficultyHomestead time parentTime parentNumber parentDiff
  else calcDifficultyFrontier time parentTime parentNumber parentDiff

def maximumExtraDataSize : Nat := 32

def gasLimitBoundDivisor : Nat := 1024

def minGasLimit : Nat := 5000

def daoForkBlockExtra : Bytes :=
  [0x64, 0x61, 0x6f, 0x2d, 0x68, 0x61, 0x72, 0x64, 0x2d, 0x66, 0x6f, 0x72, 0x6b]

def daoForkExtraRange : Nat := 10

def validateDAOHeaderExtraData (config : ChainConfig) (header : Header) : Except HeaderError Unit :=
  match config.daoForkBlock with
  | none      => .ok ()
  | some fork =>
    let limit := fork + daoForkExtraRange
    if header.number.toNat < fork ∨ limit ≤ header.number.toNat then .ok ()
    else if config.daoForkSupport then
      failIf (header.extra ≠ daoForkBlockExtra) (.daoProForkExtra header.extra)
    else
      failIf (header.extra = daoForkBlockExtra) (.daoNoForkExtra header.extra)

-- See YP section 4.3.4. "Block Header Validity"
def validateHeader (H : Hashes) (v : Validator) (header parent : Header) (checkPow uncle : Bool) :
    Except HeaderError Unit := do
  failIf (maximumExtraDataSize < header.extra.length) (.extraTooLong header.extra.length)
  failIf (uncle ∧ 2 ^ 256 ≤ header.time) .tsTooBig
  failIf (¬ uncle ∧ v.now < header.time) .future
  failIf (header.time ≤ parent.time) .equalTS
  let expd := calcDifficulty v.config (.ofNat header.time) (.ofNat parent.time)
    parent.number.toNat parent.difficulty
  failIf (expd ≠ header.difficulty) (.difficulty header.difficulty expd)
  let a := ((parent.gasLimit : Int) - header.gasLimit).natAbs
  let b := parent.gasLimit / gasLimitBoundDivisor
  failIf (¬ a < b ∨ header.gasLimit < minGasLimit) (.gasLimit header.gasLimit b)
  failIf ((header.number.toNat : Int) - parent.number.toNat ≠ 1) .number
  failIf (checkPow ∧ ¬ v.verify header) (.nonce header.number (H.header header) header.nonce)
  validateDAOHeaderExtraData v.config header
  failIf (¬ uncle ∧ v.config.eip150Block = some header.number.toNat ∧
      v.config.eip150Hash ≠ Hash.zero ∧ v.config.eip150Hash ≠ H.header header)
    (.eip150Hash (H.header header) v.config.eip150Hash)

namespace BlockChain

-- `HasBlock` by the hash only
def hasBlock (bc : BlockChain) (hash : Hash) : Bool :=
  (bc.chainDb.getBlock hash (bc.chainDb.getBlockNumber hash)).isSome

-- The block corresponding to the hash and up to `n - 1` ancestors, from the given number on.
def getBlocks (bc : BlockChain) : Nat → Hash → UInt64 → List Block
  | 0, _, _             => []
  | n + 1, hash, number =>
    match bc.chainDb.getBlock hash number with
    | none       => []
    | some block => block :: bc.getBlocks n block.parentHash (number - 1)

def getBlocksFromHash (bc : BlockChain) (hash : Hash) (n : Nat) : List Block :=
  bc.getBlocks n hash (bc.chainDb.getBlockNumber hash)

end BlockChain

namespace Validator

variable (H : Hashes) (v : Validator)

-- The loop over the uncles of a block. `uncles` are the hashes that have been seen.
def verifyUncle (ancestors : GoMap Hash Block) (parent : Block) :
    Nat → List Hash → List Header → Except BlockError Unit
  | _, _, []                 => .ok ()
  | i, uncles, uncle :: rest => do
    let hash := H.header uncle
    failIf (hash ∈ uncles) (.uncleNotUnique i hash)
    failIf (ancestors.lookup hash).isSome (.uncleIsAncestor i hash)
    match ancestors.lookup uncle.parentHash with
    | none          => throw (.uncleParent i hash uncle.parentHash)
    | some ancestor =>
      failIf (uncle.parentHash = parent.hash H) (.uncleParent i hash uncle.parentHash)
      (validateHeader H v uncle ancestor.header true true).mapError (.uncleHeader i hash)
      verifyUncle ancestors parent (i + 1) (hash :: uncles) rest

def verifyUncles (bc : BlockChain) (block parent : Block) : Except BlockError Unit := do
  failIf (2 < block.uncles.length) (.tooManyUncles block.uncles.length)
  let blocks := bc.getBlocksFromHash block.parentHash 7
  let ancestors : GoMap Hash Block := blocks.foldl (fun m b => m.insert (b.hash H) b) ∅
  let uncles := blocks.flatMap fun b => b.uncles.map H.header
  v.verifyUncle H (ancestors.insert (block.hash H) block) parent 0 (block.hash H :: uncles)
    block.uncles

-- Validates the given block's header and uncles and verifies the block header's transaction and
-- uncle roots.
def validateBlock (bc : BlockChain) (block : Block) : Except BlockError Unit := do
  failIf (bc.hasBlock (block.hash H) ∧ v.hasState block.header.root)
    (.knownBlock block.number (block.hash H))
  match bc.chainDb.getBlock block.parentHash (block.number - 1) with
  | none        => throw (.parent block.parentHash)
  | some parent =>
    failIf (¬ v.hasState parent.header.root) (.parent block.parentHash)
    (validateHeader H v block.header parent.header false false).mapError .header
    v.verifyUncles H bc block parent
    let unclesSha := H.uncles block.uncles
    failIf (unclesSha ≠ block.header.uncleHash) (.unclesRoot block.header.uncleHash unclesSha)
    let txSha := H.txRoot block.transactions
    failIf (txSha ≠ block.header.txHash) (.txRoot block.header.txHash txSha)

end Validator

def blockReward : Int := 5000000000000000000

def uncleReward (header uncle : Header) : Int :=
  ((uncle.number.toNat : Int) + 8 - header.number.toNat) * blockReward / 8

-- Credits the coinbase of the block with the static reward and rewards for its uncles, and the
-- coinbase of each uncle.
def accumulateRewards (H : State.Hashing) (statedb : State.StateDB) (header : Header)
    (uncles : List Header) : State.StateDB :=
  let (statedb, reward) := uncles.foldl (fun (s, reward) uncle =>
    (s.addBalance H uncle.coinbase (uncleReward header uncle), reward + blockReward / 32))
    (statedb, blockReward)
  statedb.addBalance H header.coinbase reward

end Core
