import GoEthereum.Core.Types
import GoEthereum.Rlp.Item
import Mathlib.Data.Nat.Size
import Mathlib.Tactic.IntervalCases

-- Signing transactions and deriving their senders.

namespace Core

open Common

inductive SigError
  | invalidSig
  | invalidChainId
  | invalidPublicKey
  -- An error of `secp256k1.Sign`.
  | sign
  -- An error of `secp256k1.RecoverPubkey`.
  | recover
  deriving DecidableEq

-- The hash function and the curve. Signing takes random bytes.
structure Crypto (Key : Type) where
  keccak    : Bytes → Hash
  sign      : Bytes → Hash → Key → Except SigError Bytes
  ecrecover : Hash → Bytes → Except SigError Bytes

-- `secp256k1.N` and `secp256k1.HalfN`

def curveN : Int :=
  0xfffffffffffffffffffffffffffffffebaaedce6af48a03bbfd25e8cd0364141

def curveHalfN : Int :=
  0x7fffffffffffffffffffffffffffffff5d576e7357a4501ddfe92f46681b20a0

-- Methods of `big.Int`, which look at the absolute value.

def bitLen (x : Int) : Nat :=
  Nat.size x.natAbs

def uint64 (x : Int) : UInt64 :=
  .ofNat x.natAbs

def isProtectedV (v : Int) : Bool :=
  if bitLen v ≤ 8 then uint64 v ≠ 27 ∧ uint64 v ≠ 28 else true

def deriveChainId (v : Int) : Int :=
  if bitLen v ≤ 64 then
    if uint64 v = 27 ∨ uint64 v = 28 then 0 else ((uint64 v - 35) / 2).toNat
  else
    (v - 35) / 2

def validateSignatureValues (v : UInt8) (r s : Int) (homestead : Bool) : Bool :=
  if r < 1 ∨ s < 1 then false
  -- reject upper range of s values (ECDSA malleability)
  else if homestead ∧ curveHalfN < s then false
  -- Frontier: allow s to be in full N range
  else if curveN ≤ s then false
  else r < curveN ∧ (v = 27 ∨ v = 28)

namespace Transaction

def protected_ (tx : Transaction) : Bool :=
  isProtectedV tx.v

def chainId (tx : Transaction) : Int :=
  deriveChainId tx.v

end Transaction

-- The signers. That of EIP155 keeps twice the chain id beside it, which can be missing.
inductive Signer
  | frontier
  | homestead
  | eip155 (chainId : Int) (chainIdMul : Option Int)
  deriving DecidableEq

def newEIP155Signer (chainId : Int) : Signer :=
  .eip155 chainId (some (chainId * 2))

def deriveSigner (v : Int) : Signer :=
  if 0 < bitLen v ∧ isProtectedV v then .eip155 (deriveChainId v) none else .homestead

def Signer.equal : Signer → Signer → Bool
  | frontier,   frontier     => true
  | homestead,  homestead    => true
  | eip155 c _, eip155 c' _  => c' = c
  | _,          _            => false

def normaliseV (s : Signer) (v : Int) : Go SigError UInt8 :=
  match s with
  | .eip155 chainId chainIdMul =>
    let stdV := bitLen v ≤ 8 ∧ (uint64 v = 27 ∨ uint64 v = 28)
    if 0 < bitLen chainId ∧ ¬ stdV then
      match chainIdMul with
      | none     => Go.panics
      | some mul => .ok (uint64 (v - mul) - 35 + 27).toUInt8
    else
      .ok (uint64 v).toUInt8
  | _ => .ok (uint64 v).toUInt8

-- A big integer in the list that is hashed. A negative one cannot be encoded.
def bigItem (i : Int) : Option Rlp.Item :=
  if 0 ≤ i then some (Rlp.intItem i) else none

def sigItems (tx : Transaction) : List (Option Rlp.Item) :=
  [some (.str (leastBigEndian tx.accountNonce.toNat)), bigItem tx.price, bigItem tx.gasLimit,
    some (.str (tx.recipient.elim [] Subtype.val)), bigItem tx.amount, some (.str tx.payload)]

-- `rlpHash` of a list. An error is ignored, and then nothing has been written.
def rlpHash (keccak : Bytes → Hash) (items : List (Option Rlp.Item)) : Hash :=
  keccak ((items.mapM id).elim [] fun xs => Rlp.encode (.list xs))

-- The hash to be signed by the sender. It does not uniquely identify the transaction.
def Signer.hash (keccak : Bytes → Hash) (tx : Transaction) : Signer → Hash
  | eip155 chainId _ => rlpHash keccak (sigItems tx ++ [bigItem chainId, bigItem 0, bigItem 0])
  | _                => rlpHash keccak (sigItems tx)

variable {Key : Type} (C : Crypto Key)

-- An Ethereum ECDSA signature, with 27 added to the recovery id as described in the yellow paper.
def signEthereum (entropy : Bytes) (hash : Hash) (prv : Key) : Except SigError Bytes := do
  let sig ← C.sign entropy hash prv
  return sig.modify 64 (· + 27)

-- The signature needs to be formatted as described in the yellow paper (v+27).
def withSignature (s : Signer) (tx : Transaction) (sig : Bytes) : Go SigError Transaction :=
  if sig.length ≠ 65 then
    Go.panics
  else
    let cpy := { tx with r := ofBigEndian (sig.take 32), s := ofBigEndian ((sig.drop 32).take 32),
                         v := ((sig.getD 64 0).toNat : Int) }
    match s with
    | .eip155 chainId chainIdMul =>
      if 0 < bitLen chainId then
        match chainIdMul with
        | none     => Go.panics
        | some mul => .ok { cpy with v := (sig.getD 64 0 - 27 + 35).toNat + mul }
      else
        .ok cpy
    | _ => .ok cpy

def signECDSA (entropy : Bytes) (s : Signer) (tx : Transaction) (prv : Key) :
    Go SigError Transaction :=
  match signEthereum C entropy (s.hash C.keccak tx) prv with
  | .error e => Go.fail e
  | .ok sig  => withSignature s tx sig

-- The signature in uncompressed format. The slices of it must not begin below zero.
def encodeSignature (v : UInt8) (r s : Int) : Go SigError Bytes :=
  let r := leastBigEndian r.natAbs
  let s := leastBigEndian s.natAbs
  if 32 < r.length ∨ 32 < s.length then
    Go.panics
  else
    .ok (List.replicate (32 - r.length) 0 ++ r ++ List.replicate (32 - s.length) 0 ++ s ++ [v - 27])

-- What the signers have in common: the public key of a signature of the given hash.
def recoverKey (hash : Hash) (v : UInt8) (r s : Int) (homestead : Bool) : Go SigError Bytes :=
  if ¬ validateSignatureValues v r s homestead then
    Go.fail .invalidSig
  else do
    let sig ← encodeSignature v r s
    match C.ecrecover hash sig with
    | .error e => Go.fail e
    | .ok pub  => if pub.head? = some 4 then .ok pub else Go.fail .invalidPublicKey

-- `FrontierSigner.PublicKey` and `HomesteadSigner.PublicKey`
def plainPublicKey (homestead : Bool) (tx : Transaction) : Go SigError Bytes :=
  if 8 < bitLen tx.v then
    Go.fail .invalidSig
  else
    recoverKey C (Signer.frontier.hash C.keccak tx) (uint64 tx.v).toUInt8 tx.r tx.s homestead

def Signer.publicKey (tx : Transaction) : Signer → Go SigError Bytes
  | frontier              => plainPublicKey C false tx
  | homestead             => plainPublicKey C true tx
  | s@(eip155 chainId _) =>
    -- if the transaction is not protected fall back to homestead signer
    if ¬ tx.protected_ then
      plainPublicKey C true tx
    else if tx.chainId ≠ chainId then
      Go.fail .invalidChainId
    else do
      let v ← normaliseV s tx.v
      recoverKey C (s.hash C.keccak tx) v tx.r tx.s true

theorem length_drop_keccak (h : Hash) : (h.val.drop 12).length = addressLength := by
  rw [List.length_drop, h.property]
  rfl

def pubkeyAddress (pubkey : Bytes) : Address :=
  ⟨(C.keccak (pubkey.drop 1)).val.drop 12, length_drop_keccak _⟩

-- A transaction with the sender that has been derived for it, and the signer used to derive it.
structure CachedTx where
  data : Transaction
  from_ : Option (Signer × Address)
  deriving DecidableEq

def CachedTx.fresh (tx : Transaction) : CachedTx :=
  ⟨tx, none⟩

def deriveSender (signer : Signer) : Act CachedTx SigError Address := fun tx =>
  match signer.publicKey C tx.data with
  | .error e   => (.error e, tx)
  | .ok pubkey =>
    let addr := pubkeyAddress C pubkey
    (.ok addr, { tx with from_ := some (signer, addr) })

-- The address derived from the signature, and an error if it failed deriving or upon an incorrect
-- signature.
def sender (signer : Signer) : Act CachedTx SigError Address := fun tx =>
  match tx.from_ with
  | none             => deriveSender C signer tx
  | some (sc, from_) =>
    -- If the signer used to derive from in a previous call is not the same as used current,
    -- invalidate the cache.
    if sc.equal signer then (.ok from_, tx) else deriveSender C signer tx

end Core
