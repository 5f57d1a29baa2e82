import GoEthereum.Core.Types

-- Bloom filters over the addresses and topics of logs.

namespace Core

open Common

def bloomBit (b : Bytes) (i : Nat) : Bloom :=
  1#2048 <<< (((b.getD (i + 1) 0).toNat + (b.getD i 0).toNat <<< 8) &&& 2047)

def bloom9 (H : Hashes) (b : Bytes) : Bloom :=
  let b := (H.keccak b).bytes
  [0, 2, 4].foldl (fun r i => r ||| bloomBit b i) 0

-- The bytes of a number have no leading zeros.
def Bloom.add (H : Hashes) (bloom : Bloom) (d : Nat) : Bloom :=
  bloom ||| bloom9 H (leastBigEndian d)

def logsBloom (H : Hashes) (logs : List State.Log) : Bloom :=
  logs.foldl (fun bin log =>
    log.topics.foldl (fun bin topic => bin ||| bloom9 H topic.bytes)
      (bin ||| bloom9 H log.address.val)) 0

def createBloom (H : Hashes) (receipts : List Receipt) : Bloom :=
  receipts.foldl (fun bin receipt => bin ||| logsBloom H receipt.logs) 0

def bloomLookup (H : Hashes) (bin : Bloom) (topic : Bytes) : Bool :=
  bin &&& bloom9 H topic == bloom9 H topic

-- `Bloom.TestBytes`. The bytes pass through a number.
def Bloom.testBytes (H : Hashes) (bloom : Bloom) (test : Bytes) : Bool :=
  bloomLookup H bloom (leastBigEndian (ofBigEndian test))

end Core
