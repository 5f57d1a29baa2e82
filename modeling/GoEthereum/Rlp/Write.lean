import GoEthereum.Rlp.Encbuf
import GoEthereum.Rlp.Types

-- The writers of the types.

namespace Rlp

inductive EncodeError
  | tag (e : TagError)
  -- "rlp: cannot encode negative *big.Int"
  | negativeBigInt
  deriving DecidableEq, Repr

def writeUint (i : Nat) (w : Encbuf) : Encbuf :=
  if i = 0 then
    w.write [0x80]
  else if i < 128 then
    w.write [UInt8.ofNat i]
  else
    w.write (UInt8.ofNat (0x80 + intsize i) :: putint i)

def writeBool (b : Bool) (w : Encbuf) : Encbuf :=
  if b then w.write [0x01] else w.write [0x80]

def writeBigInt (i : Int) (w : Encbuf) : Go EncodeError Encbuf :=
  if i < 0 then
    Go.fail .negativeBigInt
  else if i = 0 then
    pure (w.write [0x80])
  else
    pure (w.encodeString (leastBigEndian i.toNat))

def writeElems {α : Type} (elem : α → Encbuf → Go EncodeError Encbuf) :
    List α → Encbuf → Go EncodeError Encbuf
  | [],      w => pure w
  | v :: vs, w => do
    let w ← elem v w
    writeElems elem vs w

-- What is written between the start and the end of a list. Where that fails the buffer is dropped.
def writeList (write : Encbuf → Go EncodeError Encbuf) (w : Encbuf) : Go EncodeError Encbuf := do
  let w' ← write w.list.fst
  pure (w'.listEnd w.list.snd)

def nilfunc (elem : Ty) (writeZero : Encbuf → Go EncodeError Encbuf) :
    Encbuf → Go EncodeError Encbuf :=
  match elem with
  | .byteArray _ => fun w => pure (w.write [0x80])
  -- encoding the zero value of a struct/array could trigger infinite recursion, avoid that.
  | .struct _    => writeList pure
  | .array _ _   => writeList pure
  | _            => writeZero

mutual

def writer : (T : Ty) → Tags → T.Val → Encbuf → Go EncodeError Encbuf
  | .uint _,      _,    i, w => pure (writeUint (i : Fin _).val w)
  | .bool,        _,    b, w => pure (writeBool b w)
  | .bigInt,      _,    i, w => writeBigInt i w
  | .bigIntPtr,   _,    p, w =>
    match (p : Option Int) with
    | none   => pure (w.write [0x80])
    | some i => writeBigInt i w
  | .string,      _,    s, w => pure (w.encodeString s)
  | .byteSlice,   _,    b, w => pure (w.encodeString b)
  | .byteArray _, _,    b, w => pure (w.encodeString b.val)
  | .slice elem,  tags, vs, w =>
    if tags.tail then
      writeElems (writer elem .none) vs w
    else
      writeList (writeElems (writer elem .none) vs) w
  | .array _ e,   _,    vs, w => writeList (writeElems (writer e .none) vs.val) w
  | .struct fs,   _,    vs, w => writeList (writeFields fs vs) w
  | .ptr elem,    _,    p, w =>
    match (p : Option elem.Val) with
    | some v => writer elem .none v w
    | none   => nilfunc elem (writer elem .none elem.zero) w
  | .interface,   _,    p, w =>
    match (p : Option Item) with
    | none   => pure (w.write [0xC0])
    | some x => pure (w.writeItem x)

def writeFields : (fs : Fields) → fs.Val → Encbuf → Go EncodeError Encbuf
  | .nil,                _,       w => pure w
  | .cons _ tags T rest, (v, vs), w => do
    let w ← writer T tags v w
    writeFields rest vs w

end

-- `EncodeToBytes` for a value of type `T`.
def Ty.encodeToBytes (T : Ty) (v : T.Val) : Go EncodeError Bytes :=
  match T.check with
  | .error e => Go.fail (.tag e)
  | .ok _    => do
    let w ← writer T .none v .reset
    pure w.toBytes

end Rlp
