import GoEthereum.Rlp.Stream

-- The decoders of the types.

namespace Rlp

open Rlp.Stream

def wrapStreamError (e : StreamError) (type : Ty) : StreamError :=
  match e with
  | .canonInt       => .decode "non-canonical integer (leading zero bytes)" type []
  | .canonSize      => .decode "non-canonical size information" type []
  | .expectedList   => .decode "expected input list" type []
  | .expectedString => .decode "expected input string or byte" type []
  | .uintOverflow   => .decode "input string too long" type []
  | .notAtEOL       => .decode "input list has too many elements" type []
  | e               => e

def addErrorContext (e : StreamError) (ctx : Context) : StreamError :=
  match e with
  | .decode msg type ctxs => .decode msg type (ctxs ++ [ctx])
  | e                     => e

def Read.mapError {α : Type} (f : StreamError → StreamError) (x : Read α) : Read α := fun s =>
  match x s with
  | (.error (.error e), s) => (Go.fail (f e), s)
  | r                      => r

def Read.orEol {α : Type} (x : Read α) : Read (Option α) := fun s =>
  match x s with
  | (.ok a, s)                => (.ok (some a), s)
  | (.error (.error .eol), s) => (.ok none, s)
  | (.error e, s)             => (.error e, s)

-- `i` elements have been decoded. The rounds are bounded: a decoder that consumes nothing makes the
-- slice grow until memory is exhausted.
def decodeSliceElems.loop {α : Type} (elemdec : Read α) : Nat → Nat → Read (List α)
  | 0,          _ => Act.panics
  | rounds + 1, i => do
    match ← (elemdec.mapError (addErrorContext · (.index i))).orEol with
    | none   => pure []
    | some v => do
      let vs ← loop elemdec rounds (i + 1)
      pure (v :: vs)

-- A decoder that does consume its input is called at most once for each byte and at the end.
def decodeSliceElems {α : Type} (elemdec : Read α) : Read (List α) := do
  let s ← Act.get
  decodeSliceElems.loop elemdec (s.input.length + 2) 0

def decodeListSlice {α : Type} (type : Ty) (elemdec : Read α) : Read (List α) := do
  let size ← list.mapError (wrapStreamError · type)
  if size = 0 then do
    listEnd
    pure []
  else do
    let vs ← decodeSliceElems elemdec
    listEnd
    pure vs

-- The rounds bound the depth of the recursion.
def decodeInterface.rec : Nat → Read Item
  | 0          => Act.panics
  | rounds + 1 => do
    let (kind, _) ← kindOf
    if kind = .list then do
      let xs ← decodeListSlice (.slice .interface) (rec rounds)
      pure (.list xs)
    else do
      let b ← bytes
      pure (.str b)

-- A list takes a byte at least, so a value is not nested deeper than its length.
def decodeInterface : Read Item := do
  let s ← Act.get
  decodeInterface.rec (s.input.length + 1)

-- The first `n` elements, or fewer if the list ends before.
def decodeListArray.loop {α : Type} (elemdec : Read α) : Nat → Nat → Read (List α)
  | 0,     _ => pure []
  | n + 1, i => do
    match ← (elemdec.mapError (addErrorContext · (.index i))).orEol with
    | none   => pure []
    | some v => do
      let vs ← loop elemdec n (i + 1)
      pure (v :: vs)

def decodeListArray {α : Type} (type : Ty) (vlen : Nat) (elemdec : Read α) :
    Read { vs : List α // vs.length = vlen } := do
  let _ ← list.mapError (wrapStreamError · type)
  let vs ← decodeListArray.loop elemdec vlen 0
  if h : vs.length = vlen then do
    listEnd.mapError (wrapStreamError · type)
    pure ⟨vs, h⟩
  else
    Act.fail (.decode "input list has too few elements" type [])

def decodeUint (width : Width) : Read (Fin (2 ^ width.bits)) := do
  let num ← (uint width.bits).mapError (wrapStreamError · (.uint width))
  pure (Fin.ofNat _ num)

def decodeBool : Read Bool :=
  bool.mapError (wrapStreamError · .bool)

def decodeByteString (type : Ty) : Read Bytes :=
  bytes.mapError (wrapStreamError · type)

def decodeBigInt (type : Ty) : Read Int := do
  let b ← bytes.mapError (wrapStreamError · type)
  -- Reject leading zero bytes
  if b.head? = some 0 then Act.fail (wrapStreamError .canonInt type) else
  pure (ofBigEndian b)

-- The error of `Uint` is dropped. It does not consume the byte when that is zero.
def dropError (x : Read Nat) : Read Nat := fun s =>
  match x s with
  | (.error (.error _), s) => (.ok 0, s)
  | r                      => r

def decodeByteArray (vlen : Nat) : Read { b : Bytes // b.length = vlen } := do
  let (kind, size) ← kindOf
  match kind with
  | .byte =>
    if h : vlen = 1 then do
      let bv ← dropError (uint 64)
      pure ⟨[UInt8.ofNat bv], h.symm⟩
    else if vlen = 0 then
      Act.fail (.decode "input string too long" (.byteArray vlen) [])
    else
      Act.fail (.decode "input string too short" (.byteArray vlen) [])
  | .string =>
    if vlen < size then
      Act.fail (.decode "input string too long" (.byteArray vlen) [])
    else if vlen > size then
      Act.fail (.decode "input string too short" (.byteArray vlen) [])
    else do
      let b ← readFull vlen
      -- Reject cases where single byte encoding should have been used.
      if size = 1 ∧ b.val.headD 0 < 128 then
        Act.fail (wrapStreamError .canonSize (.byteArray vlen))
      else
        pure b
  | .list => Act.fail (wrapStreamError .expectedString (.byteArray vlen))

def decodeOptionalPtr {α : Type} (elemdec : Read α) : Read (Option α) := fun s =>
  match kindOf s with
  | (.ok (kind, size), s) =>
    if size = 0 ∧ kind ≠ .byte then
      -- rearm s.Kind, so that the input position advances to the next value.
      (.ok none, { s with kind := none })
    else
      (do let v ← elemdec; pure (some v) : Read _) s
  | (.error e, s) => (.error e, { s with kind := none })

def makePtrDecoder {α : Type} (tags : Tags) (elemdec : Read α) : Read (Option α) :=
  if tags.nilOK then
    decodeOptionalPtr elemdec
  else do
    let v ← elemdec
    pure (some v)

def makeSliceDecoder {α : Type} (type : Ty) (tags : Tags) (elemdec : Read α) : Read (List α) :=
  -- A slice with "tail" tag is supposed to swallow all remaining list elements. The struct decoder
  -- already called s.List.
  if tags.tail then decodeSliceElems elemdec else decodeListSlice type elemdec

-- A field of a struct of type `type`.
def decodeField {α : Type} (type : Ty) (name : String) (dec : Read α) : Read α := do
  match ← (dec.mapError (addErrorContext · (.field name))).orEol with
  | none   => Act.fail (.decode "too few elements" type [])
  | some v => pure v

mutual

def decoder : (T : Ty) → Tags → Read T.Val
  | .uint width,    _ => decodeUint width
  | .bool,          _ => decodeBool
  | .bigInt,        _ => decodeBigInt .bigInt
  | .bigIntPtr,     _ => do
    let i ← decodeBigInt .bigIntPtr
    pure (some i)
  | .string,        _ => decodeByteString .string
  | .byteSlice,     _ => decodeByteString .byteSlice
  | .byteArray len, _ => decodeByteArray len
  | .slice elem, tags => makeSliceDecoder (.slice elem) tags (decoder elem .none)
  | .array len elem, _ => decodeListArray (.array len elem) len (decoder elem .none)
  | .struct fields, _ => do
    let _ ← list.mapError (wrapStreamError · (.struct fields))
    let v ← decodeFields (.struct fields) fields
    listEnd.mapError (wrapStreamError · (.struct fields))
    pure v
  | .ptr elem, tags => makePtrDecoder tags (decoder elem .none)
  | .interface, _ => do
    let x ← decodeInterface
    pure (some x)

def decodeFields (type : Ty) : (fs : Fields) → Read fs.Val
  | .nil                   => pure ()
  | .cons name tags T rest => do
    let v ← decodeField type name (decoder T tags)
    let vs ← decodeFields type rest
    pure (v, vs)

end

def addTarget (T : Ty) (e : StreamError) : StreamError :=
  match e with
  | .decode msg type (c :: ctx) => .decode msg type (c :: ctx ++ [.target T])
  | e                           => e

inductive DecodeError
  | tag    (e : TagError)
  | stream (e : StreamError)

-- `Decode` from a `bytes.Reader` into a zero value of type `T`. What follows the value is not read.
def Ty.decode (T : Ty) (b : Bytes) : Go DecodeError T.Val :=
  match T.check with
  | .error e => Go.fail (.tag e)
  | .ok _    =>
    match (decoder T .none).mapError (addTarget T) (Stream.new b) with
    | (.error (.error e), _) => Go.fail (.stream e)
    | (.error .panic, _)     => Go.panics
    | (.ok v, _)             => pure v

-- `DecodeBytes` into a zero value of type `T`.
def Ty.decodeBytes (T : Ty) (b : Slice) : Go DecodeError T.Val :=
  match T.check with
  | .error e => Go.fail (.tag e)
  | .ok _    =>
    match (decoder T .none).mapError (addTarget T) (Stream.new b.val) with
    | (.error (.error e), _) => Go.fail (.stream e)
    | (.error .panic, _)     => Go.panics
    | (.ok v, s)             => if s.input ≠ [] then Go.fail (.stream .moreThanOneValue) else pure v

end Rlp
