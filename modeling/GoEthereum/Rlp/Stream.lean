import GoEthereum.Rlp.Raw
import GoEthereum.Rlp.Types

-- The stream that values are decoded from.

namespace Rlp

inductive Context
  | index  (i : Nat)
  | field  (name : String)
  | target (type : Ty)

inductive StreamError
  | eol
  | eof
  | unexpectedEOF
  | expectedString
  | expectedList
  | canonInt
  | canonSize
  | elemTooLarge
  | valueTooLarge
  | moreThanOneValue
  | notInList
  | notAtEOL
  | uintOverflow
  | invalidBool (num : Nat)
  | decode (msg : String) (type : Ty) (ctx : List Context)

structure ListPos where
  pos  : Nat
  size : Nat

-- The difference is of type `uint64`.
def ListPos.left (p : ListPos) : Nat :=
  (p.size + 2 ^ 64 - p.pos) % 2 ^ 64

def ListPos.advance (p : ListPos) (n : Nat) : ListPos :=
  { p with pos := (p.pos + n) % 2 ^ 64 }

structure Stream where
  -- What the reader has left.
  input     : Bytes
  remaining : Nat
  limited   : Bool
  -- kind of value ahead, `none` for -1
  kind      : Option Kind
  size      : Nat
  byteval   : UInt8
  kinderr   : Option StreamError
  -- The lists that were entered, the innermost first.
  stack     : List ListPos

abbrev Read := Act Stream StreamError

namespace Stream

-- `NewStream` on a `bytes.Reader`, whose length is the limit.
def new (b : Bytes) : Stream where
  input     := b
  remaining := b.length
  limited   := true
  kind      := none
  size      := 0
  byteval   := 0
  kinderr   := none
  stack     := []

def rearm : Read Unit :=
  Act.modify ({ · with kind := none })

def willReadList (n : Nat) : Read Unit := fun s =>
  match s.stack with
  | []           => (.ok (), s)
  | tos :: stack =>
    if n > tos.left then
      (Go.fail .elemTooLarge, s)
    else
      (.ok (), { s with stack := tos.advance n :: stack })

def willReadLimit (n : Nat) : Read Unit := fun s =>
  if s.limited then
    if n > s.remaining then
      (Go.fail .valueTooLarge, s)
    else
      (.ok (), { s with remaining := s.remaining - n })
  else
    (.ok (), s)

def willRead (n : Nat) : Read Unit := do
  rearm
  willReadList n
  willReadLimit n

-- Reads from the reader until a slice of length `n` is full.
def fill (n : Nat) : Read { b : Bytes // b.length = n } := fun s =>
  if h : n ≤ s.input.length then
    (.ok ⟨s.input.take n, List.length_take_of_le h⟩, { s with input := s.input.drop n })
  else
    (Go.fail .unexpectedEOF, { s with input := [] })

def readFull (n : Nat) : Read { b : Bytes // b.length = n } := do
  willRead n
  fill n

def readByte : Read UInt8 := do
  willRead 1
  let b ← fill 1
  pure (b.val.headD 0)

def readUint (size : Nat) : Read Nat :=
  match size with
  | 0 => do
    rearm
    pure 0
  | 1 => do
    let b ← readByte
    pure b.toNat
  | size => do
    let b ← readFull size
    -- Note: readUint is also used to decode integer values.
    if b.val.head? = some 0 then Act.fail .canonSize else pure (ofBigEndian b.val)

-- Reads the size of a value that is at least 56 bytes long. The size is returned with the error.
def readSizeOf (k : Kind) (n : Nat) : Read (Kind × Nat × Option StreamError) := fun s =>
  match readUint n s with
  | (.ok size, s)           => (.ok (k, size, if size < 56 then some .canonSize else none), s)
  | (.error (.error e), s)  => (.ok (k, 0, some e), s)
  | (.error .panic, s)      => (Go.panics, s)

def readKind : Read (Kind × Nat × Option StreamError) := fun s =>
  match readByte s with
  | (.error (.error e), s) =>
    -- At toplevel, Adjust the error to actual EOF. io.EOF is used by callers to determine when to
    -- stop decoding.
    let e := match s.stack, e with
      | [], .unexpectedEOF => .eof
      | [], .valueTooLarge => .eof
      | _,  e              => e
    (.ok (.byte, 0, some e), s)
  | (.error .panic, s) => (Go.panics, s)
  | (.ok b, s) =>
    if b.toNat < 0x80 then
      (.ok (.byte, 0, none), { s with byteval := b })
    else if b.toNat < 0xB8 then
      (.ok (.string, b.toNat - 0x80, none), { s with byteval := 0 })
    else if b.toNat < 0xC0 then
      readSizeOf .string (b.toNat - 0xB7) { s with byteval := 0 }
    else if b.toNat < 0xF8 then
      (.ok (.list, b.toNat - 0xC0, none), { s with byteval := 0 })
    else
      readSizeOf .list (b.toNat - 0xF7) { s with byteval := 0 }

-- Checks the size of the value ahead against the innermost list, or at toplevel the input.
def checkSize (s : Stream) (size : Nat) : Option StreamError :=
  match s.stack with
  | []       => if s.limited ∧ size > s.remaining then some .valueTooLarge else none
  | tos :: _ => if size > tos.left then some .elemTooLarge else none

-- Reads the header of the next value and keeps it, with the error if there is one.
def cacheKind : Read (Kind × Nat) := fun s =>
  match readKind s with
  | (.error e, s)         => (.error e, s)
  | (.ok (k, size, e), s) =>
    let e := e.or (checkSize s size)
    let s := { s with kind := some k, size := size, kinderr := e }
    match e with
    | some e => (Go.fail e, s)
    | none   => (.ok (k, size), s)

def ended (stack : List ListPos) : Bool :=
  stack.head?.any fun tos => tos.pos = tos.size

-- The kind and size of the next value. This might return a sticky error generated by an earlier
-- call.
def kindOf : Read (Kind × Nat) := fun s =>
  match s.kind with
  | some k =>
    match s.kinderr with
    | some e => (Go.fail e, s)
    | none   => (.ok (k, s.size), s)
  | none =>
    let s := { s with kinderr := none }
    -- Don't read further if we're at the end of the innermost list.
    if ended s.stack then (Go.fail .eol, s) else cacheKind s

def bytes : Read Bytes := do
  let (kind, size) ← kindOf
  match kind with
  | .byte => do
    let s ← Act.get
    rearm
    pure [s.byteval]
  | .string => do
    -- The slice must be of a length that `make` accepts.
    if size ≥ 2 ^ 63 then Act.panics else do
    let b ← readFull size
    if size = 1 ∧ b.val.headD 0 < 128 then Act.fail .canonSize else pure b.val
  | .list => Act.fail .expectedString

def readInt (size : Nat) : Read Nat := fun s =>
  match readUint size s with
  -- Adjust error because we're not reading a size right now.
  | (.error (.error .canonSize), s) => (Go.fail .canonInt, s)
  | r                               => r

def uint (maxbits : Nat) : Read Nat := do
  let (kind, size) ← kindOf
  match kind with
  | .byte => do
    let s ← Act.get
    if s.byteval = 0 then Act.fail .canonInt else do
    rearm
    pure s.byteval.toNat
  | .string =>
    if size > maxbits / 8 then Act.fail .uintOverflow else do
    let v ← readInt size
    if size > 0 ∧ v < 128 then Act.fail .canonSize else pure v
  | .list => Act.fail .expectedString

def bool : Read Bool := do
  let num ← uint 8
  match num with
  | 0 => pure false
  | 1 => pure true
  | n => Act.fail (.invalidBool n)

def list : Read Nat := do
  let (kind, size) ← kindOf
  if kind ≠ .list then Act.fail .expectedList else do
  Act.modify fun s => { s with stack := ⟨0, size⟩ :: s.stack, kind := none, size := 0 }
  pure size

def listEnd : Read Unit := fun s =>
  match s.stack with
  | []           => (Go.fail .notInList, s)
  | tos :: stack =>
    if tos.pos ≠ tos.size then
      (Go.fail .notAtEOL, s)
    else
      let stack := match stack with
        | []             => []
        | outer :: stack => outer.advance tos.size :: stack
      (.ok (), { s with stack := stack, kind := none, size := 0 })

end Stream

end Rlp
