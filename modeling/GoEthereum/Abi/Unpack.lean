import GoEthereum.Abi.Pack

-- Reading the values that a method of a contract returns.

namespace Abi

-- An integer in two's complement of some width.
def toSigned (w : Nat) (n : Int) : Int :=
  (n + 2 ^ (w - 1)) % 2 ^ w - 2 ^ (w - 1)

-- An `int` has 64 bits.
def goInt (n : Int) : Int :=
  toSigned 64 n

-- `Uint64` of the number that some bytes make.
def low64 (b : Bytes) : Nat :=
  ofBigEndian b % 2 ^ 64

-- The conversions of a big integer that `toGoType` makes.
def IntKind.convert : IntKind → Bytes → Option Int
  | uint8,  b => some (low64 b % 2 ^ 8 : Nat)
  | uint16, b => some (low64 b % 2 ^ 16 : Nat)
  | uint32, b => some (low64 b % 2 ^ 32 : Nat)
  | uint64, b => some (low64 b)
  | int8,   b => some (toSigned 8 (goInt (low64 b)))
  | int16,  b => some (toSigned 16 (goInt (low64 b)))
  | int32,  b => some (toSigned 32 (goInt (low64 b)))
  | int64,  b => some (goInt (low64 b))
  | _,      _ => none

def addressType : GoType :=
  .named "common.Address" (.array 20 (.num .uint8))

def hashType : GoType :=
  .named "common.Hash" (.array 32 (.num .uint8))

def bytesType : GoType :=
  .slice (.num .uint8)

def byteItems (b : Bytes) : List Value :=
  b.map fun c => .num .uint8 c.toNat

def bytesToBig (b : Bytes) : Value :=
  .bigInt (ofBigEndian b)

def bytesToBool (b : Bytes) : Value :=
  .bool (0 < low64 b)

-- `common.BytesToAddress` and `common.BytesToHash`
def bytesToArray (t : GoType) (n : Nat) (b : Bytes) : Value :=
  .list t (byteItems (leftPadBytes (b.drop (b.length - n)) n))

-- `b[low:high]`. What would be read between the length and the capacity is outside of `b`.
def reslice (b : Bytes) (low high : Int) : Go String Bytes :=
  if 0 ≤ low ∧ low ≤ high ∧ high ≤ b.length then .ok ((b.drop low.toNat).take (high - low).toNat)
  else Go.panics

-- `int(common.BytesToBig(b).Uint64())`
def bytesToInt (b : Bytes) : Int :=
  goInt (low64 b)

def short {α : Type} (into : String) (output : Slice) (require : Int) : Go String α :=
  Go.fail ("abi: cannot marshal in to go " ++ into ++ " " ++ toString output.val.length ++
    " require " ++ toString require)

def overBoundary {α : Type} (into : String) (output : Slice) (stop : Int) : Go String α :=
  Go.fail ("abi: cannot marshal in to go " ++ into ++ ": offset " ++ toString output.val.length ++
    " would go over slice boundary (len=" ++ toString stop ++ ")")

-- The type of the elements of the slice that is made, by the type of the elements in the ABI.
def refElem : Tag → Option GoType
  | .int | .uint | .bool => some .bigInt
  | .address             => some addressType
  | .hash                => some hashType
  | .fixedBytes          => some bytesType
  | _                    => none

def toGoElem (t : Tag) (returnOutput : Bytes) : Value :=
  match t with
  | .int | .uint => bytesToBig returnOutput
  | .bool        => bytesToBool returnOutput
  | .address     => bytesToArray addressType 20 returnOutput
  | .hash        => bytesToArray hashType 32 returnOutput
  | _            => .list bytesType (byteItems returnOutput)

-- The loop, with the rounds that are left. `reflect.Append` panics for a value of another type.
def toGoItems (t : Tag) (ref : GoType) (slice : Bytes) : Nat → Nat → Go String (List Value)
  | 0,     _ => .ok []
  | n + 1, i => do
    let returnOutput ← reslice slice (goInt (i * 32)) (goInt (goInt (i * 32) + 32))
    if (toGoElem t returnOutput).type ≠ ref then Go.panics
    else do
      let items ← toGoItems t ref slice n (i + 1)
      pure (toGoElem t returnOutput :: items)

-- The elements, if there are as many as the size says.
def sizedItems (offset size : Int) (slice : Bytes) (output : Slice) : Go String (Bytes × Int) :=
  if slice.length < goInt (size * 32) then
    short "slice: insufficient size output" output (goInt (offset + 32 + size * 32))
  else do
    let slice ← reslice slice 0 (goInt (size * 32))
    pure (slice, size)

-- What is written at an offset: the number of the elements, and then the elements.
def sliceItems (offset : Int) (output : Slice) : Go String (Bytes × Int) :=
  if output.val.length < goInt (offset + 32) then
    overBoundary "slice" output (goInt (offset + 32))
  else do
    let slice ← reslice output.val offset output.val.length
    let length ← reslice slice 0 32
    let slice ← reslice slice 32 slice.length
    sizedItems offset (bytesToInt length) slice output

def arrayItems (index size : Int) (output : Slice) : Go String (Bytes × Int) :=
  if output.val.length < goInt (index + 32 * size) then
    overBoundary "array" output (goInt (index + 32 * size))
  else do
    let slice ← reslice output.val index (goInt (index + size * 32))
    pure (slice, size)

def toGoList (t : Tag) (ref : GoType) (data : Bytes × Int) : Go String Value := do
  let items ← toGoItems t ref data.fst data.snd.toNat 0
  pure (.list (.slice ref) items)

def toGoSlice (i : Int) (size : Option Nat) (elem : AbiType) (output : Slice) : Go String Value :=
  let index := goInt (i * 32)
  if output.val.length < goInt (index + 32) then
    short "slice: insufficient size output" output (goInt (index + 32))
  else
    match refElem elem.tag, size with
    | none,     _      => Go.fail ("abi: unsupported slice type " ++ toString elem.tag.ctorIdx)
    | some ref, none   => do
      let word ← reslice output.val index (goInt (index + 32))
      let data ← sliceItems (bytesToInt word) output
      toGoList elem.tag ref data
    | some ref, some n => do
      let data ← arrayItems index n output
      toGoList elem.tag ref data

-- What is written at an offset: its size, and then as many bytes.
def dataOutput (offset : Int) (output : Slice) : Go String Bytes :=
  if output.val.length < goInt (offset + 32) then
    short "type: length insufficient" output (goInt (offset + 32))
  else do
    let length ← reslice output.val offset (goInt (offset + 32))
    let size := bytesToInt length
    if output.val.length < goInt (offset + 32 + size) then
      short "type: length insufficient" output (goInt (offset + 32 + size))
    else reslice output.val (goInt (offset + 32)) (goInt (offset + 32 + size))

-- The bytes that are converted. Variable arrays are written at the end of the output.
def returnOutput (i : Int) (t : Tag) (output : Slice) : Go String Bytes :=
  let index := goInt (i * 32)
  if output.val.length < goInt (index + 32) then
    short "type: length insufficient" output (goInt (index + 32))
  else do
    let word ← reslice output.val index (goInt (index + 32))
    if t = .string ∨ t = .bytes then dataOutput (bytesToInt word) output
    else pure word

def unknownType (t : Tag) : Go String Value :=
  Go.fail ("abi: unknown type " ++ toString t.ctorIdx)

def convertOutput (kind : Kind) (t : Tag) (b : Bytes) : Go String Value :=
  match t with
  | .int | .uint =>
    match kind with
    | .num k => ((k.convert b).map fun n => .ok (.num k n)).getD (unknownType t)
    | .ptr   => .ok (bytesToBig b)
    | _      => unknownType t
  | .bool                 => .ok (bytesToBool b)
  | .address              => .ok (bytesToArray addressType 20 b)
  | .hash                 => .ok (bytesToArray hashType 32 b)
  | .bytes | .fixedBytes  => .ok (.list bytesType (byteItems b))
  | .string               => .ok (.string b)
  | .slice | .fixedpoint  => unknownType t

def toGoSingle (i : Int) (t : AbiType) (output : Slice) : Go String Value := do
  let b ← returnOutput i t.tag output
  convertOutput t.kind t.tag b

def Tag.IsData (t : Tag) : Prop :=
  t = .bytes ∨ t = .string ∨ t = .fixedBytes

instance Tag.decidableIsData : DecidablePred Tag.IsData :=
  fun _ => inferInstanceAs (Decidable (_ ∨ _))

def toGoType (i : Int) (t : AbiType) (output : Slice) : Go String Value :=
  match t with
  | .sequence size elem tag =>
    if tag.IsData then toGoSingle i (.sequence size elem tag) output
    else toGoSlice i size elem output
  | .elementary kind tag => toGoSingle i (.elementary kind tag) output

variable {i : Int} {size : Option Nat} {elem : AbiType} {t : Tag} {output : Slice}

theorem toGoType_data (h : t.IsData) :
    toGoType i (.sequence size elem t) output = toGoSingle i (.sequence size elem t) output := by
  rw [toGoType, if_pos h]

theorem toGoType_list (h : ¬ t.IsData) :
    toGoType i (.sequence size elem t) output = toGoSlice i size elem output := by
  rw [toGoType, if_neg h]

end Abi
