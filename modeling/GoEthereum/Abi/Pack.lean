import GoEthereum.Vm.Arith

-- Packing the arguments of a contract's method.

namespace Abi

-- The kinds of `reflect` that are told apart.

inductive IntKind
  | int | int8 | int16 | int32 | int64
  | uint | uint8 | uint16 | uint32 | uint64
  deriving DecidableEq

inductive Kind
  | invalid
  | bool
  | num (k : IntKind)
  | string
  | array
  | slice
  | ptr
  deriving DecidableEq

def IntKind.text : IntKind → String
  | int => "int"
  | int8 => "int8"
  | int16 => "int16"
  | int32 => "int32"
  | int64 => "int64"
  | uint => "uint"
  | uint8 => "uint8"
  | uint16 => "uint16"
  | uint32 => "uint32"
  | uint64 => "uint64"

def Kind.text : Kind → String
  | invalid => "invalid"
  | bool    => "bool"
  | num k   => k.text
  | string  => "string"
  | array   => "array"
  | slice   => "slice"
  | ptr     => "ptr"

inductive GoType
  | bool
  | num (k : IntKind)
  | string
  -- `*big.Int`
  | bigInt
  | ptr (t : GoType)
  | array (n : Nat) (t : GoType)
  | slice (t : GoType)
  -- A type with a name of its own, such as `common.Address`.
  | named (name : String) (t : GoType)
  deriving DecidableEq

namespace GoType

def kind : GoType → Kind
  | bool      => .bool
  | num k     => .num k
  | string    => .string
  | bigInt    => .ptr
  | ptr _     => .ptr
  | array _ _ => .array
  | slice _   => .slice
  | named _ t => t.kind

def elem : GoType → Option GoType
  | array _ t => some t
  | slice t   => some t
  | named _ t => t.elem
  | _         => none

def text : GoType → String
  | bool       => "bool"
  | num k      => k.text
  | string     => "string"
  | bigInt     => "*big.Int"
  | ptr t      => "*" ++ t.text
  | array n t  => "[" ++ toString n ++ "]" ++ t.text
  | slice t    => "[]" ++ t.text
  | named nm _ => nm

end GoType

-- A value as `reflect` shows it. An array and a slice have a type of their own, since it is
-- looked at also when they are empty.
inductive Value
  | bool (b : Bool)
  | num (k : IntKind) (n : Int)
  | string (s : Bytes)
  | bigInt (n : Int)
  | ref (v : Value)
  | nilPtr (t : GoType)
  | list (t : GoType) (items : List Value)

namespace Value

def type : Value → GoType
  | bool _   => .bool
  | num k _  => .num k
  | string _ => .string
  | bigInt _ => .bigInt
  | ref v    => .ptr v.type
  | nilPtr t => .ptr t
  | list t _ => t

def kind (v : Value) : Kind :=
  v.type.kind

def items : Value → List Value
  | list _ items => items
  | _            => []

def toByte : Value → UInt8
  | num _ n => .ofInt n
  | _       => 0

end Value

inductive Tag
  | int | uint | bool | string | slice | address | fixedBytes | bytes | hash | fixedpoint
  deriving DecidableEq

-- A type has elements (`Elem`) if it is a slice, with no size, or an array.
inductive AbiType
  | elementary (kind : Kind) (t : Tag)
  | sequence (size : Option Nat) (elem : AbiType) (t : Tag)

namespace AbiType

def isSlice : AbiType → Bool
  | elementary _ _      => false
  | sequence size _ _   => size.isNone

def isArray : AbiType → Bool
  | elementary _ _      => false
  | sequence size _ _   => size.isSome

def sliceSize : AbiType → Int
  | elementary _ _          => 0
  | sequence none _ _       => -1
  | sequence (some n) _ _   => n

-- A sequence has the zero value of `reflect.Kind`.
def kind : AbiType → Kind
  | elementary k _ => k
  | sequence _ _ _ => .invalid

def tag : AbiType → Tag
  | elementary _ t => t
  | sequence _ _ t => t

end AbiType

def reflectIntKind (unsigned : Bool) (size : Nat) : Kind :=
  match size with
  | 8  => .num (if unsigned then .uint8 else .int8)
  | 16 => .num (if unsigned then .uint16 else .int16)
  | 32 => .num (if unsigned then .uint32 else .int32)
  | 64 => .num (if unsigned then .uint64 else .int64)
  | _  => .ptr

-- The types that `NewType` makes.

namespace AbiType

def int (size : Nat) : AbiType :=
  elementary (reflectIntKind false size) .int

def uint (size : Nat) : AbiType :=
  elementary (reflectIntKind true size) .uint

def bool : AbiType :=
  elementary .bool .bool

def address : AbiType :=
  elementary .array .address

def string : AbiType :=
  elementary .string .string

def bytes : AbiType :=
  sequence none (uint 8) .bytes

def fixedBytes (n : Nat) : AbiType :=
  sequence (some n) (uint 8) .fixedBytes

-- The tag of a list of some type is not set, and is the first one.

def slice (elem : AbiType) : AbiType :=
  sequence none elem .int

def array (n : Nat) (elem : AbiType) : AbiType :=
  sequence (some n) elem .int

end AbiType

def typeErr {α : Type} (expected got : String) : Go String α :=
  Go.fail ("abi: cannot use " ++ got ++ " as type " ++ expected ++ " as argument")

def formatSliceString (kind : Kind) (sliceSize : Int) : String :=
  if sliceSize = -1 then "[]" ++ kind.text else "[" ++ toString sliceSize ++ "]" ++ kind.text

def elemKind (val : Value) : Kind :=
  (val.type.elem.map GoType.kind).getD .invalid

def sliceTypeCheck : AbiType → Value → Go String Unit
  -- There is no `Elem` to look at.
  | .elementary k _, val =>
    if val.kind ≠ .slice ∧ val.kind ≠ .array then typeErr (formatSliceString k 0) val.type.text
    else Go.panics
  | .sequence size elem t, val =>
    let type := AbiType.sequence size elem t
    if val.kind ≠ .slice ∧ val.kind ≠ .array then
      typeErr (formatSliceString type.kind type.sliceSize) val.type.text
    else if type.isArray ∧ (val.items.length : Int) ≠ type.sliceSize then
      typeErr (formatSliceString elem.kind type.sliceSize)
        (formatSliceString (elemKind val) val.items.length)
    else
      let checkKind :=
        if elemKind val ≠ elem.kind then
          typeErr (formatSliceString elem.kind type.sliceSize) val.type.text
        else .ok ()
      if elem.isSlice then
        match val.items with
        | []     => checkKind
        | x :: _ => sliceTypeCheck elem x
      else if elem.isArray then
        match val.items with
        -- `val.Index(0)`
        | []     => Go.panics
        | x :: _ => sliceTypeCheck elem x
      else checkKind

def typeCheck (t : AbiType) (value : Value) : Go String Unit :=
  if t.isSlice ∨ t.isArray then sliceTypeCheck t value
  else if t.kind ≠ value.kind then typeErr t.kind.text value.kind.text
  else .ok ()

-- `common.LeftPadBytes` and `common.RightPadBytes`

def leftPadBytes (slice : Bytes) (l : Nat) : Bytes :=
  List.replicate (l - slice.length) 0 ++ slice

def rightPadBytes (slice : Bytes) (l : Nat) : Bytes :=
  slice ++ List.replicate (l - slice.length) 0

-- `U256` of a big integer.
def word (n : Int) : Bytes :=
  leftPadBytes (leastBigEndian (Vm.u256 n).natAbs) 32

def packNum : Value → Go String Bytes
  | .num _ n  => .ok (word n)
  | .bigInt n => .ok (word n)
  -- The assertion that the pointer is a `*big.Int` fails.
  | .ref _    => Go.panics
  | .nilPtr _ => Go.panics
  | _         => .ok []

def packBytesSlice (bytes : Bytes) (l : Nat) : Bytes :=
  word l ++ rightPadBytes bytes ((l + 31) / 32 * 32)

-- The bytes of a value. Those of an array are copied by `mustArrayToByteSlice`, for which its
-- elements have to be of the type `byte` itself.
def byteSlice (v : Value) : Go String Bytes :=
  if v.kind = .array then
    if v.type.elem = some (.num .uint8) then .ok (v.items.map Value.toByte) else Go.panics
  else if v.kind = .slice ∧ elemKind v = .num .uint8 then .ok (v.items.map Value.toByte)
  else Go.panics

def packElement (t : Tag) (v : Value) : Go String Bytes :=
  match t with
  | .int | .uint => packNum v
  | .string      =>
    match v with
    | .string s => .ok (packBytesSlice s s.length)
    | _         => Go.panics
  | .address     => do
    let b ← byteSlice v
    pure (leftPadBytes b 32)
  | .bool        =>
    match v with
    | .bool b => .ok (leftPadBytes (leastBigEndian (if b then 1 else 0)) 32)
    | _       => Go.panics
  | .bytes       => do
    let b ← byteSlice v
    pure (packBytesSlice b v.items.length)
  | .fixedBytes  => do
    let b ← byteSlice v
    pure (rightPadBytes b 32)
  -- "abi: fatal error"
  | .slice | .hash | .fixedpoint => Go.panics

-- Follows pointers up to a `*big.Int`.
def indirect : Value → Go String Value
  | .ref v    => indirect v
  | .nilPtr _ => Go.panics
  | v         => .ok v

def AbiType.pack : AbiType → Value → Go String Bytes
  | .elementary k t, v => do
    let v ← indirect v
    typeCheck (.elementary k t) v
    packElement t v
  | .sequence size elem t, v => do
    let v ← indirect v
    typeCheck (.sequence size elem t) v
    if t ≠ .bytes ∧ t ≠ .fixedBytes then
      let packed ← v.items.foldlM (fun packed x => do
        let val ← elem.pack x
        pure (packed ++ val)) []
      pure (if size.isNone then packBytesSlice packed v.items.length else packed)
    else packElement t v

def AbiType.requiresLengthPrefix (t : AbiType) : Bool :=
  t.tag ≠ .fixedBytes ∧ (t.tag = .string ∨ t.tag = .bytes ∨ t.isSlice)

structure Method where
  name   : String
  inputs : List AbiType

-- Fails with the name of the method before the text.
def Method.wrap {α : Type} (m : Method) : Go String α → Go String α
  | .error (.error e) => Go.fail ("`" ++ m.name ++ "` " ++ e)
  | x                 => x

-- One round of the loop, on the packed input and the variable input.
def Method.packArg (m : Method) (acc : Bytes × Bytes) (input : AbiType × Value) :
    Go String (Bytes × Bytes) := do
  let packed ← m.wrap (input.fst.pack input.snd)
  if input.fst.requiresLengthPrefix then
    let offset := m.inputs.length * 32 + acc.snd.length
    pure (acc.fst ++ word offset, acc.snd ++ packed)
  else
    pure (acc.fst ++ packed, acc.snd)

def Method.pack (m : Method) (args : List Value) : Go String Bytes :=
  if args.length ≠ m.inputs.length then
    Go.fail ("argument count mismatch: " ++ toString args.length ++ " for " ++
      toString m.inputs.length)
  else do
    let acc ← (m.inputs.zip args).foldlM m.packArg ([], [])
    pure (acc.fst ++ acc.snd)

end Abi
