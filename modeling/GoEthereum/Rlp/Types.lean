import GoEthereum.Rlp.Encode

-- The types that can be encoded and decoded, and their values.

namespace Rlp

structure Tags where
  nilOK : Bool
  tail  : Bool
  deriving DecidableEq, Repr

def Tags.none : Tags :=
  ⟨false, false⟩

theorem Tags.none_tail {P : Prop} (h : Tags.none.tail = true) : P := by
  cases h

-- The sizes of unsigned integers. `uint` and `uintptr` have 64 bits.
inductive Width
  | w8
  | w16
  | w32
  | w64
  deriving DecidableEq, Repr

def Width.bits : Width → Nat
  | w8  => 8
  | w16 => 16
  | w32 => 32
  | w64 => 64

mutual

-- Slices and arrays of bytes and `big.Int` are types of their own, as their encoding differs.
-- `interface` is the empty interface.
inductive Ty
  | uint      (width : Width)
  | bool
  | bigInt
  | bigIntPtr
  | string
  | byteSlice
  | byteArray (len : Nat)
  | slice     (elem : Ty)
  | array     (len : Nat) (elem : Ty)
  | struct    (fields : Fields)
  | ptr       (elem : Ty)
  | interface

inductive Fields
  | nil
  | cons (name : String) (tags : Tags) (type : Ty) (rest : Fields)

end

mutual

-- A nil slice is an empty one. Of an interface type there are the values that the decoder stores.
def Ty.Val : Ty → Type
  | .uint width    => Fin (2 ^ width.bits)
  | .bool          => Bool
  | .bigInt        => Int
  | .bigIntPtr     => Option Int
  | .string        => Bytes
  | .byteSlice     => Bytes
  | .byteArray len => { b : Bytes // b.length = len }
  | .slice elem    => List elem.Val
  | .array len e   => { xs : List e.Val // xs.length = len }
  | .struct fields => fields.Val
  | .ptr elem      => Option elem.Val
  | .interface     => Option Item

def Fields.Val : Fields → Type
  | .nil                => Unit
  | .cons _ _ type rest => type.Val × rest.Val

end

mutual

def Ty.zero : (T : Ty) → T.Val
  | .uint width    => (⟨0, Nat.two_pow_pos _⟩ : Fin (2 ^ width.bits))
  | .bool          => false
  | .bigInt        => (0 : Int)
  | .bigIntPtr     => (none : Option Int)
  | .string        => ([] : Bytes)
  | .byteSlice     => ([] : Bytes)
  | .byteArray len => ⟨List.replicate len 0, List.length_replicate⟩
  | .slice elem    => ([] : List elem.Val)
  | .array len e   => ⟨List.replicate len e.zero, List.length_replicate⟩
  | .struct fields => fields.zero
  | .ptr elem      => (none : Option elem.Val)
  | .interface     => (none : Option Item)

def Fields.zero : (fs : Fields) → fs.Val
  | .nil                => ()
  | .cons _ _ type rest => (type.zero, rest.zero)

end

inductive TagError
  | notLast  (name : String)
  | notSlice (name : String)
  deriving DecidableEq, Repr

def Ty.isSlice : Ty → Bool
  | .byteSlice => true
  | .slice _   => true
  | _         => false

def Fields.isNil : Fields → Bool
  | .nil      => true
  | .cons ..  => false

-- What is checked of a struct tag once it is parsed.
def checkTags (name : String) (tags : Tags) (type : Ty) (last : Bool) : Except TagError Unit :=
  if tags.tail ∧ ¬last then
    .error (.notLast name)
  else if tags.tail ∧ ¬type.isSlice then
    .error (.notSlice name)
  else
    pure ()

mutual

-- `cachedTypeInfo` fails on a type with a tag that is out of place.
def Ty.check : Ty → Except TagError Unit
  | .slice elem    => elem.check
  | .array _ elem  => elem.check
  | .struct fields => fields.check
  | .ptr elem      => elem.check
  | _             => pure ()

def Fields.check : Fields → Except TagError Unit
  | .nil                      => pure ()
  | .cons name tags type rest => do
    checkTags name tags type rest.isNil
    type.check
    rest.check

end

end Rlp
