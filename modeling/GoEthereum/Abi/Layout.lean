import GoEthereum.Abi.Pack
import GoEthereum.Lib.HeadTail

-- The layout that the contract ABI gives to the arguments of a call, and what `Method.pack` makes
-- of it.

namespace Abi

open HeadTail (Part)

-- The types that take one word, with the values they have.

inductive Scalar
  | int (size : Nat)
  | uint (size : Nat)
  | bool
  | address
  | bytes (n : Nat)

def Scalar.Val : Scalar → Type
  | int _   => Int
  | uint _  => Int
  | bool    => Bool
  | address => { b : Bytes // b.length = 20 }
  | bytes n => { b : Bytes // b.length = n ∧ n ≤ 32 }

inductive ArgType
  | scalar (s : Scalar)
  | string
  | bytes
  | slice (elem : Scalar)
  | array (n : Nat) (elem : Scalar)

def ArgType.Val : ArgType → Type
  | scalar s     => s.Val
  | string       => Bytes
  | bytes        => Bytes
  | slice elem   => List elem.Val
  | array n elem => { l : List elem.Val // l.length = n }

-- Two's complement in 32 bytes.
def number (n : Int) : Bytes :=
  bigEndian 32 (n % 2 ^ 256).natAbs

def Scalar.encode : (s : Scalar) → s.Val → Bytes
  | int _,   n => number n
  | uint _,  n => number n
  | bool,    b => number (cond b 1 0)
  | address, a => List.replicate 12 0 ++ a.val
  | bytes n, b => b.val ++ List.replicate (32 - n) 0

def padded (b : Bytes) : Bytes :=
  b ++ List.replicate ((32 - b.length % 32) % 32) 0

-- An argument of a dynamic type stands in the tail, with its length before it.
def ArgType.part : (t : ArgType) → t.Val → Part
  | scalar s,     x => .inline (s.encode x)
  | string,       b => .away (number b.length ++ padded b)
  | bytes,        b => .away (number b.length ++ padded b)
  | slice elem,   l => .away (number l.length ++ l.flatMap elem.encode)
  | array _ elem, l => .inline (l.val.flatMap elem.encode)

-- How many words of the head a type takes.
def ArgType.words : ArgType → Nat
  | array n _ => n
  | _         => 1

def ArgType.Dynamic : ArgType → Prop
  | string  => True
  | bytes   => True
  | slice _ => True
  | _       => False

-- A value of the ABI with its type.
abbrev Datum := Σ t : ArgType, t.Val

def Datum.part (x : Datum) : Part :=
  x.fst.part x.snd

def Scalar.type : Scalar → AbiType
  | int size  => .int size
  | uint size => .uint size
  | bool      => .bool
  | address   => .address
  | bytes n   => .fixedBytes n

def ArgType.type : ArgType → AbiType
  | scalar s     => s.type
  | string       => .string
  | bytes        => .bytes
  | slice elem   => .slice elem.type
  | array n elem => .array n elem.type

def IsSequence (k : Kind) : Prop :=
  k = .slice ∨ k = .array

-- The types of Go for a scalar.
def Scalar.Accepts : Scalar → GoType → Prop
  | int size,  t => t.kind = reflectIntKind false size
  | uint size, t => t.kind = reflectIntKind true size
  | bool,      t => t.kind = .bool
  | address,   t => t.kind = .array ∧ t.elem = some (.num .uint8)
  | bytes _,   t => IsSequence t.kind ∧ t.elem = some (.num .uint8)

-- The values of Go for a value of the ABI.

def IsNumber (k : Kind) (n : Int) (v : Value) : Prop :=
  (∃ i, k = .num i ∧ v = .num i n) ∨ (k = .ptr ∧ v = .bigInt n)

structure IsBytes (b : Bytes) (v : Value) : Prop where
  kind  : IsSequence v.kind
  elem  : v.type.elem = some (.num .uint8)
  items : v.items.map Value.toByte = b

def Scalar.Represents : (s : Scalar) → s.Val → Value → Prop
  | int size,  n, v => IsNumber (reflectIntKind false size) n v
  | uint size, n, v => IsNumber (reflectIntKind true size) n v
  | bool,      b, v => v = .bool b
  | address,   a, v => v.kind = .array ∧ IsBytes a.val v
  | bytes _,   b, v => IsBytes b.val v

structure IsList (elem : Scalar) (l : List elem.Val) (v : Value) : Prop where
  kind  : IsSequence v.kind
  type  : ∃ t, v.type.elem = some t ∧ elem.Accepts t
  items : List.Forall₂ elem.Represents l v.items

def ArgType.Represents : (t : ArgType) → t.Val → Value → Prop
  | scalar s,     x, v => s.Represents x v
  | string,       b, v => v = .string b
  | bytes,        b, v => IsBytes b v
  | slice elem,   l, v => IsList elem l v
  | array _ elem, l, v => IsList elem l.val v

-- A pointer to a value stands for the value.
def Datum.Matches (x : Datum) (v : Value) : Prop :=
  ∃ w, indirect v = .ok w ∧ x.fst.Represents x.snd w

-- No elements of a type that is a sequence of bytes itself.
def ArgType.NoBytes : (t : ArgType) → t.Val → Prop
  | slice (.bytes _),   l => l = []
  | array _ (.bytes _), l => l.val = []
  | _,                  _ => False

def Datum.NoBytes (x : Datum) : Prop :=
  x.fst.NoBytes x.snd

theorem length_number (n : Int) : (number n).length = 32 :=
  bigEndian_length ..

theorem natAbs_u256_lt (n : Int) : (n % 2 ^ 256).natAbs < 256 ^ 32 := by
  have hp : (256 : Nat) ^ 32 = 2 ^ 256 := by norm_num
  omega

theorem leftPadBytes_least {n : Nat} (h : n < 256 ^ 32) :
    leftPadBytes (leastBigEndian n) 32 = bigEndian 32 n :=
  zeros_append_leastBigEndian h

theorem word_eq (n : Int) : word n = number n := by
  rw [word, Vm.u256_eq, leftPadBytes_least (natAbs_u256_lt n), number]

theorem number_natCast {n : Nat} (h : n < 2 ^ 256) : number n = bigEndian 32 n := by
  rw [number, Int.emod_eq_of_lt (Int.natCast_nonneg n) (by exact_mod_cast h), Int.natAbs_natCast]

theorem number_injective {m n : Nat} (hm : m < 2 ^ 256) (hn : n < 2 ^ 256)
    (h : number m = number n) : m = n := by
  have hp : (256 : Nat) ^ 32 = 2 ^ 256 := by norm_num
  rw [number_natCast hm, number_natCast hn] at h
  have := congrArg ofBigEndian h
  rwa [ofBigEndian_bigEndian, ofBigEndian_bigEndian, hp, Nat.mod_eq_of_lt hm,
    Nat.mod_eq_of_lt hn] at this

theorem Scalar.length_encode (s : Scalar) (x : s.Val) : (s.encode x).length = 32 := by
  cases s
  case int     => exact length_number x
  case uint    => exact length_number x
  case bool    => exact length_number _
  case address =>
    rw [encode, List.length_append, List.length_replicate, x.property]
  case bytes n =>
    obtain ⟨hl, hn⟩ := x.property
    rw [encode, List.length_append, List.length_replicate]
    omega

theorem length_flatMap_encode (elem : Scalar) (l : List elem.Val) :
    (l.flatMap elem.encode).length = 32 * l.length := by
  induction l
  case nil => rfl
  case cons x l hi =>
    rw [List.flatMap_cons, List.length_append, elem.length_encode, List.length_cons]
    omega

theorem Datum.headSize_part (x : Datum) : x.part.headSize 32 = 32 * x.fst.words := by
  obtain ⟨t, x⟩ := x
  cases t
  case scalar s     => exact s.length_encode x
  case string       => rfl
  case bytes        => rfl
  case slice        => rfl
  case array n elem =>
    rw [part, ArgType.part, Part.headSize, length_flatMap_encode, x.property]
    rfl

section

variable {v : Value} {b : Bytes}

theorem rightPadBytes_length (b : Bytes) :
    rightPadBytes b ((b.length + 31) / 32 * 32) = padded b := by
  rw [rightPadBytes]
  congr 2
  omega

theorem packBytesSlice_length (b : Bytes) :
    packBytesSlice b b.length = number b.length ++ padded b := by
  rw [packBytesSlice, word_eq, rightPadBytes_length]

theorem packBytesSlice_words {l : Nat} (h : b.length = 32 * l) :
    packBytesSlice b l = number l ++ b := by
  have hz : (l + 31) / 32 * 32 - b.length = 0 := by omega
  rw [packBytesSlice, word_eq, rightPadBytes, hz, List.replicate_zero, List.append_nil]

theorem indirect_of_kind (h : v.kind ≠ .ptr) : indirect v = .ok v := by
  cases v
  case ref    => exact absurd rfl h
  case nilPtr => exact absurd rfl h
  all_goals rfl

theorem IsSequence.ne_ptr (h : IsSequence v.kind) : v.kind ≠ .ptr := by
  intro hp
  rw [hp] at h
  obtain h | h := h <;> cases h

theorem IsSequence.not_not (h : IsSequence v.kind) : ¬ (v.kind ≠ .slice ∧ v.kind ≠ .array) := by
  intro hn
  obtain h | h := h
  · exact hn.left h
  · exact hn.right h

theorem IsBytes.length (h : IsBytes b v) : v.items.length = b.length := by
  rw [← h.items, List.length_map]

theorem IsBytes.elemKind (h : IsBytes b v) : elemKind v = .num .uint8 := by
  rw [Abi.elemKind, h.elem]
  rfl

theorem IsBytes.byteSlice (h : IsBytes b v) : byteSlice v = .ok b := by
  rw [Abi.byteSlice]
  obtain hk | hk := h.kind
  · rw [if_neg (by rw [hk]; decide), if_pos ⟨hk, h.elemKind⟩, h.items]
  · rw [if_pos hk, if_pos h.elem, h.items]

variable {t : Tag} {k : Kind} {n : Int}

theorem IsBytes.sliceTypeCheck {size : Option Nat} (h : IsBytes b v)
    (hs : ∀ n, size = some n → b.length = n) :
    sliceTypeCheck (.sequence size (.uint 8) t) v = .ok () := by
  have hl : ¬ ((AbiType.sequence size (.uint 8) t).isArray ∧
      (v.items.length : Int) ≠ (AbiType.sequence size (.uint 8) t).sliceSize) := by
    cases size
    case none   => simp [AbiType.isArray]
    case some n => simp [AbiType.sliceSize, h.length, hs n rfl]
  rw [Abi.sliceTypeCheck]
  simp only [if_neg h.kind.not_not, if_neg hl]
  simp [AbiType.uint, AbiType.isSlice, AbiType.isArray, AbiType.kind, reflectIntKind, h.elemKind]

theorem IsNumber.indirect (h : IsNumber k n v) : indirect v = .ok v := by
  obtain ⟨i, -, rfl⟩ | ⟨-, rfl⟩ := h <;> rfl

theorem IsNumber.kind (h : IsNumber k n v) : v.kind = k := by
  obtain ⟨i, rfl, rfl⟩ | ⟨rfl, rfl⟩ := h <;> rfl

theorem IsNumber.packNum (h : IsNumber k n v) :
    packNum v = .ok (number n) := by
  obtain ⟨i, -, rfl⟩ | ⟨-, rfl⟩ := h <;> rw [Abi.packNum, word_eq]

theorem pack_elementary (hi : indirect v = .ok v) (hk : v.kind = k) :
    (AbiType.elementary k t).pack v = packElement t v := by
  rw [AbiType.pack, hi, Go.ok_bind, typeCheck, if_neg (by simp [AbiType.isSlice, AbiType.isArray]),
    if_neg (by simp [AbiType.kind, hk])]
  rfl

theorem pack_byteSequence {size : Option Nat} (h : IsBytes b v)
    (ht : t = .bytes ∨ t = .fixedBytes) (hs : ∀ n, size = some n → b.length = n) :
    (AbiType.sequence size (.uint 8) t).pack v = packElement t v := by
  have hq : (AbiType.sequence size (.uint 8) t).isSlice ∨
      (AbiType.sequence size (.uint 8) t).isArray := by
    cases size <;> simp [AbiType.isSlice, AbiType.isArray]
  rw [AbiType.pack, indirect_of_kind h.kind.ne_ptr, Go.ok_bind, typeCheck, if_pos hq,
    h.sliceTypeCheck hs, Go.ok_bind, if_neg]
  intro hn
  obtain ht | ht := ht
  · exact hn.left ht
  · exact hn.right ht

theorem IsBytes.pack_bytes (h : IsBytes b v) :
    AbiType.bytes.pack v = .ok (number b.length ++ padded b) := by
  refine (pack_byteSequence h (.inl rfl) (by intro n hn; cases hn)).trans ?_
  rw [packElement, h.byteSlice, Go.ok_bind, h.length, packBytesSlice_length]
  rfl

theorem Scalar.pack_eq {s : Scalar} {x : s.Val} (h : s.Represents x v) :
    s.type.pack v = .ok (s.encode x) := by
  cases s
  case int size  => exact (pack_elementary (IsNumber.indirect h) (IsNumber.kind h)).trans
                      (IsNumber.packNum h)
  case uint size => exact (pack_elementary (IsNumber.indirect h) (IsNumber.kind h)).trans
                      (IsNumber.packNum h)
  case bool =>
    obtain rfl : v = .bool x := h
    refine (pack_elementary rfl rfl).trans (congrArg Except.ok ?_)
    rw [leftPadBytes_least (by cases x <;> norm_num)]
    cases x <;> rfl
  case address =>
    obtain ⟨hk, hb⟩ := h
    refine (pack_elementary (indirect_of_kind hb.kind.ne_ptr) hk).trans ?_
    rw [packElement, hb.byteSlice, Go.ok_bind]
    rw [leftPadBytes, x.property]
    rfl
  case bytes n =>
    have hb : IsBytes x.val v := h
    obtain ⟨hl, -⟩ := x.property
    refine (pack_byteSequence hb (.inr rfl) (by intro m hm; cases hm; exact hl)).trans ?_
    rw [packElement, hb.byteSlice, Go.ok_bind]
    rw [rightPadBytes, hl]
    rfl

theorem foldlM_pack {elem : Scalar} {l : List elem.Val} {items : List Value}
    (h : List.Forall₂ elem.Represents l items) (packed : Bytes) :
    items.foldlM (fun packed x => do
        let val ← elem.type.pack x
        pure (packed ++ val)) packed =
      (.ok (packed ++ l.flatMap elem.encode) : Go String Bytes) := by
  induction h generalizing packed
  case nil => simp [pure, Except.pure]
  case cons x v l items hx _ hi =>
    rw [List.foldlM_cons, Scalar.pack_eq hx]
    refine (hi _).trans ?_
    rw [List.flatMap_cons, List.append_assoc]

variable {elem : Scalar} {l : List elem.Val} {size : Option Nat}

theorem Scalar.isArray_type_iff : elem.type.isArray ↔ ∃ n, elem = .bytes n := by
  cases elem <;> simp [Scalar.type, AbiType.int, AbiType.uint, AbiType.bool, AbiType.address,
    AbiType.fixedBytes, AbiType.isArray]

theorem Scalar.isSlice_type : elem.type.isSlice = false := by
  cases elem <;> rfl

theorem Scalar.Accepts.kind {t : GoType} (h : elem.Accepts t) (hb : ¬ elem.type.isArray) :
    t.kind = elem.type.kind := by
  cases elem
  case int     => exact h
  case uint    => exact h
  case bool    => exact h
  case address => exact h.left
  case bytes   => exact absurd rfl hb

theorem IsList.length (h : IsList elem l v) : v.items.length = l.length :=
  h.items.length_eq.symm

theorem IsList.sliceTypeCheck (h : IsList elem l v) (hs : ∀ n, size = some n → l.length = n) :
    sliceTypeCheck (.sequence size elem.type .int) v =
      if elem.type.isArray ∧ l = [] then Go.panics else .ok () := by
  have hl : ¬ ((AbiType.sequence size elem.type .int).isArray ∧
      (v.items.length : Int) ≠ (AbiType.sequence size elem.type .int).sliceSize) := by
    cases size
    case none   => simp [AbiType.isArray]
    case some n => simp [AbiType.sliceSize, h.length, hs n rfl]
  rw [Abi.sliceTypeCheck]
  simp only [if_neg h.kind.not_not, if_neg hl, Scalar.isSlice_type, Bool.false_eq_true, if_false]
  by_cases ha : elem.type.isArray
  case neg =>
    obtain ⟨t, ht, hacc⟩ := h.type
    have hk : elemKind v = elem.type.kind := by
      rw [elemKind, ht]
      exact hacc.kind ha
    simp [ha, hk]
  case pos =>
    obtain ⟨n, rfl⟩ := Scalar.isArray_type_iff.mp ha
    have hi := h.items
    simp only [ha, if_true, true_and]
    cases hv : v.items
    case nil =>
      rw [hv] at hi
      cases hi
      rfl
    case cons w items =>
      rw [hv] at hi
      cases hi
      case cons x l hx _ =>
        obtain ⟨hx', -⟩ := x.property
        exact IsBytes.sliceTypeCheck hx (by intro m hm; cases hm; exact hx')

theorem IsList.pack (h : IsList elem l v) (hs : ∀ n, size = some n → l.length = n) :
    (AbiType.sequence size elem.type .int).pack v =
      if elem.type.isArray ∧ l = [] then Go.panics
      else .ok (if size.isNone then number l.length ++ l.flatMap elem.encode
        else l.flatMap elem.encode) := by
  have hq : (AbiType.sequence size elem.type .int).isSlice ∨
      (AbiType.sequence size elem.type .int).isArray := by
    cases size <;> simp [AbiType.isSlice, AbiType.isArray]
  rw [AbiType.pack, indirect_of_kind h.kind.ne_ptr, Go.ok_bind, typeCheck, if_pos hq,
    h.sliceTypeCheck hs]
  by_cases he : elem.type.isArray ∧ l = []
  case pos =>
    rw [if_pos he, if_pos he]
    rfl
  case neg =>
    rw [if_neg he, if_neg he, Go.ok_bind, foldlM_pack h.items, Go.ok_bind,
      List.nil_append, h.length, packBytesSlice_words (length_flatMap_encode elem l)]
    rfl

end

theorem ArgType.noBytes_slice {elem : Scalar} {l : List elem.Val} :
    (slice elem).NoBytes l ↔ elem.type.isArray ∧ l = [] := by
  cases elem
  case bytes n => exact (and_iff_right rfl).symm
  all_goals simp [NoBytes, Scalar.type, AbiType.int, AbiType.uint, AbiType.bool, AbiType.address,
    AbiType.isArray]

theorem ArgType.noBytes_array {n : Nat} {elem : Scalar} {l : (array n elem).Val} :
    (array n elem).NoBytes l ↔ elem.type.isArray ∧ l.val = [] := by
  cases elem
  case bytes n => exact (and_iff_right rfl).symm
  all_goals simp [NoBytes, Scalar.type, AbiType.int, AbiType.uint, AbiType.bool, AbiType.address,
    AbiType.isArray]

-- The bytes of a part, in whichever place it stands.
def bytesOf : Part → Bytes
  | .inline data => data
  | .away data   => data

theorem ArgType.pack_eq {t : ArgType} {x : t.Val} {v : Value} (h : t.Represents x v) :
    (t.NoBytes x → t.type.pack v = Go.panics) ∧
      (¬ t.NoBytes x → t.type.pack v = .ok (bytesOf (t.part x))) := by
  cases t
  case scalar s => exact ⟨False.elim, fun _ => Scalar.pack_eq h⟩
  case string =>
    obtain rfl : v = .string x := h
    refine ⟨False.elim, fun _ => (pack_elementary rfl rfl).trans ?_⟩
    exact congrArg Except.ok (packBytesSlice_length x)
  case bytes =>
    have hb : IsBytes x v := h
    exact ⟨False.elim, fun _ => hb.pack_bytes⟩
  case slice elem =>
    have hp := @IsList.pack v elem x none h (by intro m hm; cases hm)
    exact ⟨fun he => hp.trans (if_pos (noBytes_slice.mp he)),
      fun he => hp.trans (if_neg fun hn => he (noBytes_slice.mpr hn))⟩
  case array n elem =>
    have hp := @IsList.pack v elem x.val (some n) h (by intro m hm; cases hm; exact x.property)
    exact ⟨fun he => hp.trans (if_pos (noBytes_array.mp he)),
      fun he => hp.trans (if_neg fun hn => he (noBytes_array.mpr hn))⟩

theorem indirect_indirect {v w : Value} (h : indirect v = .ok w) : indirect w = .ok w := by
  fun_induction indirect v
  case case1 v hi => exact hi h
  case case2      => cases h
  case case3 v hr hn =>
    cases h
    exact indirect.eq_3 _ hr hn

theorem pack_indirect {t : AbiType} {v w : Value} (h : indirect v = .ok w) :
    t.pack v = t.pack w := by
  have hw := indirect_indirect h
  cases t <;> rw [AbiType.pack, AbiType.pack, h, hw]

theorem Datum.requiresLengthPrefix (x : Datum) :
    x.fst.type.requiresLengthPrefix = true ↔ ∃ b, x.part = .away b := by
  obtain ⟨t, x⟩ := x
  cases t
  case scalar s     => cases s <;> simp [part, ArgType.part, ArgType.type, Scalar.type, AbiType.int,
    AbiType.uint, AbiType.bool, AbiType.address, AbiType.fixedBytes, AbiType.requiresLengthPrefix,
    AbiType.tag, AbiType.isSlice]
  case string       => exact iff_of_true rfl ⟨_, rfl⟩
  case bytes        => exact iff_of_true rfl ⟨_, rfl⟩
  case slice elem   => exact iff_of_true rfl ⟨_, rfl⟩
  case array n elem => simp [part, ArgType.part, ArgType.type, AbiType.array,
    AbiType.requiresLengthPrefix, AbiType.tag, AbiType.isSlice]

section

variable {m : Method} {x : Datum} {v : Value} {xs : List Datum} {args : List Value}

theorem Method.packArg_ok (acc : Bytes × Bytes) (hv : x.Matches v) (hb : ¬ x.NoBytes) :
    m.packArg acc (x.fst.type, v) =
      .ok (acc.fst ++ x.part.head (fun n => number n) (m.inputs.length * 32 + acc.snd.length),
        acc.snd ++ x.part.tail) := by
  obtain ⟨w, hw, hr⟩ := hv
  have hp : x.fst.type.pack v = .ok (bytesOf x.part) :=
    (pack_indirect hw).trans ((ArgType.pack_eq hr).right hb)
  rw [packArg, hp]
  cases hx : x.part
  case inline b =>
    have hn : ¬ x.fst.type.requiresLengthPrefix = true := by
      rw [x.requiresLengthPrefix, hx]
      rintro ⟨c, hc⟩
      cases hc
    simp [wrap, hn, Part.head, Part.tail, bytesOf, bind, Except.bind, pure, Except.pure]
  case away b =>
    have hy := x.requiresLengthPrefix.mpr ⟨b, hx⟩
    simp [wrap, hy, Part.head, Part.tail, bytesOf, word_eq, bind, Except.bind, pure, Except.pure]

theorem Method.packArg_panics (acc : Bytes × Bytes) (hv : x.Matches v) (hb : x.NoBytes) :
    m.packArg acc (x.fst.type, v) = Go.panics := by
  obtain ⟨w, hw, hr⟩ := hv
  rw [packArg, pack_indirect hw, (ArgType.pack_eq hr).left hb]
  rfl

def types (xs : List Datum) : List AbiType :=
  xs.map fun x => x.fst.type

def parts (xs : List Datum) : List Part :=
  xs.map Datum.part

theorem Method.foldlM_packArg (h : List.Forall₂ Datum.Matches xs args)
    (hb : ∀ x ∈ xs, ¬ x.NoBytes) (acc : Bytes × Bytes) :
    ((types xs).zip args).foldlM m.packArg acc =
      .ok (acc.fst ++ HeadTail.heads (fun n => number n)
          (m.inputs.length * 32 + acc.snd.length) (parts xs),
        acc.snd ++ HeadTail.tails (parts xs)) := by
  induction h generalizing acc
  case nil => simp [types, parts, HeadTail.heads, pure, Except.pure]
  case cons x v xs args hx _ hi =>
    obtain ⟨hbx, hbs⟩ := List.forall_mem_cons.mp hb
    rw [types, List.map_cons, List.zip_cons_cons, List.foldlM_cons, packArg_ok acc hx hbx]
    refine (hi hbs _).trans ?_
    simp only [parts, List.map_cons, HeadTail.heads_cons, HeadTail.tails_cons, List.append_assoc,
      List.length_append, Nat.add_assoc]

theorem Method.foldlM_packArg_panics (h : List.Forall₂ Datum.Matches xs args)
    (hb : ∃ x ∈ xs, x.NoBytes) (acc : Bytes × Bytes) :
    ((types xs).zip args).foldlM m.packArg acc = Go.panics := by
  induction h generalizing acc
  case nil =>
    obtain ⟨x, hx, -⟩ := hb
    cases hx
  case cons x v xs args hx _ hi =>
    rw [types, List.map_cons, List.zip_cons_cons, List.foldlM_cons]
    by_cases hn : x.NoBytes
    case pos =>
      rw [packArg_panics acc hx hn]
      rfl
    case neg =>
      rw [packArg_ok acc hx hn]
      obtain ⟨y, hy, hyn⟩ := hb
      obtain rfl | hy := List.mem_cons.mp hy
      · exact absurd hyn hn
      · exact hi ⟨y, hy, hyn⟩ _

theorem Method.pack_ok (hm : m.inputs = types xs) (h : List.Forall₂ Datum.Matches xs args)
    (hb : ∀ x ∈ xs, ¬ x.NoBytes) :
    m.pack args = .ok (HeadTail.heads (fun n => number n) (32 * xs.length) (parts xs) ++
      HeadTail.tails (parts xs)) := by
  have hl : m.inputs.length = xs.length := by rw [hm, types, List.length_map]
  rw [pack, if_neg (by simp [hl, h.length_eq]), hm, foldlM_packArg h hb, Go.ok_bind, hl]
  simp [Nat.mul_comm, pure, Except.pure]

theorem Method.pack_panics (hm : m.inputs = types xs) (h : List.Forall₂ Datum.Matches xs args)
    (hb : ∃ x ∈ xs, x.NoBytes) : m.pack args = Go.panics := by
  have hl : m.inputs.length = xs.length := by rw [hm, types, List.length_map]
  rw [pack, if_neg (by simp [hl, h.length_eq]), hm, foldlM_packArg_panics h hb]
  rfl

end

-- The argument data is laid out as the ABI has it.
def Follows (xs : List Datum) (data : Bytes) : Prop :=
  HeadTail.Laid 32 (fun n => number n) (parts xs) data

def words (xs : List Datum) : Nat :=
  (xs.map fun x => x.fst.words).sum

-- The lengths that are computed with fit an `int`.
def Addressable (xs : List Datum) : Prop :=
  32 * xs.length + 32 * words xs + (HeadTail.tails (parts xs)).length < 2 ^ 63

theorem headSize_parts (xs : List Datum) : HeadTail.headSize 32 (parts xs) = 32 * words xs := by
  induction xs
  case nil => rfl
  case cons x xs hi =>
    rw [parts, List.map_cons, HeadTail.headSize_cons, x.headSize_part]
    rw [parts] at hi
    rw [hi, words, words, List.map_cons, List.sum_cons, Nat.mul_add]

theorem Datum.dynamic_iff (x : Datum) : x.fst.Dynamic ↔ ∃ b, x.part = .away b := by
  obtain ⟨t, x⟩ := x
  cases t <;> simp [ArgType.Dynamic, part, ArgType.part]

theorem away_notMem_parts {xs : List Datum} :
    (∀ b, .away b ∉ parts xs) ↔ ∀ x ∈ xs, ¬ x.fst.Dynamic := by
  simp only [Datum.dynamic_iff, parts, List.mem_map, not_exists, not_and]
  exact ⟨fun h x hx b hb => h b x hx hb, fun h b x hx hb => h x hx b hb⟩

theorem pack_follows_iff {m : Method} {xs : List Datum} {args : List Value}
    (hm : m.inputs = types xs) (h : List.Forall₂ Datum.Matches xs args) (hs : Addressable xs) :
    (∃ data, m.pack args = .ok data ∧ Follows xs data) ↔
      (∀ x ∈ xs, ¬ x.NoBytes) ∧ ((∀ x ∈ xs, ¬ x.fst.Dynamic) ∨ words xs = xs.length) := by
  have hw : ∀ n : Nat, (number n).length = 32 := fun n => length_number n
  have hi : ∀ m < 2 ^ 256, ∀ n < 2 ^ 256, number (m : Nat) = number (n : Nat) → m = n :=
    fun m hm n hn => number_injective hm hn
  rw [Addressable] at hs
  by_cases hb : ∀ x ∈ xs, ¬ x.NoBytes
  case neg =>
    have hp : ∃ x ∈ xs, x.NoBytes := by
      by_contra hn
      exact hb fun x hx hx' => hn ⟨x, hx, hx'⟩
    constructor
    case mp =>
      rintro ⟨data, hd, -⟩
      rw [Method.pack_panics hm h hp] at hd
      cases hd
    case mpr =>
      intro hc
      exact absurd hc.left hb
  case pos =>
    -- The code starts the tails after one word for each argument, the layout after the head.
    have hf : (∃ data, m.pack args = .ok data ∧ Follows xs data) ↔
        HeadTail.heads (fun n => number n) (32 * xs.length) (parts xs) =
          HeadTail.heads (fun n => number n) (32 * words xs) (parts xs) := by
      rw [Method.pack_ok hm h hb]
      constructor
      case mp =>
        rintro ⟨data, hd, hl⟩
        cases hd
        rw [Follows, HeadTail.laid_iff hw, headSize_parts] at hl
        exact List.append_cancel_right hl
      case mpr =>
        intro he
        refine ⟨_, rfl, ?_⟩
        rw [Follows, HeadTail.laid_iff hw, headSize_parts, he]
    rw [hf, HeadTail.heads_eq_iff hw hi (by omega) (by omega), away_notMem_parts,
      and_iff_right hb]
    exact or_congr_right (by omega)

def sampleData : List Datum :=
  [⟨.scalar (.uint 256), (7 : Int)⟩, ⟨.string, [0x61]⟩]

def sampleArgs : List Value :=
  [.bigInt 7, .string [0x61]]

theorem sampleArgs_match : List.Forall₂ Datum.Matches sampleData sampleArgs :=
  .cons ⟨_, rfl, .inr ⟨rfl, rfl⟩⟩ (.cons ⟨_, rfl, rfl⟩ .nil)

theorem sampleData_addressable : Addressable sampleData := by
  have ht : (HeadTail.tails (parts sampleData)).length = 64 := by
    simp [sampleData, parts, Datum.part, ArgType.part, Part.tail, length_number, padded]
  rw [Addressable]
  decide

theorem pack_follows_sample :
    List.Forall₂ Datum.Matches sampleData sampleArgs ∧ Addressable sampleData ∧
      ∃ data, Method.pack ⟨"f", types sampleData⟩ sampleArgs = .ok data ∧
        Follows sampleData data := by
  have hb : ∀ x ∈ sampleData, ¬ x.NoBytes := by simp [sampleData, Datum.NoBytes, ArgType.NoBytes]
  exact ⟨sampleArgs_match, sampleData_addressable,
    (pack_follows_iff rfl sampleArgs_match sampleData_addressable).mpr ⟨hb, .inr rfl⟩⟩

-- An array of two numbers and a text. The array takes two words of the head.
def arrayData : List Datum :=
  [⟨.array 2 (.uint 256), ⟨[(7 : Int), (8 : Int)], rfl⟩⟩, ⟨.string, [0x61]⟩]

def arrayArgs : List Value :=
  [.list (.array 2 .bigInt) [.bigInt 7, .bigInt 8], .string [0x61]]

theorem arrayArgs_match : List.Forall₂ Datum.Matches arrayData arrayArgs := by
  have hl : IsList (.uint 256) [(7 : Int), (8 : Int)]
      (.list (.array 2 .bigInt) [.bigInt 7, .bigInt 8]) :=
    ⟨.inr rfl, ⟨_, rfl, rfl⟩, .cons (.inr ⟨rfl, rfl⟩) (.cons (.inr ⟨rfl, rfl⟩) .nil)⟩
  exact .cons ⟨_, rfl, hl⟩ (.cons ⟨_, rfl, rfl⟩ .nil)

def emptyData : List Datum :=
  [⟨.slice (.bytes 32), []⟩]

theorem emptyArgs_match :
    List.Forall₂ Datum.Matches emptyData [.list (.slice (.array 32 (.num .uint8))) []] :=
  .cons ⟨_, rfl, ⟨.inl rfl, ⟨_, rfl, .inr rfl, rfl⟩, .nil⟩⟩ .nil

-- The offset of the text is 64, and its length stands at 96.
theorem pack_array_string :
    (∃ data, Method.pack ⟨"f", types arrayData⟩ arrayArgs = .ok data ∧
      (data.drop 64).take 32 = number 64 ∧ data.drop 96 = number 1 ++ padded [0x61] ∧
      ¬ Follows arrayData data) ∧
    Method.pack ⟨"f", types emptyData⟩ [.list (.slice (.array 32 (.num .uint8))) []] =
      Go.panics := by
  constructor
  case left =>
    have hb : ∀ x ∈ arrayData, ¬ x.NoBytes := by simp [arrayData, Datum.NoBytes, ArgType.NoBytes]
    have hd : HeadTail.heads (fun n => number n) (32 * arrayData.length) (parts arrayData) =
        (number 7 ++ number 8) ++ number 64 := by
      have he : List.flatMap (Scalar.uint 256).encode [(7 : Int), (8 : Int)] =
          number 7 ++ (number 8 ++ []) := rfl
      simp [arrayData, parts, Datum.part, ArgType.part, HeadTail.heads, he]
    have ht : HeadTail.tails (parts arrayData) = number 1 ++ padded [0x61] := by
      simp [arrayData, parts, Datum.part, ArgType.part, Part.tail]
    have hw : ((number 7 ++ number 8) ++ number 64).length = 96 := by simp [length_number]
    refine ⟨_, Method.pack_ok rfl arrayArgs_match hb, ?_, ?_, ?_⟩
    case refine_1 =>
      rw [hd, List.append_assoc (number 7 ++ number 8),
        List.drop_left' (by simp [length_number]), List.take_left' (length_number 64)]
    case refine_2 => rw [hd, ht, List.drop_left' hw]
    case refine_3 =>
      intro hf
      rw [Follows, HeadTail.laid_iff (fun n => length_number n), headSize_parts] at hf
      have he := List.append_cancel_right hf
      have hn := (HeadTail.heads_eq_iff (fun n => length_number n)
        (fun m hm n hn => number_injective hm hn)
        (by rw [ht]; simp [arrayData, length_number, padded])
        (by rw [ht]; simp [arrayData, words, ArgType.words, length_number, padded])).mp he
      rw [away_notMem_parts] at hn
      obtain hn | hn := hn
      · exact hn ⟨.string, [0x61]⟩ (by simp [arrayData]) trivial
      · exact absurd hn (by decide)
  case right => exact Method.pack_panics rfl emptyArgs_match ⟨_, List.mem_cons_self .., rfl⟩

end Abi
