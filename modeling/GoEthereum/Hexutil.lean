import GoEthereum.Common
import GoEthereum.Lib.Digits

-- Big integers as hex strings with 0x prefix, and as the JSON strings of them.

namespace Hexutil

open Common

inductive HexError
  | emptyString
  | missingPrefix
  -- `ErrSyntax`, "invalid hex"
  | invalid
  | emptyNumber
  | leadingZero
  | nonString
  | negativeBigInt
  deriving DecidableEq

inductive WordSize
  | bits32
  | bits64

def WordSize.bigWordNibbles : WordSize → Nat
  | bits32 => 8
  | bits64 => 16

def quote : UInt8 := '"'.toUInt8

section

-- `strconv.AppendUint` writes a digit below 16 as one of `0-9a-f`.
def hexDigit (d : Nat) : UInt8 :=
  if d < 10 then '0'.toUInt8 + .ofNat d else 'a'.toUInt8 + .ofNat (d - 10)

-- What `strconv.AppendUint` appends for a word in base 16.
def appendUint (w : Nat) : Bytes :=
  (Digits.minimal 16 w).reverse.map hexDigit

variable (size : WordSize)

-- `big.Int.Bits`, the absolute value as words, the lowest one first
def bits (bigint : Int) : List Nat :=
  Nat.digits (16 ^ size.bigWordNibbles) bigint.natAbs

-- The loop that appends the words of a number, from the top one to the lowest one.
def appendWords (bigint : Int) : Bytes :=
  (bits size bigint).reverse.flatMap appendUint

-- The sign of the integer is ignored.
def encodeBig (bigint : Int) : Bytes :=
  if bigint = 0 then
    ['0'.toUInt8, 'x'.toUInt8, '0'.toUInt8]
  else
    ['0'.toUInt8, 'x'.toUInt8] ++ appendWords size bigint

def marshalJSON (b : Option Int) : Except HexError Bytes :=
  match b with
  | none        => .ok ['n'.toUInt8, 'u'.toUInt8, 'l'.toUInt8, 'l'.toUInt8]
  | some bigint =>
    if bigint < 0 then
      .error .negativeBigInt
    else if bigint = 0 then
      .ok [quote, '0'.toUInt8, 'x'.toUInt8, '0'.toUInt8, quote]
    else
      .ok ([quote, '0'.toUInt8, 'x'.toUInt8] ++ appendWords size bigint ++ [quote])

def has0xPrefix (input : Bytes) : Bool :=
  match input with
  | a :: b :: _ => a = '0'.toUInt8 ∧ (b = 'x'.toUInt8 ∨ b = 'X'.toUInt8)
  | _           => false

def checkNumber (input : Bytes) : Except HexError Bytes :=
  if input.length = 0 then
    .error .emptyString
  else if ¬ has0xPrefix input then
    .error .missingPrefix
  else
    let input := input.drop 2
    if input.length = 0 then
      .error .emptyNumber
    else if 1 < input.length ∧ input.head? = some '0'.toUInt8 then
      .error .leadingZero
    else
      .ok input

def isString (input : Bytes) : Bool :=
  2 ≤ input.length ∧ input.head? = some quote ∧ input.getLast? = some quote

-- The checks after the quotes are those of `checkNumber`.
def checkNumberJSON (input : Bytes) : Except HexError Bytes :=
  if ¬ isString input then .error .nonString else checkNumber (input.drop 1).dropLast

-- `none` is `badNibble`.
def decodeNibble (b : UInt8) : Option Nat :=
  if '0'.toUInt8 ≤ b ∧ b ≤ '9'.toUInt8 then
    some (b - '0'.toUInt8).toNat
  else if 'A'.toUInt8 ≤ b ∧ b ≤ 'F'.toUInt8 then
    some (b - 'A'.toUInt8 + 10).toNat
  else if 'a'.toUInt8 ≤ b ∧ b ≤ 'f'.toUInt8 then
    some (b - 'a'.toUInt8 + 10).toNat
  else
    none

def decodeWord (w : Nat) : Bytes → Except HexError Nat
  | []       => .ok w
  | b :: raw =>
    match decodeNibble b with
    | none     => .error .invalid
    | some nib => decodeWord ((w * 16 + nib) % 16 ^ size.bigWordNibbles) raw

-- The outer loop, which reads the given number of words backwards from the given end.
def decodeWords (raw : Bytes) : Nat → Nat → Except HexError (List Nat)
  | 0,     _    => .ok []
  | i + 1, stop => do
    let start := stop - size.bigWordNibbles
    let word ← decodeWord size 0 ((raw.take stop).drop start)
    let words ← decodeWords raw i start
    return word :: words

-- `big.Int.SetBits` of the words of a number without prefix
def decodeNumber (raw : Bytes) : Except HexError Nat := do
  let words ← decodeWords size raw (raw.length / size.bigWordNibbles + 1) raw.length
  return Nat.ofDigits (16 ^ size.bigWordNibbles) words

def decodeBig (input : Bytes) : Except HexError Nat := do
  let raw ← checkNumber input
  decodeNumber size raw

def unmarshalJSON (input : Bytes) : Except HexError Nat := do
  let raw ← checkNumberJSON input
  decodeNumber size raw

end

def lower (s : Bytes) : Bytes :=
  s.map fun b => if 'A'.toUInt8 ≤ b ∧ b ≤ 'Z'.toUInt8 then b + 0x20 else b

-- Every word of the number but the top one has a top nibble that is not zero.
def Full (size : WordSize) (n : Nat) : Prop :=
  Digits.Full 16 size.bigWordNibbles (Nat.digits (16 ^ size.bigWordNibbles) n)

variable {size : WordSize} {raw : Bytes} {n : Nat}

def nibbles (raw : Bytes) : Option (List Nat) :=
  raw.mapM decodeNibble

def value (ds : List Nat) : Nat :=
  Nat.ofDigits 16 ds.reverse

theorem two_le_bigWordNibbles (size : WordSize) : 2 ≤ size.bigWordNibbles := by
  cases size <;> decide

theorem value_cons (d : Nat) (ds : List Nat) : value (d :: ds) = d * 16 ^ ds.length + value ds := by
  rw [value, List.reverse_cons, Nat.ofDigits_append, List.length_reverse,
    Nat.add_comm, Nat.mul_comm]
  rfl

theorem value_append (ds₁ ds₂ : List Nat) :
    value (ds₁ ++ ds₂) = value ds₂ + 16 ^ ds₂.length * value ds₁ := by
  rw [value, List.reverse_append, Nat.ofDigits_append, List.length_reverse]
  rfl

variable {d : Nat} {ds : List Nat}

theorem lt_of_decodeNibble {b : UInt8} (h : decodeNibble b = some d) : d < 16 := by
  have hall : ∀ n < 256, ∀ e ∈ decodeNibble (UInt8.ofNat n), e < 16 := by decide +kernel
  have := hall b.toNat b.toNat_lt d
  rw [UInt8.ofNat_toNat] at this
  exact this h

theorem nibbles_cons (b : UInt8) (raw : Bytes) :
    nibbles (b :: raw) = (decodeNibble b).bind fun d => (nibbles raw).map (d :: ·) := by
  rw [nibbles, List.mapM_cons, nibbles]
  cases decodeNibble b <;> cases raw.mapM decodeNibble <;> rfl

theorem nibbles_append (raw₁ raw₂ : Bytes) :
    nibbles (raw₁ ++ raw₂) =
      (nibbles raw₁).bind fun ds₁ => (nibbles raw₂).map (ds₁ ++ ·) := by
  rw [nibbles, List.mapM_append, nibbles, nibbles]
  cases raw₁.mapM decodeNibble <;> cases raw₂.mapM decodeNibble <;> rfl

theorem length_nibbles (h : nibbles raw = some ds) : ds.length = raw.length := by
  induction raw generalizing ds
  case nil =>
    cases h
    rfl
  case cons b raw hi =>
    rw [nibbles_cons] at h
    obtain ⟨d, -, h⟩ := Option.bind_eq_some_iff.mp h
    obtain ⟨ds, hd, rfl⟩ := Option.map_eq_some_iff.mp h
    rw [List.length_cons, List.length_cons, hi hd]

def reading (ds? : Option (List Nat)) : Except HexError Nat :=
  ds?.elim (.error .invalid) fun ds => .ok (value ds)

theorem decodeWord_eq {w : Nat} (hl : raw.length ≤ size.bigWordNibbles)
    (hw : w < 16 ^ (size.bigWordNibbles - raw.length)) :
    decodeWord size w raw =
      (reading (nibbles raw)).map (w * 16 ^ raw.length + ·) := by
  induction raw generalizing w
  case nil => simp [decodeWord, nibbles, reading, value, Except.map]
  case cons b raw hi =>
    rw [List.length_cons] at hl hw
    rw [decodeWord, nibbles_cons]
    cases hd : decodeNibble b
    case none => rfl
    case some d =>
      have hd := lt_of_decodeNibble hd
      have hlt : w * 16 + d < 16 ^ (size.bigWordNibbles - raw.length) := by
        have : size.bigWordNibbles - raw.length = size.bigWordNibbles - (raw.length + 1) + 1 := by
          omega
        rw [this]
        omega
      have hmod : (w * 16 + d) % 16 ^ size.bigWordNibbles = w * 16 + d :=
        Nat.mod_eq_of_lt (hlt.trans_le (Nat.pow_le_pow_right (by decide) (Nat.sub_le _ _)))
      dsimp only [Option.bind_some]
      rw [hmod, hi (Nat.le_of_succ_le hl) hlt]
      cases hn : nibbles raw
      case none    => rfl
      case some ds =>
        have := length_nibbles hn
        simp only [reading, Option.map_some, Option.elim_some, Except.map, value_cons, this,
          List.length_cons, Nat.pow_succ]
        congr 1
        ring

theorem decodeWords_succ (i stop : Nat) :
    (decodeWords size raw (i + 1) stop).map (Nat.ofDigits (16 ^ size.bigWordNibbles)) =
      (decodeWord size 0 ((raw.take stop).drop (stop - size.bigWordNibbles))).bind fun word =>
        ((decodeWords size raw i (stop - size.bigWordNibbles)).map
          (Nat.ofDigits (16 ^ size.bigWordNibbles))).map
            (word + 16 ^ size.bigWordNibbles * ·) := by
  rw [decodeWords]
  cases decodeWord size 0 ((raw.take stop).drop (stop - size.bigWordNibbles))
  case error e => rfl
  case ok word =>
    cases decodeWords size raw i (stop - size.bigWordNibbles)
    case error e  => rfl
    case ok words => exact congrArg Except.ok Nat.ofDigits_cons

-- The words from the end of the string are the number of its nibbles.
theorem decodeWords_eq {i stop : Nat} (hs : stop ≤ raw.length)
    (hi : stop ≤ size.bigWordNibbles * i) :
    (decodeWords size raw i stop).map (Nat.ofDigits (16 ^ size.bigWordNibbles)) =
      reading (nibbles (raw.take stop)) := by
  induction i generalizing stop
  case zero =>
    obtain rfl : stop = 0 := Nat.le_zero.mp hi
    rfl
  case succ i ih =>
    have hsplit : raw.take stop = raw.take (stop - size.bigWordNibbles) ++
        (raw.take stop).drop (stop - size.bigWordNibbles) := by
      conv_lhs => rw [← List.take_append_drop (stop - size.bigWordNibbles) (raw.take stop)]
      rw [List.take_take, Nat.min_eq_left (Nat.sub_le _ _)]
    have hrec := @ih (stop - size.bigWordNibbles) (by omega) (by rw [Nat.mul_succ] at hi; omega)
    have hlen : ((raw.take stop).drop (stop - size.bigWordNibbles)).length =
        min size.bigWordNibbles stop := by
      rw [List.length_drop, List.length_take]
      omega
    rw [decodeWords_succ, hsplit, nibbles_append, ← hsplit]
    rw [hrec, decodeWord_eq (by omega) (Nat.pow_pos (by decide)), Nat.zero_mul]
    cases hh : nibbles ((raw.take stop).drop (stop - size.bigWordNibbles))
    case none => cases nibbles (raw.take (stop - size.bigWordNibbles)) <;> rfl
    case some ds₂ =>
      cases hl : nibbles (raw.take (stop - size.bigWordNibbles))
      case none => rfl
      case some ds₁ =>
        have h₁ := length_nibbles hl
        have h₂ := length_nibbles hh
        rw [List.length_take] at h₁
        refine congrArg Except.ok ?_
        dsimp only
        rw [Nat.zero_add, value_append]
        -- The top word can be a part of one, and then there is nothing above it.
        by_cases hk : stop ≤ size.bigWordNibbles
        · obtain rfl := List.length_eq_zero_iff.mp (show ds₁.length = 0 by omega)
          simp [value]
        · rw [show ds₂.length = size.bigWordNibbles by omega]

theorem decodeNumber_eq (raw : Bytes) : decodeNumber size raw = reading (nibbles raw) := by
  have hk := two_le_bigWordNibbles size
  have hi : raw.length ≤ size.bigWordNibbles * (raw.length / size.bigWordNibbles + 1) :=
    (Nat.lt_mul_div_succ raw.length (by omega)).le
  have := decodeWords_eq le_rfl hi
  rw [List.take_length] at this
  rw [← this, decodeNumber]
  cases decodeWords size raw (raw.length / size.bigWordNibbles + 1) raw.length <;> rfl

theorem hexDigit_spec (h : d < 16) :
    decodeNibble (hexDigit d) = some d ∧ (hexDigit d = '0'.toUInt8 → d = 0) ∧
      lower [hexDigit d] = [hexDigit d] := by
  revert d
  decide +kernel

theorem nibbles_map (h : ∀ d ∈ ds, d < 16) : nibbles (ds.map hexDigit) = some ds := by
  induction ds
  case nil => rfl
  case cons d ds hi =>
    obtain ⟨hd, h⟩ := List.forall_mem_cons.mp h
    rw [List.map_cons, nibbles_cons, (hexDigit_spec hd).left, hi h]
    rfl

theorem lower_map (h : ∀ d ∈ ds, d < 16) :
    lower (ds.map hexDigit) = ds.map hexDigit := by
  rw [lower, List.map_map]
  apply List.map_congr_left
  intro d hd
  exact List.head_eq_of_cons_eq (hexDigit_spec (h d hd)).right.right

def written (size : WordSize) (n : Nat) : List Nat :=
  (Digits.concat 16 (Nat.digits (16 ^ size.bigWordNibbles) n)).reverse

theorem appendWords_eq (n : Nat) : appendWords size n = (written size n).map hexDigit := by
  rw [written, Digits.concat, List.reverse_flatMap, List.map_flatMap]
  rfl

theorem lt_of_mem_written (h : d ∈ written size n) : d < 16 :=
  Digits.lt_of_mem_concat (by decide) (List.mem_reverse.mp h)

theorem value_written_iff : value (written size n) = n ↔ Full size n := by
  rw [value, written, List.reverse_reverse]
  exact Digits.ofDigits_concat_digits_iff (by decide) (two_le_bigWordNibbles size) n

theorem decodeNumber_appendWords : decodeNumber size (appendWords size n) =
    .ok (value (written size n)) := by
  rw [decodeNumber_eq, appendWords_eq, nibbles_map fun d hd => lt_of_mem_written hd]
  rfl

theorem checkNumber_eq_ok {input : Bytes} : checkNumber input = .ok raw ↔
    ∃ c, (c = 'x'.toUInt8 ∨ c = 'X'.toUInt8) ∧ input = '0'.toUInt8 :: c :: raw ∧ raw ≠ [] ∧
      (1 < raw.length → raw.head? ≠ some '0'.toUInt8) := by
  constructor
  · intro h
    rw [checkNumber] at h
    split_ifs at h with h₁ h₂
    dsimp only at h
    split_ifs at h with h₃ h₄
    obtain rfl := Except.ok.inj h
    cases input
    case nil => exact absurd rfl h₁
    case cons a input =>
      cases input
      case nil => exact absurd h₂ (by simp [has0xPrefix])
      case cons c input =>
        obtain ⟨ha, hc⟩ := of_decide_eq_true h₂
        subst ha
        exact ⟨c, hc, rfl, List.ne_nil_of_length_pos (Nat.pos_of_ne_zero h₃),
          fun hl hh => h₄ ⟨hl, hh⟩⟩
  · rintro ⟨c, hc, rfl, hne, hz⟩
    have hp : has0xPrefix ('0'.toUInt8 :: c :: raw) := decide_eq_true ⟨rfl, hc⟩
    rw [checkNumber, if_neg (by simp), if_neg (not_not.mpr hp)]
    exact (if_neg (by simpa using hne)).trans (if_neg fun h => hz h.left h.right)

theorem head_written (hn : n ≠ 0) : ∃ d ds, written size n = d :: ds ∧ d ≠ 0 := by
  have hne := Nat.digits_ne_nil_iff_ne_zero (b := 16 ^ size.bigWordNibbles) |>.mpr hn
  have hlast := Nat.getLast_digit_ne_zero (16 ^ size.bigWordNibbles) hn
  have hc : written size n ≠ [] := by
    rw [written, Ne, List.reverse_eq_nil_iff]
    exact Digits.concat_ne_nil hne
  refine ⟨_, _, (List.cons_head_tail hc).symm, ?_⟩
  simp only [written, List.head_reverse]
  exact Digits.getLast_concat hne hlast _

theorem checkNumber_encodeBig (hn : n ≠ 0) :
    checkNumber (encodeBig size n) = .ok (appendWords size n) := by
  obtain ⟨d, ds, he, hd⟩ := @head_written size n hn
  have hlt : d < 16 := lt_of_mem_written (he ▸ List.mem_cons_self)
  rw [checkNumber_eq_ok]
  refine ⟨_, Or.inl rfl, ?_, ?_, fun _ => ?_⟩
  · rw [encodeBig, if_neg (Int.natCast_ne_zero.mpr hn)]
    rfl
  · rw [appendWords_eq, he]
    exact List.cons_ne_nil _ _
  · rw [appendWords_eq, he]
    exact fun hz => hd ((hexDigit_spec hlt).right.left (Option.some.inj hz))

theorem decodeBig_encodeBig_iff : decodeBig size (encodeBig size n) = .ok n ↔ Full size n := by
  by_cases hn : n = 0
  · subst hn
    exact iff_of_true (by cases size <;> rfl) (by simp [Full, Digits.Full])
  · rw [decodeBig, checkNumber_encodeBig hn, ← value_written_iff]
    show decodeNumber size (appendWords size n) = _ ↔ _
    rw [decodeNumber_appendWords, Except.ok.injEq]

theorem marshalJSON_eq (n : Nat) :
    marshalJSON size (some (n : Int)) = .ok (quote :: encodeBig size n ++ [quote]) := by
  rw [marshalJSON, if_neg (Int.not_lt.mpr (Int.natCast_nonneg n)), encodeBig]
  split_ifs
  · rfl
  · rfl

theorem unmarshalJSON_quote (s : Bytes) :
    unmarshalJSON size (quote :: s ++ [quote]) = decodeBig size s := by
  have hs : isString (quote :: s ++ [quote]) := by
    simp [isString, List.getLast?_cons]
  have hd : ((quote :: s ++ [quote]).drop 1).dropLast = s := by simp
  rw [unmarshalJSON, checkNumberJSON, if_neg (not_not.mpr hs), hd, decodeBig]

section

theorem lower_of_decodeNibble {b : UInt8} {d : Nat} (h : decodeNibble b = some d) :
    lower [b] = [hexDigit d] := by
  have hall : ∀ n < 256, ∀ e ∈ decodeNibble (UInt8.ofNat n),
      lower [UInt8.ofNat n] = [hexDigit e] := by decide +kernel
  have := hall b.toNat b.toNat_lt d
  rw [UInt8.ofNat_toNat] at this
  exact this h

theorem lower_eq {ds : List Nat} (h : nibbles raw = some ds) :
    lower raw = ds.map hexDigit ∧ ∀ d ∈ ds, d < 16 := by
  induction raw generalizing ds
  case nil =>
    cases h
    exact ⟨rfl, by simp⟩
  case cons b raw hi =>
    rw [nibbles_cons] at h
    obtain ⟨d, hd, h⟩ := Option.bind_eq_some_iff.mp h
    obtain ⟨ds, hds, rfl⟩ := Option.map_eq_some_iff.mp h
    obtain ⟨hl, hlt⟩ := hi hds
    refine ⟨?_, List.forall_mem_cons.mpr ⟨lt_of_decodeNibble hd, hlt⟩⟩
    rw [List.map_cons, ← hl]
    exact congrArg (· ++ lower raw) (lower_of_decodeNibble hd)

theorem head_of_nibbles {ds : List Nat} (h : nibbles raw = some ds) (hz : ds.head? = some 0) :
    raw.head? = some '0'.toUInt8 := by
  have hall : ∀ n < 256, decodeNibble (UInt8.ofNat n) = some 0 →
      UInt8.ofNat n = '0'.toUInt8 := by decide +kernel
  cases raw
  case nil =>
    cases h
    cases hz
  case cons b raw =>
    rw [nibbles_cons] at h
    obtain ⟨d, hd, h⟩ := Option.bind_eq_some_iff.mp h
    obtain ⟨ds, -, rfl⟩ := Option.map_eq_some_iff.mp h
    obtain rfl := Option.some.inj hz
    have := hall b.toNat b.toNat_lt
    rw [UInt8.ofNat_toNat] at this
    rw [List.head?_cons, this hd]

variable {s : Bytes}

theorem exists_nibbles (h : decodeBig size s = .ok n) :
    ∃ raw ds, checkNumber s = .ok raw ∧ nibbles raw = some ds ∧ value ds = n := by
  rw [decodeBig] at h
  cases hc : checkNumber s
  case error e =>
    rw [hc] at h
    cases h
  case ok raw =>
    rw [hc] at h
    change decodeNumber size raw = .ok n at h
    rw [decodeNumber_eq] at h
    cases hn : nibbles raw
    case none =>
      rw [hn] at h
      cases h
    case some ds =>
      rw [hn] at h
      exact ⟨raw, ds, rfl, hn, Except.ok.inj h⟩

theorem lower_of_decodeBig (h : decodeBig size s = .ok n) :
    lower s = ['0'.toUInt8, 'x'.toUInt8] ++ (Digits.minimal 16 n).reverse.map hexDigit := by
  obtain ⟨raw, ds, hc, hn, rfl⟩ := exists_nibbles h
  obtain ⟨c, hx, rfl, hne, hz⟩ := checkNumber_eq_ok.mp hc
  obtain ⟨hl, hlt⟩ := lower_eq hn
  have hlen := length_nibbles hn
  have hds : ds.reverse ≠ [] := by
    rw [Ne, List.reverse_eq_nil_iff, ← List.length_eq_zero_iff, hlen]
    exact List.length_eq_zero_iff.not.mpr hne
  have hmin : Digits.minimal 16 (value ds) = ds.reverse := by
    apply Digits.minimal_ofDigits (by decide) (fun d hd => hlt d (List.mem_reverse.mp hd)) hds
    intro h1 h0
    rw [List.length_reverse, hlen] at h1
    rw [List.getLast_reverse] at h0
    exact hz h1 (head_of_nibbles hn ((List.head?_eq_some_head _).trans (congrArg some h0)))
  rw [hmin, List.reverse_reverse, ← hl]
  obtain rfl | rfl := hx <;> rfl

theorem lower_encodeBig (hn : n ≠ 0) : lower (encodeBig size n) =
    ['0'.toUInt8, 'x'.toUInt8] ++ (written size n).map hexDigit := by
  rw [encodeBig, if_neg (Int.natCast_ne_zero.mpr hn), lower, List.map_append, appendWords_eq]
  exact congrArg _ (lower_map fun d hd => lt_of_mem_written hd)

theorem lower_encodeBig_iff (h : decodeBig size s = .ok n) :
    lower (encodeBig size n) = lower s ↔ Full size n := by
  rw [lower_of_decodeBig h]
  by_cases hn : n = 0
  · subst hn
    exact iff_of_true (by cases size <;> rfl) (by simp [Full, Digits.Full])
  · rw [lower_encodeBig hn, List.append_cancel_left_eq, Digits.minimal, if_neg hn, Full,
      ← Digits.concat_digits_iff (by decide) (two_le_bigWordNibbles size)]
    constructor
    · intro he
      have hb : ∀ d ∈ (Nat.digits 16 n).reverse, d < 16 :=
        fun d hd => Nat.digits_lt_base (by decide) (List.mem_reverse.mp hd)
      have := nibbles_map hb
      rw [← he, nibbles_map fun d hd => lt_of_mem_written hd] at this
      exact List.reverse_injective (Option.some.inj this)
    · intro he
      rw [written, he]

end

-- Writing and reading give a number back, and reading and writing a string up to the case of its
-- letters, exactly when every word of the number but the top one is written with all its nibbles.
theorem decodeBig_encodeBig_full (size : WordSize) (n : Nat) :
    (decodeBig size (encodeBig size n) = .ok n ↔ Full size n) ∧
    ((marshalJSON size (some (n : Int)) >>= unmarshalJSON size) = .ok n ↔ Full size n) ∧
    (∀ s, decodeBig size s = .ok n → (lower (encodeBig size n) = lower s ↔ Full size n)) := by
  refine ⟨decodeBig_encodeBig_iff, ?_, fun s hs => lower_encodeBig_iff hs⟩
  rw [marshalJSON_eq, ← decodeBig_encodeBig_iff, ← unmarshalJSON_quote]
  rfl

theorem decodeBig_encodeBig_byte :
    decodeBig .bits64 (encodeBig .bits64 255) = .ok 255 ∧
    (marshalJSON .bits64 (some 255) >>= unmarshalJSON .bits64) = .ok 255 ∧
    decodeBig .bits64 ['0'.toUInt8, 'X'.toUInt8, 'f'.toUInt8, 'F'.toUInt8] = .ok 255 ∧
    lower (encodeBig .bits64 255) =
      lower ['0'.toUInt8, 'X'.toUInt8, 'f'.toUInt8, 'F'.toUInt8] := by
  have hf : Full .bits64 255 := by
    rw [Full, Nat.digits_of_lt _ _ (by decide) (by decide)]
    simp [Digits.Full]
  obtain ⟨h₁, h₂, h₃⟩ := decodeBig_encodeBig_full .bits64 255
  exact ⟨h₁.mpr hf, h₂.mpr hf, rfl, (h₃ _ rfl).mpr hf⟩

-- The lower word of 2^64 is zero, and is written as one digit.
theorem decodeBig_encodeBig_zeros :
    encodeBig .bits64 (2 ^ 64) = ['0'.toUInt8, 'x'.toUInt8, '1'.toUInt8, '0'.toUInt8] ∧
    decodeBig .bits64 (encodeBig .bits64 (2 ^ 64)) = .ok 16 ∧
    (marshalJSON .bits64 (some (2 ^ 64)) >>= unmarshalJSON .bits64) = .ok 16 ∧
    decodeBig .bits64 (['0'.toUInt8, 'x'.toUInt8, '1'.toUInt8] ++
      List.replicate 16 '0'.toUInt8) = .ok (2 ^ 64) := by
  decide +kernel

end Hexutil
