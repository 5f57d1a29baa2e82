import GoEthereum.Common
import GoEthereum.Lib.TwosComplement

-- The arithmetic instructions of the virtual machine.

namespace Vm

-- The top comes first. A stack item is a `big.Int`.
abbrev Stack := List Int

-- `common.U256`
def u256 (x : Int) : Int :=
  x.land (2 ^ 256 - 1)

-- `common.S256`
def s256 (x : Int) : Int :=
  if x < 2 ^ 255 then x else x - 2 ^ 256

inductive Arch
  | bits32
  | bits64

def Arch.wordSize : Arch → Nat
  | bits32 => 32
  | bits64 => 64

-- The bits of a word of the exponent, the lowest first.
def exp.bits : Nat → Nat → Int × Int → Int × Int
  | 0,     _,    r              => r
  | n + 1, word, (result, base) =>
    bits n (word / 2) (if word % 2 = 1 then u256 (result * base) else result, u256 (base * base))

-- `math.Exp`, exponentiation by squaring. `Bits` gives the words of the exponent, the lowest first.
def exp (arch : Arch) (base exponent : Int) : Int :=
  ((Nat.digits (2 ^ arch.wordSize) exponent.natAbs).foldl
    (fun r word => exp.bits arch.wordSize word r) (1, base)).fst

-- `common.LeftPadBytes(val.Bytes(), 32)`
def leftPadBytes (val : Int) : Bytes :=
  let b := leastBigEndian val.natAbs
  List.replicate (32 - b.length) 0 ++ b

section

variable {ε : Type}

-- The instructions that pop their operands and push one value. There is nothing to pop on an empty
-- stack.

def unary (f : Int → Int) : Stack → Go ε Stack
  | x :: st => pure (f x :: st)
  | _       => Go.panics

def binary (f : Int → Int → Int) : Stack → Go ε Stack
  | x :: y :: st => pure (f x y :: st)
  | _            => Go.panics

def ternary (f : Int → Int → Int → Int) : Stack → Go ε Stack
  | x :: y :: z :: st => pure (f x y z :: st)
  | _                 => Go.panics

def opAdd : Stack → Go ε Stack :=
  binary fun x y => u256 (x + y)

def opSub : Stack → Go ε Stack :=
  binary fun x y => u256 (x - y)

def opMul : Stack → Go ε Stack :=
  binary fun x y => u256 (x * y)

def opDiv : Stack → Go ε Stack :=
  binary fun x y => if y ≠ 0 then u256 (x / y) else 0

def opSdiv : Stack → Go ε Stack :=
  binary fun x y =>
    let x := s256 x
    let y := s256 y
    if y = 0 then 0 else
    let n := if x * y < 0 then -1 else 1
    u256 ((x.natAbs : Int) / y.natAbs * n)

def opMod : Stack → Go ε Stack :=
  binary fun x y => if y = 0 then 0 else u256 (x % y)

def opSmod : Stack → Go ε Stack :=
  binary fun x y =>
    let x := s256 x
    let y := s256 y
    if y = 0 then 0 else
    let n := if x < 0 then -1 else 1
    u256 ((x.natAbs : Int) % y.natAbs * n)

def opExp (arch : Arch) : Stack → Go ε Stack :=
  binary fun base exponent => exp arch base exponent

-- The number is not even popped if there is nothing to extend.
def opSignExtend : Stack → Go ε Stack
  | []         => Go.panics
  | back :: st =>
    if back < 31 then
      match st with
      | []        => Go.panics
      | num :: st =>
        let bit := back.natAbs * 8 + 7
        let mask := 2 ^ bit - 1
        pure (u256 (if num.testBit bit then num.lor mask.lnot else num.land mask) :: st)
    else
      pure st

def opNot : Stack → Go ε Stack :=
  unary fun x => u256 x.lnot

def opLt : Stack → Go ε Stack :=
  binary fun x y => if x < y then 1 else 0

def opGt : Stack → Go ε Stack :=
  binary fun x y => if x > y then 1 else 0

def opSlt : Stack → Go ε Stack :=
  binary fun x y => if s256 x < s256 (s256 y) then 1 else 0

def opSgt : Stack → Go ε Stack :=
  binary fun x y => if s256 x > s256 y then 1 else 0

def opByte : Stack → Go ε Stack :=
  binary fun th val => if th < 32 then ((leftPadBytes val)[th.natAbs]?.getD 0).toNat else 0

def opAddmod : Stack → Go ε Stack :=
  ternary fun x y z => if z > 0 then u256 ((x + y) % z) else 0

def opMulmod : Stack → Go ε Stack :=
  ternary fun x y z => if z > 0 then u256 (x * y % z) else 0

end

abbrev Word := BitVec 256

inductive Arith
  | add | sub | mul | div | sdiv | mod | smod | exp | signextend
  | lt | gt | slt | sgt | not | byte | addmod | mulmod
  deriving DecidableEq

namespace Arith

def arity : Arith → Nat
  | not             => 1
  | addmod | mulmod => 3
  | _               => 2

def exec {ε : Type} (arch : Arch) : Arith → Stack → Go ε Stack
  | add        => opAdd
  | sub        => opSub
  | mul        => opMul
  | div        => opDiv
  | sdiv       => opSdiv
  | mod        => opMod
  | smod       => opSmod
  | exp        => opExp arch
  | signextend => opSignExtend
  | lt         => opLt
  | gt         => opGt
  | slt        => opSlt
  | sgt        => opSgt
  | not        => opNot
  | byte       => opByte
  | addmod     => opAddmod
  | mulmod     => opMulmod

def flag (p : Prop) [Decidable p] : Word :=
  if p then 1 else 0

-- The value of an instruction on its operands. Those that it does not take are ignored.
def value : Arith → Word → Word → Word → Word
  | add,        x, y, _ => x + y
  | sub,        x, y, _ => x - y
  | mul,        x, y, _ => x * y
  | div,        x, y, _ => if y = 0 then 0 else x / y
  | sdiv,       x, y, _ => if y = 0 then 0 else BitVec.ofInt 256 (x.toInt.tdiv y.toInt)
  | mod,        x, y, _ => if y = 0 then 0 else x % y
  | smod,       x, y, _ => if y = 0 then 0 else BitVec.ofInt 256 (x.toInt.tmod y.toInt)
  | exp,        x, y, _ => BitVec.ofNat 256 (x.toNat ^ y.toNat)
  | signextend, b, x, _ =>
    if b.toNat < 31 then (x.setWidth (8 * (b.toNat + 1))).signExtend 256 else x
  | lt,         x, y, _ => flag (x.toNat < y.toNat)
  | gt,         x, y, _ => flag (y.toNat < x.toNat)
  | slt,        x, y, _ => flag (x.toInt < y.toInt)
  | sgt,        x, y, _ => flag (y.toInt < x.toInt)
  | not,        x, _, _ => ~~~x
  | byte,       i, x, _ => if i.toNat < 32 then (x >>> (8 * (31 - i.toNat))) &&& 0xff else 0
  | addmod,     x, y, z => if z = 0 then 0 else BitVec.ofNat 256 ((x.toNat + y.toNat) % z.toNat)
  | mulmod,     x, y, z => if z = 0 then 0 else BitVec.ofNat 256 (x.toNat * y.toNat % z.toNat)

end Arith

theorem u256_eq (x : Int) : u256 x = x % 2 ^ 256 :=
  TwosComplement.land_mask x 256

def item (x : Word) : Int :=
  x.toNat

theorem u256_eq_item (x : Int) : u256 x = item (BitVec.ofInt 256 x) := by
  rw [u256_eq, item, TwosComplement.toNat_ofInt]

theorem s256_item (x : Word) : s256 (item x) = x.toInt :=
  (TwosComplement.toInt_eq_ite x).symm

theorem s256_toInt (x : Word) : s256 x.toInt = x.toInt :=
  if_pos (by have := x.toInt_lt; omega)

theorem item_eq_zero {x : Word} : item x = 0 ↔ x = 0 := by
  simp [item, ← BitVec.toNat_inj]

theorem toInt_eq_zero {x : Word} : x.toInt = 0 ↔ x = 0 := by
  simp [← BitVec.toInt_inj]

theorem item_flag (p : Prop) [Decidable p] : item (Arith.flag p) = if p then 1 else 0 := by
  unfold Arith.flag
  split_ifs <;> rfl

theorem u256_modEq (x : Int) : u256 x ≡ x [ZMOD 2 ^ 256] := by
  rw [u256_eq]
  exact Int.mod_modEq x _

theorem exp.bits_range (n word : Nat) {r b : Int} (h : r % 2 ^ 256 = r) :
    (exp.bits n word (r, b)).fst % 2 ^ 256 = (exp.bits n word (r, b)).fst := by
  induction n generalizing word r b
  case zero => exact h
  case succ n hi =>
    refine hi _ ?_
    split_ifs
    · rw [u256_eq, Int.emod_emod_of_dvd _ dvd_rfl]
    · exact h

theorem exp.bits_modEq (n word : Nat) (r b : Int) :
    (exp.bits n word (r, b)).fst ≡ r * b ^ (word % 2 ^ n) [ZMOD 2 ^ 256] ∧
      (exp.bits n word (r, b)).snd ≡ b ^ 2 ^ n [ZMOD 2 ^ 256] := by
  induction n generalizing word r b
  case zero => simp [exp.bits, Nat.mod_one]
  case succ n hi =>
    obtain ⟨hr, hb⟩ := hi (word / 2) (if word % 2 = 1 then u256 (r * b) else r) (u256 (b * b))
    have hsq : u256 (b * b) ≡ b ^ 2 [ZMOD 2 ^ 256] := by
      rw [sq]
      exact u256_modEq _
    have hbit : (if word % 2 = 1 then u256 (r * b) else r) ≡ r * b ^ (word % 2) [ZMOD 2 ^ 256] := by
      split_ifs with h
      · rw [h, pow_one]
        exact u256_modEq _
      · rw [Nat.mod_two_ne_one.mp h, pow_zero, mul_one]
    constructor
    · calc (exp.bits (n + 1) word (r, b)).fst
          ≡ (if word % 2 = 1 then u256 (r * b) else r) * u256 (b * b) ^ (word / 2 % 2 ^ n)
              [ZMOD 2 ^ 256] := hr
        _ ≡ r * b ^ (word % 2) * (b ^ 2) ^ (word / 2 % 2 ^ n) [ZMOD 2 ^ 256] :=
            hbit.mul (hsq.pow _)
        _ = r * b ^ (word % 2 ^ (n + 1)) := by
            rw [pow_succ' 2 n, Nat.mod_mul, pow_add, ← pow_mul, mul_assoc]
    · calc (exp.bits (n + 1) word (r, b)).snd
          ≡ u256 (b * b) ^ 2 ^ n [ZMOD 2 ^ 256] := hb
        _ ≡ (b ^ 2) ^ 2 ^ n [ZMOD 2 ^ 256] := hsq.pow _
        _ = b ^ 2 ^ (n + 1) := by rw [← pow_mul, pow_succ']

theorem exp.words_modEq {w : Nat} (ds : List Nat) (hd : ∀ d ∈ ds, d < 2 ^ w) (r b : Int)
    (h : r % 2 ^ 256 = r) :
    (ds.foldl (fun r word => exp.bits w word r) (r, b)).fst =
      r * b ^ Nat.ofDigits (2 ^ w) ds % 2 ^ 256 := by
  induction ds generalizing r b
  case nil => simpa using h.symm
  case cons d ds hi =>
    obtain ⟨hr, hb⟩ := exp.bits_modEq w d r b
    rw [Nat.mod_eq_of_lt (hd d (by simp))] at hr
    rw [Nat.ofDigits_cons, pow_add, pow_mul, ← mul_assoc]
    exact (hi (fun e he => hd e (by simp [he])) _ _ (exp.bits_range w d h)).trans
      (hr.mul (hb.pow _))

theorem exp_eq (arch : Arch) (base : Int) (e : Nat) : exp arch base e = base ^ e % 2 ^ 256 := by
  have hw : 1 < 2 ^ arch.wordSize := Nat.one_lt_two_pow (by cases arch <;> simp [Arch.wordSize])
  rw [exp, Int.natAbs_natCast, exp.words_modEq _ (fun d hd => Nat.digits_lt_base hw hd) _ _ rfl,
    Nat.ofDigits_digits, one_mul]

theorem signExtend_eq (n k : Nat) :
    (if (n : Int).testBit k then (n : Int).lor (2 ^ k - 1 : Int).lnot else (n : Int).land (2 ^ k - 1)) =
      (n : Int).bmod (2 ^ (k + 1)) := by
  rw [TwosComplement.bmod_two_pow_succ, TwosComplement.lor_lnot_mask, TwosComplement.land_mask]
  rfl

theorem item_signExtend (x : Word) {k : Nat} (hk : k < 256) :
    item ((x.setWidth (k + 1)).signExtend 256) = u256 ((x.toNat : Int).bmod (2 ^ (k + 1))) := by
  have hs : ((x.setWidth (k + 1)).signExtend 256).toInt = (x.toNat : Int).bmod (2 ^ (k + 1)) := by
    rw [BitVec.toInt_signExtend, BitVec.toInt_setWidth, Nat.min_eq_right hk, Int.bmod_bmod]
  rw [u256_eq_item, ← hs, BitVec.ofInt_toInt]

theorem getElem?_bigEndian {k i : Nat} (n : Nat) (h : i < k) :
    (bigEndian k n)[i]? = some (UInt8.ofNat (n / 256 ^ (k - 1 - i))) := by
  induction k generalizing i
  case zero => omega
  case succ k hi =>
    cases i
    case zero   => rfl
    case succ i =>
      rw [bigEndian, List.getElem?_cons_succ, hi (by omega)]
      congr 4
      omega

theorem leftPadBytes_eq {n : Nat} (h : n < 2 ^ 256) : leftPadBytes n = bigEndian 32 n := by
  have hle := leastBigEndian_length_le (k := 32) (by exact h)
  have hb := bigEndian_ofBigEndian (leftPadBytes n)
  rw [leftPadBytes, ofBigEndian_zeros_append, ofBigEndian_leastBigEndian, List.length_append,
    List.length_replicate, Int.natAbs_natCast, Nat.sub_add_cancel hle] at hb
  rw [leftPadBytes, Int.natAbs_natCast, ← hb]

theorem item_byte (x : Word) {i : Nat} (h : i < 32) :
    (((leftPadBytes (item x))[i]?.getD 0).toNat : Int) = item ((x >>> (8 * (31 - i))) &&& 0xff) := by
  have hp : 2 ^ (8 * (31 - i)) = 256 ^ (32 - 1 - i) := by
    rw [pow_mul]
    norm_num
  rw [item, leftPadBytes_eq x.isLt, getElem?_bigEndian _ h, item]
  have hff : (0xff : Word).toNat = 2 ^ 8 - 1 := rfl
  rw [Option.getD_some, BitVec.toNat_and, BitVec.toNat_ushiftRight, Nat.shiftRight_eq_div_pow, hp, hff,
    Nat.and_two_pow_sub_one_eq_mod, UInt8.toNat_ofNat']

section

variable {ε : Type} (x y z : Word) (st : Stack)

theorem opAdd_eq : (opAdd (item x :: item y :: st) : Go ε Stack) = pure (item (x + y) :: st) := by
  rw [opAdd, binary, u256_eq, item, item, item]
  rfl

theorem opSub_eq : (opSub (item x :: item y :: st) : Go ε Stack) = pure (item (x - y) :: st) := by
  have h : (item x - item y) % 2 ^ 256 = item (x - y) := by
    rw [item, item, item, BitVec.toNat_sub]
    omega
  rw [opSub, binary, u256_eq, h]

theorem opMul_eq : (opMul (item x :: item y :: st) : Go ε Stack) = pure (item (x * y) :: st) := by
  rw [opMul, binary, u256_eq, item, item, item]
  rfl

theorem item_lt (x : Word) : item x % 2 ^ 256 = item x :=
  (TwosComplement.toNat_eq_ofInt x).symm

theorem opDiv_eq : (opDiv (item x :: item y :: st) : Go ε Stack) =
    pure (item (if y = 0 then 0 else x / y) :: st) := by
  have h : item x / item y = item (x / y) := by
    norm_cast
  rw [opDiv, binary, ite_not]
  simp only [item_eq_zero]
  split_ifs
  · rfl
  · rw [u256_eq, h, item_lt]

theorem opMod_eq : (opMod (item x :: item y :: st) : Go ε Stack) =
    pure (item (if y = 0 then 0 else x % y) :: st) := by
  have h : item x % item y = item (x % y) := by
    norm_cast
  rw [opMod, binary]
  simp only [item_eq_zero]
  split_ifs
  · rfl
  · rw [u256_eq, h, item_lt]

theorem opSdiv_eq : (opSdiv (item x :: item y :: st) : Go ε Stack) =
    pure (item (if y = 0 then 0 else BitVec.ofInt 256 (x.toInt.tdiv y.toInt)) :: st) := by
  rw [opSdiv, binary]
  simp only [s256_item, toInt_eq_zero, ← TwosComplement.tdiv_eq, u256_eq_item]
  split_ifs <;> rfl

theorem opSmod_eq : (opSmod (item x :: item y :: st) : Go ε Stack) =
    pure (item (if y = 0 then 0 else BitVec.ofInt 256 (x.toInt.tmod y.toInt)) :: st) := by
  rw [opSmod, binary]
  simp only [s256_item, toInt_eq_zero, ← TwosComplement.tmod_eq, u256_eq_item]
  split_ifs <;> rfl

theorem opExp_eq (arch : Arch) : (opExp arch (item x :: item y :: st) : Go ε Stack) =
    pure (item (BitVec.ofNat 256 (x.toNat ^ y.toNat)) :: st) := by
  rw [opExp, binary, item, item, item, exp_eq]
  rfl

theorem opSignExtend_eq : (opSignExtend (item x :: item y :: st) : Go ε Stack) =
    pure (item (if x.toNat < 31 then (y.setWidth (8 * (x.toNat + 1))).signExtend 256 else y) :: st) := by
  have hback : item x < 31 ↔ x.toNat < 31 := by
    rw [item]
    norm_cast
  rw [opSignExtend]
  by_cases h : x.toNat < 31
  · rw [if_pos (hback.mpr h), if_pos h, show 8 * (x.toNat + 1) = x.toNat * 8 + 7 + 1 by ring,
      item_signExtend y (by omega), ← signExtend_eq]
    rfl
  · rw [if_neg (mt hback.mp h), if_neg h]

theorem opNot_eq : (opNot (item x :: st) : Go ε Stack) = pure (item (~~~x) :: st) := by
  have h : (-item x - 1) % 2 ^ 256 = item (~~~x) := by
    rw [item, item, BitVec.toNat_not]
    omega
  rw [opNot, unary, u256_eq, TwosComplement.lnot_eq, h]

theorem item_lt_item : item x < item y ↔ x.toNat < y.toNat := by
  rw [item, item]
  norm_cast

theorem opLt_eq : (opLt (item x :: item y :: st) : Go ε Stack) =
    pure (item (Arith.flag (x.toNat < y.toNat)) :: st) := by
  rw [opLt, binary, item_flag]
  simp only [item_lt_item]

theorem opGt_eq : (opGt (item x :: item y :: st) : Go ε Stack) =
    pure (item (Arith.flag (y.toNat < x.toNat)) :: st) := by
  rw [opGt, binary, item_flag]
  simp only [gt_iff_lt, item_lt_item]

theorem opSlt_eq : (opSlt (item x :: item y :: st) : Go ε Stack) =
    pure (item (Arith.flag (x.toInt < y.toInt)) :: st) := by
  rw [opSlt, binary, item_flag, s256_item, s256_item, s256_toInt]

theorem opSgt_eq : (opSgt (item x :: item y :: st) : Go ε Stack) =
    pure (item (Arith.flag (y.toInt < x.toInt)) :: st) := by
  rw [opSgt, binary, item_flag, s256_item, s256_item]

theorem opByte_eq : (opByte (item x :: item y :: st) : Go ε Stack) =
    pure (item (if x.toNat < 32 then (y >>> (8 * (31 - x.toNat))) &&& 0xff else 0) :: st) := by
  have hth : item x < 32 ↔ x.toNat < 32 := by
    rw [item]
    norm_cast
  rw [opByte, binary]
  simp only [hth]
  split_ifs with h
  · rw [← item_byte y h]
    rfl
  · rfl

theorem item_pos : item z > 0 ↔ z ≠ 0 := by
  rw [ne_eq, ← item_eq_zero, item]
  omega

theorem item_ofNat_mod (n : Nat) :
    item (BitVec.ofNat 256 (n % z.toNat)) = u256 ((n : Int) % item z) := by
  rw [u256_eq]
  rfl

theorem opAddmod_eq : (opAddmod (item x :: item y :: item z :: st) : Go ε Stack) =
    pure (item (if z = 0 then 0 else BitVec.ofNat 256 ((x.toNat + y.toNat) % z.toNat)) :: st) := by
  rw [opAddmod, ternary]
  simp only [item_pos, ite_not]
  split_ifs with h
  · rfl
  · rw [item_ofNat_mod z]
    rfl

theorem opMulmod_eq : (opMulmod (item x :: item y :: item z :: st) : Go ε Stack) =
    pure (item (if z = 0 then 0 else BitVec.ofNat 256 (x.toNat * y.toNat % z.toNat)) :: st) := by
  rw [opMulmod, ternary]
  simp only [item_pos, ite_not]
  split_ifs with h
  · rfl
  · rw [item_ofNat_mod z]
    rfl

end

-- Every arithmetic instruction leaves the value that its definition on words gives.
theorem Arith.exec_eq {ε : Type} (arch : Arch) (op : Arith) (x y z : Word) (st : Stack) :
    (op.exec arch (([x, y, z].take op.arity).map item ++ st) : Go ε Stack) =
      pure (item (op.value x y z) :: st) := by
  cases op
  case add        => exact opAdd_eq x y st
  case sub        => exact opSub_eq x y st
  case mul        => exact opMul_eq x y st
  case div        => exact opDiv_eq x y st
  case sdiv       => exact opSdiv_eq x y st
  case mod        => exact opMod_eq x y st
  case smod       => exact opSmod_eq x y st
  case exp        => exact opExp_eq x y st arch
  case signextend => exact opSignExtend_eq x y st
  case lt         => exact opLt_eq x y st
  case gt         => exact opGt_eq x y st
  case slt        => exact opSlt_eq x y st
  case sgt        => exact opSgt_eq x y st
  case not        => exact opNot_eq x st
  case byte       => exact opByte_eq x y st
  case addmod     => exact opAddmod_eq x y z st
  case mulmod     => exact opMulmod_eq x y z st

end Vm
