import Mathlib.Tactic
import Mathlib.Data.Int.Bitwise

-- Unbounded integers as words in two's complement: masks, signs and quotients.

namespace TwosComplement

theorem ldiff_mask (k m : Nat) : Nat.ldiff (2 ^ k - 1) m = 2 ^ k - (m % 2 ^ k + 1) := by
  apply Nat.eq_of_testBit_eq
  intro i
  rw [Nat.testBit_two_pow_sub_succ (Nat.mod_lt _ (by positivity)), Nat.testBit_ldiff]
  by_cases hi : i < k <;> simp [hi]

theorem mask_eq (k : Nat) : (2 ^ k - 1 : Int) = ((2 ^ k - 1 : Nat) : Int) := by
  rw [Nat.cast_sub Nat.one_le_two_pow]
  norm_cast

theorem land_mask (x : Int) (k : Nat) : x.land (2 ^ k - 1) = x % 2 ^ k := by
  rw [mask_eq]
  cases x
  case ofNat m =>
    change ((m &&& 2 ^ k - 1 : Nat) : Int) = _
    rw [Nat.and_two_pow_sub_one_eq_mod]
    norm_cast
  case negSucc m =>
    change ((Nat.ldiff (2 ^ k - 1) m : Nat) : Int) = _
    rw [ldiff_mask, Int.negSucc_emod _ (by positivity), Nat.cast_sub (by omega)]
    push_cast
    ring

theorem lor_lnot_mask (n k : Nat) : (n : Int).lor (2 ^ k - 1 : Int).lnot = n % 2 ^ k - 2 ^ k := by
  rw [mask_eq]
  change Int.negSucc (Nat.ldiff (2 ^ k - 1) n) = _
  rw [ldiff_mask, Int.negSucc_eq, Nat.cast_sub (by omega)]
  push_cast
  ring

theorem lnot_eq (x : Int) : x.lnot = -x - 1 := by
  cases x
  case ofNat m =>
    change Int.negSucc m = _
    rw [Int.negSucc_eq]
    simp
    ring
  case negSucc m =>
    change (m : Int) = _
    rw [Int.negSucc_eq]
    ring

theorem bmod_two_pow_succ (n k : Nat) :
    (n : Int).bmod (2 ^ (k + 1)) = if n.testBit k then (n % 2 ^ k - 2 ^ k : Int) else n % 2 ^ k := by
  have hmod : n % 2 ^ (k + 1) = n % 2 ^ k + 2 ^ k * (n / 2 ^ k % 2) := by
    rw [pow_succ, Nat.mod_mul]
  have hlt : n % 2 ^ k < 2 ^ k := Nat.mod_lt _ (by positivity)
  have hhalf : ((2 ^ (k + 1) : Nat) + 1 : Int) / 2 = (2 ^ k : Nat) := by
    omega
  rw [Int.bmod_def, hhalf, ← Int.natCast_mod, hmod, Nat.testBit_eq_decide_div_mod_eq]
  obtain h | h := Nat.mod_two_eq_zero_or_one (n / 2 ^ k)
  · rw [h, if_pos (by exact_mod_cast hlt)]
    simp
  · rw [h, if_neg (by omega)]
    simp
    ring

section

variable {w : Nat}

theorem toNat_ofInt (x : Int) : ((BitVec.ofInt w x).toNat : Int) = x % 2 ^ w := by
  have hpos : 0 ≤ x % (2 ^ w : Nat) := Int.emod_nonneg _ (by positivity)
  rw [BitVec.toNat_ofInt, Int.toNat_of_nonneg hpos]
  norm_cast

theorem toNat_eq_ofInt (x : BitVec w) : (x.toNat : Int) = x.toNat % 2 ^ w := by
  have hlt := x.isLt
  norm_cast
  exact (Nat.mod_eq_of_lt hlt).symm

theorem toInt_eq_ite (x : BitVec (w + 1)) :
    x.toInt = if (x.toNat : Int) < 2 ^ w then (x.toNat : Int) else x.toNat - 2 ^ (w + 1) := by
  rw [BitVec.toInt_eq_toNat_cond]
  have hiff : 2 * x.toNat < 2 ^ (w + 1) ↔ (x.toNat : Int) < 2 ^ w := by
    norm_cast
    omega
  simp only [hiff]
  norm_cast

end

theorem div_mul_sign (m n : Nat) :
    (m : Int) / n * (if -((m : Int) * n) < 0 then -1 else 1) = -((m : Int) / n) := by
  split_ifs with h
  · ring
  · have hz : m = 0 ∨ n = 0 := by
      have : (m : Int) * n = 0 := le_antisymm (by omega) (by positivity)
      exact_mod_cast mul_eq_zero.mp this
    obtain rfl | rfl := hz <;> simp

theorem tdiv_eq (x y : Int) :
    x.tdiv y = (x.natAbs : Int) / y.natAbs * (if x * y < 0 then -1 else 1) := by
  have hpos (m n : Nat) : ¬(m : Int) * n < 0 := not_lt.mpr (by positivity)
  obtain ⟨m, rfl | rfl⟩ := Int.eq_nat_or_neg x <;> obtain ⟨n, rfl | rfl⟩ := Int.eq_nat_or_neg y
  · rw [if_neg (hpos m n), mul_one]
    rfl
  · rw [Int.tdiv_neg, mul_neg, Int.natAbs_neg, Int.natAbs_natCast, Int.natAbs_natCast, div_mul_sign]
    rfl
  · rw [Int.neg_tdiv, neg_mul, Int.natAbs_neg, Int.natAbs_natCast, Int.natAbs_natCast, div_mul_sign]
    rfl
  · rw [Int.neg_tdiv_neg, neg_mul_neg, if_neg (hpos m n), mul_one, Int.natAbs_neg, Int.natAbs_neg]
    rfl

theorem tmod_eq (x y : Int) :
    x.tmod y = (x.natAbs : Int) % y.natAbs * (if x < 0 then -1 else 1) := by
  have hy : x.tmod y = x.tmod y.natAbs := by
    obtain ⟨n, rfl | rfl⟩ := Int.eq_nat_or_neg y
    · rfl
    · rw [Int.tmod_neg, Int.natAbs_neg, Int.natAbs_natCast]
  rw [hy]
  obtain ⟨m, rfl | rfl⟩ := Int.eq_nat_or_neg x
  · rw [if_neg (by omega), mul_one]
    rfl
  · rw [Int.neg_tmod, Int.natAbs_neg]
    by_cases hm : m = 0
    · simp [hm]
    · rw [if_pos (by omega), mul_neg_one]
      rfl

end TwosComplement
