import Mathlib.Tactic

-- Natural numbers rounded to the nearest single precision number, ties to the even significand.

namespace SinglePrecision

def digits : Nat :=
  24

-- The place of the last digit that is kept.
def shift (n : Nat) : Nat :=
  n.log2 + 1 - digits

-- The quotient of `n` by `2 ^ e`, rounded.
def roundShift (n e : Nat) : Nat :=
  let q := n / 2 ^ e
  let r := n % 2 ^ e
  if 2 ^ e < 2 * r ∨ 2 ^ e = 2 * r ∧ q % 2 = 1 then q + 1 else q

-- `float32(n)`, the number that it stands for.
def round (n : Nat) : Nat :=
  roundShift n (shift n) * 2 ^ shift n

section

variable {n m e : Nat}

theorem le_roundShift : n / 2 ^ e ≤ roundShift n e := by
  grind [roundShift]

theorem roundShift_le : roundShift n e ≤ n / 2 ^ e + 1 := by
  grind [roundShift]

theorem roundShift_mono (h : n ≤ m) : roundShift n e ≤ roundShift m e := by
  have hq : n / 2 ^ e ≤ m / 2 ^ e := Nat.div_le_div_right h
  obtain hlt | heq := Nat.lt_or_eq_of_le hq
  · exact roundShift_le.trans (Nat.succ_le_of_lt hlt |>.trans le_roundShift)
  · have hr : n % 2 ^ e ≤ m % 2 ^ e := by
      have h₁ := Nat.div_add_mod n (2 ^ e)
      have h₂ := Nat.div_add_mod m (2 ^ e)
      rw [heq] at h₁
      omega
    simp only [roundShift, heq]
    split
    case isTrue h₁ =>
      have h₂ : 2 ^ e < 2 * (m % 2 ^ e) ∨ 2 ^ e = 2 * (m % 2 ^ e) ∧ m / 2 ^ e % 2 = 1 := by omega
      rw [if_pos h₂]
    case isFalse _ => split <;> omega

end

theorem round_of_lt {n : Nat} (h : n < 2 ^ digits) : round n = n := by
  have hs : shift n = 0 := by
    obtain rfl | hn := Nat.eq_zero_or_pos n
    · rfl
    · have := (Nat.log2_lt (by omega)).mpr h
      rw [shift]
      omega
  simp [round, hs, roundShift, Nat.mod_one]

section

variable {n : Nat}

theorem round_le : round n ≤ 2 ^ (n.log2 + 1) := by
  have hn : n < 2 ^ (n.log2 + 1) := Nat.lt_log2_self
  have he : 2 ^ (n.log2 + 1) = 2 ^ (n.log2 + 1 - shift n) * 2 ^ shift n := by
    rw [← Nat.pow_add]
    congr 1
    rw [shift]
    omega
  have hq : n / 2 ^ shift n + 1 ≤ 2 ^ (n.log2 + 1 - shift n) := by
    rw [he] at hn
    exact (Nat.div_lt_iff_lt_mul (Nat.two_pow_pos _)).mpr hn
  rw [he]
  exact Nat.mul_le_mul_right _ (roundShift_le.trans hq)

theorem le_round (h : n ≠ 0) : 2 ^ n.log2 ≤ round n := by
  have he : 2 ^ n.log2 = 2 ^ (n.log2 - shift n) * 2 ^ shift n := by
    rw [← Nat.pow_add]
    congr 1
    rw [shift, digits]
    omega
  have hq : 2 ^ (n.log2 - shift n) ≤ n / 2 ^ shift n := by
    rw [Nat.le_div_iff_mul_le (Nat.two_pow_pos _), ← he]
    exact Nat.log2_self_le h
  rw [he]
  exact Nat.mul_le_mul_right _ (hq.trans le_roundShift)

end

theorem round_mono {n m : Nat} (h : n ≤ m) : round n ≤ round m := by
  obtain rfl | hn := Nat.eq_zero_or_pos n
  · exact Nat.zero_le _
  have hlog : n.log2 ≤ m.log2 := by
    rw [Nat.le_log2 (by omega)]
    exact (Nat.log2_self_le (by omega)).trans h
  by_cases hs : shift n = shift m
  · rw [round, hs]
    exact Nat.mul_le_mul_right _ (roundShift_mono h)
  · have hlt : n.log2 + 1 ≤ m.log2 := by
      rw [shift, shift] at hs
      omega
    calc round n
      _ ≤ 2 ^ (n.log2 + 1) := round_le
      _ ≤ 2 ^ m.log2       := Nat.pow_le_pow_right (by omega) hlt
      _ ≤ round m          := le_round (by omega)

end SinglePrecision
