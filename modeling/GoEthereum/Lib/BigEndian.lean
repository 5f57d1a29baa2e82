import Mathlib.Tactic

-- Fixed width big endian integers over bytes. A format chooses the width.

abbrev Bytes := List UInt8

def bigEndian : Nat → Nat → Bytes
  | 0,     _ => []
  | k + 1, n => UInt8.ofNat (n / 256 ^ k) :: bigEndian k n

def ofBigEndian (b : Bytes) : Nat :=
  b.foldl (fun n c => n * 256 + c.toNat) 0

@[simp]
theorem bigEndian_length : (k n : Nat) → (bigEndian k n).length = k
  | 0,     _ => rfl
  | k + 1, n => by simp [bigEndian, bigEndian_length k n]

theorem foldl_bigEndian (k n a : Nat) :
    (bigEndian k n).foldl (fun n c => n * 256 + c.toNat) a = a * 256 ^ k + n % 256 ^ k := by
  induction k generalizing a
  case zero => simp [bigEndian, Nat.mod_one]
  case succ k hi =>
    have hb : (UInt8.ofNat (n / 256 ^ k)).toNat = n / 256 ^ k % 256 := by simp
    rw [bigEndian, List.foldl_cons, hi, hb, pow_succ, Nat.mod_mul]
    ring

theorem ofBigEndian_bigEndian (k n : Nat) : ofBigEndian (bigEndian k n) = n % 256 ^ k := by
  simp [ofBigEndian, foldl_bigEndian]

theorem bigEndian_head {k n : Nat} (hl : 256 ^ k ≤ n) (hu : n < 256 ^ (k + 1)) :
    (bigEndian (k + 1) n).head? ≠ some 0 := by
  have hd : n / 256 ^ k < 256 := Nat.div_lt_of_lt_mul (by omega)
  have hp : 0 < n / 256 ^ k := Nat.div_pos hl (by positivity)
  simp only [bigEndian, List.head?_cons, ne_eq, Option.some.injEq]
  intro h
  have h := congrArg UInt8.toNat h
  simp at h
  omega

theorem foldl_ofBigEndian (b : Bytes) (a : Nat) :
    b.foldl (fun n c => n * 256 + c.toNat) a = a * 256 ^ b.length + ofBigEndian b := by
  induction b generalizing a
  case nil => simp [ofBigEndian]
  case cons c b hi =>
    simp only [ofBigEndian, List.foldl_cons] at hi ⊢
    rw [hi, hi (0 * 256 + c.toNat), List.length_cons]
    ring

theorem ofBigEndian_cons (c : UInt8) (b : Bytes) :
    ofBigEndian (c :: b) = c.toNat * 256 ^ b.length + ofBigEndian b := by
  rw [ofBigEndian, List.foldl_cons, foldl_ofBigEndian]
  simp

theorem ofBigEndian_append (a b : Bytes) :
    ofBigEndian (a ++ b) = ofBigEndian a * 256 ^ b.length + ofBigEndian b := by
  rw [ofBigEndian, List.foldl_append, foldl_ofBigEndian]
  rfl

theorem ofBigEndian_zeros_append (n : Nat) (b : Bytes) :
    ofBigEndian (List.replicate n 0 ++ b) = ofBigEndian b := by
  induction n
  case zero => rfl
  case succ n hi =>
    rw [List.replicate_succ, List.cons_append, ofBigEndian_cons, hi]
    simp

theorem ofBigEndian_trim (b : Bytes) : ofBigEndian (b.dropWhile (· = 0)) = ofBigEndian b := by
  induction b
  case nil => rfl
  case cons c b hi =>
    rw [List.dropWhile_cons]
    split_ifs with hc
    · have hz : c = 0 := by simpa using hc
      rw [hi, ofBigEndian_cons, hz]
      simp
    · rfl

theorem ofBigEndian_lt (b : Bytes) : ofBigEndian b < 256 ^ b.length := by
  induction b
  case nil => simp [ofBigEndian]
  case cons c b hi =>
    have hc : (c.toNat + 1) * 256 ^ b.length ≤ 256 * 256 ^ b.length :=
      Nat.mul_le_mul_right _ c.toNat_lt
    rw [ofBigEndian_cons, List.length_cons, pow_succ]
    linarith

theorem ofBigEndian_ge {c : UInt8} (hc : c ≠ 0) (b : Bytes) :
    256 ^ b.length ≤ ofBigEndian (c :: b) := by
  have hpos : 0 < c.toNat := by
    apply Nat.pos_of_ne_zero
    intro h
    exact hc (UInt8.toNat_inj.mp (h.trans UInt8.toNat_zero.symm))
  rw [ofBigEndian_cons]
  exact (Nat.le_mul_of_pos_left _ hpos).trans (Nat.le_add_right ..)

theorem bigEndian_add_mul (k m n : Nat) : bigEndian k (m * 256 ^ k + n) = bigEndian k n := by
  induction k generalizing m
  case zero => rfl
  case succ k hi =>
    have hm : m * 256 ^ (k + 1) = m * 256 * 256 ^ k := by ring
    have hd : (m * 256 * 256 ^ k + n) / 256 ^ k = m * 256 + n / 256 ^ k := by
      rw [Nat.add_comm, Nat.add_mul_div_right _ _ (by positivity), Nat.add_comm]
    have hc : UInt8.ofNat (m * 256 + n / 256 ^ k) = UInt8.ofNat (n / 256 ^ k) := by
      simp
    rw [bigEndian, bigEndian, hm, hd, hc, hi]

theorem bigEndian_ofBigEndian (b : Bytes) : bigEndian b.length (ofBigEndian b) = b := by
  induction b
  case nil => rfl
  case cons c b hi =>
    have hlt := ofBigEndian_lt b
    have hd : (c.toNat * 256 ^ b.length + ofBigEndian b) / 256 ^ b.length = c.toNat := by
      rw [Nat.add_comm, Nat.add_mul_div_right _ _ (by positivity), Nat.div_eq_of_lt hlt,
        Nat.zero_add]
    rw [List.length_cons, bigEndian, ofBigEndian_cons, hd, UInt8.ofNat_toNat,
      bigEndian_add_mul, hi]

-- The shortest bytes of a number, none for zero.
def leastBigEndian (n : Nat) : Bytes :=
  if n = 0 then [] else leastBigEndian (n / 256) ++ [UInt8.ofNat n]

theorem ofBigEndian_append_single (b : Bytes) (c : UInt8) :
    ofBigEndian (b ++ [c]) = ofBigEndian b * 256 + c.toNat := by
  simp [ofBigEndian]

theorem ofBigEndian_leastBigEndian (n : Nat) : ofBigEndian (leastBigEndian n) = n := by
  induction n using leastBigEndian.induct
  case case1 => simp [leastBigEndian, ofBigEndian]
  case case2 n hn hi =>
    rw [leastBigEndian, if_neg hn, ofBigEndian_append_single]
    simp
    omega

theorem leastBigEndian_head (n : Nat) : (leastBigEndian n).head? ≠ some 0 := by
  induction n using leastBigEndian.induct
  case case1 => simp [leastBigEndian]
  case case2 n hn hi =>
    rw [leastBigEndian, if_neg hn]
    by_cases hz : n / 256 = 0
    · have hb : leastBigEndian (n / 256) = [] := by rw [hz, leastBigEndian, if_pos rfl]
      rw [hb, List.nil_append, List.head?_cons, ne_eq, Option.some.injEq]
      intro h
      have h := congrArg UInt8.toNat h
      simp at h
      omega
    · have hb : leastBigEndian (n / 256) ≠ [] := by
        rw [leastBigEndian, if_neg hz]
        simp
      rwa [List.head?_append_of_ne_nil _ hb]

theorem leastBigEndian_step {n : Nat} {c : UInt8} (h : n * 256 + c.toNat ≠ 0) :
    leastBigEndian (n * 256 + c.toNat) = leastBigEndian n ++ [c] := by
  have hlt := c.toNat_lt
  have hd : (n * 256 + c.toNat) / 256 = n := by omega
  have hc : UInt8.ofNat (n * 256 + c.toNat) = c := by
    simp
  rw [leastBigEndian, if_neg h, hd, hc]

theorem eq_leastBigEndian {b : Bytes} (h : b.head? ≠ some 0) :
    b = leastBigEndian (ofBigEndian b) := by
  induction b using List.reverseRecOn
  case nil => simp [ofBigEndian, leastBigEndian]
  case append_singleton b c hi =>
    rw [ofBigEndian_append_single]
    by_cases hb : b = []
    · subst hb
      have hc : c.toNat ≠ 0 := by
        intro hc
        exact h (by simp [UInt8.toNat_inj.mp (hc.trans UInt8.toNat_zero.symm)])
      rw [leastBigEndian_step (by simpa [ofBigEndian] using hc)]
      simp [ofBigEndian, leastBigEndian]
    · rw [List.head?_append_of_ne_nil _ hb] at h
      have hn : ofBigEndian b ≠ 0 := by
        intro hz
        exact hb (by rw [hi h, hz, leastBigEndian, if_pos rfl])
      rw [leastBigEndian_step (by omega), ← hi h]

theorem leastBigEndian_length_le {n k : Nat} (h : n < 256 ^ k) : (leastBigEndian n).length ≤ k := by
  induction n using leastBigEndian.induct generalizing k
  case case1 => simp [leastBigEndian]
  case case2 n hn hi =>
    obtain ⟨k, rfl⟩ : ∃ j, k = j + 1 :=
      Nat.exists_eq_add_one.mpr (Nat.pos_of_ne_zero (by rintro rfl; omega))
    have hk := hi (k := k) (Nat.div_lt_of_lt_mul (by omega))
    rw [leastBigEndian, if_neg hn]
    simpa using hk

theorem zeros_append_leastBigEndian {n k : Nat} (h : n < 256 ^ k) :
    List.replicate (k - (leastBigEndian n).length) 0 ++ leastBigEndian n = bigEndian k n := by
  have hl := leastBigEndian_length_le h
  have := bigEndian_ofBigEndian
    (List.replicate (k - (leastBigEndian n).length) 0 ++ leastBigEndian n)
  rw [ofBigEndian_zeros_append, ofBigEndian_leastBigEndian, List.length_append,
    List.length_replicate, Nat.sub_add_cancel hl] at this
  exact this.symm
