import GoEthereum.Common

namespace Rlp

-- What the encoder is given: a byte slice is a string, a slice or struct is the list of its
-- elements.
inductive Item
  | str  (b : Bytes)
  | list (xs : List Item)

-- The number of bytes needed to represent `i`, for `i` of type `uint64`.
def intsize (i : Nat) : Nat :=
  if i < 2 ^ 8 then 1
  else if i < 2 ^ 16 then 2
  else if i < 2 ^ 24 then 3
  else if i < 2 ^ 32 then 4
  else if i < 2 ^ 40 then 5
  else if i < 2 ^ 48 then 6
  else if i < 2 ^ 56 then 7
  else 8

def putint (i : Nat) : Bytes :=
  bigEndian (intsize i) i

def headsize (size : Nat) : Nat :=
  if size < 56 then 1 else 1 + intsize size

def puthead (smalltag largetag size : Nat) : Bytes :=
  if size < 56 then
    [UInt8.ofNat (smalltag + size)]
  else
    UInt8.ofNat (largetag + intsize size) :: putint size

def encodeString (b : Bytes) : Bytes :=
  match b with
  | [c] => if c ≤ 0x7F then [c] else puthead 0x80 0xB7 1 ++ [c]
  | b   => puthead 0x80 0xB7 b.length ++ b

mutual

def encode : Item → Bytes
  | .str b   => encodeString b
  | .list xs => puthead 0xC0 0xF7 (encodeList xs).length ++ encodeList xs

def encodeList : List Item → Bytes
  | []      => []
  | x :: xs => encode x ++ encodeList xs

end

theorem intsize_spec {i : Nat} (h : i < 2 ^ 64) :
    1 ≤ intsize i ∧ intsize i ≤ 8 ∧ i < 256 ^ intsize i := by
  unfold intsize
  split_ifs <;> norm_num <;> omega

theorem intsize_minimal {i : Nat} (h : 0 < i) : 256 ^ (intsize i - 1) ≤ i := by
  unfold intsize
  split_ifs <;> norm_num <;> omega

@[simp]
theorem putint_length (i : Nat) : (putint i).length = intsize i :=
  bigEndian_length ..

theorem ofBigEndian_putint {n : Nat} (h : n < 2 ^ 64) : ofBigEndian (putint n) = n := by
  rw [putint, ofBigEndian_bigEndian, Nat.mod_eq_of_lt (intsize_spec h).right.right]

theorem putint_head {n : Nat} (hl : 0 < n) (hu : n < 2 ^ 64) : (putint n).head? ≠ some 0 := by
  obtain ⟨h₁, _, h₂⟩ := intsize_spec hu
  have hm := intsize_minimal hl
  obtain ⟨k, hk⟩ := Nat.exists_eq_add_of_le' h₁
  rw [hk] at hm
  rw [putint, hk]
  exact bigEndian_head hm (hk ▸ h₂)

theorem intsize_eq {n k : Nat} (hk : k < 8) (hl : 256 ^ k ≤ n) (hu : n < 256 ^ (k + 1)) :
    intsize n = k + 1 := by
  have hn : n < 256 ^ 8 := hu.trans_le (Nat.pow_le_pow_right (by omega) hk)
  obtain ⟨_, _, h₂⟩ := intsize_spec (hn.trans_le (by norm_num))
  have hm := intsize_minimal (lt_of_lt_of_le (by positivity) hl)
  have h₁ := (Nat.pow_lt_pow_iff_right (by omega)).mp (hl.trans_lt h₂)
  have h₃ := (Nat.pow_lt_pow_iff_right (by omega)).mp (hm.trans_lt hu)
  omega

theorem putint_ofBigEndian {b : Bytes} (hl : 1 ≤ b.length) (hu : b.length ≤ 8)
    (hz : b.head? ≠ some 0) :
    putint (ofBigEndian b) = b ∧ intsize (ofBigEndian b) = b.length := by
  obtain ⟨c, b, rfl⟩ := List.exists_cons_of_length_pos hl
  have hc : c ≠ 0 := fun h => hz (by rw [h]; rfl)
  have hs : intsize (ofBigEndian (c :: b)) = (c :: b).length :=
    intsize_eq (by simpa using hu) (ofBigEndian_ge hc b) (ofBigEndian_lt _)
  exact ⟨by rw [putint, hs, bigEndian_ofBigEndian], hs⟩

theorem puthead_length (s l size : Nat) : (puthead s l size).length = headsize size := by
  unfold puthead headsize
  split_ifs <;> simp [Nat.add_comm]

theorem puthead_ne_nil (s l size : Nat) : puthead s l size ≠ [] := by
  unfold puthead
  split_ifs <;> simp

theorem headsize_le (size : Nat) : headsize size ≤ 9 := by
  unfold headsize intsize
  split_ifs <;> omega

theorem le_iff_toNat_lt {c : UInt8} : c ≤ 0x7F ↔ c.toNat < 0x80 := by
  rw [UInt8.le_iff_toNat_le]
  simp
  omega

theorem encodeString_byte {c : UInt8} (h : c.toNat < 0x80) : encodeString [c] = [c] := by
  rw [encodeString, if_pos (le_iff_toNat_lt.mpr h)]

theorem encodeString_string {b : Bytes} (h : ∀ c, b = [c] → ¬(c.toNat < 0x80)) :
    encodeString b = puthead 0x80 0xB7 b.length ++ b := by
  unfold encodeString
  split
  case h_1 c => rw [if_neg (mt le_iff_toNat_lt.mp (h c rfl))]; rfl
  case h_2   => rfl

theorem encodeString_length_le (b : Bytes) : (encodeString b).length ≤ b.length + 9 := by
  unfold encodeString
  split
  case h_1 c => split_ifs <;> simp [puthead_length, headsize]
  case h_2   => have := headsize_le b.length; simp [puthead_length]; omega

theorem encodeString_ne_nil (b : Bytes) : encodeString b ≠ [] := by
  unfold encodeString
  split
  case h_1 => split_ifs <;> simp
  case h_2 => simp [puthead_ne_nil]

theorem encode_ne_nil : (x : Item) → encode x ≠ []
  | .str b   => by simp [encode, encodeString_ne_nil]
  | .list xs => by simp [encode, puthead_ne_nil]

theorem encodeList_eq_flatten (xs : List Item) : encodeList xs = (xs.map encode).flatten := by
  induction xs
  case nil         => simp [encodeList]
  case cons x xs h => simp [encodeList, h]

end Rlp
