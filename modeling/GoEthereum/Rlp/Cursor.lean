import GoEthereum.Rlp.Stream

-- What the methods of a stream do on an encoding, and that where they succeed there was one.

namespace Rlp.Stream

-- The innermost list has room for `n` more bytes.
def Fits : List ListPos → Nat → Prop
  | [],       _ => True
  | tos :: _, n => tos.pos + n ≤ tos.size ∧ tos.size < 2 ^ 64

def advance : List ListPos → Nat → List ListPos
  | [],           _ => []
  | tos :: stack, n => ⟨tos.pos + n, tos.size⟩ :: stack

@[simp]
theorem advance_advance (stack : List ListPos) (m n : Nat) :
    advance (advance stack m) n = advance stack (m + n) := by
  cases stack <;> simp [advance, Nat.add_assoc]

@[simp]
theorem advance_zero (stack : List ListPos) : advance stack 0 = stack := by
  cases stack <;> rfl

@[simp]
theorem fits_advance {stack : List ListPos} {m n : Nat} :
    Fits (advance stack m) n ↔ Fits stack (m + n) := by
  cases stack <;> simp [advance, Fits, Nat.add_assoc]

theorem Fits.le {stack : List ListPos} {m n : Nat} (h : Fits stack n) (hm : m ≤ n) :
    Fits stack m := by
  cases stack
  case nil  => trivial
  case cons => exact ⟨by have := h.left; omega, h.right⟩

-- `input` is left to be read, and the limit is what is left.
structure Cursor (s : Stream) (b : Bytes) (l : List ListPos) : Prop where
  input     : s.input = b
  limited   : s.limited = true
  remaining : s.remaining = b.length
  stack     : s.stack = l

structure At (s : Stream) (b : Bytes) (l : List ListPos) : Prop extends Cursor s b l where
  kind : s.kind = none

structure Ahead (s : Stream) (k : Kind) (n : Nat) (c : UInt8) (b : Bytes) (l : List ListPos) : Prop
    extends Cursor s b l where
  kind    : s.kind = some k
  size    : s.size = n
  byteval : k = .byte → s.byteval = c
  kinderr : s.kinderr = none

theorem at_new (b : Bytes) : At (new b) b [] :=
  ⟨⟨rfl, rfl, rfl, rfl⟩, rfl⟩

variable {s s' : Stream} {input rest : Bytes} {stack : List ListPos} {n : Nat}

theorem left_eq {tos : ListPos} (h : Fits (tos :: stack) 0) : tos.left = tos.size - tos.pos := by
  obtain ⟨h₁, h₂⟩ := h
  unfold ListPos.left
  omega

theorem advance_eq {tos : ListPos} (h : Fits (tos :: stack) n) :
    tos.advance n = ⟨tos.pos + n, tos.size⟩ := by
  obtain ⟨h₁, h₂⟩ := h
  simp only [ListPos.advance, ListPos.mk.injEq, and_true]
  omega

theorem willReadList_ok (hs : s.stack = stack) (hf : Fits stack n) :
    willReadList n s = (.ok (), { s with stack := advance stack n }) := by
  unfold willReadList
  rw [hs]
  cases stack
  case nil => simp [advance, ← hs]
  case cons tos outer =>
    have hl := left_eq (hf.le (Nat.zero_le n))
    have hn : ¬(n > tos.left) := by have := hf.left; omega
    simp only [hn, if_false, advance_eq hf, advance]

theorem willReadList_inv {u : Unit} (hs : s.stack = stack) (hw : Fits stack 0)
    (hr : willReadList n s = (.ok u, s')) : Fits stack n := by
  unfold willReadList at hr
  rw [hs] at hr
  cases stack
  case nil => trivial
  case cons tos outer =>
    have hl := left_eq hw
    by_cases hn : n > tos.left
    · simp [hn, Go.fail] at hr
    · exact ⟨by have := hw.left; omega, hw.right⟩

theorem rearm_ok (hc : Cursor s input stack) :
    ∃ s', rearm s = (.ok (), s') ∧ At s' input stack :=
  ⟨_, rfl, ⟨hc.input, hc.limited, hc.remaining, hc.stack⟩, rfl⟩

-- The input itself is not touched yet.
theorem willRead_ok (hc : Cursor s input stack) (hf : Fits stack n) (hn : n ≤ input.length) :
    ∃ s', willRead n s = (.ok (), s') ∧ s'.input = input ∧ s'.limited = true ∧ s'.kind = none ∧
      s'.remaining = input.length - n ∧ s'.stack = advance stack n := by
  obtain ⟨t, hr, ht⟩ := rearm_ok hc
  have hm : ¬(n > t.remaining) := by rw [ht.remaining]; omega
  rw [willRead, Act.bind_ok hr, Act.bind_ok (willReadList_ok ht.stack hf)]
  simp only [willReadLimit, ht.limited, if_true, hm, if_false]
  exact ⟨_, rfl, ht.input, rfl, ht.kind, by rw [ht.remaining], rfl⟩

theorem willRead_inv {u : Unit} (hc : Cursor s input stack) (hw : Fits stack 0)
    (hr : willRead n s = (.ok u, s')) : Fits stack n ∧ n ≤ input.length := by
  obtain ⟨t, ht, ha⟩ := rearm_ok hc
  rw [willRead, Act.bind_ok ht] at hr
  obtain ⟨_, t', hl, hr⟩ := Act.bind_eq_ok.mp hr
  have hf := willReadList_inv ha.stack hw hl
  refine ⟨hf, ?_⟩
  obtain rfl : _ = t' := congrArg Prod.snd ((willReadList_ok ha.stack hf).symm.trans hl)
  by_contra hn
  have hm : n > t.remaining := by rw [ha.remaining]; omega
  simp [willReadLimit, ha.limited, hm, Go.fail] at hr

theorem readFull_ok {b : Bytes} (hc : Cursor s (b ++ rest) stack) (hb : b.length = n)
    (hf : Fits stack n) :
    ∃ s', readFull n s = (.ok ⟨b, hb⟩, s') ∧ At s' rest (advance stack n) := by
  obtain ⟨t, hw, hi, hl, hk, hm, hs⟩ := willRead_ok hc hf (by simp [hb])
  have hn : n ≤ t.input.length := by simp [hi, hb]
  have hfill : fill n t = (.ok ⟨b, hb⟩, { t with input := rest }) := by
    rw [fill]
    simp [hi, ← hb]
  refine ⟨{ t with input := rest }, ?_, ⟨rfl, hl, by simp [hm, hb], hs⟩, hk⟩
  rw [readFull, Act.bind_ok hw, hfill]

theorem readFull_inv {b : { b : Bytes // b.length = n }} (hc : Cursor s input stack)
    (hw : Fits stack 0) (hr : readFull n s = (.ok b, s')) :
    ∃ rest, input = b.val ++ rest ∧ Fits stack n ∧ At s' rest (advance stack n) := by
  obtain ⟨u, t, hu, _⟩ := Act.bind_eq_ok.mp hr
  obtain ⟨hf, hn⟩ := willRead_inv hc hw hu
  have hc' : Cursor s (input.take n ++ input.drop n) stack := by rwa [List.take_append_drop]
  obtain ⟨t', ht, ha⟩ := readFull_ok hc' (List.length_take_of_le hn) hf
  obtain ⟨rfl, rfl⟩ : ⟨input.take n, List.length_take_of_le hn⟩ = b ∧ t' = s' := by
    simpa using ht.symm.trans hr
  exact ⟨input.drop n, (List.take_append_drop n input).symm, hf, ha⟩

theorem readByte_eq : readByte = (readFull 1 >>= fun b => pure (b.val.headD 0)) := by
  funext s
  simp only [readByte, readFull, bind]
  rcases willRead 1 s with ⟨_ | _, t⟩ <;> rfl

theorem readByte_ok {b : UInt8} (hc : Cursor s (b :: rest) stack) (hf : Fits stack 1) :
    ∃ s', readByte s = (.ok b, s') ∧ At s' rest (advance stack 1) := by
  obtain ⟨s', hr, ha⟩ := readFull_ok (b := [b]) (n := 1) hc rfl hf
  exact ⟨s', by rw [readByte_eq, Act.bind_ok hr]; rfl, ha⟩

theorem readByte_inv {b : UInt8} (hc : Cursor s input stack) (hw : Fits stack 0)
    (hr : readByte s = (.ok b, s')) : ∃ rest, input = b :: rest ∧ Fits stack 1 := by
  rw [readByte_eq] at hr
  obtain ⟨⟨c, hl⟩, t, hb, hv⟩ := Act.bind_eq_ok.mp hr
  obtain ⟨rest, hi, hf, _⟩ := readFull_inv hc hw hb
  obtain ⟨c, rfl⟩ := List.length_eq_one_iff.mp hl
  obtain ⟨rfl, -⟩ : c = b ∧ t = s' := by simpa using hv
  exact ⟨rest, hi, hf⟩

theorem readUint_ok {b : Bytes} (hc : Cursor s (b ++ rest) stack) (hb : b.length = n)
    (hf : Fits stack n) (hz : 2 ≤ n → b.head? ≠ some 0) :
    ∃ s', readUint n s = (.ok (ofBigEndian b), s') ∧ At s' rest (advance stack n) := by
  match n with
  | 0 =>
    obtain rfl := List.length_eq_zero_iff.mp hb
    exact ⟨_, rfl, ⟨hc.input, hc.limited, hc.remaining, by simpa using hc.stack⟩, rfl⟩
  | 1 =>
    obtain ⟨c, rfl⟩ := List.length_eq_one_iff.mp hb
    obtain ⟨s', hr, ha⟩ := readByte_ok hc hf
    exact ⟨s', by rw [readUint, Act.bind_ok hr]; simp [ofBigEndian], ha⟩
  | n + 2 =>
    obtain ⟨s', hr, ha⟩ := readFull_ok hc hb hf
    exact ⟨s', by simp only [readUint, Act.bind_ok hr]; rw [if_neg (hz (by omega))]; rfl, ha⟩

theorem readUint_inv {v : Nat} (hc : Cursor s input stack) (hw : Fits stack 0) (hn : 1 ≤ n)
    (hr : readUint n s = (.ok v, s')) : ∃ b rest, input = b ++ rest ∧ b.length = n ∧
      Fits stack n ∧ (2 ≤ n → b.head? ≠ some 0) ∧ v = ofBigEndian b := by
  match n with
  | 1 =>
    obtain ⟨c, t, hb, hv⟩ := Act.bind_eq_ok.mp hr
    obtain ⟨rest, hi, hf⟩ := readByte_inv hc hw hb
    obtain ⟨rfl, -⟩ : c.toNat = v ∧ t = s' := by simpa using hv
    exact ⟨[c], rest, hi, rfl, hf, by omega, by simp [ofBigEndian]⟩
  | n + 2 =>
    obtain ⟨b, t, hb, hv⟩ := Act.bind_eq_ok.mp hr
    obtain ⟨rest, hi, hf, _⟩ := readFull_inv hc hw hb
    by_cases hz : b.val.head? = some 0
    · simp [hz, Go.fail] at hv
    · obtain ⟨rfl, -⟩ : ofBigEndian b.val = v ∧ t = s' := by simpa [hz] using hv
      exact ⟨b.val, rest, hi, b.property, hf, fun _ => hz, rfl⟩

section

-- The bytes that announce a value. A single byte is its own header.
inductive Header : Kind → Nat → UInt8 → Bytes → Prop
  | byte   {c : UInt8} (h : c.toNat < 0x80) : Header .byte 0 c [c]
  | string {n : Nat} {c : UInt8} (h : n < 2 ^ 64) : Header .string n c (puthead 0x80 0xB7 n)
  | list   {n : Nat} {c : UInt8} (h : n < 2 ^ 64) : Header .list n c (puthead 0xC0 0xF7 n)

variable {k : Kind} {c : UInt8} {head : Bytes}

theorem Cursor.withByteval (hc : Cursor s input stack) (c : UInt8) :
    Cursor { s with byteval := c } input stack :=
  ⟨hc.input, hc.limited, hc.remaining, hc.stack⟩

theorem At.withByteval (ha : At s input stack) (c : UInt8) :
    At { s with byteval := c } input stack :=
  ⟨ha.toCursor.withByteval c, ha.kind⟩

theorem readSizeOf_ok (hc : Cursor s (putint n ++ rest) stack) (hl : 56 ≤ n) (hu : n < 2 ^ 64)
    (hf : Fits stack (intsize n)) :
    ∃ s', readSizeOf k (intsize n) s = (.ok (k, n, none), s') ∧
      At s' rest (advance stack (intsize n)) := by
  have hz : 2 ≤ intsize n → (putint n).head? ≠ some 0 := fun _ => putint_head (by omega) hu
  obtain ⟨s', hr, ha⟩ := readUint_ok hc (putint_length n) hf hz
  have hv : ofBigEndian (putint n) = n := ofBigEndian_putint hu
  refine ⟨s', ?_, ha⟩
  simp only [readSizeOf, hr, hv, if_neg (Nat.not_lt.mpr hl)]

theorem readSizeOf_inv {k' : Kind} {m : Nat} (hc : Cursor s input stack) (hw : Fits stack 0)
    (hm : 1 ≤ m) (hm' : m ≤ 8) (hr : readSizeOf k m s = (.ok (k', n, none), s')) :
    k' = k ∧ 56 ≤ n ∧ n < 2 ^ 64 ∧ m = intsize n ∧ Fits stack (intsize n) ∧
      ∃ rest, input = putint n ++ rest := by
  unfold readSizeOf at hr
  split at hr
  case h_1 v t hv =>
    obtain ⟨b, rest, hi, hb, hf, hz, hv⟩ := readUint_inv hc hw hm hv
    split_ifs at hr with hs
    · simp at hr
    · obtain ⟨rfl, rfl, -⟩ : k = k' ∧ v = n ∧ t = s' := by simpa [and_assoc] using hr
      have hz : b.head? ≠ some 0 := by
        by_cases h2 : 2 ≤ m
        · exact hz h2
        · obtain ⟨c, rfl⟩ := List.length_eq_one_iff.mp (hb.trans (by omega : m = 1))
          rintro ⟨⟩
          exact hs (by rw [hv]; decide)
      obtain ⟨h₁, h₂⟩ := putint_ofBigEndian (by omega) (by omega) hz
      rw [← hv] at h₁ h₂
      refine ⟨rfl, by omega, ?_, by omega, by rwa [h₂, hb], rest, by rw [h₁, hi]⟩
      rw [hv]
      exact (ofBigEndian_lt b).trans_le (by rw [hb]; interval_cases m <;> norm_num)
  case h_2 => simp at hr
  case h_3 => simp [Go.panics] at hr

section

variable {lo hi m : Nat} {b : UInt8} {t : Stream}

theorem tag_cases (b : UInt8) : b.toNat < 0x80 ∨ ∃ k lo hi, Tag k lo hi ∧
    ((∃ n, n < 56 ∧ b.toNat = lo + n) ∨ ∃ m, 1 ≤ m ∧ m ≤ 8 ∧ b.toNat = hi + m) := by
  have hlt := b.toNat_lt
  by_cases h₁ : b.toNat < 0x80
  · exact .inl h₁
  by_cases h₂ : b.toNat < 0xB8
  · exact .inr ⟨_, _, _, .string, .inl ⟨b.toNat - 0x80, by omega, by omega⟩⟩
  by_cases h₃ : b.toNat < 0xC0
  · exact .inr ⟨_, _, _, .string, .inr ⟨b.toNat - 0xB7, by omega, by omega, by omega⟩⟩
  by_cases h₄ : b.toNat < 0xF8
  · exact .inr ⟨_, _, _, .list, .inl ⟨b.toNat - 0xC0, by omega, by omega⟩⟩
  · exact .inr ⟨_, _, _, .list, .inr ⟨b.toNat - 0xF7, by omega, by omega, by omega⟩⟩

theorem Header.of_tag (ht : Tag k lo hi) (hn : n < 2 ^ 64) : Header k n c (puthead lo hi n) := by
  cases ht
  case string => exact .string hn
  case list   => exact .list hn

variable (hr : readByte s = (.ok b, t))

include hr

theorem readKind_byte (hb : b.toNat < 0x80) :
    readKind s = (.ok (.byte, 0, none), { t with byteval := b }) := by
  simp only [readKind, hr, if_pos hb]

theorem readKind_small (ht : Tag k lo hi) (hn : n < 56) (hb : b.toNat = lo + n) :
    readKind s = (.ok (k, n, none), { t with byteval := 0 }) := by
  simp only [readKind, hr]
  cases ht
  case string => rw [if_neg (by omega), if_pos (by omega), hb, Nat.add_sub_cancel_left]
  case list =>
    rw [if_neg (by omega), if_neg (by omega), if_neg (by omega), if_pos (by omega), hb,
      Nat.add_sub_cancel_left]

theorem readKind_large (ht : Tag k lo hi) (hl : 1 ≤ m) (hu : m ≤ 8) (hb : b.toNat = hi + m) :
    readKind s = readSizeOf k m { t with byteval := 0 } := by
  simp only [readKind, hr]
  cases ht
  case string =>
    rw [if_neg (by omega), if_neg (by omega), if_pos (by omega), hb, Nat.add_sub_cancel_left]
  case list =>
    rw [if_neg (by omega), if_neg (by omega), if_neg (by omega), if_neg (by omega), hb,
      Nat.add_sub_cancel_left]

end

theorem readKind_puthead {lo hi : Nat} (ht : Tag k lo hi)
    (hc : Cursor s (puthead lo hi n ++ rest) stack) (hn : n < 2 ^ 64)
    (hf : Fits stack (puthead lo hi n).length) : ∃ s', readKind s = (.ok (k, n, none), s') ∧
      At s' rest (advance stack (puthead lo hi n).length) := by
  have hle := ht.le
  rw [puthead_length] at hf ⊢
  unfold puthead at hc
  unfold headsize at hf ⊢
  split_ifs at hc hf ⊢ with hs
  · obtain ⟨t, hr, ha⟩ := readByte_ok hc hf
    have hb := UInt8.toNat_ofNat_of_lt' (show lo + n < UInt8.size by omega)
    exact ⟨_, readKind_small hr ht hs hb, ha.withByteval 0⟩
  · obtain ⟨h₁, h₈, _⟩ := intsize_spec hn
    obtain ⟨t, hr, ha⟩ := readByte_ok hc (hf.le (by omega))
    obtain ⟨t', hr', ha'⟩ := readSizeOf_ok (k := k) (ha.withByteval 0).toCursor (by omega) hn
      (fits_advance.mpr hf)
    have hb := UInt8.toNat_ofNat_of_lt' (show hi + intsize n < UInt8.size by omega)
    exact ⟨t', (readKind_large hr ht h₁ h₈ hb).trans hr', by simpa using ha'⟩

theorem readKind_ok (hc : Cursor s (head ++ rest) stack) (hh : Header k n c head)
    (hf : Fits stack head.length) :
    ∃ s', readKind s = (.ok (k, n, none), s') ∧ At s' rest (advance stack head.length) ∧
      (k = .byte → s'.byteval = c) := by
  cases hh
  case byte h =>
    obtain ⟨t, hr, ha⟩ := readByte_ok hc hf
    exact ⟨_, readKind_byte hr h, ha.withByteval c, fun _ => rfl⟩
  case string h =>
    obtain ⟨s', hr, ha⟩ := readKind_puthead .string hc h hf
    exact ⟨s', hr, ha, by simp⟩
  case list h =>
    obtain ⟨s', hr, ha⟩ := readKind_puthead .list hc h hf
    exact ⟨s', hr, ha, by simp⟩

theorem readKind_inv (hc : Cursor s input stack) (hw : Fits stack 0)
    (hr : readKind s = (.ok (k, n, none), s')) :
    ∃ head c rest, input = head ++ rest ∧ Header k n c head ∧ Fits stack head.length := by
  obtain ⟨b, t, hb⟩ : ∃ b t, readByte s = (.ok b, t) := by
    unfold readKind at hr
    split at hr
    case h_1       => simp at hr
    case h_2       => simp [Go.panics] at hr
    case h_3 b t h => exact ⟨b, t, h⟩
  obtain ⟨rest, rfl, hf⟩ := readByte_inv hc hw hb
  obtain hlt | ⟨k', lo, hi, ht, ⟨m, hm, hlo⟩ | ⟨m, hm, hm', hhi⟩⟩ := tag_cases b
  · obtain ⟨rfl, rfl⟩ : Kind.byte = k ∧ 0 = n := by
      simpa using congrArg Prod.fst ((readKind_byte hb hlt).symm.trans hr)
    exact ⟨[b], b, rest, rfl, .byte hlt, hf⟩
  · obtain ⟨rfl, rfl⟩ : k' = k ∧ m = n := by
      simpa using congrArg Prod.fst ((readKind_small hb ht hm hlo).symm.trans hr)
    have hp : puthead lo hi m = [b] := by rw [puthead, if_pos hm, ← hlo, UInt8.ofNat_toNat]
    exact ⟨_, 0, rest, by rw [hp]; rfl, .of_tag ht (by omega), by rwa [hp]⟩
  · obtain ⟨_, hb', ha⟩ := readByte_ok hc hf
    obtain rfl : _ = t := congrArg Prod.snd (hb'.symm.trans hb)
    rw [readKind_large hb ht hm hm' hhi] at hr
    obtain ⟨rfl, hl, hu, rfl, hf', rest', rfl⟩ :=
      readSizeOf_inv (ha.withByteval 0).toCursor (fits_advance.mpr hf) hm hm' hr
    have hs : ¬(n < 56) := by omega
    refine ⟨puthead lo hi n, 0, rest', ?_, .of_tag ht hu, ?_⟩
    · rw [puthead, if_neg hs, ← hhi, UInt8.ofNat_toNat, List.cons_append]
    · rw [puthead_length, headsize, if_neg hs]
      exact fits_advance.mp hf'

theorem Header.length_pos (hh : Header k n c head) : 1 ≤ head.length := by
  cases hh
  case byte => simp
  all_goals exact List.length_pos_iff.mpr (puthead_ne_nil _ _ _)

theorem not_ended (hf : Fits stack n) (hn : 1 ≤ n) : ended stack = false := by
  cases stack
  case nil => rfl
  case cons tos outer =>
    have := hf.left
    simp [ended]
    omega

theorem checkSize_eq_none (hc : Cursor s input stack) (hf : Fits stack n)
    (hn : n ≤ input.length) : checkSize s n = none := by
  unfold checkSize
  rw [hc.stack, hc.remaining]
  cases stack
  case nil => simp [hn]
  case cons tos outer =>
    have hl := left_eq (hf.le (Nat.zero_le n))
    have := hf.left
    simp [hl]
    omega

theorem fits_of_checkSize (hc : Cursor s input stack) (hw : Fits stack 0)
    (h : checkSize s n = none) : Fits stack n := by
  unfold checkSize at h
  rw [hc.stack] at h
  cases stack
  case nil => trivial
  case cons tos outer =>
    have hl := left_eq hw
    have := hw.left
    simp only [hl, ite_eq_right_iff, reduceCtorEq, imp_false] at h
    exact ⟨by omega, hw.right⟩

theorem kindOf_ahead (ha : Ahead s k n c input stack) : kindOf s = (.ok (k, n), s) := by
  simp only [kindOf, ha.kind, ha.kinderr, ha.size]

theorem kindOf_at (ha : At s input stack) :
    ∃ t, At t input stack ∧ kindOf s = if ended stack then (Go.fail .eol, t) else cacheKind t := by
  refine ⟨{ s with kinderr := none }, ⟨⟨ha.input, ha.limited, ha.remaining, ha.stack⟩, ha.kind⟩, ?_⟩
  rw [kindOf, ha.kind, ← ha.stack]

theorem kindOf_ok (ha : At s (head ++ rest) stack) (hh : Header k n c head)
    (hf : Fits stack (head.length + n)) (hn : n ≤ rest.length) :
    ∃ s', kindOf s = (.ok (k, n), s') ∧ Ahead s' k n c rest (advance stack head.length) := by
  obtain ⟨t, ht, hk⟩ := kindOf_at ha
  obtain ⟨t', hr, ha', hb⟩ := readKind_ok ht.toCursor hh (hf.le (Nat.le_add_right ..))
  have hs := checkSize_eq_none ha'.toCursor (fits_advance.mpr hf) hn
  have he := not_ended hf (hh.length_pos.trans (Nat.le_add_right ..))
  rw [hk, he]
  simp only [cacheKind, hr, hs, Bool.false_eq_true, if_false, Option.or]
  exact ⟨_, rfl, ⟨ha'.input, ha'.limited, ha'.remaining, ha'.stack⟩, rfl, rfl, hb, rfl⟩

theorem kindOf_inv (ha : At s input stack) (hw : Fits stack 0) (hr : kindOf s = (.ok (k, n), s')) :
    ∃ head c rest, input = head ++ rest ∧ Header k n c head ∧ Fits stack (head.length + n) ∧
      Ahead s' k n c rest (advance stack head.length) := by
  obtain ⟨t, ht, hk⟩ := kindOf_at ha
  rw [hk] at hr
  split_ifs at hr
  · simp [Go.fail] at hr
  unfold cacheKind at hr
  split at hr
  case h_1 => simp at hr
  case h_2 k' n' e t' hread =>
    cases he : e.or (checkSize t' n')
    case some => simp [he, Go.fail] at hr
    case none =>
      obtain ⟨rfl, hcheck⟩ := Option.or_eq_none_iff.mp he
      simp only [he, Prod.mk.injEq, Except.ok.injEq] at hr
      obtain ⟨⟨rfl, rfl⟩, rfl⟩ := hr
      obtain ⟨head, c, rest, hi, hh, hf⟩ := readKind_inv ht.toCursor hw hread
      subst hi
      obtain ⟨_, hread', ha', hb⟩ := readKind_ok ht.toCursor hh hf
      obtain rfl : _ = t' := congrArg Prod.snd (hread'.symm.trans hread)
      have hf' := fits_of_checkSize ha'.toCursor (fits_advance.mpr hf) hcheck
      exact ⟨head, c, rest, rfl, hh, fits_advance.mp hf',
        ⟨ha'.input, ha'.limited, ha'.remaining, ha'.stack⟩, rfl, rfl, hb, rfl⟩

theorem kindOf_eol (ha : At s input stack) (he : ended stack) :
    ∃ s', kindOf s = (Go.fail .eol, s') ∧ At s' input stack := by
  obtain ⟨t, ht, hk⟩ := kindOf_at ha
  exact ⟨t, by rw [hk, if_pos he], ht⟩

end

-- Only `Kind` reports the end of a list.
def NoEol {α : Type} (x : Read α) : Prop :=
  ∀ s, (x s).fst ≠ Go.fail .eol

variable {α β : Type}

theorem NoEol.bind {x : Read α} {f : α → Read β} (hx : NoEol x) (hf : ∀ a, NoEol (f a)) :
    NoEol (x >>= f) := by
  intro s
  have h := hx s
  cases hs : x s with
  | mk r t =>
    rw [hs] at h
    cases r
    case ok a    => rw [Act.bind_ok hs]; exact hf a t
    case error e => rw [Act.bind_error hs]; simpa [Go.fail] using h

theorem NoEol.pure (a : α) : NoEol (pure a : Read α) := by
  simp [NoEol, Go.fail]

theorem NoEol.fail {e : StreamError} (h : e ≠ .eol) : NoEol (Act.fail e : Read α) := by
  simp [NoEol, Go.fail, h]

theorem NoEol.ne {x : Read α} {e : StreamError} (hx : NoEol x) (h : x s = (Go.fail e, s')) :
    e ≠ .eol := by
  rintro rfl
  exact hx s (by rw [h])

theorem noEol_willRead (n : Nat) : NoEol (willRead n) := by
  refine NoEol.bind (by simp [NoEol, rearm, Act.modify, Go.fail]) fun _ => NoEol.bind ?_ fun _ => ?_
  · intro s
    unfold willReadList
    split
    · simp [Go.fail]
    · split_ifs <;> simp [Go.fail]
  · intro s
    unfold willReadLimit
    split_ifs <;> simp [Go.fail]

theorem noEol_readFull (n : Nat) : NoEol (readFull n) := by
  refine NoEol.bind (noEol_willRead n) fun _ s => ?_
  unfold fill
  split_ifs <;> simp [Go.fail]

theorem noEol_readByte : NoEol readByte := by
  rw [readByte_eq]
  exact NoEol.bind (noEol_readFull 1) fun _ => .pure _

theorem noEol_readUint (n : Nat) : NoEol (readUint n) := by
  unfold readUint
  split
  · exact NoEol.bind (by simp [NoEol, rearm, Act.modify, Go.fail]) fun _ => .pure _
  · exact NoEol.bind noEol_readByte fun _ => .pure _
  · refine NoEol.bind (noEol_readFull _) fun b => ?_
    split_ifs
    · exact .fail (by simp)
    · exact .pure _

variable {k : Kind} {e : StreamError}

theorem readSizeOf_ne_eol {k' : Kind} {m : Nat}
    (hr : readSizeOf k m s = (.ok (k', n, some e), s')) : e ≠ .eol := by
  unfold readSizeOf at hr
  split at hr
  case h_1 v t hv =>
    split_ifs at hr
    · rintro rfl
      simp at hr
    · simp at hr
  case h_2 e' t hv =>
    obtain rfl : e' = e := by simp at hr; exact hr.left.right.right
    exact (noEol_readUint m).ne hv
  case h_3 => simp [Go.panics] at hr

theorem noEol_readSizeOf (m : Nat) : NoEol (readSizeOf k m) := by
  intro s
  unfold readSizeOf
  split <;> simp [Go.fail, Go.panics]

theorem noEol_readKind : NoEol readKind := by
  intro s
  unfold readKind
  split
  · simp [Go.fail]
  · simp [Go.fail, Go.panics]
  · split_ifs
    · simp [Go.fail]
    · simp [Go.fail]
    · exact noEol_readSizeOf _ _
    · simp [Go.fail]
    · exact noEol_readSizeOf _ _

theorem readKind_ne_eol (hr : readKind s = (.ok (k, n, some e), s')) : e ≠ .eol := by
  unfold readKind at hr
  split at hr
  case h_1 e' t hv =>
    have he := noEol_readByte.ne hv
    simp only [Prod.mk.injEq, Except.ok.injEq, Option.some.injEq] at hr
    rw [← hr.left.right.right]
    split <;> simp_all
  case h_2 => simp [Go.panics] at hr
  case h_3 b t hv =>
    split_ifs at hr
    · simp at hr
    · simp at hr
    · exact readSizeOf_ne_eol hr
    · simp at hr
    · exact readSizeOf_ne_eol hr

theorem checkSize_ne_eol : checkSize s n ≠ some .eol := by
  unfold checkSize
  split <;> split_ifs <;> simp

theorem noEol_cacheKind : NoEol cacheKind := by
  intro s
  unfold cacheKind
  split
  case h_1 e t hr =>
    have h := noEol_readKind s
    rw [hr] at h
    simpa [Go.fail] using h
  case h_2 k n e t hr =>
    cases he : e.or (checkSize t n)
    case none => simp [Go.fail]
    case some e' =>
      have hne : e' ≠ .eol := by
        rcases Option.or_eq_some_iff.mp he with rfl | ⟨-, hc⟩
        · exact readKind_ne_eol hr
        · rintro rfl
          exact checkSize_ne_eol hc
      simp [Go.fail, hne]

theorem kindOf_eol_inv (ha : At s input stack) (hr : kindOf s = (Go.fail .eol, s')) :
    ended stack ∧ At s' input stack := by
  obtain ⟨t, ht, hk⟩ := kindOf_at ha
  rw [hk] at hr
  split_ifs at hr with he
  · obtain rfl : t = s' := congrArg Prod.snd hr
    exact ⟨he, ht⟩
  · exact absurd (congrArg Prod.fst hr) (noEol_cacheKind t)

inductive Parts : Item → Kind → UInt8 → Bytes → Bytes → Prop
  | byte {c : UInt8} (h : c.toNat < 0x80) : Parts (.str [c]) .byte c [c] []
  | string {b : Bytes} (h : ∀ c, b = [c] → ¬(c.toNat < 0x80)) :
    Parts (.str b) .string 0 (puthead 0x80 0xB7 b.length) b
  | list {xs : List Item} :
    Parts (.list xs) .list 0 (puthead 0xC0 0xF7 (encodeList xs).length) (encodeList xs)

namespace Parts

variable {x : Item} {c : UInt8} {head body : Bytes}

theorem exists_of (x : Item) : ∃ k c head body, Parts x k c head body := by
  cases x
  case str b =>
    by_cases h : ∃ c, b = [c] ∧ c.toNat < 0x80
    · obtain ⟨c, rfl, hc⟩ := h
      exact ⟨_, _, _, _, .byte hc⟩
    · exact ⟨_, _, _, _, .string fun c hb hc => h ⟨c, hb, hc⟩⟩
  case list xs => exact ⟨_, _, _, _, .list⟩

theorem encode (hp : Parts x k c head body) : encode x = head ++ body := by
  cases hp
  case byte h   => rw [Rlp.encode, encodeString_byte h]; rfl
  case string h => rw [Rlp.encode, encodeString_string h]
  case list     => rw [Rlp.encode]

theorem header (hp : Parts x k c head body) (hl : body.length < 2 ^ 64) :
    Header k body.length c head := by
  cases hp
  case byte h => exact .byte h
  case string => exact .string hl
  case list   => exact .list hl

end Parts

def payload : Item → Nat
  | .str _   => 0
  | .list xs => (encodeList xs).length

theorem payload_lt_encode (x : Item) : payload x < (encode x).length := by
  cases x
  case str b   => exact List.length_pos_iff.mpr (encode_ne_nil _)
  case list xs => simp [payload, encode, List.length_pos_iff, puthead_ne_nil]

-- The next value is the item `x`. Its header may have been read already.
structure Before (s : Stream) (x : Item) (rest : Bytes) (stack : List ListPos) : Prop where
  fits  : Fits stack (encode x).length
  small : (encode x).length < 2 ^ 63
  payload : payload x ≤ s.input.length
  ahead : ∃ s' k c head body, Parts x k c head body ∧ kindOf s = (.ok (k, body.length), s') ∧
    Ahead s' k body.length c (body ++ rest) (advance stack head.length)

variable {x : Item} {b : Bytes} {xs : List Item}

theorem At.before (ha : At s (encode x ++ rest) stack) (hf : Fits stack (encode x).length)
    (hl : (encode x).length < 2 ^ 63) : Before s x rest stack := by
  obtain ⟨k, c, head, body, hp⟩ := Parts.exists_of x
  have hi := payload_lt_encode x
  refine ⟨hf, hl, by simp [ha.input]; omega, ?_⟩
  rw [hp.encode, List.length_append] at hf hl
  rw [hp.encode, List.append_assoc] at ha
  obtain ⟨s', hk, ha'⟩ := kindOf_ok ha (hp.header (by omega)) hf (by simp)
  exact ⟨s', k, c, head, body, hp, hk, ha'⟩

theorem Before.kindOf (hb : Before s x rest stack) :
    ∃ s' k c head body, Parts x k c head body ∧ Stream.kindOf s = (.ok (k, body.length), s') ∧
      Ahead s' k body.length c (body ++ rest) (advance stack head.length) ∧
      Before s' x rest stack := by
  obtain ⟨s', k, c, head, body, hp, hk, ha⟩ := hb.ahead
  have hi : Stream.payload x ≤ s'.input.length := by
    cases hp <;> simp [Stream.payload, ha.input]
  exact ⟨s', k, c, head, body, hp, hk, ha, hb.fits, hb.small, hi, s', k, c, head, body, hp,
    kindOf_ahead ha, ha⟩

theorem bytes_ok (hb : Before s (.str b) rest stack) :
    ∃ s', bytes s = (.ok b, s') ∧ At s' rest (advance stack (encode (.str b)).length) := by
  obtain ⟨s', k, c, head, body, hp, hk, ha⟩ := hb.ahead
  have he := hp.encode
  have hl := hb.small
  have hf := hb.fits
  rw [he, List.length_append] at hl hf
  rw [he, bytes, Act.bind_ok hk]
  cases hp
  case byte h =>
    obtain ⟨t, ht, hat⟩ := rearm_ok ha.toCursor
    refine ⟨t, ?_, hat⟩
    simp only [Act.bind_ok (show Act.get s' = (.ok s', s') from rfl), Act.bind_ok ht,
      ha.byteval rfl]
    rfl
  case string h =>
    obtain ⟨t, ht, hat⟩ := readFull_ok ha.toCursor rfl (fits_advance.mpr hf)
    refine ⟨t, ?_, by simpa using hat⟩
    simp only [if_neg (show ¬(b.length ≥ 2 ^ 63) by omega), Act.bind_ok ht]
    rw [if_neg]
    · rfl
    · rintro ⟨h₁, h₂⟩
      obtain ⟨c, rfl⟩ := List.length_eq_one_iff.mp h₁
      exact h c rfl (UInt8.lt_iff_toNat_lt.mp h₂)

theorem list_ok (hb : Before s (.list xs) rest stack) :
    ∃ s', list s = (.ok (encodeList xs).length, s') ∧
      At s' (encodeList xs ++ rest) (⟨0, (encodeList xs).length⟩ ::
        advance stack (headsize (encodeList xs).length)) := by
  obtain ⟨s', k, c, head, body, hp, hk, ha⟩ := hb.ahead
  cases hp
  case list =>
    rw [puthead_length] at ha
    rw [list, Act.bind_ok hk]
    exact ⟨_, rfl, ⟨ha.input, ha.limited, ha.remaining, by simp [ha.stack]⟩, rfl⟩

theorem listEnd_ok (hc : Cursor s rest (⟨n, n⟩ :: stack)) (hf : Fits stack n) :
    ∃ s', listEnd s = (.ok (), s') ∧ At s' rest (advance stack n) := by
  simp only [listEnd, hc.stack, ne_eq, not_true_eq_false, if_false]
  refine ⟨_, rfl, ⟨hc.input, hc.limited, hc.remaining, ?_⟩, rfl⟩
  cases stack
  case nil => rfl
  case cons outer stack => simp only [advance_eq hf, advance]

end Rlp.Stream
