import GoEthereum.Rlp.Encode

-- The raw splitter, what it accepts, and where it panics.

namespace Rlp

inductive Kind
  | byte
  | string
  | list
  deriving DecidableEq, Repr

inductive Error
  | unexpectedEOF
  | canonSize
  | valueTooLarge
  | expectedString
  | expectedList
  deriving DecidableEq, Repr

def readSize (b : Bytes) (slen : Nat) : Go Error Nat :=
  if slen > b.length then
    Go.fail .unexpectedEOF
  else
    let s := ofBigEndian (b.take slen)
    -- Reject sizes < 56 (shouldn't have separate size) and sizes with leading zero bytes.
    if s < 56 ∨ b.head? = some 0 then Go.fail .canonSize else pure s

-- What a first byte and what follows it announce: the kind, the tag size and the content size.
def readTag (b : Nat) (rest : Bytes) : Go Error (Kind × Nat × Nat) :=
  if b < 0x80 then
    pure (.byte, 0, 1)
  else if b < 0xB8 then
    if b - 0x80 = 1 then
      -- Reject strings that should've been single bytes. The code reads `buf[1]` unguarded.
      match rest with
      | []     => Go.panics
      | c :: _ => if c < 128 then Go.fail .canonSize else pure (.string, 1, 1)
    else
      pure (.string, 1, b - 0x80)
  else if b < 0xC0 then
    (readSize rest (b - 0xB7)).map (.string, b - 0xB7 + 1, ·)
  else if b < 0xF8 then
    pure (.list, 1, b - 0xC0)
  else
    (readSize rest (b - 0xF7)).map (.list, b - 0xF7 + 1, ·)

def readKind (buf : Bytes) : Go Error (Kind × Nat × Nat) :=
  match buf with
  | []        => Go.fail .unexpectedEOF
  | b :: rest => do
    let (k, tagsize, contentsize) ← readTag b.toNat rest
    -- Reject values larger than the input slice.
    if contentsize > buf.length - tagsize then
      Go.fail .valueTooLarge
    else
      pure (k, tagsize, contentsize)

def split (b : Bytes) : Go Error (Kind × Bytes × Bytes) := do
  let (k, ts, cs) ← readKind b
  pure (k, (b.drop ts).take cs, b.drop (ts + cs))

def splitString (b : Bytes) : Go Error (Bytes × Bytes) := do
  let (k, content, rest) ← split b
  if k = .list then Go.fail .expectedString else pure (content, rest)

def splitList (b : Bytes) : Go Error (Bytes × Bytes) := do
  let (k, content, rest) ← split b
  if k ≠ .list then Go.fail .expectedList else pure (content, rest)

-- Every value takes at least one byte, so that `b.length` iterations reach the end of `b`.
def countValues (b : Bytes) : Go Error Nat :=
  go b.length b
where
  go : Nat → Bytes → Go Error Nat
    | _,        []      => pure 0
    | 0,        _ :: _  => pure 0
    | fuel + 1, c :: cs => do
      let (_, tagsize, size) ← readKind (c :: cs)
      let i ← go fuel ((c :: cs).drop (tagsize + size))
      pure (i + 1)

theorem readSize_putint {n : Nat} {rest : Bytes} (hl : 56 ≤ n) (hu : n < 2 ^ 64) :
    readSize (putint n ++ rest) (intsize n) = .ok n := by
  have ht : (putint n ++ rest).take (intsize n) = putint n := by
    rw [← putint_length n, List.take_left]
  have hh : (putint n ++ rest).head? ≠ some 0 := by
    have hp : putint n ≠ [] := by
      rw [← List.length_pos_iff, putint_length]
      exact (intsize_spec hu).left
    rw [List.head?_append_of_ne_nil _ hp]
    exact putint_head (by omega) hu
  have hlen : ¬(intsize n > (putint n ++ rest).length) := by simp
  rw [readSize, if_neg hlen, ht, ofBigEndian_putint hu]
  exact if_neg (not_or.mpr ⟨by omega, hh⟩)

-- The header and the content of a value. A list may have any content.
inductive Framed : Kind → Bytes → Bytes → Prop
  | byte {c : UInt8} (h : c.toNat < 0x80) : Framed .byte [] [c]
  | string {b : Bytes} (h : ∀ c, b = [c] → ¬(c.toNat < 0x80)) (hl : b.length < 2 ^ 64) :
    Framed .string (puthead 0x80 0xB7 b.length) b
  | list {b : Bytes} (hl : b.length < 2 ^ 64) : Framed .list (puthead 0xC0 0xF7 b.length) b

-- The first bytes of the kinds that have a header, for a small and for a large size.
inductive Tag : Kind → Nat → Nat → Prop
  | string : Tag .string 0x80 0xB7
  | list   : Tag .list 0xC0 0xF7

section

variable {k : Kind} {lo hi n slen : Nat}

section

variable (ht : Tag k lo hi)
include ht

theorem Tag.small (hn : n < 56) (hs : k = .string → n ≠ 1) (rest : Bytes) :
    readTag (lo + n) rest = .ok (k, 1, n) := by
  cases ht
  case string =>
    rw [readTag.eq_def, if_neg (by omega), if_pos (by omega), Nat.add_sub_cancel_left, if_neg (hs rfl)]
    rfl
  case list =>
    rw [readTag.eq_def, if_neg (by omega), if_neg (by omega), if_neg (by omega), if_pos (by omega),
      Nat.add_sub_cancel_left]
    rfl

theorem Tag.large (hl : 1 ≤ slen) (hu : slen ≤ 8) (rest : Bytes) :
    readTag (hi + slen) rest = (readSize rest slen).map (k, slen + 1, ·) := by
  cases ht
  case string =>
    rw [readTag.eq_def, if_neg (by omega), if_neg (by omega), if_pos (by omega), Nat.add_sub_cancel_left]
  case list =>
    rw [readTag.eq_def, if_neg (by omega), if_neg (by omega), if_neg (by omega), if_neg (by omega),
      Nat.add_sub_cancel_left]

theorem Tag.le : lo + 55 < UInt8.size ∧ hi + 8 < UInt8.size := by
  cases ht <;> decide

theorem Tag.readTag_puthead (hn : n < 2 ^ 64) (hs : k = .string → n ≠ 1)
    (rest : Bytes) : ∃ b tl, puthead lo hi n ++ rest = b :: tl ∧
      readTag b.toNat tl = .ok (k, headsize n, n) := by
  have hle := ht.le
  unfold puthead headsize
  split_ifs with h
  · refine ⟨_, _, rfl, ?_⟩
    rw [UInt8.toNat_ofNat_of_lt' (by omega)]
    exact ht.small h hs rest
  · refine ⟨_, _, List.cons_append, ?_⟩
    obtain ⟨h₁, h₈, _⟩ := intsize_spec hn
    rw [UInt8.toNat_ofNat_of_lt' (by omega), ht.large h₁ h₈, readSize_putint (by omega) hn,
      Nat.add_comm]
    rfl

end

variable {head content : Bytes}

theorem Framed.readTag_eq (h : Framed k head content) (rest : Bytes) :
    ∃ b tl, head ++ (content ++ rest) = b :: tl ∧
      readTag b.toNat tl = .ok (k, head.length, content.length) := by
  cases h
  case byte c hc => exact ⟨c, rest, rfl, if_pos hc⟩
  case string hc hl =>
    by_cases hone : content.length = 1
    · obtain ⟨c, rfl⟩ := List.length_eq_one_iff.mp hone
      have hc : ¬(c < 128) := mt UInt8.lt_iff_toNat_lt.mp (hc c rfl)
      refine ⟨0x81, c :: rest, rfl, ?_⟩
      simp [readTag, hc]
      rfl
    · rw [puthead_length]
      exact Tag.string.readTag_puthead hl (fun _ => hone) _
  case list hl =>
    rw [puthead_length]
    exact Tag.list.readTag_puthead hl (by simp) _

theorem Framed.readKind_eq (h : Framed k head content) (rest : Bytes) :
    readKind (head ++ (content ++ rest)) = .ok (k, head.length, content.length) := by
  obtain ⟨b, tl, he, ht⟩ := h.readTag_eq rest
  have hl : ¬(content.length > (b :: tl).length - head.length) := by
    simp [← he]
  rw [he, readKind, ht]
  exact if_neg hl

-- The input starts with a header of the given size, and with content of the announced size it is a
-- value.
def Heads (buf : Bytes) (r : Kind × Nat × Nat) : Prop :=
  ∃ head rest, buf = head ++ rest ∧ r.snd.fst = head.length ∧
    ∀ content, content <+: rest → content.length = r.snd.snd → Framed r.fst head content

theorem Tag.framed (ht : Tag k lo hi) (hl : content.length < 2 ^ 64)
    (hs : k = .string → content.length ≠ 1) :
    Framed k (puthead lo hi content.length) content := by
  cases ht
  case string => exact .string (fun c hc => absurd (hc ▸ rfl) (hs rfl)) hl
  case list   => exact .list hl

theorem Tag.heads (ht : Tag k lo hi) {buf rest : Bytes} (hn : n < 2 ^ 64)
    (hs : k = .string → n ≠ 1) (hb : buf = puthead lo hi n ++ rest) :
    Heads buf (k, headsize n, n) := by
  refine ⟨_, rest, hb, (puthead_length ..).symm, fun content _ hl => ?_⟩
  obtain rfl : content.length = n := hl
  exact ht.framed hn hs

variable {b : UInt8} {tl : Bytes}

theorem Tag.heads_small (ht : Tag k lo hi) (hn : n < 56) (hs : k = .string → n ≠ 1)
    (hb : b.toNat = lo + n) : Heads (b :: tl) (k, 1, n) := by
  have hp : puthead lo hi n = [b] := by rw [puthead, if_pos hn, ← hb, UInt8.ofNat_toNat]
  have hh : headsize n = 1 := if_pos hn
  rw [← hh]
  exact ht.heads (by omega) hs (by rw [hp]; rfl)

theorem readSize_returns {buf : Bytes} {B : Prop} (hl : 1 ≤ slen) (hu : slen ≤ 8) :
    Go.Returns (readSize buf slen) (fun n => 56 ≤ n ∧ n < 2 ^ 64 ∧ slen = intsize n ∧
      ∃ rest, buf = putint n ++ rest) B := by
  unfold readSize
  split_ifs with hlen
  case pos => exact .fail
  dsimp only
  split_ifs with hs
  case pos => exact .fail
  case neg =>
    obtain ⟨h56, hz⟩ := not_or.mp hs
    have htake : (buf.take slen).length = slen := List.length_take_of_le (by omega)
    have hz' : (buf.take slen).head? ≠ some 0 := by
      rwa [List.head?_take, if_neg (by omega)]
    obtain ⟨hput, hsize⟩ := putint_ofBigEndian (by omega) (by omega) hz'
    have hlt : ofBigEndian (buf.take slen) < 2 ^ 64 :=
      (ofBigEndian_lt _).trans_le (by rw [htake]; interval_cases slen <;> norm_num)
    refine .pure ⟨by omega, hlt, by omega, buf.drop slen, ?_⟩
    rw [hput, List.take_append_drop]

theorem Tag.returns_large (ht : Tag k lo hi) {B : Prop} (hl : 1 ≤ slen) (hu : slen ≤ 8)
    (hb : b.toNat = hi + slen) :
    Go.Returns ((readSize tl slen).map (k, slen + 1, ·)) (Heads (b :: tl)) B := by
  refine (readSize_returns hl hu).bind fun n => ?_
  rintro ⟨h56, hlt, rfl, rest, rfl⟩
  have hn : ¬(n < 56) := by omega
  have hh : headsize n = intsize n + 1 := by rw [headsize, if_neg hn, Nat.add_comm]
  refine .pure ?_
  rw [← hh]
  have hp : b :: (putint n ++ rest) = puthead lo hi n ++ rest := by
    rw [puthead, if_neg hn, ← hb, UInt8.ofNat_toNat, List.cons_append]
  exact ht.heads hlt (by omega) hp

theorem readTag_returns (b : UInt8) (tl : Bytes) :
    Go.Returns (readTag b.toNat tl) (Heads (b :: tl)) (b = 0x81 ∧ tl = []) := by
  have hb := b.toNat_lt
  unfold readTag
  split_ifs with h₁ h₂ h₃ h₄ h₅
  case pos =>
    refine .pure ⟨[], b :: tl, rfl, rfl, fun content hp hl => ?_⟩
    obtain ⟨c, rfl⟩ := List.length_eq_one_iff.mp hl
    obtain rfl := (List.cons_prefix_cons.mp hp).left
    exact .byte h₁
  case pos =>
    -- A string of one byte, which must not be its own encoding.
    obtain rfl : b = 0x81 := UInt8.toNat_inj.mp (show b.toNat = 0x81 by omega)
    cases tl
    case nil => exact ⟨fun he => (by cases he), fun _ => ⟨rfl, rfl⟩⟩
    case cons c tl =>
      dsimp only
      split_ifs with hc
      case pos => exact .fail
      case neg =>
        refine .pure ⟨[0x81], c :: tl, rfl, rfl, fun content hp hl => ?_⟩
        obtain ⟨d, rfl⟩ := List.length_eq_one_iff.mp hl
        obtain rfl := (List.cons_prefix_cons.mp hp).left
        refine .string (b := [d]) (fun e he hlt => hc ?_) (by simp)
        cases he
        exact UInt8.lt_iff_toNat_lt.mpr hlt
  case neg => exact .pure (Tag.string.heads_small (by omega) (fun _ => h₃) (by omega))
  case pos => exact Tag.string.returns_large (by omega) (by omega) (by omega)
  case pos => exact .pure (Tag.list.heads_small (by omega) (by simp) (by omega))
  case neg => exact Tag.list.returns_large (by omega) (by omega) (by omega)

-- The input starts with a value of the given sizes.
def Starts (buf : Bytes) (r : Kind × Nat × Nat) : Prop :=
  ∃ head content rest, buf = head ++ (content ++ rest) ∧ r.snd = (head.length, content.length) ∧
    Framed r.fst head content

theorem readKind_returns (buf : Bytes) : Go.Returns (readKind buf) (Starts buf) (buf = [0x81]) := by
  cases buf
  case nil => exact .fail
  case cons b tl =>
    have hr : Go.Returns (readTag b.toNat tl) (Heads (b :: tl)) (b :: tl = [0x81]) := by
      simpa using readTag_returns b tl
    refine hr.bind ?_
    rintro ⟨k, ts, cs⟩ ⟨head, rest, he, rfl, hf⟩
    dsimp only
    split_ifs with hc
    case pos => exact .fail
    case neg =>
      have hl : (rest.take cs).length = cs := by
        rw [he, List.length_append] at hc
        rw [List.length_take]
        omega
      refine .pure ⟨head, rest.take cs, rest.drop cs, ?_, by rw [hl], hf _ (List.take_prefix ..) hl⟩
      rw [he, List.take_append_drop]

theorem readKind_eq_panics_iff {buf : Bytes} : readKind buf = Go.panics ↔ buf = [0x81] := by
  constructor
  case mp => exact (readKind_returns buf).panics
  case mpr =>
    rintro rfl
    rfl

end

section

variable {b head content rest : Bytes} {k : Kind}

theorem split_eq_ok_iff : split b = .ok (k, content, rest) ↔
    ∃ head, Framed k head content ∧ b = head ++ (content ++ rest) := by
  constructor
  case mp =>
    intro h
    obtain ⟨⟨k', ts, cs⟩, hr, h⟩ := Go.bind_eq_ok.mp h
    obtain ⟨head, content', rest', rfl, hs, hf⟩ := (readKind_returns b).ok hr
    cases hs
    simp only [pure, Except.pure, Except.ok.injEq, Prod.mk.injEq, List.drop_left, List.take_left,
      ← List.drop_drop] at h
    obtain ⟨rfl, rfl, rfl⟩ := h
    exact ⟨head, hf, rfl⟩
  case mpr =>
    rintro ⟨head, hf, rfl⟩
    rw [split, hf.readKind_eq, Go.ok_bind]
    simp only [List.drop_left, List.take_left, ← List.drop_drop]
    rfl

theorem split_eq_panics_iff : split b = Go.panics ↔ b = [0x81] := by
  rw [← readKind_eq_panics_iff, split]
  cases readKind b <;> simp [bind, Except.bind, Go.panics, pure, Except.pure]

theorem Framed.split_ok (h : Framed k head content) (rest : Bytes) :
    Rlp.split (head ++ content ++ rest) = .ok (k, content, rest) :=
  split_eq_ok_iff.mpr ⟨head, h, List.append_assoc ..⟩

theorem Framed.splitString_ok (h : Framed k head content) (hk : k ≠ .list) (rest : Bytes) :
    Rlp.splitString (head ++ content ++ rest) = .ok (content, rest) := by
  rw [Rlp.splitString, h.split_ok]
  exact if_neg hk

section

variable (h : Framed .list head content)
include h

theorem Framed.splitString_fail (rest : Bytes) :
    Rlp.splitString (head ++ content ++ rest) = Go.fail .expectedString := by
  rw [Rlp.splitString, h.split_ok, Go.ok_bind]
  exact if_pos rfl

theorem Framed.splitList_ok (rest : Bytes) :
    Rlp.splitList (head ++ content ++ rest) = .ok (content, rest) := by
  rw [Rlp.splitList, h.split_ok, Go.ok_bind]
  exact if_neg (not_not.mpr rfl)

theorem Framed.content_lt :
    content.length < (head ++ content).length := by
  cases h
  have := List.length_pos_iff.mpr (puthead_ne_nil 0xC0 0xF7 content.length)
  rw [List.length_append]
  omega

end

theorem Framed.length_pos {k : Kind} {head content : Bytes} (h : Framed k head content) :
    0 < (head ++ content).length := by
  cases h
  all_goals exact List.length_pos_iff.mpr (by simp [puthead_ne_nil])

end

def Item.kind : Item → Kind
  | .str [c]  => if c ≤ 0x7F then .byte else .string
  | .str _    => .string
  | .list _   => .list

def Item.content : Item → Bytes
  | .str b   => b
  | .list xs => encodeList xs

theorem kind_str_of_not_byte {b : Bytes} (h : ∀ c, b = [c] → ¬(c.toNat < 0x80)) :
    (Item.str b).kind = .string := by
  unfold Item.kind
  split
  case h_1 c heq =>
    cases heq
    exact if_neg (mt le_iff_toNat_lt.mp (h c rfl))
  case h_2 => rfl
  case h_3 heq => cases heq

theorem framed_encode (x : Item) (h : x.content.length < 2 ^ 64) :
    ∃ head, Framed x.kind head x.content ∧ encode x = head ++ x.content := by
  cases x
  case list xs => exact ⟨_, .list h, by rw [encode, Item.content]⟩
  case str b =>
    rw [encode]
    by_cases hb : ∃ c, b = [c] ∧ c.toNat < 0x80
    · obtain ⟨c, rfl, hc⟩ := hb
      rw [Item.kind, if_pos (le_iff_toNat_lt.mpr hc), encodeString_byte hc]
      exact ⟨[], .byte hc, rfl⟩
    · have hb : ∀ c, b = [c] → ¬(c.toNat < 0x80) := fun c he hc => hb ⟨c, he, hc⟩
      rw [kind_str_of_not_byte hb, encodeString_string hb]
      exact ⟨_, .string hb h, rfl⟩

theorem split_encode {x : Item} (rest : Bytes) (h : x.content.length < 2 ^ 64) :
    split (encode x ++ rest) = .ok (x.kind, x.content, rest) := by
  obtain ⟨head, hf, he⟩ := framed_encode x h
  rw [he]
  exact hf.split_ok rest

theorem kind_str_ne_list (b : Bytes) : (Item.str b).kind ≠ .list := by
  unfold Item.kind
  split
  case h_1   => split_ifs <;> simp
  case h_2   => simp
  case h_3 h => simp at h

theorem encodeList_length_ge (xs : List Item) : xs.length ≤ (encodeList xs).length := by
  induction xs
  case nil => simp
  case cons x xs hi =>
    have := List.length_pos_iff.mpr (encode_ne_nil x)
    simp [encodeList]
    omega

theorem content_length_le : (x : Item) → x.content.length ≤ (encode x).length
  | .list xs => by simp [encode, Item.content]
  | .str b   => by
    rw [encode, Item.content]
    unfold encodeString
    split
    case h_1 => split_ifs <;> simp
    case h_2 => simp

theorem encode_length_le_encodeList {x : Item} {xs : List Item} (h : x ∈ xs) :
    (encode x).length ≤ (encodeList xs).length := by
  rw [encodeList_eq_flatten]
  exact (List.sublist_flatten_of_mem (List.mem_map_of_mem h)).length_le

mutual

theorem encode_append_inj : (x y : Item) → {r s : Bytes} →
    x.content.length < 2 ^ 64 → y.content.length < 2 ^ 64 →
    encode x ++ r = encode y ++ s → x = y ∧ r = s
  | x, y, r, s, hx, hy, h => by
    have he := split_encode r hx
    rw [h, split_encode _ hy] at he
    simp only [Except.ok.injEq, Prod.mk.injEq] at he
    obtain ⟨hk, hc, hr⟩ := he
    refine ⟨?_, hr.symm⟩
    match x, y with
    | .str b, .str c     => exact congrArg Item.str hc.symm
    | .list xs, .list ys => exact congrArg Item.list (encodeList_inj xs ys hx hy hc.symm)
    | .str b, .list ys   => exact absurd hk.symm (kind_str_ne_list b)
    | .list xs, .str c   => exact absurd hk (kind_str_ne_list c)

theorem encodeList_inj : (xs ys : List Item) →
    (encodeList xs).length < 2 ^ 64 → (encodeList ys).length < 2 ^ 64 →
    encodeList xs = encodeList ys → xs = ys
  | [], [], _, _, _ => rfl
  | [], y :: ys, _, _, h => by simp [encodeList, encode_ne_nil] at h
  | x :: xs, [], _, _, h => by simp [encodeList, encode_ne_nil] at h
  | x :: xs, y :: ys, hx, hy, h => by
    have hcx := content_length_le x
    have hcy := content_length_le y
    simp only [encodeList, List.length_append] at h hx hy
    obtain ⟨hxy, hr⟩ := encode_append_inj x y (by omega) (by omega) h
    rw [hxy, encodeList_inj xs ys (by omega) (by omega) hr]

end

theorem encode_inj {x y : Item} (hx : x.content.length < 2 ^ 64) (hy : y.content.length < 2 ^ 64)
    (h : encode x = encode y) : x = y :=
  (encode_append_inj x y (r := []) (s := []) hx hy (by simpa using h)).left

end Rlp
