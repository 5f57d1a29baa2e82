import GoEthereum.Rlp.Raw

-- Sequences of values, and the splitter with every check that is made at run time.

namespace Rlp

def Value (v : Bytes) : Prop :=
  ∃ k head content, Framed k head content ∧ v = head ++ content

section

variable {b : Bytes} {vs : List Bytes}

theorem Value.length_pos {v : Bytes} (h : Value v) : 0 < v.length := by
  obtain ⟨k, head, content, hf, rfl⟩ := h
  exact hf.length_pos

theorem countValues.go_value {v rest : Bytes} (fuel : Nat) (h : Value v) :
    countValues.go (fuel + 1) (v ++ rest) = (countValues.go fuel rest).map (· + 1) := by
  obtain ⟨k, head, content, hf, rfl⟩ := h
  have hr := hf.readKind_eq rest
  have hd : (head ++ (content ++ rest)).drop (head.length + content.length) = rest := by
    rw [← List.drop_drop, List.drop_left, List.drop_left]
  obtain ⟨c, tl, hb, -⟩ := hf.readTag_eq rest
  rw [List.append_assoc, hb, countValues.go, ← hb, hr, Go.ok_bind]
  dsimp only
  rw [hd]
  cases countValues.go fuel rest <;> rfl

theorem countValues.go_append {tail : Bytes} {fuel : Nat} (hvs : ∀ v ∈ vs, Value v)
    (hf : (vs.flatten ++ tail).length ≤ fuel) : ∃ left, tail.length ≤ left ∧
      countValues.go fuel (vs.flatten ++ tail) = (countValues.go left tail).map (· + vs.length) := by
  induction vs generalizing fuel
  case nil => exact ⟨fuel, hf, by cases h : go fuel tail <;> simp [h, Except.map]⟩
  case cons v vs ih =>
    obtain ⟨hv, hvs⟩ := List.forall_mem_cons.mp hvs
    have hpos := hv.length_pos
    rw [List.flatten_cons, List.append_assoc, List.length_append] at hf
    obtain ⟨fuel, rfl⟩ : ∃ f, fuel = f + 1 := Nat.exists_eq_add_one.mpr (by omega)
    obtain ⟨left, hl, he⟩ := ih hvs (show _ ≤ fuel by omega)
    refine ⟨left, hl, ?_⟩
    rw [List.flatten_cons, List.append_assoc, go_value fuel hv, he]
    cases go left tail <;> rfl

-- The values at the start of an input, and what stops the loop.
theorem exists_values (b : Bytes) : ∃ (vs : List Bytes) (tail : Bytes), (∀ v ∈ vs, Value v) ∧
    b = vs.flatten ++ tail ∧ (tail = [] ∨ tail = [0x81] ∨
      ∃ e, ∀ fuel, tail.length ≤ fuel → countValues.go fuel tail = Go.fail e) := by
  induction hl : b.length using Nat.strong_induction_on generalizing b
  case h l ih =>
    cases hr : readKind b
    case ok r =>
      obtain ⟨head, content, rest, rfl, -, hf⟩ := (readKind_returns b).ok hr
      have hpos := hf.length_pos
      rw [← List.append_assoc, List.length_append] at hl
      obtain ⟨vs, tail, hvs, rfl, ht⟩ := ih rest.length (by omega) rest rfl
      exact ⟨(head ++ content) :: vs, tail, List.forall_mem_cons.mpr ⟨⟨_, _, _, hf, rfl⟩, hvs⟩,
        by simp, ht⟩
    case error e =>
      refine ⟨[], b, by simp, rfl, ?_⟩
      cases e
      case panic   => exact .inr (.inl (readKind_eq_panics_iff.mp hr))
      case error e =>
        cases b
        case nil => exact .inl rfl
        case cons c tl =>
          refine .inr (.inr ⟨e, fun fuel hf => ?_⟩)
          obtain ⟨fuel, rfl⟩ : ∃ f, fuel = f + 1 := Nat.exists_eq_add_one.mpr (Nat.zero_lt_of_lt hf)
          rw [countValues.go, hr]
          rfl

theorem countValues_flatten (hvs : ∀ v ∈ vs, Value v) : countValues vs.flatten = .ok vs.length := by
  obtain ⟨left, -, he⟩ := countValues.go_append hvs (Nat.le_refl (vs.flatten ++ []).length)
  rw [List.append_nil] at he
  rw [countValues, he]
  cases left <;> simp [countValues.go, pure, Except.pure, Except.map]

theorem countValues_flatten_lone (hvs : ∀ v ∈ vs, Value v) :
    countValues (vs.flatten ++ [0x81]) = Go.panics := by
  obtain ⟨left, hl, he⟩ := countValues.go_append hvs (Nat.le_refl (vs.flatten ++ [0x81]).length)
  obtain ⟨left, rfl⟩ : ∃ l, left = l + 1 := Nat.exists_eq_add_one.mpr hl
  exact he

theorem countValues_returns (b : Bytes) : Go.Returns (countValues b)
    (fun c => ∃ vs : List Bytes, vs.length = c ∧ (∀ v ∈ vs, Value v) ∧ b = vs.flatten)
    (∃ vs : List Bytes, (∀ v ∈ vs, Value v) ∧ b = vs.flatten ++ [0x81]) := by
  obtain ⟨vs, tail, hvs, rfl, rfl | rfl | ⟨e, hfail⟩⟩ := exists_values b
  · rw [List.append_nil, countValues_flatten hvs]
    exact .pure ⟨vs, rfl, hvs, rfl⟩
  · rw [countValues_flatten_lone hvs]
    exact ⟨fun he => (by cases he), fun _ => ⟨vs, hvs, rfl⟩⟩
  · obtain ⟨left, hl, he⟩ := countValues.go_append hvs (Nat.le_refl (vs.flatten ++ tail).length)
    rw [countValues, he, hfail left hl]
    exact .fail

theorem countValues_eq_panics_iff : countValues b = Go.panics ↔
    ∃ vs : List Bytes, (∀ v ∈ vs, Value v) ∧ b = vs.flatten ++ [0x81] := by
  refine ⟨(countValues_returns b).panics, ?_⟩
  rintro ⟨vs, hvs, rfl⟩
  exact countValues_flatten_lone hvs

theorem countValues_eq_ok_iff {c : Nat} : countValues b = .ok c ↔
    ∃ vs : List Bytes, vs.length = c ∧ (∀ v ∈ vs, Value v) ∧ b = vs.flatten := by
  refine ⟨(countValues_returns b).ok, ?_⟩
  rintro ⟨vs, rfl, hvs, rfl⟩
  exact countValues_flatten hvs

end

-- The same functions with every index and slice expression checked as it is at run time, and with
-- sizes of type `uint64`.

namespace Checked

-- `a + b` and `a - b` for values of type `uint64`.

def add64 (a b : Nat) : Nat :=
  (a + b) % 2 ^ 64

def sub64 (a b : Nat) : Nat :=
  (a + 2 ^ 64 - b) % 2 ^ 64

theorem add64_eq {a b : Nat} (h : a + b < 2 ^ 64) : add64 a b = a + b := by
  exact Nat.mod_eq_of_lt h

theorem sub64_eq {a b : Nat} (h : b ≤ a) (ha : a < 2 ^ 64) : sub64 a b = a - b := by
  unfold sub64
  omega

section

variable {ε : Type}

def index (b : Bytes) (i : Nat) : Go ε UInt8 :=
  match b[i]? with
  | some c => pure c
  | none   => Go.panics

def slice (b : Bytes) (lo hi : Nat) : Go ε Bytes :=
  if lo ≤ hi ∧ hi ≤ b.length then pure ((b.drop lo).take (hi - lo)) else Go.panics

-- `b[i]`, `b[i+1]` and so on, `n` of them.
def indexes (b : Bytes) : Nat → Nat → Go ε Bytes
  | _, 0     => pure []
  | i, n + 1 => do
    let c ← index b i
    let cs ← indexes b (i + 1) n
    pure (c :: cs)

def readSize (b : Bytes) (slen : Nat) : Go Error Nat :=
  if slen > b.length then
    Go.fail .unexpectedEOF
  else do
    let s := ofBigEndian (← indexes b 0 slen)
    let c ← index b 0
    if s < 56 ∨ c = 0 then Go.fail .canonSize else pure s

-- The string of one byte, which should not have been a single byte.
def readOne (buf : Bytes) : Go Error (Kind × Nat × Nat) := do
  let c ← index buf 1
  if c < 128 then Go.fail .canonSize else pure (.string, 1, 1)

def readLarge (k : Kind) (buf : Bytes) (slen : Nat) : Go Error (Kind × Nat × Nat) := do
  let tl ← slice buf 1 buf.length
  let s ← readSize tl slen
  pure (k, slen + 1, s)

def readTag (buf : Bytes) : Go Error (Kind × Nat × Nat) := do
  let b ← index buf 0
  if b.toNat < 0x80 then
    pure (.byte, 0, 1)
  else if b.toNat < 0xB8 then
    if b.toNat - 0x80 = 1 then readOne buf else pure (.string, 1, b.toNat - 0x80)
  else if b.toNat < 0xC0 then
    readLarge .string buf (b.toNat - 0xB7)
  else if b.toNat < 0xF8 then
    pure (.list, 1, b.toNat - 0xC0)
  else
    readLarge .list buf (b.toNat - 0xF7)

def within (room : Nat) (r : Kind × Nat × Nat) : Go Error (Kind × Nat × Nat) :=
  if r.snd.snd > room then Go.fail .valueTooLarge else pure r

def readKind (buf : Bytes) : Go Error (Kind × Nat × Nat) :=
  if buf.length = 0 then
    Go.fail .unexpectedEOF
  else do
    let r ← readTag buf
    within (sub64 buf.length r.snd.fst) r

def split (b : Bytes) : Go Error (Kind × Bytes × Bytes) := do
  let (k, ts, cs) ← readKind b
  let content ← slice b ts (add64 ts cs)
  let rest ← slice b (add64 ts cs) b.length
  pure (k, content, rest)

def splitString (b : Bytes) : Go Error (Bytes × Bytes) := do
  let (k, content, rest) ← split b
  if k = .list then Go.fail .expectedString else pure (content, rest)

def splitList (b : Bytes) : Go Error (Bytes × Bytes) := do
  let (k, content, rest) ← split b
  if k ≠ .list then Go.fail .expectedList else pure (content, rest)

def countValues.go : Nat → Bytes → Go Error Nat
  | 0,        _ => pure 0
  | fuel + 1, b =>
    if b.length = 0 then
      pure 0
    else do
      let (_, tagsize, size) ← readKind b
      let b ← slice b (add64 tagsize size) b.length
      let i ← countValues.go fuel b
      pure (i + 1)

def countValues (b : Bytes) : Go Error Nat :=
  countValues.go b.length b

theorem indexes_eq {b : Bytes} {i n : Nat} (h : i + n ≤ b.length) :
    (indexes b i n : Go ε Bytes) = .ok ((b.drop i).take n) := by
  induction n generalizing i
  case zero => simp [indexes, pure, Except.pure]
  case succ n ih =>
    have hi : i < b.length := by omega
    rw [indexes, ih (by omega), index, List.getElem?_eq_getElem hi, List.drop_eq_getElem_cons hi]
    rfl

theorem readSize_eq {b : Bytes} {slen : Nat} (h : 1 ≤ slen) : readSize b slen = Rlp.readSize b slen := by
  unfold readSize Rlp.readSize
  split_ifs with hl
  case pos => rfl
  case neg =>
    cases b
    case nil => exact absurd h (by simp at hl; omega)
    case cons c tl =>
      have hi : (indexes (c :: tl) 0 slen : Go Error Bytes) = .ok ((c :: tl).take slen) :=
        indexes_eq (by omega)
      rw [hi]
      simp [bind, Except.bind, index, pure, Except.pure]

theorem readLarge_eq (k : Kind) (c : UInt8) (tl : Bytes) {slen : Nat} (h : 1 ≤ slen) :
    readLarge k (c :: tl) slen = (Rlp.readSize tl slen).map (k, slen + 1, ·) := by
  simp only [readLarge, slice, readSize_eq h, bind, Except.bind, pure, Except.pure]
  simp
  cases Rlp.readSize tl slen <;> rfl

theorem readTag_eq (c : UInt8) (tl : Bytes) : readTag (c :: tl) = Rlp.readTag c.toNat tl := by
  simp only [readTag, index, List.getElem?_cons_zero, bind, Except.bind, pure, Except.pure, Rlp.readTag]
  split_ifs with h₁ h₂ h₃ h₄ h₅
  case pos => rfl
  case pos => cases tl <;> rfl
  case neg => rfl
  case pos => exact readLarge_eq .string c tl (by omega)
  case pos => rfl
  case neg => exact readLarge_eq .list c tl (by omega)

theorem readKind_cons (c : UInt8) (tl : Bytes) : Rlp.readKind (c :: tl) =
    (Rlp.readTag c.toNat tl >>= fun r => within ((c :: tl).length - r.snd.fst) r) := by
  rw [Rlp.readKind]
  cases Rlp.readTag c.toNat tl <;> rfl

variable {b : Bytes} (hb : b.length < 2 ^ 63)

include hb

theorem readKind_eq : readKind b = Rlp.readKind b := by
  cases b
  case nil => simp only [readKind, List.length_nil, if_true, Rlp.readKind]
  case cons c tl =>
    rw [readKind, if_neg (by simp), readTag_eq, readKind_cons]
    cases ht : Rlp.readTag c.toNat tl
    case error => rw [Go.error_bind, Go.error_bind]
    case ok r =>
      obtain ⟨head, rest, he, hts, -⟩ := (readTag_returns c tl).ok ht
      have hl := congrArg List.length he
      rw [List.length_append] at hl
      rw [Go.ok_bind, Go.ok_bind, sub64_eq (by omega) (by omega)]

theorem slices_eq {k : Kind} {ts cs : Nat} (hr : Rlp.readKind b = .ok (k, ts, cs)) :
    add64 ts cs = ts + cs ∧
    (slice b ts (ts + cs) : Go ε Bytes) = .ok ((b.drop ts).take cs) ∧
    (slice b (ts + cs) b.length : Go ε Bytes) = .ok (b.drop (ts + cs)) := by
  obtain ⟨head, content, rest, he, hs, -⟩ := (readKind_returns b).ok hr
  have hl := congrArg List.length he
  simp only [List.length_append] at hl
  cases hs
  refine ⟨add64_eq (by omega), ?_, ?_⟩
  · rw [slice, if_pos ⟨by omega, by omega⟩, Nat.add_sub_cancel_left]
    rfl
  · rw [slice, if_pos ⟨by omega, Nat.le_refl _⟩, ← List.length_drop, List.take_length]
    rfl

theorem split_eq : split b = Rlp.split b := by
  rw [split, Rlp.split, readKind_eq hb]
  cases hr : Rlp.readKind b
  case error => rw [Go.error_bind, Go.error_bind]
  case ok r =>
    obtain ⟨hm, hc, hd⟩ := slices_eq (ε := Error) hb hr
    simp only [Go.ok_bind, hm, hc, hd]

theorem splitString_eq : splitString b = Rlp.splitString b := by
  rw [splitString, split_eq hb]
  rfl

theorem splitList_eq : splitList b = Rlp.splitList b := by
  rw [splitList, split_eq hb]
  rfl

theorem countValues.go_eq (fuel : Nat) : countValues.go fuel b = Rlp.countValues.go fuel b := by
  induction fuel generalizing b
  case zero => cases b <;> rfl
  case succ fuel ih =>
    cases b
    case nil => rfl
    case cons c tl =>
      rw [countValues.go, if_neg (by simp), Rlp.countValues.go, readKind_eq hb]
      cases hr : Rlp.readKind (c :: tl)
      case error => rw [Go.error_bind, Go.error_bind]
      case ok r =>
        obtain ⟨hm, -, hd⟩ := slices_eq (ε := Error) hb hr
        simp only [Go.ok_bind, hm, hd]
        rw [ih (by rw [List.length_drop]; omega)]

theorem countValues_eq : countValues b = Rlp.countValues b :=
  countValues.go_eq hb _

end

-- No call panics, and what a call returns are the parts of its input.
structure Safe (b : Bytes) : Prop where
  split       : split b ≠ Go.panics
  splitString : splitString b ≠ Go.panics
  splitList   : splitList b ≠ Go.panics
  countValues : countValues b ≠ Go.panics
  parts       : ∀ k content rest, Checked.split b = .ok (k, content, rest) →
    ∃ head, Framed k head content ∧ b = head ++ (content ++ rest)
  stringParts : ∀ content rest, Checked.splitString b = .ok (content, rest) →
    ∃ k head, k ≠ .list ∧ Framed k head content ∧ b = head ++ (content ++ rest)
  listParts   : ∀ content rest, Checked.splitList b = .ok (content, rest) →
    ∃ head, Framed .list head content ∧ b = head ++ (content ++ rest)

theorem splitString_eq_ok {b content rest : Bytes} (h : Rlp.splitString b = .ok (content, rest)) :
    ∃ k head, k ≠ .list ∧ Framed k head content ∧ b = head ++ (content ++ rest) := by
  obtain ⟨⟨k, content', rest'⟩, hs, h⟩ := Go.bind_eq_ok.mp h
  dsimp only at h
  split_ifs at h with hk
  case pos => cases h
  case neg =>
    cases h
    obtain ⟨head, hf, hb⟩ := split_eq_ok_iff.mp hs
    exact ⟨k, head, hk, hf, hb⟩

theorem splitList_eq_ok {b content rest : Bytes} (h : Rlp.splitList b = .ok (content, rest)) :
    ∃ head, Framed .list head content ∧ b = head ++ (content ++ rest) := by
  obtain ⟨⟨k, content', rest'⟩, hs, h⟩ := Go.bind_eq_ok.mp h
  dsimp only at h
  split_ifs at h with hk
  case pos => cases h
  case neg =>
    cases h
    obtain rfl := not_not.mp hk
    exact split_eq_ok_iff.mp hs

theorem splitString_eq_panics_iff {b : Bytes} : Rlp.splitString b = Go.panics ↔ b = [0x81] := by
  rw [Rlp.splitString, Go.bind_eq_panics, split_eq_panics_iff, or_iff_left]
  rintro ⟨r, -, h⟩
  dsimp only at h
  split_ifs at h <;> cases h

theorem splitList_eq_panics_iff {b : Bytes} : Rlp.splitList b = Go.panics ↔ b = [0x81] := by
  rw [Rlp.splitList, Go.bind_eq_panics, split_eq_panics_iff, or_iff_left]
  rintro ⟨r, -, h⟩
  dsimp only at h
  split_ifs at h <;> cases h

-- The byte after a 0x81 is looked at without asking whether there is one.
theorem raw_safe_iff (b : Slice) : Safe b.val ↔
    ¬∃ vs : List Bytes, (∀ v ∈ vs, Value v) ∧ b.val = vs.flatten ++ [0x81] := by
  have hone : b.val = [0x81] → ∃ vs : List Bytes, (∀ v ∈ vs, Value v) ∧ b.val = vs.flatten ++ [0x81] :=
    fun h => ⟨[], by simp, h⟩
  constructor
  case mp =>
    intro h hvs
    exact h.countValues ((countValues_eq b.property).trans (countValues_eq_panics_iff.mpr hvs))
  case mpr =>
    intro h
    have hne := mt hone h
    exact {
      split       := split_eq b.property ▸ mt split_eq_panics_iff.mp hne
      splitString := splitString_eq b.property ▸ mt splitString_eq_panics_iff.mp hne
      splitList   := splitList_eq b.property ▸ mt splitList_eq_panics_iff.mp hne
      countValues := countValues_eq b.property ▸ mt countValues_eq_panics_iff.mp h
      parts k content rest hs       := split_eq_ok_iff.mp (split_eq b.property ▸ hs)
      stringParts content rest hs   := splitString_eq_ok (splitString_eq b.property ▸ hs)
      listParts content rest hs     := splitList_eq_ok (splitList_eq b.property ▸ hs) }

theorem lone_panics : split [0x81] = Go.panics ∧ splitString [0x81] = Go.panics ∧
    splitList [0x81] = Go.panics ∧ countValues [0xC0, 0x81] = Go.panics := by
  have h : [(0x81 : UInt8)].length < 2 ^ 63 := by norm_num
  refine ⟨?_, ?_, ?_, ?_⟩
  · rw [split_eq h, split_eq_panics_iff]
  · rw [splitString_eq h, splitString_eq_panics_iff]
  · rw [splitList_eq h, splitList_eq_panics_iff]
  · have hv : Value [0xC0] := ⟨.list, _, _, .list (b := []) (by norm_num), rfl⟩
    rw [countValues_eq (by norm_num), countValues_eq_panics_iff]
    exact ⟨[[0xC0]], by simpa using hv, rfl⟩

end Checked

end Rlp
