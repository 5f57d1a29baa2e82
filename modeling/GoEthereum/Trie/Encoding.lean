import GoEthereum.Common
import GoEthereum.Lib.Patricia.Update

namespace Trie

-- A hex encoded key: nibbles below 16, and 16 as the terminator of a complete key.
abbrev Nibble := Fin 17

abbrev Key := List Nibble

def terminator : Nibble := 16

theorem finRange_castSucc_concat :
    List.finRange 17 = (List.finRange 16).map Fin.castSucc ++ [terminator] :=
  List.finRange_succ_last

def prefixLen (a b : Key) : Nat :=
  Patricia.prefixLen a b

def Nibble.byte (n : Nibble) : UInt8 :=
  UInt8.ofNat n.val

def hiNibble (b : UInt8) : Nibble :=
  ⟨b.toNat / 16, by have := b.toNat_lt; omega⟩

def loNibble (b : UInt8) : Nibble :=
  ⟨b.toNat % 16, by omega⟩

def pack : Key → Bytes
  | a :: b :: k => (a.byte <<< 4 ||| b.byte) :: pack k
  | _           => []

-- The flag nibble, and the nibbles behind it packed from the end.
def packFlagged (term : Bool) (hex : Key) : Bytes :=
  let t : UInt8 := if term then 1 else 0
  if hex.length % 2 = 0 then
    (t <<< 5) :: pack hex
  else
    (t <<< 5 ||| (1 : UInt8) <<< 4 ||| (hex.headD 0).byte) :: pack hex.tail

-- The code reads the last element of `hexSlice`, which is never empty: it is a short node's key.
def compactEncode (hexSlice : Key) : Bytes :=
  if hexSlice.getLast? = some terminator then
    packFlagged true hexSlice.dropLast
  else
    packFlagged false hexSlice

def nibbles (str : Bytes) : Key :=
  str.flatMap fun b => [hiNibble b, loNibble b]

def compactHexDecode (str : Bytes) : Key :=
  nibbles str ++ [terminator]

-- `none` is the panic on an empty string, whose first nibble is read unguarded.
def compactDecode (str : Bytes) : Option Key :=
  match (compactHexDecode str).dropLast with
  | []        => none
  | b₀ :: bs =>
    let base := if b₀ ≥ 2 then b₀ :: bs ++ [terminator] else b₀ :: bs
    some <| if b₀.val % 2 = 1 then base.drop 1 else base.drop 2

-- Encodes a series of nibbles into a byte array, for error messages. `none` is the panic on an odd
-- number of nibbles without a terminator.
def compactHexEncode (nibbles : Key) : Option Bytes :=
  if nibbles.getLast? = some terminator then
    some (go nibbles.dropLast)
  else if nibbles.length % 2 = 0 then
    some (go nibbles)
  else
    none
where
  go : Key → Bytes
    | a :: b :: k => (a.byte * 16 + b.byte) :: go k
    | [a]         => [a.byte * 16 + terminator.byte]
    | []          => []

-- A nonempty key whose terminator, if it has one, is its last element.
def Key.Wf (k : Key) : Prop :=
  k ≠ [] ∧ ∀ n ∈ k.dropLast, n ≠ terminator

-- The keys of the trie, in hex encoding. A key is a Go slice, and so is its hex encoding.
def hexKeys : Set Key :=
  { k | ∃ b : Bytes, 2 * b.length + 1 < 2 ^ 63 ∧ k = compactHexDecode b }

theorem hiNibble_ne_terminator (b : UInt8) : hiNibble b ≠ terminator := by
  have := b.toNat_lt
  simp only [hiNibble, terminator, ne_eq, Fin.ext_iff]
  omega

theorem loNibble_ne_terminator (b : UInt8) : loNibble b ≠ terminator := by
  simp only [loNibble, terminator, ne_eq, Fin.ext_iff]
  omega

theorem nibbles_ne_terminator {b : Bytes} {n : Nibble} (h : n ∈ nibbles b) :
    n ≠ terminator := by
  simp only [nibbles, List.mem_flatMap, List.mem_cons, List.not_mem_nil, or_false] at h
  obtain ⟨c, _, rfl | rfl⟩ := h
  · exact hiNibble_ne_terminator c
  · exact loNibble_ne_terminator c

theorem nibbles_length (str : Bytes) : (nibbles str).length = 2 * str.length := by
  induction str
  case nil          => rfl
  case cons b bs hi => simp only [nibbles, List.flatMap_cons] at hi ⊢; simp [hi]; omega

theorem nibbles_injective : Function.Injective nibbles := by
  intro a b h
  induction a generalizing b <;> cases b <;> simp [nibbles] at h
  case nil.nil => rfl
  case cons.cons a as hi b bs =>
    obtain ⟨h₁, h₂, h₃⟩ := h
    simp only [hiNibble, loNibble, Fin.mk.injEq] at h₁ h₂
    have hab : a = b := UInt8.toNat_inj.mp (by omega)
    rw [hab, hi h₃]

theorem compactHexDecode_injective : Function.Injective compactHexDecode := by
  intro a b h
  exact nibbles_injective (List.append_cancel_right h)

theorem hexKeys_prefixFree : Patricia.PrefixFree hexKeys := by
  rintro _ ⟨a, -, rfl⟩ _ ⟨b, -, rfl⟩ ⟨r, hr⟩
  cases r using List.reverseRecOn
  case nil => simpa using hr
  case append_singleton r n =>
    -- The terminator of the shorter key would be a nibble of the longer one.
    rw [compactHexDecode, ← List.append_assoc] at hr
    have h := (List.append_inj' hr rfl).left
    exact absurd rfl (nibbles_ne_terminator (n := terminator) (by rw [← h]; simp))

variable {p k l : Key} {k : Key} {hex : Key}

theorem Key.wf_of_append_mem_hexKeys (h : p ++ (k ++ l) ∈ hexKeys) (hk : k ≠ []) :
    Key.Wf k := by
  obtain ⟨b, -, hb⟩ := h
  refine ⟨hk, fun n hn => nibbles_ne_terminator (b := b) ?_⟩
  have hd := congrArg List.dropLast hb
  rw [compactHexDecode, List.dropLast_concat, List.dropLast_append_of_ne_nil (by simp [hk])] at hd
  rw [← hd]
  cases l using List.reverseRecOn
  case nil              => simp [hn]
  case append_singleton =>
    simp [List.dropLast_subset k hn]

theorem getLast_ne_terminator (h : p ++ (k ++ l) ∈ hexKeys) (hl : l ≠ []) :
    k.getLast? ≠ some terminator := by
  obtain ⟨b, -, hb⟩ := h
  intro hk
  have hd := congrArg List.dropLast hb
  rw [compactHexDecode, List.dropLast_concat, List.dropLast_append_of_ne_nil (by simp [hl]),
    List.dropLast_append_of_ne_nil hl] at hd
  refine nibbles_ne_terminator (b := b) (n := terminator) ?_ rfl
  rw [← hd]
  simp [List.mem_of_getLast? hk]

theorem getLast_eq_terminator {p k : Key} (h : p ++ k ∈ hexKeys) (hk : k ≠ []) :
    k.getLast? = some terminator := by
  obtain ⟨b, -, hb⟩ := h
  have := congrArg List.getLast? hb
  rw [List.getLast?_append_of_ne_nil _ hk] at this
  simpa [compactHexDecode] using this

theorem length_lt_of_append_mem_hexKeys (h : p ++ (k ++ l) ∈ hexKeys) :
    k.length < 2 ^ 63 := by
  obtain ⟨b, hl, hb⟩ := h
  have := congrArg List.length hb
  simp [compactHexDecode, nibbles_length] at this
  omega

theorem hiNibble_pack : ∀ {a b : Nibble}, a ≠ terminator → b ≠ terminator →
    hiNibble (a.byte <<< 4 ||| b.byte) = a := by
  decide

theorem loNibble_pack : ∀ {a b : Nibble}, a ≠ terminator → b ≠ terminator →
    loNibble (a.byte <<< 4 ||| b.byte) = b := by
  decide

@[simp]
theorem nibbles_cons (b : UInt8) (bs : Bytes) :
    nibbles (b :: bs) = hiNibble b :: loNibble b :: nibbles bs := by
  simp [nibbles]

theorem nibbles_pack (he : k.length % 2 = 0) (h : ∀ n ∈ k, n ≠ terminator) :
    nibbles (pack k) = k := by
  fun_induction pack k
  case case1 a b k hi =>
    have ha := h a (by simp)
    have hb := h b (by simp)
    have hk := hi (by simp at he; omega) (fun n hn => h n (by simp [hn]))
    rw [nibbles_cons, hiNibble_pack ha hb, loNibble_pack ha hb, hk]
  case case2 k hk =>
    match k with
    | []          => rfl
    | [a]         => simp at he
    | a :: b :: k => exact absurd rfl (hk a b k)

theorem pack_length (k : Key) : (pack k).length = k.length / 2 := by
  fun_induction pack k
  case case1 a b k hi => simp [hi]; omega
  case case2 k hk =>
    match k with
    | []          => rfl
    | [a]         => simp
    | a :: b :: k => exact absurd rfl (hk a b k)

theorem compactDecode_of_nibbles {str : Bytes} {f : Nibble} (t : Bool)
    (h : nibbles str = f :: hex) (ht : f ≥ 2 ↔ t = true) :
    compactDecode str =
      some ((f :: hex ++ if t then [terminator] else []).drop (if f.val % 2 = 1 then 1 else 2)) := by
  simp only [compactDecode, compactHexDecode, List.dropLast_concat, h, ht]
  cases t <;> simp only [↓reduceIte, List.append_nil, Bool.false_eq_true] <;> split_ifs <;> rfl

theorem compactDecode_packFlagged (t : Bool) (h : ∀ n ∈ hex, n ≠ terminator) :
    compactDecode (packFlagged t hex) = some (hex ++ if t then [terminator] else []) := by
  by_cases he : hex.length % 2 = 0
  case pos =>
    have hn := nibbles_pack he h
    simp only [packFlagged, he, ↓reduceIte]
    cases t
    case false => rw [compactDecode_of_nibbles false (nibbles_cons ..) (by decide), hn]; rfl
    case true  => rw [compactDecode_of_nibbles true (nibbles_cons ..) (by decide), hn]; rfl
  case neg =>
    cases hex
    case nil => simp at he
    case cons a hex =>
      -- The flag byte carries the odd first nibble.
      have hf : ∀ (t : Bool) (a : Nibble), a ≠ terminator →
          hiNibble ((if t then 1 else 0 : UInt8) <<< 5 ||| (1 : UInt8) <<< 4 ||| a.byte) =
            (if t then 3 else 1) ∧
          loNibble ((if t then 1 else 0 : UInt8) <<< 5 ||| (1 : UInt8) <<< 4 ||| a.byte) = a := by
        decide
      have ht : ∀ t : Bool, (if t then 3 else 1 : Nibble) ≥ 2 ↔ t = true := by decide
      obtain ⟨h₁, h₂⟩ := hf t a (h a (by simp))
      have hn := nibbles_pack (k := hex) (by simp at he; omega) fun n hn => h n (by simp [hn])
      simp only [packFlagged, he, ↓reduceIte, List.headD_cons, List.tail_cons]
      rw [compactDecode_of_nibbles t (nibbles_cons ..) (by rw [h₁]; exact ht t), h₁, h₂, hn]
      cases t <;> rfl

theorem compactEncode_append (t : Bool) (h : ∀ n ∈ hex, n ≠ terminator) :
    compactEncode (hex ++ if t then [terminator] else []) = packFlagged t hex := by
  cases t
  case true  => simp [compactEncode]
  case false =>
    have hl : hex.getLast? ≠ some terminator := fun hl => h _ (List.mem_of_getLast? hl) rfl
    simp [compactEncode, hl]

theorem Key.Wf.exists_eq (h : k.Wf) :
    ∃ (hex : Key) (t : Bool), k = hex ++ (if t then [terminator] else []) ∧
      ∀ n ∈ hex, n ≠ terminator := by
  obtain ⟨hk, h⟩ := h
  obtain ⟨hex, a, rfl⟩ := (List.eq_nil_or_concat' k).resolve_left hk
  rw [List.dropLast_concat] at h
  by_cases ha : a = terminator
  case pos => exact ⟨hex, true, by simp [ha], h⟩
  case neg => exact ⟨hex ++ [a], false, by simp, List.forall_mem_append.mpr ⟨h, by simpa using ha⟩⟩

theorem compactDecode_compactEncode (h : k.Wf) :
    compactDecode (compactEncode k) = some k := by
  obtain ⟨hex, t, rfl, hh⟩ := h.exists_eq
  rw [compactEncode_append t hh, compactDecode_packFlagged t hh]

theorem compactEncode_injOn : Set.InjOn compactEncode { k | k.Wf } := by
  intro k hk l hl h
  have := compactDecode_compactEncode hk
  rw [h, compactDecode_compactEncode hl] at this
  exact Option.some.inj this.symm

theorem compactEncode_length_le (k : Key) : (compactEncode k).length ≤ k.length / 2 + 1 := by
  have hle : ∀ t (l : Key), (packFlagged t l).length ≤ l.length / 2 + 1 := fun t l => by
    unfold packFlagged
    split_ifs <;> simp only [List.length_cons, pack_length, List.length_tail] <;> omega
  unfold compactEncode
  split_ifs
  · exact (hle _ _).trans (by simp; omega)
  · exact hle _ _

end Trie
