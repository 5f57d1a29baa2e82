import GoEthereum.Rlp.Split
import GoEthereum.Trie.Node

-- The byte strings that `decodeNode` turns into a node, and those that make it panic.

namespace Trie

open Common Rlp
open Go (Returns)

-- A compact key that has a nibble.
def KeyOf (kbuf : Bytes) (key : Key) : Prop :=
  compactDecode kbuf = some key ∧ key ≠ []

-- A compact key without a flag, or with nothing behind it.
def BadKey (kbuf : Bytes) : Prop :=
  kbuf = [] ∨ ∃ x : UInt8, kbuf = [x] ∧ x.toNat < 16

def valueSlot (val : Bytes) : Node Key :=
  if val.length > 0 then .value val else .nil

mutual

-- The elements of a list that stand for a node.
inductive Parses (gen : UInt16) : Option Hash → Bytes → Node Key → Prop
  | leaf {hash : Option Hash} {k k' : Kind} {head head' kbuf val : Bytes} {key : Key} :
      Framed k head kbuf → k ≠ .list → KeyOf kbuf key → key.getLast? = some terminator →
      Framed k' head' val → k' ≠ .list →
      Parses gen hash (head ++ kbuf ++ (head' ++ val)) (.short key (.value val) ⟨hash, gen, false⟩)
  | extension {hash : Option Hash} {k : Kind} {head kbuf v : Bytes} {key : Key} {n : Node Key} :
      Framed k head kbuf → k ≠ .list → KeyOf kbuf key → key.getLast? ≠ some terminator →
      ParsesRef gen v n →
      Parses gen hash (head ++ kbuf ++ v) (.short key n ⟨hash, gen, false⟩)
  | branch {hash : Option Hash} {k : Kind} {vs : Fin 16 → Bytes} {head val : Bytes}
      {cs : Nibble → Node Key} :
      (∀ i : Fin 16, ParsesRef gen (vs i) (cs i.castSucc)) → Framed k head val → k ≠ .list →
      cs terminator = valueSlot val →
      Parses gen hash ((List.ofFn vs).flatten ++ (head ++ val)) (.full cs ⟨hash, gen, false⟩)

inductive ParsesRef (gen : UInt16) : Bytes → Node Key → Prop
  | nil : ParsesRef gen [0x80] .nil
  | hash (h : Hash) : ParsesRef gen (0xA0 :: h.bytes) (.hash h)
  | embedded {head elems : Bytes} {n : Node Key} : Framed .list head elems →
      (head ++ elems).length ≤ hashLength → Parses gen none elems n → ParsesRef gen (head ++ elems) n

end

-- The elements of a list at which `decodeNode` panics: `CountValues` finds a lone 0x81 at the end,
-- the key is empty, or an embedded node is reached that is of this kind.
inductive Breaks (gen : UInt16) : Bytes → Prop
  | tail {vs : List Bytes} : (∀ v ∈ vs, Rlp.Value v) → Breaks gen (vs.flatten ++ [0x81])
  | key {k : Kind} {head kbuf v : Bytes} : Framed k head kbuf → k ≠ .list → BadKey kbuf → Rlp.Value v →
      Breaks gen (head ++ kbuf ++ v)
  | extension {k : Kind} {head kbuf head' elems : Bytes} {key : Key} :
      Framed k head kbuf → k ≠ .list → KeyOf kbuf key → key.getLast? ≠ some terminator →
      Framed .list head' elems → (head' ++ elems).length ≤ hashLength → Breaks gen elems →
      Breaks gen (head ++ kbuf ++ (head' ++ elems))
  | branch {before after : List Bytes} {head elems : Bytes} :
      (∀ v ∈ before, ∃ n, ParsesRef gen v n) → Framed .list head elems →
      (head ++ elems).length ≤ hashLength → Breaks gen elems → (∀ v ∈ after, Rlp.Value v) →
      before.length < 16 → before.length + after.length = 16 →
      Breaks gen (before.flatten ++ (head ++ elems ++ after.flatten))

theorem compactDecode_eq_some_of_two {x y : UInt8} {tl : Bytes} :
    ∃ key, compactDecode (x :: y :: tl) = some key ∧ key ≠ [] := by
  refine ⟨_, rfl, ?_⟩
  split_ifs <;> simp

theorem compactDecode_one (x : UInt8) : ∃ key, compactDecode [x] = some key ∧
    (key = [] ↔ x.toNat < 16) := by
  have hge : hiNibble x ≥ 2 ↔ 2 ≤ x.toNat / 16 := Iff.rfl
  have hhi : (hiNibble x).val = x.toNat / 16 := rfl
  simp only [compactDecode, compactHexDecode, nibbles_cons, List.dropLast_concat, hge, hhi]
  split_ifs
  all_goals simp [nibbles]
  all_goals omega

theorem badKey_or_keyOf (kbuf : Bytes) :
    BadKey kbuf ∨ ∃ key, KeyOf kbuf key := by
  cases kbuf
  case nil => exact .inl (.inl rfl)
  case cons x tl =>
    cases tl
    case nil =>
      obtain ⟨key, hk, hnil⟩ := compactDecode_one x
      by_cases hx : x.toNat < 16
      · exact .inl (.inr ⟨x, rfl, hx⟩)
      · exact .inr ⟨key, hk, mt hnil.mp hx⟩
    case cons y tl => exact .inr compactDecode_eq_some_of_two

theorem BadKey.compactDecode {kbuf : Bytes} (h : BadKey kbuf) :
    (Trie.compactDecode kbuf).getD [] = [] := by
  obtain rfl | ⟨x, rfl, hx⟩ := h
  · rfl
  · obtain ⟨key, hk, hnil⟩ := compactDecode_one x
    rw [hk, hnil.mpr hx]
    rfl

theorem wrapError_returns {α : Type} {x : Go DecodeError α} {P : α → Prop} {B : Prop} {ctx : String}
    (h : Returns x P B) : Returns (wrapError x ctx) P B := by
  unfold Trie.wrapError
  split
  case h_1 => exact .fail
  case h_2 => exact h

-- The decoder returns what a list of at most `room` bytes stands for, and panics where it should.
structure Reads (gen : UInt16) (hash : Option Hash) (room : Nat)
    (decode : Bytes → Go DecodeError (Node Key)) : Prop where
  ok {head elems rest : Bytes} {n : Node Key} : Framed .list head elems →
    (head ++ elems ++ rest).length ≤ room →
    (decode (head ++ elems ++ rest) = .ok n ↔ Parses gen hash elems n)
  panics {head elems rest : Bytes} : Framed .list head elems →
    (head ++ elems ++ rest).length ≤ room →
    (decode (head ++ elems ++ rest) = Go.panics ↔ Breaks gen elems)

-- A value that is an embedded node of the bad kind.
def BreaksRef (gen : UInt16) (v : Bytes) : Prop :=
  ∃ head elems, v = head ++ elems ∧ Framed .list head elems ∧ v.length ≤ hashLength ∧
    Breaks gen elems

section

variable {gen : UInt16} {room : Nat} {decode : Bytes → Go DecodeError (Node Key)}
variable {v rest : Bytes} {n : Node Key}

theorem framed_empty : Framed .string [0x80] [] :=
  .string (b := []) (by simp) (by simp)

theorem framed_hash (h : Hash) : Framed .string [0xA0] h.bytes := by
  have hl := h.bytes_length
  have hf : Framed .string (puthead 0x80 0xB7 h.bytes.length) h.bytes :=
    .string (fun c hc => by simp [hc] at hl) (by rw [hl]; norm_num)
  rwa [hl] at hf

theorem ParsesRef.value (h : ParsesRef gen v n) : Rlp.Value v := by
  cases h
  case nil             => exact ⟨_, _, _, framed_empty, rfl⟩
  case hash h          => exact ⟨_, _, _, framed_hash h, rfl⟩
  case embedded hf _ _ => exact ⟨_, _, _, hf, rfl⟩

variable (decode rest) in
theorem decodeRef_list {head elems : Bytes} (hf : Framed .list head elems) :
    decodeRef decode (head ++ elems ++ rest) =
      if (head ++ elems).length > hashLength then
        Go.fail ⟨.oversized (head ++ elems).length, []⟩
      else
        decode (head ++ elems ++ rest) >>= fun n => pure (n, rest) := by
  have hsize : (head ++ elems ++ rest).length - rest.length = (head ++ elems).length := by
    rw [List.length_append, Nat.add_sub_cancel]
  rw [decodeRef, hf.split_ok, liftRlp_ok, Go.ok_bind]
  simp only [if_true, hsize]

variable (decode rest) in
theorem decodeRef_string {k : Kind} {head content : Bytes} (hf : Framed k head content)
    (hk : k ≠ .list) :
    decodeRef decode (head ++ content ++ rest) =
      if k = .string ∧ content.length = 0 then
        pure (.nil, rest)
      else if h : k = .string ∧ content.length = 32 then
        pure (.hash ⟨content, h.right⟩, rest)
      else
        Go.fail ⟨.stringSize content.length, []⟩ := by
  rw [decodeRef, hf.split_ok, liftRlp_ok, Go.ok_bind]
  simp only [if_neg hk]

variable (hd : Reads gen none room decode)
include hd

theorem ParsesRef.decodeRef (h : ParsesRef gen v n)
    (hr : (v ++ rest).length ≤ room) : decodeRef decode (v ++ rest) = .ok (n, rest) := by
  cases h
  case nil =>
    have he := decodeRef_string decode rest framed_empty (by simp)
    exact he
  case hash h =>
    have he := decodeRef_string decode rest (framed_hash h) (by simp)
    rw [if_neg (by simp [h.bytes_length]), dif_pos ⟨rfl, h.bytes_length⟩] at he
    exact he
  case embedded hf hl hp =>
    rw [decodeRef_list decode rest hf, if_neg (by omega), (hd.ok hf hr).mpr hp]
    rfl

theorem decodeRef_returns (hv : Rlp.Value v) (hr : (v ++ rest).length ≤ room) :
    Returns (decodeRef decode (v ++ rest)) (fun r => r.snd = rest ∧ ParsesRef gen v r.fst)
      (BreaksRef gen v) := by
  obtain ⟨k, head, content, hf, rfl⟩ := hv
  by_cases hk : k = .list
  · subst hk
    rw [decodeRef_list decode rest hf]
    split_ifs with hl
    · exact .fail
    · refine .bind (P := Parses gen none content) ⟨(hd.ok hf hr).mp, fun h => ?_⟩ fun n hp => ?_
      · exact ⟨head, content, rfl, hf, Nat.not_lt.mp hl, (hd.panics hf hr).mp h⟩
      · exact .pure ⟨rfl, .embedded hf (Nat.not_lt.mp hl) hp⟩
  · rw [decodeRef_string decode rest hf hk]
    split_ifs with h₀ h₃₂
    · obtain ⟨rfl, hc⟩ := h₀
      obtain rfl := List.length_eq_zero_iff.mp hc
      cases hf
      exact .pure ⟨rfl, .nil⟩
    · obtain ⟨rfl, hc⟩ := h₃₂
      obtain rfl : head = [0xA0] := by
        cases hf
        rw [hc]
        rfl
      exact .pure ⟨rfl, .hash ⟨content, hc⟩⟩
    · exact .fail

theorem BreaksRef.decodeRef (h : BreaksRef gen v)
    (hr : (v ++ rest).length ≤ room) : decodeRef decode (v ++ rest) = Go.panics := by
  obtain ⟨head, elems, rfl, hf, hl, hb⟩ := h
  rw [decodeRef_list decode rest hf, if_neg (by omega), (hd.panics hf hr).mpr hb]
  rfl

end

section

variable {gen : UInt16} {room : Nat} {decode : Bytes → Go DecodeError (Node Key)}
variable {hash : Option Hash} {k : Kind} {head kbuf v : Bytes} {key : Key} {n : Node Key}

variable (decode hash gen v) in
theorem decodeShort_bad (hf : Framed k head kbuf) (hk : k ≠ .list) (hb : BadKey kbuf) :
    decodeShort decode hash (head ++ kbuf ++ v) gen = Go.panics := by
  have hd := hb.compactDecode
  rw [decodeShort, hf.splitString_ok hk, liftRlp_ok, Go.ok_bind]
  cases hc : compactDecode kbuf
  case none => simp only [hc]
  case some key =>
    obtain rfl : key = [] := by simpa [hc] using hd
    simp only [hc]
    rfl

variable (decode hash gen v) in
theorem decodeShort_leaf_eq (hf : Framed k head kbuf) (hk : k ≠ .list) (hkey : KeyOf kbuf key)
    (ht : key.getLast? = some terminator) :
    decodeShort decode hash (head ++ kbuf ++ v) gen =
      liftRlp .valueNode (splitString v) >>= fun r =>
        pure (.short key (.value r.fst) ⟨hash, gen, false⟩) := by
  rw [decodeShort, hf.splitString_ok hk, liftRlp_ok, Go.ok_bind]
  simp only [hkey.left, ht, if_true]

variable (decode hash gen v) in
theorem decodeShort_extension_eq (hf : Framed k head kbuf) (hk : k ≠ .list) (hkey : KeyOf kbuf key)
    (ht : key.getLast? ≠ some terminator) :
    decodeShort decode hash (head ++ kbuf ++ v) gen =
      wrapError (decodeRef decode v) "val" >>= fun r => pure (.short key r.fst ⟨hash, gen, false⟩) := by
  obtain ⟨l, hl⟩ : ∃ l, key.getLast? = some l := ⟨_, List.getLast?_eq_some_getLast hkey.right⟩
  have hne : l ≠ terminator := by
    rintro rfl
    exact ht hl
  rw [decodeShort, hf.splitString_ok hk, liftRlp_ok, Go.ok_bind]
  simp only [hkey.left, hl, if_neg hne]

-- What the first of two values can be.
variable (gen decode hash v) in
theorem decodeShort_cases {v' : Bytes} (hv' : Rlp.Value v') :
    (∃ e, decodeShort decode hash (v' ++ v) gen = Go.fail e) ∨
    (∃ k head kbuf, v' = head ++ kbuf ∧ Framed k head kbuf ∧ k ≠ .list ∧ BadKey kbuf) ∨
    ∃ k head kbuf key, v' = head ++ kbuf ∧ Framed k head kbuf ∧ k ≠ .list ∧ KeyOf kbuf key := by
  obtain ⟨k, head, kbuf, hf, rfl⟩ := hv'
  by_cases hk : k = .list
  · subst hk
    refine .inl ⟨⟨.rlp .expectedString, []⟩, ?_⟩
    rw [decodeShort, hf.splitString_fail]
    rfl
  · obtain hb | ⟨key, hkey⟩ := badKey_or_keyOf kbuf
    · exact .inr (.inl ⟨k, head, kbuf, rfl, hf, hk, hb⟩)
    · exact .inr (.inr ⟨k, head, kbuf, key, rfl, hf, hk, hkey⟩)

theorem splitString_value (hv : Rlp.Value v) : splitString v = Go.fail .expectedString ∨
    ∃ k head val, v = head ++ val ∧ Framed k head val ∧ k ≠ .list ∧ splitString v = .ok (val, []) := by
  obtain ⟨k, head, val, hf, rfl⟩ := hv
  by_cases hk : k = .list
  · subst hk
    have hs := hf.splitString_fail []
    rw [List.append_nil] at hs
    exact .inl hs
  · have hs := hf.splitString_ok hk []
    rw [List.append_nil] at hs
    exact .inr ⟨k, head, val, rfl, hf, hk, hs⟩

theorem decodeShort_returns {v' : Bytes} (hd : Reads gen none room decode) (hv' : Rlp.Value v')
    (hv : Rlp.Value v) (hr : v.length ≤ room) :
    Returns (decodeShort decode hash (v' ++ v) gen) (Parses gen hash (v' ++ v))
      (Breaks gen (v' ++ v)) := by
  obtain ⟨e, he⟩ | ⟨k, head, kbuf, rfl, hf, hk, hb⟩ | ⟨k, head, kbuf, key, rfl, hf, hk, hkey⟩ :=
    decodeShort_cases gen decode hash v hv'
  · rw [he]
    exact .fail
  · rw [decodeShort_bad gen decode hash v hf hk hb]
    exact ⟨fun h => (by cases h), fun _ => .key hf hk hb hv⟩
  by_cases ht : key.getLast? = some terminator
  · rw [decodeShort_leaf_eq gen decode hash v hf hk hkey ht]
    obtain hs | ⟨k', head', val, rfl, hf', hk', hs⟩ := splitString_value hv
    · rw [hs]
      exact .fail
    · rw [hs]
      exact .pure (.leaf hf hk hkey ht hf' hk')
  · rw [decodeShort_extension_eq gen decode hash v hf hk hkey ht, ← List.append_nil v]
    rw [← List.append_nil v] at hr
    have href := decodeRef_returns hd hv hr
    refine .bind (P := fun r => ParsesRef gen v r.fst) (wrapError_returns ⟨fun h => (href.ok h).right, ?_⟩) ?_
    · intro h
      obtain ⟨head', elems, rfl, hf', hl, hb⟩ := href.panics h
      rw [List.append_nil]
      exact .extension hf hk hkey ht hf' hl hb
    · intro r hp
      rw [List.append_nil]
      exact .pure (.extension hf hk hkey ht hp)

end

section

variable {gen : UInt16} {room : Nat} {decode : Bytes → Go DecodeError (Node Key)}
variable {hash : Option Hash} {vs : List Bytes} {cs : List (Node Key)} {rest : Bytes}

section

variable (hd : Reads gen none room decode)
include hd

theorem decodeChildren_ok (h : List.Forall₂ (ParsesRef gen) vs cs)
    (i : Nat) (hr : (vs.flatten ++ rest).length ≤ room) :
    decodeChildren decode vs.length i (vs.flatten ++ rest) = .ok (cs, rest) := by
  induction h generalizing i
  case nil => rfl
  case cons v c vs cs hv hvs ih =>
    rw [List.flatten_cons, List.append_assoc] at hr ⊢
    have hr' : (vs.flatten ++ rest).length ≤ room := by
      rw [List.length_append] at hr
      omega
    rw [List.length_cons, decodeChildren, hv.decodeRef hd hr, wrapError_ok]
    simp only [ih (i + 1) hr', Go.ok_bind]
    rfl

theorem decodeChildren_returns (hv : ∀ v ∈ vs, Rlp.Value v) (i : Nat)
    (hr : (vs.flatten ++ rest).length ≤ room) :
    Returns (decodeChildren decode vs.length i (vs.flatten ++ rest))
      (fun r => r.snd = rest ∧ List.Forall₂ (ParsesRef gen) vs r.fst)
      (∃ before v after, vs = before ++ v :: after ∧ (∀ u ∈ before, ∃ n, ParsesRef gen u n) ∧
        BreaksRef gen v) := by
  induction vs generalizing i
  case nil => exact .pure ⟨rfl, .nil⟩
  case cons v vs ih =>
    obtain ⟨hv, hvs⟩ := List.forall_mem_cons.mp hv
    rw [List.flatten_cons, List.append_assoc] at hr ⊢
    have hr' : (vs.flatten ++ rest).length ≤ room := by
      rw [List.length_append] at hr
      omega
    have href := decodeRef_returns hd hv hr
    have hrest := ih hvs (i + 1) hr'
    refine .bind (wrapError_returns ⟨href.ok, fun h => ⟨[], v, vs, rfl, by simp, href.panics h⟩⟩) ?_
    rintro ⟨c, r⟩ ⟨rfl, hp⟩
    refine .bind ⟨hrest.ok, fun h => ?_⟩ fun r hps => .pure ⟨hps.left, .cons hp hps.right⟩
    obtain ⟨before, u, after, rfl, hbefore, hu⟩ := hrest.panics h
    exact ⟨v :: before, u, after, rfl, List.forall_mem_cons.mpr ⟨⟨c, hp⟩, hbefore⟩, hu⟩

theorem decodeChildren_panics {before after : List Bytes} {v : Bytes}
    (hbefore : ∀ u ∈ before, ∃ n, ParsesRef gen u n) (hv : BreaksRef gen v) (i : Nat)
    (hr : ((before ++ v :: after).flatten ++ rest).length ≤ room) :
    decodeChildren decode (before ++ v :: after).length i
      ((before ++ v :: after).flatten ++ rest) = Go.panics := by
  induction before generalizing i
  case nil =>
    rw [List.nil_append, List.flatten_cons, List.append_assoc] at hr ⊢
    rw [List.length_cons, decodeChildren, hv.decodeRef hd hr]
    rfl
  case cons u before ih =>
    obtain ⟨⟨c, hp⟩, hbefore⟩ := List.forall_mem_cons.mp hbefore
    rw [List.cons_append, List.flatten_cons, List.append_assoc] at hr ⊢
    rw [List.length_cons, decodeChildren, hp.decodeRef hd hr, wrapError_ok, Go.ok_bind]
    simp only [ih hbefore (i + 1) (by rw [List.length_append] at hr; omega)]
    rfl

end

theorem getD_concat {last : Node Key} (hl : cs.length = 16) :
    (∀ i : Fin 16, (cs ++ [last]).getD i.castSucc .nil = cs.get (i.cast hl.symm)) ∧
      (cs ++ [last]).getD (terminator : Nibble) .nil = last := by
  constructor
  · intro i
    have hi : i.val < cs.length := by omega
    simp [List.getD_eq_getElem?_getD, List.getElem?_append_left hi, hi]
  · rw [List.getD_eq_getElem?_getD, List.getElem?_append_right (by rw [hl]; exact le_rfl), hl]
    rfl

theorem ofFn_get {α : Type} {xs : List α} {n : Nat} (hl : xs.length = n) :
    List.ofFn (fun i : Fin n => xs.get (i.cast hl.symm)) = xs := by
  subst hl
  exact List.ofFn_get xs

theorem forall₂_ofFn {α β : Type} {R : α → β → Prop} {n : Nat} {f : Fin n → α} {g : Fin n → β}
    (h : ∀ i, R (f i) (g i)) : List.Forall₂ R (List.ofFn f) (List.ofFn g) := by
  rw [List.forall₂_iff_get]
  refine ⟨by simp, fun i h₁ h₂ => ?_⟩
  simpa using h ⟨i, by simpa using h₁⟩

variable {w : Bytes} {n : Node Key}

variable (decode hash gen) in
theorem decodeFull_eq (elems : Bytes) : decodeFull decode hash elems gen =
    decodeChildren decode 16 0 elems >>= fun r => liftRlp .rlp (splitString r.snd) >>= fun s =>
      pure (.full (fun i => (r.fst ++ [valueSlot s.fst]).getD i .nil) ⟨hash, gen, false⟩) :=
  rfl

theorem decodeFull_returns (hd : Reads gen none room decode) (hvs : ∀ v ∈ vs, Rlp.Value v)
    (hl : vs.length = 16) (hw : Rlp.Value w) (hr : (vs.flatten ++ w).length ≤ room) :
    Returns (decodeFull decode hash (vs.flatten ++ w) gen) (Parses gen hash (vs.flatten ++ w))
      (Breaks gen (vs.flatten ++ w)) := by
  have hchildren := decodeChildren_returns hd hvs 0 hr
  rw [decodeFull_eq, ← hl]
  refine .bind ⟨hchildren.ok, fun h => ?_⟩ ?_
  · obtain ⟨before, v, after, rfl, hbefore, head, elems, rfl, hf, hlen, hb⟩ := hchildren.panics h
    have hafter : ∀ u ∈ after ++ [w], Rlp.Value u := by
      intro u hu
      obtain hu | hu := List.mem_append.mp hu
      · exact hvs u (by simp [hu])
      · obtain rfl := List.mem_singleton.mp hu
        exact hw
    simp only [List.length_append, List.length_cons] at hl
    have hbr := Breaks.branch hbefore hf hlen hb hafter (by omega) (by simp; omega)
    simpa using hbr
  · rintro ⟨cs, r⟩ ⟨rfl, hp⟩
    obtain hs | ⟨k, head, val, rfl, hf, hk, hs⟩ := splitString_value hw
    · rw [hs]
      exact .fail
    · have hcl : cs.length = 16 := hp.length_eq.symm.trans hl
      have hget (i : Fin 16) : ParsesRef gen (vs.get (i.cast hl.symm)) (cs.get (i.cast hcl.symm)) :=
        hp.get (i.cast hl.symm).isLt (i.cast hcl.symm).isLt
      rw [hs, ← congrArg List.flatten (ofFn_get hl)]
      exact .pure (.branch (fun i => (getD_concat hcl).left i ▸ hget i) hf hk (getD_concat hcl).right)

theorem decodeFull_ok {k : Kind} {vs : Fin 16 → Bytes} {head val : Bytes} {cs : Nibble → Node Key}
    (hd : Reads gen none room decode) (hp : ∀ i : Fin 16, ParsesRef gen (vs i) (cs i.castSucc))
    (hf : Framed k head val) (hk : k ≠ .list) (ht : cs terminator = valueSlot val)
    (hr : ((List.ofFn vs).flatten ++ (head ++ val)).length ≤ room) :
    decodeFull decode hash ((List.ofFn vs).flatten ++ (head ++ val)) gen =
      .ok (.full cs ⟨hash, gen, false⟩) := by
  have hcs := decodeChildren_ok hd (forall₂_ofFn hp) 0 hr
  have hs := hf.splitString_ok hk []
  rw [List.append_nil] at hs
  rw [List.length_ofFn] at hcs
  have hfull : (fun i : Nibble => ((List.ofFn fun i : Fin 16 => cs i.castSucc) ++
      [cs terminator]).getD i .nil) = cs := by
    have hl : (List.ofFn fun i : Fin 16 => cs i.castSucc).length = 16 := List.length_ofFn
    funext i
    refine Fin.lastCases ?_ (fun j => ?_) i
    · exact (getD_concat hl).right
    · exact ((getD_concat hl).left j).trans (List.get_ofFn _ _)
  rw [decodeFull_eq, hcs, Go.ok_bind, hs, liftRlp_ok, Go.ok_bind, ← ht, hfull]
  rfl

end

section

variable {gen : UInt16} {room : Nat} {decode : Bytes → Go DecodeError (Node Key)}
variable {hash : Option Hash} {elems : Bytes} {n : Node Key}

def decodeElems (decode : Bytes → Go DecodeError (Node Key)) (hash : Option Hash) (elems : Bytes)
    (gen : UInt16) (c : Nat) : Go DecodeError (Node Key) :=
  if c = 2 then
    wrapError (decodeShort decode hash elems gen) "short"
  else if c = 17 then
    wrapError (decodeFull decode hash elems gen) "full"
  else
    Go.fail ⟨.elements c, []⟩

-- The error of `CountValues` is dropped, with the count it comes with, which is zero.
def count (elems : Bytes) : Go DecodeError Nat :=
  match countValues elems with
  | .ok c             => pure c
  | .error (.error _) => pure 0
  | .error .panic     => Go.panics

theorem count_eq_ok_iff {c : Nat} (hc : c ≠ 0) : count elems = .ok c ↔
    ∃ vs : List Bytes, vs.length = c ∧ (∀ v ∈ vs, Rlp.Value v) ∧ elems = vs.flatten := by
  rw [← countValues_eq_ok_iff]
  unfold count
  split
  case h_1 h => simp [h, pure, Except.pure]
  case h_2 h => simp [h, pure, Except.pure, hc.symm]
  case h_3 h => simp [h, Go.panics]

theorem count_eq_panics_iff : count elems = Go.panics ↔
    ∃ vs : List Bytes, (∀ v ∈ vs, Rlp.Value v) ∧ elems = vs.flatten ++ [0x81] := by
  rw [← countValues_eq_panics_iff]
  unfold count
  split
  case h_1 h => simp [h, pure, Except.pure, Go.panics]
  case h_2 h => simp [h, pure, Except.pure, Go.panics]
  case h_3 h => simp [h, Go.panics]

theorem decodeNode.go_framed {head rest : Bytes} (hf : Framed .list head elems) (fuel : Nat) :
    decodeNode.go gen (fuel + 1) hash (head ++ elems ++ rest) =
      count elems >>= decodeElems (decodeNode.go gen fuel none) hash elems gen := by
  have hne : (head ++ elems ++ rest).length ≠ 0 := by
    have := hf.length_pos
    simp only [List.length_append] at this ⊢
    omega
  rw [decodeNode.go, if_neg hne, hf.splitList_ok, liftRlp_ok, Go.ok_bind, count]
  dsimp only
  cases countValues elems
  case ok c    => rfl
  case error e => cases e <;> rfl

-- A list of two or of seventeen values is decoded, any other is not.
variable (gen decode hash) in
theorem decodeElems_cases {c : Nat} (hc : count elems = .ok c) :
    (∃ e, decodeElems decode hash elems gen c = Go.fail e) ∨
    (∃ v' v, Rlp.Value v' ∧ Rlp.Value v ∧ elems = v' ++ v ∧
      decodeElems decode hash elems gen c = wrapError (decodeShort decode hash elems gen) "short") ∨
    ∃ (vs : List Bytes) (w : Bytes), (∀ v ∈ vs, Rlp.Value v) ∧ vs.length = 16 ∧ Rlp.Value w ∧
      elems = vs.flatten ++ w ∧
      decodeElems decode hash elems gen c = wrapError (decodeFull decode hash elems gen) "full" := by
  by_cases h₂ : c = 2
  · obtain ⟨vs, hl, hvs, rfl⟩ := (count_eq_ok_iff (by omega)).mp hc
    obtain ⟨v', v, rfl⟩ := List.length_eq_two.mp (hl.trans h₂)
    refine .inr (.inl ⟨v', v, hvs v' (by simp), hvs v (by simp), by simp, if_pos h₂⟩)
  by_cases h₁₇ : c = 17
  · obtain ⟨vs, hl, hvs, rfl⟩ := (count_eq_ok_iff (by omega)).mp hc
    obtain ⟨vs, w, rfl⟩ := (List.eq_nil_or_concat' vs).resolve_left (by rintro rfl; simp at hl; omega)
    refine .inr (.inr ⟨vs, w, fun v hv => hvs v (by simp [hv]), by simp at hl; omega,
      hvs w (by simp), by simp, ?_⟩)
    rw [decodeElems, if_neg h₂, if_pos h₁₇]
  · exact .inl ⟨⟨.elements c, []⟩, by rw [decodeElems, if_neg h₂, if_neg h₁₇]⟩

theorem count_two {v v' : Bytes} (hv : Rlp.Value v) (hv' : Rlp.Value v') : count (v ++ v') = .ok 2 :=
  (count_eq_ok_iff (by omega)).mpr ⟨[v, v'], rfl, by simp [hv, hv'], by simp⟩

theorem count_seventeen {vs : List Bytes} {w : Bytes} (hvs : ∀ v ∈ vs, Rlp.Value v)
    (hl : vs.length = 16) (hw : Rlp.Value w) : count (vs.flatten ++ w) = .ok 17 := by
  refine (count_eq_ok_iff (by omega)).mpr ⟨vs ++ [w], by simp [hl], ?_, by simp⟩
  simpa [or_imp, forall_and] using ⟨hvs, hw⟩

variable (hd : Reads gen none room decode) (hr : elems.length ≤ room)

include hd hr

theorem decodeElems_returns : Returns (count elems >>= decodeElems decode hash elems gen)
    (Parses gen hash elems) (Breaks gen elems) := by
  refine .bind (P := fun c => count elems = .ok c) ⟨id, fun h => ?_⟩ fun c hc => ?_
  · obtain ⟨vs, hvs, rfl⟩ := count_eq_panics_iff.mp h
    exact .tail hvs
  obtain ⟨e, he⟩ | ⟨v', v, hv', hv, rfl, he⟩ | ⟨vs, w, hvs, hl, hw, rfl, he⟩ :=
    decodeElems_cases gen decode hash hc
  all_goals rw [he]
  · exact .fail
  · exact wrapError_returns
      (decodeShort_returns hd hv' hv (by rw [List.length_append] at hr; omega))
  · exact wrapError_returns (decodeFull_returns hd hvs hl hw hr)

theorem count_bind_eq_ok_iff :
    count elems >>= decodeElems decode hash elems gen = .ok n ↔ Parses gen hash elems n := by
  constructor
  case mp => exact (decodeElems_returns hd hr).ok
  case mpr =>
    intro h
    cases h
    case leaf k k' head head' kbuf val key hf hk hkey ht hf' hk' =>
      have hs := hf'.splitString_ok hk' []
      rw [List.append_nil] at hs
      rw [count_two ⟨_, _, _, hf, rfl⟩ ⟨_, _, _, hf', rfl⟩, Go.ok_bind, decodeElems, decodeShort_leaf_eq gen decode hash _ hf hk hkey ht, hs]
      rfl
    case extension k head kbuf v key m hf hk hkey ht hp =>
      have hm : decodeRef decode (v ++ []) = .ok (m, []) :=
        hp.decodeRef hd (by rw [List.length_append] at hr; simp; omega)
      rw [List.append_nil] at hm
      rw [count_two ⟨_, _, _, hf, rfl⟩ hp.value, Go.ok_bind, decodeElems, decodeShort_extension_eq gen decode hash _ hf hk hkey ht, hm]
      rfl
    case branch k vs head val cs hp hf hk ht =>
      have hvs : ∀ v ∈ List.ofFn vs, Rlp.Value v := by
        intro v hv
        obtain ⟨i, rfl⟩ := List.mem_ofFn.mp hv
        exact (hp i).value
      rw [count_seventeen hvs List.length_ofFn ⟨_, _, _, hf, rfl⟩, Go.ok_bind, decodeElems,
        decodeFull_ok hd hp hf hk ht hr]
      rfl

theorem count_bind_eq_panics_iff :
    count elems >>= decodeElems decode hash elems gen = Go.panics ↔ Breaks gen elems := by
  constructor
  case mp => exact (decodeElems_returns hd hr).panics
  case mpr =>
    intro h
    cases h
    case tail vs hvs =>
      rw [count_eq_panics_iff.mpr ⟨vs, hvs, rfl⟩]
      rfl
    case key k head kbuf v hf hk hb hv =>
      rw [count_two ⟨_, _, _, hf, rfl⟩ hv, Go.ok_bind, decodeElems, decodeShort_bad gen decode hash _ hf hk hb]
      rfl
    case extension k head kbuf head' elems key hf hk hkey ht hf' hl hb =>
      have hp : decodeRef decode (head' ++ elems ++ []) = Go.panics :=
        BreaksRef.decodeRef hd ⟨_, _, rfl, hf', hl, hb⟩ (by
          simp at hr ⊢
          omega)
      rw [List.append_nil] at hp
      rw [count_two ⟨_, _, _, hf, rfl⟩ ⟨_, _, _, hf', rfl⟩, Go.ok_bind, decodeElems, decodeShort_extension_eq gen decode hash _ hf hk hkey ht, hp]
      rfl
    case branch before after head elems hbefore hf hl hb hafter hlt hsum =>
      obtain ⟨after, w, rfl⟩ : ∃ after' w, after = after' ++ [w] :=
        (List.eq_nil_or_concat' after).resolve_left (by rintro rfl; simp at hsum; omega)
      have he : before.flatten ++ (head ++ elems ++ (after ++ [w]).flatten) =
          (before ++ (head ++ elems) :: after).flatten ++ w := by
        simp
      have hlen : (before ++ (head ++ elems) :: after).length = 16 := by
        simp at hsum ⊢
        omega
      have hvs : ∀ u ∈ before ++ (head ++ elems) :: after, Rlp.Value u := by
        intro u hu
        obtain hu | hu := List.mem_append.mp hu
        · obtain ⟨n, hn⟩ := hbefore u hu
          exact hn.value
        · obtain rfl | hu := List.mem_cons.mp hu
          · exact ⟨_, _, _, hf, rfl⟩
          · exact hafter u (by simp [hu])
      rw [he] at hr ⊢
      have hp := decodeChildren_panics hd hbefore ⟨_, _, rfl, hf, hl, hb⟩ 0 hr
      rw [hlen] at hp
      rw [count_seventeen hvs hlen (hafter w (by simp)), Go.ok_bind, decodeElems, decodeFull_eq, hp]
      rfl

end

theorem decodeNode.go_reads (gen : UInt16) (hash : Option Hash) (fuel : Nat) :
    Reads gen hash fuel (decodeNode.go gen fuel hash) := by
  induction fuel generalizing hash
  case zero =>
    have hpos {head elems rest : Bytes} (hf : Framed .list head elems)
        (hr : (head ++ elems ++ rest).length ≤ 0) : False := by
      have := hf.length_pos
      simp only [List.length_append] at this hr
      omega
    exact ⟨fun hf hr => (hpos hf hr).elim, fun hf hr => (hpos hf hr).elim⟩
  case succ fuel ih =>
    -- The header of the list takes a byte.
    have hlt {head elems rest : Bytes} (hf : Framed .list head elems)
        (hr : (head ++ elems ++ rest).length ≤ fuel + 1) : elems.length ≤ fuel := by
      have hhead : 0 < head.length := by
        cases hf
        exact List.length_pos_iff.mpr (puthead_ne_nil _ _ _)
      simp only [List.length_append] at hr
      omega
    constructor
    · intro head elems rest n hf hr
      rw [decodeNode.go_framed hf]
      exact count_bind_eq_ok_iff (ih none) (hlt hf hr)
    · intro head elems rest hf hr
      rw [decodeNode.go_framed hf]
      exact count_bind_eq_panics_iff (ih none) (hlt hf hr)

-- A single byte that announces another one, or a list with fields that break the decoder.
def Breaking (gen : UInt16) (buf : Bytes) : Prop :=
  buf = [0x81] ∨
    ∃ head elems rest, Framed .list head elems ∧ buf = head ++ elems ++ rest ∧ Breaks gen elems

variable {gen : UInt16} {buf : Bytes}

theorem framed_or_fails (gen : UInt16) (hash : Option Hash) (buf : Bytes) :
    (∃ head elems rest, Framed .list head elems ∧ buf = head ++ elems ++ rest) ∨
    (∃ e, decodeNode hash buf gen = Go.fail e) ∨
      buf = [0x81] ∧ decodeNode hash buf gen = Go.panics := by
  cases hs : splitList buf
  case ok r =>
    obtain ⟨elems, rest⟩ := r
    obtain ⟨head, hf, rfl⟩ := Checked.splitList_eq_ok hs
    exact .inl ⟨head, elems, rest, hf, (List.append_assoc ..).symm⟩
  case error e =>
    cases e
    case panic =>
      obtain rfl := Checked.splitList_eq_panics_iff.mp hs
      exact .inr (.inr ⟨rfl, rfl⟩)
    case error e =>
      refine .inr (.inl ?_)
      cases hl : buf.length
      case zero => exact ⟨_, by rw [decodeNode, hl]; rfl⟩
      case succ fuel =>
        rw [decodeNode, hl, decodeNode.go, if_neg (by omega), hs]
        exact ⟨_, rfl⟩

-- What `decodeNode` returns, and below, where it panics.
theorem decodeNode_eq_ok_iff {hash : Option Hash} {n : Node Key} :
    decodeNode hash buf gen = .ok n ↔ ∃ head elems rest, Framed .list head elems ∧
      buf = head ++ elems ++ rest ∧ Parses gen hash elems n := by
  constructor
  case mp =>
    intro h
    obtain ⟨head, elems, rest, hf, rfl⟩ | ⟨e, he⟩ | ⟨-, he⟩ := framed_or_fails gen hash buf
    · exact ⟨head, elems, rest, hf, rfl, ((decodeNode.go_reads gen hash _).ok hf (Nat.le_refl _)).mp h⟩
    · cases he.symm.trans h
    · cases he.symm.trans h
  case mpr =>
    rintro ⟨head, elems, rest, hf, rfl, hp⟩
    exact ((decodeNode.go_reads gen hash _).ok hf (Nat.le_refl _)).mpr hp

theorem decodeNode_eq_panics_iff (hash : Option Hash) :
    decodeNode hash buf gen = Go.panics ↔ Breaking gen buf := by
  constructor
  case mp =>
    intro h
    obtain ⟨head, elems, rest, hf, rfl⟩ | ⟨e, he⟩ | ⟨he, -⟩ := framed_or_fails gen hash buf
    · refine .inr ⟨head, elems, rest, hf, rfl, ?_⟩
      exact ((decodeNode.go_reads gen hash _).panics hf (Nat.le_refl _)).mp h
    · cases he.symm.trans h
    · exact .inl he
  case mpr =>
    rintro (rfl | ⟨head, elems, rest, hf, rfl, hb⟩)
    · rfl
    · exact ((decodeNode.go_reads gen hash _).panics hf (Nat.le_refl _)).mpr hb

end Trie
