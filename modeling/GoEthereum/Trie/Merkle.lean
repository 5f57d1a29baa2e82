import GoEthereum.Trie.Trie

-- What a trie stands for: a path compressed tree over nibbles, and the encoding of its nodes.

namespace Trie

open Common Patricia

-- A value stored in the trie: a nonempty Go slice.
abbrev Value := { b : Bytes // b ≠ [] ∧ b.length < 2 ^ 63 }

abbrev Tree := Patricia.Tree Nibble Value

namespace Merkle

section

variable (keccak : Bytes → Hash)

-- A node whose encoding has 32 bytes or more stands in its parent by its hash.
def refItem (t : Tree) (x : Rlp.Item) : Rlp.Item :=
  if t.isNode ∧ 32 ≤ (Rlp.encode x).length then .str (keccak (Rlp.encode x)).bytes else x

def item : Tree → Rlp.Item
  | .nil       => .str []
  | .value v   => .str v.val
  | .short k t => .list [.str (compactEncode k), refItem keccak t (item t)]
  | .full cs   => .list ((List.finRange 17).map fun i => refItem keccak (cs i) (item (cs i)))

def enc (t : Tree) : Bytes :=
  Rlp.encode (item keccak t)

def ref (t : Tree) : Rlp.Item :=
  refItem keccak t (item keccak t)

-- The encodings that are reached from a node by hash references, the node itself apart, satisfy
-- `A`.
def Under (A : Bytes → Prop) : Tree → Prop
  | .nil       => True
  | .value _   => True
  | .short _ t => (t.isNode → 32 ≤ (enc keccak t).length → A (enc keccak t)) ∧ Under A t
  | .full cs   => ∀ i, ((cs i).isNode → 32 ≤ (enc keccak (cs i)).length → A (enc keccak (cs i))) ∧
      Under A (cs i)

structure Whole (A : Bytes → Prop) (t : Tree) : Prop where
  self  : A (enc keccak t)
  under : Under keccak A t

end

structure Wf (p : Key) (t : Tree) : Prop where
  reduced : t.Reduced
  within  : t.Within (suffixes hexKeys p)

namespace Wf

variable {p : Key}

theorem nil : Wf p .nil :=
  ⟨by simp [Patricia.Tree.Reduced], by simp [Patricia.Tree.Within]⟩

theorem value {v : Value} (h : Wf p (.value v)) : p ∈ hexKeys := by
  simpa [suffixes] using h.within.value

variable {t : Tree} {k : Key} {cs : Nibble → Tree}

theorem eq_value (h : Wf p t) (hp : p ∈ hexKeys) (hn : t ≠ .nil) : ∃ v, t = .value v :=
  h.reduced.eq_value hn (hexKeys_prefixFree.suffixes p) h.within (by simpa [suffixes] using hp)

theorem of_short (h : Wf p (.short k t)) : Wf (p ++ k) t :=
  ⟨h.reduced.right.right.right, suffixes_suffixes hexKeys p k ▸ h.within.short⟩

theorem of_full (h : Wf p (.full cs)) (i : Nibble) : Wf (p ++ [i]) (cs i) :=
  ⟨h.reduced.left i, suffixes_suffixes hexKeys p [i] ▸ h.within.full i⟩

theorem exists_mem (h : Wf p t) (hn : t ≠ .nil) : ∃ k, p ++ k ∈ hexKeys := by
  obtain ⟨k, v, hk⟩ := h.reduced.exists_lookup hn
  exact ⟨k, h.within k v hk⟩

theorem short_mem (h : Wf p (.short k t)) : ∃ l, p ++ (k ++ l) ∈ hexKeys := by
  obtain ⟨l, hl⟩ := h.of_short.exists_mem h.reduced.right.left
  exact ⟨l, List.append_assoc .. ▸ hl⟩

theorem short_key (h : Wf p (.short k t)) : k.Wf ∧ k.length < 2 ^ 63 := by
  obtain ⟨l, hl⟩ := h.short_mem
  exact ⟨Key.wf_of_append_mem_hexKeys hl h.reduced.left, length_lt_of_append_mem_hexKeys hl⟩

theorem short_value_iff (h : Wf p (.short k t)) :
    k.getLast? = some terminator ↔ ∃ v, t = .value v := by
  obtain ⟨hk, hn, _, _⟩ := h.reduced
  constructor
  · intro hl
    obtain ⟨l, hm⟩ := h.short_mem
    have hnil : l = [] := by
      by_contra hne
      exact getLast_ne_terminator hm hne hl
    subst hnil
    exact h.of_short.eq_value (by simpa using hm) hn
  · rintro ⟨v, rfl⟩
    exact getLast_eq_terminator h.of_short.value hk

theorem full_value_iff (h : Wf p (.full cs)) {i : Nibble} (hn : cs i ≠ .nil) :
    i = terminator ↔ ∃ v, cs i = .value v := by
  obtain ⟨l, hl⟩ := (h.of_full i).exists_mem hn
  rw [List.append_assoc] at hl
  constructor
  · rintro rfl
    have hnil : l = [] := by
      by_contra hne
      exact getLast_ne_terminator hl hne (by simp)
    subst hnil
    exact (h.of_full terminator).eq_value (by simpa using hl) hn
  · rintro ⟨v, hv⟩
    have := getLast_eq_terminator (hv ▸ h.of_full i).value (by simp)
    simpa using this

theorem short_isNode (h : Wf p (.short k t))
    (hk : k.getLast? ≠ some terminator) : t.isNode = true := by
  have hn := h.reduced.right.left
  have hv := h.short_value_iff.not.mp hk
  cases t <;> simp_all [Patricia.Tree.isNode]

theorem full_isNode (h : Wf p (.full cs)) {i : Nibble} (hi : i ≠ terminator)
    (hn : cs i ≠ .nil) : (cs i).isNode = true := by
  have hv := (h.full_value_iff hn).not.mp hi
  cases hc : cs i <;> simp_all [Patricia.Tree.isNode]

theorem full_last (h : Wf p (.full cs)) :
    cs terminator = .nil ∨ ∃ v, cs terminator = .value v := by
  by_cases hn : cs terminator = .nil
  · exact .inl hn
  · exact .inr ((h.full_value_iff hn).mp rfl)

end Wf

section

variable (keccak : Bytes → Hash)

variable {t : Tree}

theorem refItem_of_not_isNode (h : t.isNode = false) (x : Rlp.Item) :
    refItem keccak t x = x := by
  simp [refItem, h]

theorem ref_length_of_isNode (h : t.isNode = true) :
    (Rlp.encode (ref keccak t)).length ≤ 33 := by
  unfold ref refItem
  split_ifs with hc
  · rw [Rlp.encode, Rlp.encodeString]
    · simp [Rlp.puthead_length, Rlp.headsize, Hash.bytes_length]
    · intro c hc
      have := congrArg List.length hc
      simp [Hash.bytes_length] at this
  · simp [h] at hc
    omega

theorem ref_length_le (t : Tree) : (Rlp.encode (ref keccak t)).length ≤ 2 ^ 63 + 9 := by
  cases h : t.isNode
  case true => exact (ref_length_of_isNode keccak h).trans (by norm_num)
  case false =>
    rw [ref, refItem_of_not_isNode keccak h]
    cases t <;> simp [Patricia.Tree.isNode] at h <;> simp only [item, Rlp.encode]
    case nil     => exact (Rlp.encodeString_length_le _).trans (by simp)
    case value v => exact (Rlp.encodeString_length_le _).trans (by omega)

theorem encodeList_length_le {xs : List Rlp.Item} {n : Nat} (h : ∀ x ∈ xs, (Rlp.encode x).length ≤ n) :
    (Rlp.encodeList xs).length ≤ xs.length * n := by
  rw [Rlp.encodeList_eq_flatten, List.length_flatten]
  exact (List.sum_le_card_nsmul _ n (by simpa using h)).trans (by simp)

theorem content_item_lt {p : Key} (h : Wf p t) :
    (item keccak t).content.length < 2 ^ 64 := by
  cases t
  case nil     => simp [item, Rlp.Item.content]
  case value v => simp only [item, Rlp.Item.content]; omega
  case short k t =>
    have h₁ := compactEncode_length_le k
    have h₂ := Rlp.encodeString_length_le (compactEncode k)
    have h₃ := ref_length_le keccak t
    have h₄ := h.short_key.right
    rw [ref] at h₃
    simp only [item, Rlp.Item.content, Rlp.encodeList, Rlp.encode, List.append_nil,
      List.length_append]
    omega
  case full cs =>
    have h₁ : ∀ x ∈ (List.finRange 16).map (fun i => ref keccak (cs i.castSucc)),
        (Rlp.encode x).length ≤ 33 := by
      simp only [List.mem_map, forall_exists_index, and_imp]
      rintro _ i - rfl
      by_cases hn : cs i.castSucc = .nil
      · simp [ref, refItem, hn, item, Patricia.Tree.isNode, Rlp.encode, Rlp.encodeString, Rlp.puthead]
      · exact ref_length_of_isNode keccak (h.full_isNode (Fin.castSucc_lt_last i).ne hn)
    have h₂ := encodeList_length_le h₁
    have h₃ := ref_length_le keccak (cs terminator)
    rw [ref] at h₃
    simp only [item, Rlp.Item.content, finRange_castSucc_concat, List.map_append, List.map_map,
      Rlp.encodeList_eq_flatten, List.flatten_append, List.length_append] at h₂ ⊢
    simp [ref, Function.comp_def] at h₂ ⊢
    omega

end

variable {keccak : Bytes → Hash} {S : Set Bytes} {p : Key} {s t : Tree}

theorem Wf.isNode_of_mem (h : Wf p t) (hp : p ∈ hexKeys) : t.isNode = false := by
  by_cases hn : t = .nil
  · simp [hn, Patricia.Tree.isNode]
  · obtain ⟨v, rfl⟩ := h.eq_value hp hn
    rfl

theorem enc_inj (hs : Wf p s) (ht : Wf p t) (h : enc keccak s = enc keccak t) :
    item keccak s = item keccak t :=
  Rlp.encode_inj (content_item_lt keccak hs) (content_item_lt keccak ht) h

theorem ref_ne_str_hash (hs : Wf p s) (ht : Wf p t) (hn : s.isNode = true) (h : Hash) :
    item keccak t ≠ .str h.bytes := by
  intro he
  cases t <;> simp [item] at he
  case nil     => have := h.bytes_length; rw [he] at this; simp at this
  case value v => simp [hs.isNode_of_mem ht.value] at hn

theorem ref_inj (hk : Set.InjOn keccak S) (hs : Wf p s) (ht : Wf p t)
    (hss : s.isNode → 32 ≤ (enc keccak s).length → enc keccak s ∈ S)
    (hts : t.isNode → 32 ≤ (enc keccak t).length → enc keccak t ∈ S)
    (h : ref keccak s = ref keccak t) : item keccak s = item keccak t := by
  unfold ref refItem at h
  split_ifs at h with h₁ h₂ h₂
  · have hh := Hash.bytes_injective (Rlp.Item.str.inj h)
    exact enc_inj hs ht (hk (hss h₁.left h₁.right) (hts h₂.left h₂.right) hh)
  · exact absurd h.symm (ref_ne_str_hash hs ht h₁.left _)
  · exact absurd h (ref_ne_str_hash ht hs h₂.left _)
  · exact h

-- The encoding of a node determines the whole tree below it, if no two of the encodings that are
-- reached from it have the same hash.
theorem item_inj (hk : Set.InjOn keccak S) (hs : Wf p s) (ht : Wf p t)
    (hus : Under keccak (· ∈ S) s) (hut : Under keccak (· ∈ S) t)
    (h : item keccak s = item keccak t) : s = t := by
  induction s generalizing p t
  case nil =>
    cases t <;> simp [item] at h
    case nil     => rfl
    case value v => exact absurd h v.property.left
  case value v =>
    cases t <;> simp [item] at h
    case nil     => exact absurd h v.property.left
    case value w => rw [Subtype.ext h]
  case short k s hi =>
    cases t <;> simp only [item, reduceCtorEq, Rlp.Item.list.injEq] at h
    case full cs =>
      have := congrArg List.length h
      simp at this
    case short k' t =>
      simp only [List.cons.injEq, Rlp.Item.str.injEq, and_true] at h
      obtain ⟨h₁, h₂⟩ := h
      obtain rfl := compactEncode_injOn hs.short_key.left ht.short_key.left h₁
      have hst := ref_inj hk hs.of_short ht.of_short hus.left hut.left h₂
      rw [hi hs.of_short ht.of_short hus.right hut.right hst]
  case full cs hi =>
    cases t <;> simp only [item, reduceCtorEq, Rlp.Item.list.injEq] at h
    case short k t =>
      have := congrArg List.length h
      simp at this
    case full ds =>
      have h := List.map_inj_left.mp h
      congr
      funext i
      have hst := ref_inj hk (hs.of_full i) (ht.of_full i) (hus i).left (hut i).left (h i (by simp))
      exact hi i (hs.of_full i) (ht.of_full i) (hus i).right (hut i).right hst

end Merkle

end Trie
