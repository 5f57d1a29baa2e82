import GoEthereum.Trie.Wire

-- A collapsed node is decoded from its encoding.

namespace Trie

open Common

-- The collapsed form of a node: keys in compact encoding, and an empty string for a nil child.
def Node.collapse : Node Key → Node Bytes
  | nil             => value []
  | full cs flags   => full (fun i => (cs i).collapse) flags
  | short k n flags => short (compactEncode k) n.collapse flags
  | hash h          => hash h
  | value v         => value v

def Node.rlp (n : Node Key) : Bytes :=
  Rlp.encode n.collapse.item

mutual

-- A well-formed node, with the flags that `decodeNode` gives to it: a leaf, an extension or a branch.
inductive Formed (gen : UInt16) : Option Hash → Node Key → Prop
  | leaf {hash : Option Hash} {k : Key} (v : Bytes) : k.Wf → k.getLast? = some terminator →
      Formed gen hash (.short k (.value v) ⟨hash, gen, false⟩)
  | extension {hash : Option Hash} {k : Key} {n : Node Key} : k.Wf → k.getLast? ≠ some terminator →
      Referred gen n → Formed gen hash (.short k n ⟨hash, gen, false⟩)
  | branch {hash : Option Hash} {cs : Nibble → Node Key} :
      (∀ i, i ≠ terminator → cs i ≠ .nil → Referred gen (cs i)) →
      (cs terminator = .nil ∨ ∃ v ≠ [], cs terminator = .value v) →
      Formed gen hash (.full cs ⟨hash, gen, false⟩)

-- A node that another one refers to, by its hash or by being embedded.
inductive Referred (gen : UInt16) : Node Key → Prop
  | hash (h : Hash) : Referred gen (.hash h)
  | embedded {n : Node Key} : Formed gen none n → n.rlp.length < 32 → Referred gen n

end

section

variable {gen : UInt16} {hash : Option Hash} {n : Node Key}

theorem framed_str {b : Bytes} (h : b.length < 2 ^ 64) : ∃ k head, Rlp.Framed k head b ∧
    k ≠ .list ∧ Rlp.encode (.str b) = head ++ b := by
  obtain ⟨head, hf, he⟩ := Rlp.framed_encode (.str b) h
  exact ⟨_, head, hf, Rlp.kind_str_ne_list b, he⟩

theorem length_le_encode (b : Bytes) : b.length ≤ (Rlp.encode (.str b)).length :=
  Rlp.content_length_le (.str b)

theorem rlp_hash (h : Hash) : (Node.hash h : Node Key).rlp = 0xA0 :: h.bytes := by
  have hl := h.bytes_length
  rw [Node.rlp, Node.collapse, Node.item, Rlp.encode, Rlp.encodeString_string, hl]
  · rfl
  · rintro c hc
    rw [hc] at hl
    cases hl

theorem Formed.rlp_eq (h : Formed gen hash n) :
    n.rlp = Rlp.puthead 0xC0 0xF7 n.collapse.item.content.length ++ n.collapse.item.content := by
  cases h <;> rw [Node.rlp, Node.collapse, Node.item, Rlp.encode, Rlp.Item.content]

theorem content_full (cs : Nibble → Node Key) (flags : NodeFlag) :
    (Node.full cs flags).collapse.item.content =
      (List.ofFn fun i : Fin 16 => (cs i.castSucc).rlp).flatten ++ (cs terminator).rlp := by
  rw [Node.collapse, Node.item, Rlp.Item.content, Rlp.encodeList_eq_flatten, List.ofFn_eq_map,
    finRange_castSucc_concat]
  simp [Function.comp_def, Node.rlp]

theorem rlp_slot (h : n = .nil ∨ ∃ v ≠ [], n = .value v) (hl : n.rlp.length < 2 ^ 64) :
    ∃ k head val, Rlp.Framed k head val ∧ k ≠ .list ∧ n.rlp = head ++ val ∧ n = valueSlot val := by
  obtain ⟨v, hv, he⟩ : ∃ v, n = valueSlot v ∧ n.rlp = Rlp.encode (.str v) := by
    rcases h with rfl | ⟨v, hne, rfl⟩
    · exact ⟨[], rfl, rfl⟩
    · exact ⟨v, (if_pos (List.length_pos_iff.mpr hne)).symm, rfl⟩
  obtain ⟨k, head, hf, hne, he'⟩ := framed_str ((length_le_encode v).trans_lt (he ▸ hl))
  exact ⟨k, head, v, hf, hne, he.trans he', hv⟩

mutual

theorem Formed.parses : ∀ {hash : Option Hash} {n : Node Key}, Formed gen hash n →
    n.collapse.item.content.length < 2 ^ 64 → Parses gen hash n.collapse.item.content n
  | _, _, .leaf (k := k) v hk ht, hl => by
    simp only [Node.collapse, Node.item, Rlp.Item.content, Rlp.encodeList, List.append_nil,
      List.length_append] at hl ⊢
    have hkl := length_le_encode (compactEncode k)
    have hvl := length_le_encode v
    obtain ⟨_, _, hf, hne, he⟩ := framed_str (b := compactEncode k) (by omega)
    obtain ⟨_, _, hf', hne', he'⟩ := framed_str (b := v) (by omega)
    rw [he, he']
    exact .leaf hf hne ⟨compactDecode_compactEncode hk, hk.left⟩ ht hf' hne'
  | _, _, .extension (k := k) hk ht hr, hl => by
    simp only [Node.collapse, Node.item, Rlp.Item.content, Rlp.encodeList, List.append_nil,
      List.length_append] at hl ⊢
    have hkl := length_le_encode (compactEncode k)
    obtain ⟨_, _, hf, hne, he⟩ := framed_str (b := compactEncode k) (by omega)
    rw [he]
    exact .extension hf hne ⟨compactDecode_compactEncode hk, hk.left⟩ ht
      (hr.parses (by rw [Node.rlp]; omega))
  | _, .full cs _, .branch hcs hv, hl => by
    rw [content_full, List.length_append] at hl
    rw [content_full]
    obtain ⟨_, _, _, hf, hne, he, hs⟩ := rlp_slot hv (by omega)
    rw [he]
    refine .branch (fun i => ?_) hf hne hs
    by_cases hn : cs i.castSucc = .nil
    · rw [hn]
      exact .nil
    · refine (hcs i.castSucc (Fin.castSucc_lt_last i).ne hn).parses (lt_of_le_of_lt ?_ hl)
      refine Nat.le_add_right_of_le (List.sublist_flatten_of_mem ?_).length_le
      exact List.mem_ofFn.mpr ⟨i, rfl⟩

theorem Referred.parses : ∀ {n : Node Key}, Referred gen n → n.rlp.length < 2 ^ 64 →
    ParsesRef gen n.rlp n
  | _, .hash h, _ => by
    rw [rlp_hash]
    exact .hash h
  | n, .embedded hf hl, _ => by
    rw [hf.rlp_eq] at hl ⊢
    have hlt : n.collapse.item.content.length < 2 ^ 64 := by
      rw [List.length_append] at hl
      omega
    exact .embedded (.list hlt) hl.le (hf.parses hlt)

end

theorem Formed.decodeNode (h : Formed gen hash n) (hl : n.collapse.item.content.length < 2 ^ 64) :
    decodeNode hash n.rlp gen = .ok n :=
  decodeNode_eq_ok_iff.mpr ⟨_, _, [], .list hl, by rw [h.rlp_eq, List.append_nil], h.parses hl⟩

end

-- The keys in nibble form, and the node with them, come back from their encodings.
theorem decodeNode_rlp (gen : UInt16) (hash : Option Hash) (n : Node Key) (h : Formed gen hash n)
    (hl : n.rlp.length < 2 ^ 63) :
    decodeNode hash n.rlp gen = .ok n ∧
      ∀ k : Key, k.Wf → compactDecode (compactEncode k) = some k := by
  have hc := Rlp.content_length_le n.collapse.item
  rw [Node.rlp] at hl
  exact ⟨h.decodeNode (by omega), fun _ => compactDecode_compactEncode⟩

-- A branch with the children of a hash, an embedded leaf and a value.
def sampleBranch : Node Key :=
  .full (fun i =>
    if i = loNibble 0 then .hash (bytesToHash [1])
    else if i = loNibble 5 then .short [loNibble 3, loNibble 4, terminator] (.value [7]) ⟨none, 2, false⟩
    else if i = terminator then .value [8, 9]
    else .nil) ⟨none, 2, false⟩

theorem decodeNode_rlp_branch :
    decodeNode none sampleBranch.rlp 2 = .ok sampleBranch := by
  have hf : Formed 2 none sampleBranch := by
    refine .branch (fun i hi hn => ?_) (.inr ⟨[8, 9], by simp, rfl⟩)
    by_cases h₀ : i = loNibble 0
    · rw [if_pos h₀]
      exact .hash _
    by_cases h₅ : i = loNibble 5
    · rw [if_neg h₀, if_pos h₅]
      exact .embedded (.leaf [7] ⟨by decide, by decide⟩ rfl) (by decide)
    · rw [if_neg h₀, if_neg h₅, if_neg hi] at hn
      exact absurd rfl hn
  exact (decodeNode_rlp 2 none sampleBranch hf (by decide)).left

end Trie
