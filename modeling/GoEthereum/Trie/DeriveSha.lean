import GoEthereum.Rlp.Item
import GoEthereum.Trie.Simulation

-- The root hash of a list, which the header of a block holds for its transactions and receipts.

namespace Trie

open Common Merkle

-- An error is only logged.
def update (t : Trie) (db : Database) (key value : Bytes) : Go MissingNodeError Trie :=
  match t.tryUpdate db key value with
  | .error (.error _) => .ok t
  | r                 => r

-- What `rlp.Encode(keybuf, uint(i))` leaves in the buffer. Its error is dropped.
def keybuf (i : Nat) : Bytes :=
  ((Rlp.Ty.uint .w64).encodeToBytes (Fin.ofNat _ i)).toOption.getD []

-- The list holds what `GetRlp` returns. The new trie has no database to find a node in.
def deriveSha (keccak : Bytes → Hash) (list : List Slice) : Go MissingNodeError Hash := do
  let t ← list.zipIdx.foldlM (fun t (x, i) => t.update (fun _ => none) (keybuf i) x.val)
    (Session.start fun _ => none).trie
  let (h, _) ← t.hash keccak
  pure h

theorem length_index_le (i : Nat) : (leastBigEndian (i % 2 ^ 64)).length ≤ 8 :=
  @leastBigEndian_length_le _ 8 (Nat.mod_lt _ (by decide))

theorem keybuf_eq (i : Nat) : keybuf i = Rlp.encode (.str (leastBigEndian (i % 2 ^ 64))) := by
  rw [keybuf, @Rlp.Ty.encodeToBytes_eq (.uint .w64) (Fin.ofNat _ i) rfl trivial]
  rfl

theorem keybuf_length_le (i : Nat) : (keybuf i).length ≤ 17 := by
  have := Rlp.encodeString_length_le (leastBigEndian (i % 2 ^ 64))
  rw [keybuf_eq, Rlp.encode]
  exact this.trans (Nat.add_le_add_right (length_index_le i) 9)

theorem keybuf_inj {i j : Nat} (hi : i < 2 ^ 64) (hj : j < 2 ^ 64) (h : keybuf i = keybuf j) :
    i = j := by
  have hl (i : Nat) : (Rlp.Item.str (leastBigEndian (i % 2 ^ 64))).content.length < 2 ^ 64 :=
    (length_index_le i).trans_lt (by decide)
  rw [keybuf_eq, keybuf_eq] at h
  have he := congrArg ofBigEndian (Rlp.Item.str.inj (Rlp.encode_inj (hl i) (hl j) h))
  rwa [ofBigEndian_leastBigEndian, ofBigEndian_leastBigEndian, Nat.mod_eq_of_lt hi,
    Nat.mod_eq_of_lt hj] at he

def indexKey (i : Nat) : ByteKey :=
  ⟨keybuf i, by have := keybuf_length_le i; omega⟩

def updates (i : Nat) (xs : List Slice) : List Op :=
  (xs.zipIdx i).map fun (x, i) => .tryUpdate (indexKey i) x

def entries (xs : List Slice) : Contents :=
  (Spec.start.run (updates 0 xs)).cur

def shaInputs (keccak : Bytes → Hash) (xs : List Slice) : Set Bytes :=
  hashedIn keccak (fun _ => none) (updates 0 xs ++ [.hash])

def present (x : Slice) : Option Bytes :=
  if x.val = [] then none else some x.val

variable {keccak : Bytes → Hash} {xs ys : List Slice}

theorem foldlM_of_run {s s' : Session} {outs : List Output} {i : Nat}
    (h : s.run keccak (updates i xs) = .ok (s', outs)) :
    (xs.zipIdx i).foldlM (fun t (x, i) => t.update s.db (keybuf i) x.val) s.trie = .ok s'.trie := by
  induction xs generalizing s outs i
  case nil =>
    cases h
    rfl
  case cons x xs hi =>
    obtain ⟨⟨s₁, out⟩, hs, h⟩ := Go.bind_eq_ok.mp h
    obtain ⟨⟨s₂, outs⟩, hr, h⟩ := Go.bind_eq_ok.mp h
    obtain ⟨t, ht, hs⟩ := Go.bind_eq_ok.mp hs
    cases h
    cases hs
    have hu : s.trie.update s.db (indexKey i).val x.val = .ok t := by rw [update, ht]
    exact Go.bind_eq_ok.mpr ⟨t, hu, hi hr⟩

-- A key holds the entry of its index, or belongs to no index.
theorem cur_updates (m : Spec) (i : Nat) (xs : List Slice) (k : ByteKey) :
    (∃ j x, xs[j]? = some x ∧ k = indexKey (i + j) ∧ (m.run (updates i xs)).cur k = present x) ∨
      (∀ j < xs.length, k ≠ indexKey (i + j)) ∧ (m.run (updates i xs)).cur k = m.cur k := by
  induction xs generalizing m i
  case nil => exact .inr ⟨fun j hj => absurd hj j.not_lt_zero, rfl⟩
  case cons x xs hi =>
    obtain ⟨j, y, hy, hk, hc⟩ | ⟨hn, hc⟩ := hi (m.step (.tryUpdate (indexKey i) x)) (i + 1)
    case inl => exact .inl ⟨j + 1, y, hy, by rw [hk, Nat.add_right_comm, Nat.add_assoc], hc⟩
    case inr =>
      by_cases he : k = indexKey i
      case pos =>
        refine .inl ⟨0, x, rfl, he, hc.trans ?_⟩
        rw [he]
        exact Function.update_self ..
      case neg =>
        refine .inr ⟨?_, hc.trans (Function.update_of_ne he ..)⟩
        intro j hj
        cases j
        case zero   => exact he
        case succ j =>
          rw [← Nat.add_assoc, Nat.add_right_comm]
          exact hn j (Nat.lt_of_succ_lt_succ hj)

theorem cur_indexKey (hx : xs.length < 2 ^ 63) {i : Nat} (hi : i < 2 ^ 63) :
    entries xs (indexKey i) = xs[i]?.bind present := by
  obtain ⟨j, x, hj, hk, hc⟩ | ⟨hn, hc⟩ := cur_updates .start 0 xs (indexKey i)
  case inl =>
    have hlt := (List.getElem?_eq_some_iff.mp hj).fst
    obtain rfl : i = 0 + j := keybuf_inj (by omega) (by omega) (congrArg Subtype.val hk)
    rw [entries, hc, Nat.zero_add, hj, Option.bind_some]
  case inr =>
    have hge : xs.length ≤ i := by
      by_contra hlt
      exact hn i (by omega) (by rw [Nat.zero_add])
    rw [entries, hc, List.getElem?_eq_none hge]
    rfl

theorem cur_eq_iff (hx : xs.length < 2 ^ 63) (hy : ys.length < 2 ^ 63) :
    entries xs = entries ys ↔ ∀ i : Nat, xs[i]?.bind present = ys[i]?.bind present := by
  constructor
  case mp =>
    intro h i
    by_cases hi : i < 2 ^ 63
    case pos => rw [← cur_indexKey hx hi, ← cur_indexKey hy hi, h]
    case neg => rw [List.getElem?_eq_none (by omega), List.getElem?_eq_none (by omega)]
  case mpr =>
    intro h
    have hk {i : Nat} (hi : i < 2 ^ 63) := (cur_indexKey hx hi).trans <|
      (h i).trans (cur_indexKey hy hi).symm
    funext k
    obtain ⟨i, x, hi, rfl, -⟩ | ⟨-, hc⟩ := cur_updates .start 0 xs k
    case inl => exact hk (by grind)
    case inr =>
      obtain ⟨i, y, hi, rfl, -⟩ | ⟨-, hc'⟩ := cur_updates .start 0 ys k
      case inl => exact hk (by grind)
      case inr => rw [entries, entries, hc, hc']

theorem deriveSha_spec {S : Set Bytes} (hcf : CollisionFree keccak S) (hS : shaInputs keccak xs ⊆ S) :
    ∃ t, deriveSha keccak xs = .ok (rootHash keccak t) ∧ Wf [] t ∧ contents t = entries xs ∧
      (t.isNode = true → Whole keccak (· ∈ S) t) := by
  have hno (i : Nat) : Op.reopen i ∉ updates 0 xs := by simp [updates]
  obtain ⟨s, outs, t, hrun, ht, hc, hk, -⟩ := run_hash hcf (fun i h => absurd h (hno i)) hS
  refine ⟨t, ?_, ht, hc, hk⟩
  rw [Session.run_concat] at hrun
  obtain ⟨⟨s₁, outs₁⟩, hr, h⟩ := Go.bind_eq_ok.mp hrun
  obtain ⟨⟨s₂, out⟩, hh, h⟩ := Go.bind_eq_ok.mp h
  obtain ⟨⟨g, t', es⟩, hg, hh⟩ := Go.bind_eq_ok.mp hh
  cases hh
  simp only [pure, Except.pure, Except.ok.injEq, Prod.mk.injEq] at h
  obtain ⟨-, ho⟩ := List.append_inj' h.right rfl
  cases ho
  have hf := foldlM_of_run hr
  exact Go.bind_eq_ok.mpr ⟨s₁.trie, hf, Go.bind_eq_ok.mpr ⟨_, hg, rfl⟩⟩

-- Two lists have the same root if and only if they agree at every index, where an entry with an
-- empty encoding is as good as none.
theorem deriveSha_eq_iff (hx : xs.length < 2 ^ 63) (hy : ys.length < 2 ^ 63)
    (hcf : CollisionFree keccak ({[0x80]} ∪ (shaInputs keccak xs ∪ shaInputs keccak ys))) :
    ∃ g h, deriveSha keccak xs = .ok g ∧ deriveSha keccak ys = .ok h ∧
      (g = h ↔ ∀ i : Nat, xs[i]?.bind present = ys[i]?.bind present) := by
  obtain ⟨t, ht, hw, hc, hk⟩ := deriveSha_spec hcf fun _ h => .inr (.inl h)
  obtain ⟨t', ht', hw', hc', hk'⟩ := deriveSha_spec hcf fun _ h => .inr (.inr h)
  refine ⟨_, _, ht, ht', ?_⟩
  rw [← cur_eq_iff hx hy, ← hc, ← hc']
  constructor
  case mp  => exact fun h => congrArg _ (rootHash_inj hcf hw hw' hk hk' h)
  case mpr => exact fun h => congrArg _ (eq_of_contents_eq hw hw' h)

-- The trie of one entry is a leaf under the key of index zero.

def leafKeccak (e : Bytes) : Hash :=
  if e = [0x80] then emptyRoot else Hash.zero

theorem deriveSha_leaf : ∃ g h, deriveSha leafKeccak [⟨[0x07], by decide⟩] = .ok g ∧
    deriveSha leafKeccak [] = .ok h ∧ g ≠ h := by
  have hl : shaInputs leafKeccak [⟨[0x07], by decide⟩] ⊆ {[0xC4, 0x82, 0x20, 0x80, 0x07]} :=
    hashedIn_subset _ (by decide +kernel)
  have hn : shaInputs leafKeccak [] ⊆ {[0xC4, 0x82, 0x20, 0x80, 0x07]} :=
    hashedIn_subset _ (by decide +kernel)
  have hi : Set.InjOn leafKeccak {[0x80], [0xC4, 0x82, 0x20, 0x80, 0x07]} := by
    simp [Set.InjOn, leafKeccak]
    decide
  obtain ⟨g, h, hg, hh, hiff⟩ := deriveSha_eq_iff (by decide) (by decide)
    ⟨hi.mono (Set.union_subset_union_right _ (Set.union_subset hl hn)), by simp, rfl⟩
  exact ⟨g, h, hg, hh, fun he => absurd (hiff.mp he 0) (by decide)⟩

end Trie
