import GoEthereum.Core.TxList

-- The sorted map of transactions refines the list of its transactions in the order of the nonces.

namespace Core

open Transaction (accountNonce)

structure TxSeq where
  txs    : List Transaction
  sorted : SortedBy accountNonce txs

namespace TxSeq

variable (s : TxSeq)

@[ext]
theorem ext {s s' : TxSeq} (h : s.txs = s'.txs) : s = s' := by
  cases s
  cases h
  rfl

def nil : TxSeq :=
  ⟨[], List.Pairwise.nil⟩

def put (tx : Transaction) : TxSeq :=
  ⟨insertBy accountNonce tx s.txs, s.sorted.insertBy tx⟩

def keep (p : Transaction → Bool) : TxSeq :=
  ⟨s.txs.filter p, s.sorted.filter p⟩

def take (n : Nat) : TxSeq :=
  ⟨s.txs.take n, s.sorted.sublist (List.take_sublist n s.txs)⟩

def drop (n : Nat) : TxSeq :=
  ⟨s.txs.drop n, s.sorted.sublist (List.drop_sublist n s.txs)⟩

-- How many transactions at the front have the nonces from `next` on, one after the other.
def runLength (next : UInt64) : List Transaction → Nat
  | []        => 0
  | tx :: txs => if tx.accountNonce = next then runLength (next + 1) txs + 1 else 0

-- The run of consecutive nonces from the lowest one, unless that one is above `start`.
def readyLength (start : UInt64) : Nat :=
  match s.txs with
  | []      => 0
  | tx :: _ => if tx.accountNonce > start then 0 else runLength tx.accountNonce s.txs

end TxSeq

namespace TxSortedMap

structure Indexes (items : GoMap UInt64 Transaction) (index : List UInt64) (txs : List Transaction) :
    Prop where
  holds : GoMap.Holds accountNonce items txs
  perm  : index.Perm (txs.map accountNonce)
  heap  : Heap.IsHeap index

structure Stores (m : TxSortedMap) (s : TxSeq) : Prop where
  indexes : Indexes m.items m.index s.txs
  cache   : m.cache = none ∨ m.cache = some s.txs

theorem stores_new : new.Stores TxSeq.nil where
  indexes := ⟨GoMap.Holds.empty, List.Perm.refl _, Heap.isHeap_nil⟩
  cache   := Or.inl rfl

section

variable {items : GoMap UInt64 Transaction} {index : List UInt64} {tx : Transaction}
  {txs : List Transaction}

theorem Indexes.nil_iff (h : Indexes items index txs) : index = [] ↔ txs = [] := by
  rw [← List.length_eq_zero_iff, h.perm.length_eq, List.length_map, List.length_eq_zero_iff]

section

variable (h : Indexes items index (tx :: txs))
include h

theorem Indexes.ne_nil : index ≠ [] :=
  fun hn => List.cons_ne_nil tx txs (h.nil_iff.mp hn)

theorem Indexes.slot_zero
    (hs : SortedBy accountNonce (tx :: txs)) : Heap.slot index 0 = tx.accountNonce := by
  have hpos : 0 < index.length := List.length_pos_of_ne_nil h.ne_nil
  apply le_antisymm
  · exact h.heap.front_le (h.perm.mem_iff.mpr (by simp))
  · have hm : Heap.slot index 0 ∈ (tx :: txs).map accountNonce :=
      h.perm.mem_iff.mp (Heap.mem_iff_slot.mpr ⟨0, hpos, rfl⟩)
    obtain ⟨t, ht, he⟩ := List.mem_map.mp hm
    rw [← he]
    obtain rfl | ht := List.mem_cons.mp ht
    · exact le_refl _
    · exact ((List.pairwise_cons.mp hs).1 t ht).le

theorem Indexes.pop (hs : SortedBy accountNonce (tx :: txs)) :
    (Heap.pop index).fst = tx.accountNonce ∧
    Indexes (items.erase tx.accountNonce) (Heap.pop index).snd txs := by
  obtain ⟨hf, hp, hh⟩ := Heap.pop_spec h.heap h.ne_nil
  have hf' : (Heap.pop index).fst = tx.accountNonce := hf.trans (h.slot_zero hs)
  refine ⟨hf', ?_, ?_, hh⟩
  · have he := h.holds.erase tx.accountNonce
    rwa [hs.filter_ne_head] at he
  · rw [hf'] at hp
    exact (hp.symm.trans h.perm).cons_inv

end

theorem fetch_eq (h : GoMap.Holds accountNonce items txs) (ht : tx ∈ txs) :
    fetch items tx.accountNonce = .ok tx := by
  rw [fetch, h.lookup_of_mem ht]

variable {m : TxSortedMap} {s : TxSeq}

theorem Stores.len_eq (h : m.Stores s) : m.len = s.txs.length :=
  h.indexes.holds.length

theorem Stores.get_iff (h : m.Stores s) {n : UInt64} {tx : Transaction} :
    m.get n = some tx ↔ tx ∈ s.txs ∧ tx.accountNonce = n :=
  h.indexes.holds.lookup_iff

theorem Stores.put (h : m.Stores s) (tx : Transaction) : (m.put tx).Stores (s.put tx) := by
  have hp := insertBy_perm accountNonce tx s.txs
  have hm := hp.symm.map accountNonce
  have hh := (h.indexes.holds.insert tx).perm hp.symm
  have hi := h.indexes
  refine ⟨⟨hh, ?_, ?_⟩, Or.inl rfl⟩ <;> simp only [TxSortedMap.put]
  · refine List.Perm.trans ?_ hm
    cases hl : m.items.lookup tx.accountNonce
    case none =>
      have hn : s.txs.filter (accountNonce · ≠ tx.accountNonce) = s.txs := by
        simpa [List.filter_eq_self] using hi.holds.lookup_eq_none_iff.mp hl
      rw [hn]
      exact (Heap.push_spec hi.heap tx.accountNonce).1.trans (hi.perm.cons _)
    case some old =>
      obtain ⟨ho, he⟩ := hi.holds.lookup_iff.mp hl
      have hc := (s.sorted.perm_cons_filter ho).map accountNonce
      rw [List.map_cons, he] at hc
      exact hi.perm.trans hc
  · split
    case isTrue _  => exact (Heap.push_spec hi.heap tx.accountNonce).2
    case isFalse _ => exact hi.heap

theorem forwardLoop_eq {threshold : UInt64} {rounds : Nat} (hr : txs.length ≤ rounds)
    (h : Indexes items index txs) (hs : SortedBy accountNonce txs) :
    ∃ items' index', forwardLoop threshold rounds items index =
      .ok (txs.filter (accountNonce · < threshold), items', index') ∧
    Indexes items' index' (txs.filter (threshold ≤ accountNonce ·)) := by
  induction rounds generalizing items index txs
  case zero =>
    obtain rfl : txs = [] := List.length_eq_zero_iff.mp (Nat.le_zero.mp hr)
    exact ⟨items, index, rfl, h⟩
  case succ rounds hi =>
    cases txs
    case nil =>
      refine ⟨items, index, ?_, h⟩
      rw [forwardLoop, if_neg]
      · rfl
      · exact fun hc => hc.1 (h.nil_iff.mpr rfl)
    case cons tx txs =>
      obtain ⟨hf, hp⟩ := h.pop hs
      rw [forwardLoop, h.slot_zero hs, hf]
      by_cases hlt : tx.accountNonce < threshold
      · obtain ⟨items', index', he, hx⟩ := hi (by simpa using hr) hp (List.pairwise_cons.mp hs).2
        refine ⟨items', index', ?_, ?_⟩
        · rw [if_pos ⟨h.ne_nil, hlt⟩]
          simp only [fetch_eq h.holds (List.mem_cons_self ..), Go.ok_bind, he, List.filter_cons, hlt, decide_true, if_true]
        · rwa [List.filter_cons_of_neg (by simpa using hlt)]
      · have hle := not_lt.mp hlt
        have hall : ∀ t ∈ tx :: txs, threshold ≤ t.accountNonce := by
          intro t ht
          obtain rfl | ht := List.mem_cons.mp ht
          · exact hle
          · exact hle.trans ((List.pairwise_cons.mp hs).1 t ht).le
        have h₁ : (tx :: txs).filter (accountNonce · < threshold) = [] := by
          rw [List.filter_eq_nil_iff]
          intro t ht
          simpa using hall t ht
        have h₂ : (tx :: txs).filter (threshold ≤ accountNonce ·) = tx :: txs := by
          rw [List.filter_eq_self]
          intro t ht
          simpa using hall t ht
        rw [if_neg fun hc => hlt hc.2, h₁, h₂]
        exact ⟨items, index, rfl, h⟩

theorem Stores.length_index (h : m.Stores s) : s.txs.length = m.index.length := by
  rw [h.indexes.perm.length_eq, List.length_map]

theorem sliceFrom_eq {α : Type} {l : List α} {n : Nat} (hn : n ≤ l.length) :
    sliceFrom l n = .ok (l.drop n) := by
  rw [sliceFrom, if_neg (by omega), Int.toNat_natCast]

theorem sliceTo_eq {α : Type} {l : List α} {n : Nat} (hn : n ≤ l.length) :
    sliceTo l n = .ok (l.take n) := by
  rw [sliceTo, if_neg (by omega), Int.toNat_natCast]

theorem Stores.mapM_cache (h : m.Stores s) {f : List Transaction → Calls (List Transaction)}
    {txs : List Transaction} (hf : f s.txs = .ok txs) :
    ∃ cache, m.cache.mapM f = .ok cache ∧ (cache = none ∨ cache = some txs) := by
  obtain hc | hc := h.cache <;> rw [hc]
  · exact ⟨none, rfl, Or.inl rfl⟩
  · refine ⟨some txs, ?_, Or.inr rfl⟩
    rw [Option.mapM_some, hf]
    rfl

theorem Stores.forward (h : m.Stores s) (threshold : UInt64) :
    ∃ m', m.forward threshold = .ok (s.txs.filter (accountNonce · < threshold), m') ∧
    m'.Stores (s.keep (threshold ≤ accountNonce ·)) := by
  obtain ⟨items, index, he, hx⟩ :=
    @forwardLoop_eq _ _ _ threshold _ h.length_index.le h.indexes s.sorted
  have hc : sliceFrom s.txs (s.txs.filter (accountNonce · < threshold)).length =
      .ok (s.txs.filter (threshold ≤ accountNonce ·)) := by
    have hd : s.txs.drop (s.txs.filter (accountNonce · < threshold)).length =
        s.txs.filter (threshold ≤ accountNonce ·) := by
      have hc := congrArg (List.drop (s.txs.filter (accountNonce · < threshold)).length)
        (s.sorted.filter_append_filter threshold)
      rwa [List.drop_left, eq_comm] at hc
    rw [sliceFrom_eq (List.length_filter_le _ _), hd]
  obtain ⟨cache, hm, hc'⟩ := h.mapM_cache (f := (sliceFrom · _)) hc
  refine ⟨{ items, index, cache }, ?_, hx, hc'⟩
  rw [TxSortedMap.forward, he]
  simp only [Go.ok_bind, hm]

theorem readyLoop_eq {next : UInt64} {rounds : Nat} (hr : txs.length ≤ rounds)
    (h : Indexes items index txs) (hs : SortedBy accountNonce txs) :
    ∃ items' index', readyLoop rounds next items index =
      .ok (txs.take (TxSeq.runLength next txs), items', index') ∧
    Indexes items' index' (txs.drop (TxSeq.runLength next txs)) := by
  induction rounds generalizing items index txs next
  case zero =>
    obtain rfl : txs = [] := List.length_eq_zero_iff.mp (Nat.le_zero.mp hr)
    exact ⟨items, index, rfl, h⟩
  case succ rounds hi =>
    cases txs
    case nil =>
      refine ⟨items, index, ?_, h⟩
      rw [readyLoop, if_neg]
      · rfl
      · exact fun hc => hc.1 (h.nil_iff.mpr rfl)
    case cons tx txs =>
      obtain ⟨-, hp⟩ := h.pop hs
      rw [readyLoop, h.slot_zero hs, TxSeq.runLength]
      by_cases heq : tx.accountNonce = next
      · subst heq
        obtain ⟨items', index', he, hx⟩ := hi (by simpa using hr) hp
          (List.pairwise_cons.mp hs).2
        refine ⟨items', index', ?_, by rwa [if_pos rfl]⟩
        rw [if_pos ⟨h.ne_nil, rfl⟩, if_pos rfl]
        simp only [fetch_eq h.holds (List.mem_cons_self ..), Go.ok_bind, he, List.take_succ_cons]
      · rw [if_neg fun hc => heq hc.2, if_neg heq]
        exact ⟨items, index, rfl, h⟩

theorem Stores.ready (h : m.Stores s) (start : UInt64) :
    ∃ m', m.ready start = .ok (s.txs.take (s.readyLength start), m') ∧
    m'.Stores (s.drop (s.readyLength start)) := by
  have hi := h.indexes
  rw [TxSortedMap.ready]
  obtain ⟨txs, hs⟩ := s
  cases txs
  case nil =>
    rw [if_pos (Or.inl (hi.nil_iff.mpr rfl))]
    exact ⟨m, rfl, h⟩
  case cons tx txs =>
    rw [hi.slot_zero hs]
    simp only [TxSeq.readyLength]
    by_cases hlt : start < tx.accountNonce
    · rw [if_pos (Or.inr hlt), if_pos hlt]
      exact ⟨m, rfl, h⟩
    · obtain ⟨items, index, he, hx⟩ :=
        @readyLoop_eq _ _ _ tx.accountNonce _ h.length_index.le hi hs
      refine ⟨{ items, index, cache := none }, ?_, ?_, Or.inl rfl⟩
      · rw [if_neg fun hc => hc.elim hi.ne_nil hlt, he, if_neg hlt]
        rfl
      · rwa [if_neg hlt]

variable {threshold : Int} {size : Nat}

theorem capLoop_succ (ht : threshold < size + 1) (hn : size < txs.length)
    (h : GoMap.Holds accountNonce items (txs.take (size + 1))) (hs : SortedBy accountNonce txs) :
    capLoop threshold (txs.map accountNonce) (size + 1) items =
      (do
        let (drops, items) ← capLoop threshold (txs.map accountNonce) size
          (items.erase txs[size].accountNonce)
        .ok (txs[size] :: drops, items)) ∧
    GoMap.Holds accountNonce (items.erase txs[size].accountNonce) (txs.take size) := by
  have htake := List.take_succ_eq_append_getElem hn
  have hs' : SortedBy accountNonce (txs.take size ++ [txs[size]]) :=
    htake ▸ hs.sublist (List.take_sublist _ _)
  rw [htake] at h
  constructor
  · have hi : (txs.map accountNonce)[size]? = some txs[size].accountNonce := by simp [hn]
    rw [capLoop, if_pos (by exact_mod_cast ht), hi]
    simp only [fetch_eq h (List.mem_append_right _ (List.mem_singleton_self _)), Go.ok_bind]
  · have he := h.erase txs[size].accountNonce
    rwa [hs'.filter_ne_last] at he

theorem capLoop_of_neg (ht : threshold < 0) (hn : size ≤ txs.length)
    (h : GoMap.Holds accountNonce items (txs.take size)) (hs : SortedBy accountNonce txs) :
    capLoop threshold (txs.map accountNonce) size items = Go.panics := by
  induction size generalizing items
  case zero => exact if_pos ht
  case succ size hi =>
    obtain ⟨he, hh⟩ := capLoop_succ (show threshold < size + 1 by omega) hn h hs
    rw [he, hi (by omega) hh]
    rfl

theorem capLoop_eq (threshold : Nat) (hn : size ≤ txs.length)
    (h : GoMap.Holds accountNonce items (txs.take size)) (hs : SortedBy accountNonce txs) :
    ∃ items', capLoop threshold (txs.map accountNonce) size items =
      .ok (((txs.take size).drop threshold).reverse, items') ∧
    GoMap.Holds accountNonce items' ((txs.take size).take threshold) := by
  induction size generalizing items
  case zero => exact ⟨items, by simp [capLoop], by simpa using h⟩
  case succ size hi =>
    have hl : (txs.take (size + 1)).length = size + 1 := by
      rw [List.length_take]
      omega
    by_cases ht : threshold < size + 1
    · obtain ⟨he, hh⟩ := capLoop_succ (show (threshold : Int) < size + 1 by omega) hn h hs
      obtain ⟨items', he', hh'⟩ := hi (by omega) hh
      have htake := List.take_succ_eq_append_getElem hn
      have hl' : threshold ≤ (txs.take size).length := by
        rw [List.length_take]
        omega
      refine ⟨items', ?_, ?_⟩
      · rw [he, he', htake, List.drop_append_of_le_length hl', List.reverse_append]
        rfl
      · rwa [htake, List.take_append_of_le_length hl']
    · refine ⟨items, ?_, ?_⟩
      · rw [capLoop, if_neg (by omega), List.drop_of_length_le (by omega)]
        rfl
      · rwa [List.take_of_length_le (by omega)]

variable (h : m.Stores s)
include h

theorem Stores.sort_index :
    m.index.insertionSort (· ≤ ·) = s.txs.map accountNonce := by
  have hs : SortedBy id (s.txs.map accountNonce) := List.pairwise_map.mpr s.sorted
  exact hs.insertionSort_eq h.indexes.perm

theorem Stores.holds_take :
    GoMap.Holds accountNonce m.items (s.txs.take m.items.entries.length) := by
  rw [h.indexes.holds.length, List.take_length]
  exact h.indexes.holds

theorem Stores.cap_of_neg (ht : threshold < 0) :
    m.cap threshold = Go.panics := by
  rw [TxSortedMap.cap, if_neg (by omega), h.sort_index]
  simp only [capLoop_of_neg ht h.indexes.holds.length.le h.holds_take s.sorted]
  rfl

theorem Stores.cap (threshold : Nat) :
    ∃ m', m.cap threshold = .ok ((s.txs.drop threshold).reverse, m') ∧
    m'.Stores (s.take threshold) := by
  have hn := h.indexes.holds.length
  rw [TxSortedMap.cap]
  by_cases ht : s.txs.length ≤ threshold
  · have hk : s.take threshold = s := TxSeq.ext (List.take_of_length_le ht)
    rw [if_pos (by omega), hk, List.drop_of_length_le ht]
    exact ⟨m, rfl, h⟩
  · obtain ⟨items, he, hh⟩ := capLoop_eq threshold hn.le h.holds_take s.sorted
    rw [hn, List.take_length] at he hh
    have hlt : threshold ≤ (s.txs.map accountNonce).length := by
      rw [List.length_map]
      omega
    have hl : ((s.txs.length : Int) - (s.txs.drop threshold).reverse.length) = threshold := by
      rw [List.length_reverse, List.length_drop]
      omega
    have hc : sliceTo s.txs (s.txs.length - (s.txs.drop threshold).reverse.length) =
        .ok (s.txs.take threshold) := by
      rw [hl]
      exact sliceTo_eq (by omega)
    obtain ⟨cache, hm, hc'⟩ := h.mapM_cache
      (f := fun c => sliceTo c (c.length - (s.txs.drop threshold).reverse.length)) hc
    obtain ⟨hp, hheap⟩ := Heap.init_spec ((s.txs.map accountNonce).take threshold)
    refine ⟨{ items, index := Heap.init ((s.txs.map accountNonce).take threshold), cache }, ?_,
      ⟨hh, ?_, hheap⟩, hc'⟩
    · rw [if_neg (by omega), h.sort_index]
      simp only [hn, he, Go.ok_bind, sliceTo_eq hlt, hm]
    · exact hp.trans (List.Perm.of_eq List.map_take.symm)

theorem Stores.remove (n : UInt64) :
    (m.remove n).fst = s.txs.any (·.accountNonce = n) ∧
    (m.remove n).snd.Stores (s.keep (·.accountNonce ≠ n)) := by
  have hi := h.indexes
  rw [TxSortedMap.remove]
  cases hl : m.items.lookup n
  case none =>
    have hn := hi.holds.lookup_eq_none_iff.mp hl
    have hk : s.keep (·.accountNonce ≠ n) = s := by
      apply TxSeq.ext
      simpa [TxSeq.keep, List.filter_eq_self] using hn
    refine ⟨?_, by rwa [hk]⟩
    simpa using hn
  case some tx =>
    obtain ⟨ht, rfl⟩ := hi.holds.lookup_iff.mp hl
    have hmem : tx.accountNonce ∈ m.index := hi.perm.mem_iff.mpr (List.mem_map_of_mem ht)
    obtain ⟨i, hf⟩ : ∃ i, m.index.findIdx? (· == tx.accountNonce) = some i := by
      rw [← Option.isSome_iff_exists]
      simpa using hmem
    obtain ⟨hlt, hat, -⟩ := List.findIdx?_eq_some_iff_getElem.mp hf
    obtain ⟨hr, hp, hh⟩ := Heap.remove_spec hi.heap hlt
    rw [Heap.slot_eq_getElem hlt, beq_iff_eq.mp hat] at hr
    refine ⟨?_, ⟨hi.holds.erase _, ?_, ?_⟩, Or.inl rfl⟩
    · simpa using ⟨tx, ht, rfl⟩
    · have hc := (s.sorted.perm_cons_filter ht).map accountNonce
      rw [hr] at hp
      simp only [hf]
      exact (hp.symm.trans (hi.perm.trans hc)).cons_inv
    · simpa only [hf] using hh

theorem Stores.filter (ω : TxRange) (p : Transaction → Bool) :
    (m.filter ω p).fst.Perm (s.txs.filter p) ∧
    (m.filter ω p).snd.Stores (s.keep fun tx => !p tx) := by
  have hr : ((ω.list m.items).filter fun e => p e.snd).Perm
      ((s.txs.filter p).map fun tx => (tx.accountNonce, tx)) := by
    have hp := (h.indexes.holds.range ω).filter fun e => p e.snd
    rwa [List.filter_map] at hp
  have hsnd := hr.map Prod.snd
  have hfst := hr.map Prod.fst
  rw [List.map_map] at hsnd hfst
  have hkeep : s.txs.filter (fun tx => tx.accountNonce ∉
      ((ω.list m.items).filter fun e => p e.snd).map Prod.fst) = s.txs.filter fun tx => !p tx := by
    apply List.filter_congr
    intro tx ht
    have hmem : tx.accountNonce ∈ ((ω.list m.items).filter fun e => p e.snd).map Prod.fst ↔ p tx := by
      rw [hfst.mem_iff, List.mem_map]
      constructor
      · rintro ⟨t, ht', he⟩
        obtain ⟨hs, hp⟩ := List.mem_filter.mp ht'
        rwa [s.sorted.eq_of_key_eq hs ht he] at hp
      · intro hp
        exact ⟨tx, List.mem_filter.mpr ⟨ht, hp⟩, rfl⟩
    simp [hmem]
  have hh := h.indexes.holds.foldl_erase (s := (ω.list m.items).filter fun e => p e.snd)
  rw [hkeep] at hh
  refine ⟨hsnd.trans (List.Perm.of_eq (List.map_id _)), ?_⟩
  rw [TxSortedMap.filter]
  split
  case isTrue he =>
    rw [List.isEmpty_iff] at he
    rw [he] at hr hh ⊢
    have hn : s.txs.filter p = [] := List.map_eq_nil_iff.mp hr.nil_eq.symm
    have hk : (s.keep fun tx => !p tx) = s := by
      apply TxSeq.ext
      rw [TxSeq.keep, List.filter_eq_self]
      intro tx ht
      simpa using List.filter_eq_nil_iff.mp hn tx ht
    rw [hk]
    exact h
  case isFalse he =>
    obtain ⟨hp, hheap⟩ := Heap.init_spec ((ω.list
      (((ω.list m.items).filter fun e => p e.snd).foldl (fun items e => items.erase e.fst)
        m.items)).map Prod.fst)
    exact ⟨⟨hh, hp.trans (hh.range_fst ω), hheap⟩, Or.inl rfl⟩

theorem Stores.flatten (ω : TxRange) :
    (m.flatten ω).fst = s.txs ∧ (m.flatten ω).snd.Stores s := by
  have hf : (m.flatten ω).fst = s.txs := by
    obtain hc | hc := h.cache <;> rw [TxSortedMap.flatten, hc]
    · exact s.sorted.insertionSort_eq (h.indexes.holds.range_snd ω)
    · rfl
  refine ⟨hf, h.indexes, Or.inr ?_⟩
  exact congrArg some hf

end

inductive Op
  | put (tx : Transaction)
  | forward (threshold : UInt64)
  | filter (ω : TxRange) (p : Transaction → Bool)
  | cap (threshold : Int)
  | remove (nonce : UInt64)
  | ready (start : UInt64)
  | flatten (ω : TxRange)

inductive Out
  | done
  | txs (l : List Transaction)
  | found (b : Bool)

def step (m : TxSortedMap) : Op → Calls (Out × TxSortedMap)
  | .put tx    => .ok (.done, m.put tx)
  | .forward t => do
    let (l, m) ← m.forward t
    .ok (.txs l, m)
  | .filter ω p =>
    let (l, m) := m.filter ω p
    .ok (.txs l, m)
  | .cap t => do
    let (l, m) ← m.cap t
    .ok (.txs l, m)
  | .remove n =>
    let (b, m) := m.remove n
    .ok (.found b, m)
  | .ready start => do
    let (l, m) ← m.ready start
    .ok (.txs l, m)
  | .flatten ω =>
    let (l, m) := m.flatten ω
    .ok (.txs l, m)

def run (m : TxSortedMap) : List Op → Calls (List Out × TxSortedMap)
  | []        => .ok ([], m)
  | op :: ops => do
    let (out, m) ← m.step op
    let (outs, m) ← m.run ops
    .ok (out :: outs, m)

namespace Op

def after (s : TxSeq) : Op → TxSeq
  | put tx      => s.put tx
  | forward t   => s.keep (t ≤ accountNonce ·)
  | filter _ p  => s.keep fun tx => !p tx
  | cap t       => s.take t.toNat
  | remove n    => s.keep (accountNonce · ≠ n)
  | ready start => s.drop (s.readyLength start)
  | flatten _   => s

-- What a call on the sequence returns. The order of filtered transactions is open.
def Returns (s : TxSeq) : Op → Out → Prop
  | put _, out       => out = .done
  | forward t, out   => out = .txs (s.txs.filter (accountNonce · < t))
  | filter _ p, out  => ∃ l, out = .txs l ∧ l.Perm (s.txs.filter p)
  | cap t, out       => out = .txs (s.txs.drop t.toNat).reverse
  | remove n, out    => out = .found (s.txs.any (accountNonce · = n))
  | ready start, out => out = .txs (s.txs.take (s.readyLength start))
  | flatten _, out   => out = .txs s.txs

def afterAll (s : TxSeq) (ops : List Op) : TxSeq :=
  ops.foldl after s

def ReturnsAll (s : TxSeq) : List Op → List Out → Prop
  | [], outs               => outs = []
  | _ :: _, []             => False
  | op :: ops, out :: outs => op.Returns s out ∧ ReturnsAll (op.after s) ops outs

end Op

section

variable {m : TxSortedMap} {s : TxSeq}

theorem Stores.step (h : m.Stores s) (op : Op) :
    (m.step op = Go.panics ∧ ∃ t < 0, op = .cap t) ∨
    ∃ out m', m.step op = .ok (out, m') ∧ m'.Stores (op.after s) ∧ op.Returns s out := by
  cases op
  case put tx => exact Or.inr ⟨.done, m.put tx, rfl, h.put tx, rfl⟩
  case forward t =>
    obtain ⟨m', he, hs⟩ := h.forward t
    refine Or.inr ⟨_, m', ?_, hs, rfl⟩
    rw [TxSortedMap.step, he]
    rfl
  case filter ω p =>
    obtain ⟨hl, hs⟩ := h.filter ω p
    exact Or.inr ⟨.txs (m.filter ω p).fst, (m.filter ω p).snd, rfl, hs, _, rfl, hl⟩
  case cap t =>
    by_cases ht : t < 0
    · refine Or.inl ⟨?_, t, ht, rfl⟩
      rw [TxSortedMap.step, h.cap_of_neg ht]
      rfl
    · obtain ⟨n, rfl⟩ := Int.eq_ofNat_of_zero_le (not_lt.mp ht)
      obtain ⟨m', he, hs⟩ := h.cap n
      refine Or.inr ⟨_, m', ?_, hs, rfl⟩
      rw [TxSortedMap.step, he]
      rfl
  case remove n =>
    obtain ⟨hb, hs⟩ := h.remove n
    exact Or.inr ⟨.found (m.remove n).fst, (m.remove n).snd, rfl, hs, congrArg Out.found hb⟩
  case ready start =>
    obtain ⟨m', he, hs⟩ := h.ready start
    refine Or.inr ⟨_, m', ?_, hs, rfl⟩
    rw [TxSortedMap.step, he]
    rfl
  case flatten ω =>
    obtain ⟨hl, hs⟩ := h.flatten ω
    exact Or.inr ⟨.txs (m.flatten ω).fst, (m.flatten ω).snd, rfl, hs, congrArg Out.txs hl⟩

theorem Stores.run (h : m.Stores s) (ops : List Op) :
    (m.run ops = Go.panics ∧ ∃ t < 0, Op.cap t ∈ ops) ∨
    ∃ outs m', m.run ops = .ok (outs, m') ∧ m'.Stores (Op.afterAll s ops) ∧
      Op.ReturnsAll s ops outs := by
  induction ops generalizing m s
  case nil => exact Or.inr ⟨[], m, rfl, h, rfl⟩
  case cons op ops hi =>
    obtain ⟨hp, t, ht, rfl⟩ | ⟨out, m₁, he, hs, hr⟩ := h.step op
    · refine Or.inl ⟨?_, t, ht, List.mem_cons_self ..⟩
      rw [TxSortedMap.run, hp]
      rfl
    · rw [TxSortedMap.run, he]
      simp only [Go.ok_bind]
      obtain ⟨hp, t, ht, hm⟩ | ⟨outs, m', he', hs', hr'⟩ := hi hs
      · refine Or.inl ⟨?_, t, ht, List.mem_cons_of_mem _ hm⟩
        rw [hp]
        rfl
      · refine Or.inr ⟨out :: outs, m', ?_, hs', hr, hr'⟩
        rw [he']
        rfl

end

-- Every sequence of calls on a new map acts as on the sequence of its transactions, up to a call of
-- `Cap` with a negative limit.
theorem run_new (ops : List Op) :
    (new.run ops = Go.panics ∧ ∃ t < 0, Op.cap t ∈ ops) ∨
    ∃ outs m, new.run ops = .ok (outs, m) ∧ m.Stores (Op.afterAll TxSeq.nil ops) ∧
      Op.ReturnsAll TxSeq.nil ops outs :=
  stores_new.run ops

end TxSortedMap

end Core
