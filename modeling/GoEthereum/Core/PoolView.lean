import GoEthereum.Core.TxCost
import GoEthereum.Core.TxPool

-- What the pool holds: sequences of transactions by account, and the index.

namespace Core

open Common
open Transaction (accountNonce)

namespace TxSeq

variable {s : TxSeq} {tx old : Transaction}

theorem keep_txs (p : Transaction → Bool) : (s.keep p).txs = s.txs.filter p :=
  rfl

def rival (s : TxSeq) (tx : Transaction) : Option Transaction :=
  s.txs.find? (·.accountNonce = tx.accountNonce)

theorem rival_eq_some_iff : s.rival tx = some old ↔
    old ∈ s.txs ∧ old.accountNonce = tx.accountNonce := by
  constructor
  · intro h
    have hp := List.find?_some h
    exact ⟨List.mem_of_find?_eq_some h, by simpa using hp⟩
  · rintro ⟨hm, hn⟩
    have hs : (s.rival tx).isSome := by
      rw [rival, List.find?_isSome]
      exact ⟨old, hm, by simpa using hn⟩
    obtain ⟨t, ht⟩ := Option.isSome_iff_exists.mp hs
    have hp := List.find?_some ht
    have he : t = old := s.sorted.eq_of_key_eq (List.mem_of_find?_eq_some ht) hm
      ((by simpa using hp : t.accountNonce = tx.accountNonce).trans hn.symm)
    rw [← he, ht]

theorem rival_eq_none_iff : s.rival tx = none ↔ ∀ t ∈ s.txs, t.accountNonce ≠ tx.accountNonce := by
  rw [rival]
  simp

end TxSeq

namespace TxList

variable {l : TxList} {s : TxSeq}

variable (h : l.Covers s)
include h

theorem Covers.get_eq (tx : Transaction) :
    l.txs.get tx.accountNonce = s.rival tx := by
  ext old
  rw [h.stores.get_iff, TxSeq.rival_eq_some_iff]

theorem Covers.len_eq : l.len = s.txs.length :=
  h.stores.len_eq

theorem Covers.empty_iff : l.empty ↔ s.txs = [] := by
  rw [TxList.empty, h.len_eq]
  simp

-- An older transaction with the same nonce and no lower price keeps its place.
def keepsOut (s : TxSeq) (tx : Transaction) : Bool :=
  (s.rival tx).any (·.price ≥ tx.price)

theorem Covers.add_eq (tx : Transaction) :
    (keepsOut s tx ∧ l.add tx = ((false, none), l)) ∨
    (¬ keepsOut s tx ∧ ∃ l', l.add tx = ((true, s.rival tx), l') ∧ l'.Covers (s.put tx) ∧
      l'.strict = l.strict) := by
  rw [TxList.add, h.get_eq]
  by_cases hk : keepsOut s tx
  · exact Or.inl ⟨hk, if_pos hk⟩
  · refine Or.inr ⟨hk, _, if_neg hk, ⟨h.stores.put tx, fun t ht => ?_⟩, rfl⟩
    obtain rfl | ⟨ht, -⟩ := mem_insertBy.mp ht
    · dsimp only
      split <;> omega
    · have := h.cost t ht
      dsimp only
      split <;> omega

theorem Covers.remove_of_none (ω : TxRange) {tx : Transaction}
    (hn : s.rival tx = none) : l.remove ω tx = ((false, []), l) := by
  have hf : (l.txs.remove tx.accountNonce).fst = false := by
    rw [(h.stores.remove tx.accountNonce).1]
    simpa using TxSeq.rival_eq_none_iff.mp hn
  rw [TxList.remove]
  split
  case h_1 _       => rfl
  case h_2 txs he  =>
    rw [he] at hf
    cases hf

theorem Covers.remove_of_ne_none (ω : TxRange) {tx : Transaction}
    (hn : s.rival tx ≠ none) : ∃ invalids l', l.remove ω tx = ((true, invalids), l') ∧
      l'.strict = l.strict ∧
      (l.strict → invalids.Perm (s.txs.filter (accountNonce · > tx.accountNonce)) ∧
        l'.Covers (s.keep (accountNonce · < tx.accountNonce))) ∧
      (l.strict = false → l'.Covers (s.keep (accountNonce · ≠ tx.accountNonce))) := by
  obtain ⟨hf, hs⟩ := h.stores.remove tx.accountNonce
  have ht : s.txs.any (·.accountNonce = tx.accountNonce) = true := by
    obtain ⟨t, hr⟩ := Option.ne_none_iff_exists'.mp hn
    obtain ⟨hm, he⟩ := TxSeq.rival_eq_some_iff.mp hr
    rw [List.any_eq_true]
    exact ⟨t, hm, by simpa using he⟩
  rw [ht] at hf
  have hm := List.filter_subset_self (p := fun t => decide (t.accountNonce ≠ tx.accountNonce)) s.txs
  rw [TxList.remove]
  split
  case h_1 _ he =>
    rw [he] at hf
    cases hf
  case h_2 txs he =>
    rw [he] at hs
    split
    case isTrue hst =>
      obtain ⟨hp, hs'⟩ := hs.filter ω fun t => t.accountNonce > tx.accountNonce
      refine ⟨_, _, rfl, rfl, fun _ => ⟨hp.trans (List.Perm.of_eq ?_), ?_⟩, fun h => ?_⟩
      · rw [TxSeq.keep_txs, List.filter_filter]
        apply List.filter_congr
        grind
      · have hk : (s.keep (accountNonce · ≠ tx.accountNonce)).keep
            (fun t => !decide (t.accountNonce > tx.accountNonce)) =
            s.keep (accountNonce · < tx.accountNonce) := by
          apply TxSeq.ext
          rw [TxSeq.keep_txs, TxSeq.keep_txs, List.filter_filter]
          apply List.filter_congr
          grind
        rw [hk] at hs'
        exact h.with_txs hs' (List.filter_subset_self _)
      · rw [hst] at h
        cases h
    case isFalse hst =>
      refine ⟨[], _, rfl, rfl, fun h => absurd h hst, fun _ => h.with_txs hs hm⟩

end TxList

namespace TxPool

-- The lists of a map of the pool hold the transactions of each account.
structure Lists (strict : Bool) (p : GoMap Address TxList) (c : Address → TxSeq) : Prop where
  covers : ∀ a l, p.lookup a = some l → l.Covers (c a) ∧ l.strict = strict
  none   : ∀ a, p.lookup a = none → (c a).txs = []

variable {strict : Bool} {p : GoMap Address TxList} {c : Address → TxSeq} {a : Address}
  {l : TxList} {s : TxSeq}

section

variable (h : Lists strict p c)
include h

theorem Lists.covers_getD (a : Address) :
    ((p.lookup a).getD (TxList.new strict)).Covers (c a) ∧
    ((p.lookup a).getD (TxList.new strict)).strict = strict := by
  cases hl : p.lookup a
  case none =>
    have he : c a = TxSeq.nil := TxSeq.ext (h.none a hl)
    rw [he]
    exact ⟨TxList.covers_new strict, rfl⟩
  case some l => exact h.covers a l hl

theorem Lists.insert (hl : l.Covers s) (hst : l.strict = strict) :
    Lists strict (p.insert a l) (Function.update c a s) := by
  constructor
  · intro x l' hx
    rw [GoMap.lookup_insert_eq_ite] at hx
    rw [Function.update_apply]
    split at hx
    case isTrue hxa =>
      cases hx
      rw [if_pos hxa]
      exact ⟨hl, hst⟩
    case isFalse hxa =>
      rw [if_neg hxa]
      exact h.covers x l' hx
  · intro x hx
    rw [GoMap.lookup_insert_eq_ite] at hx
    rw [Function.update_apply]
    split at hx
    case isTrue _    => cases hx
    case isFalse hxa =>
      rw [if_neg hxa]
      exact h.none x hx

theorem Lists.erase (hs : s.txs = []) :
    Lists strict (p.erase a) (Function.update c a s) := by
  constructor
  · intro x l' hx
    rw [GoMap.lookup_erase_eq_ite] at hx
    rw [Function.update_apply]
    split at hx
    case isTrue _    => cases hx
    case isFalse hxa =>
      rw [if_neg hxa]
      exact h.covers x l' hx
  · intro x hx
    rw [GoMap.lookup_erase_eq_ite] at hx
    rw [Function.update_apply]
    split at hx
    case isTrue hxa =>
      rw [if_pos hxa]
      exact hs
    case isFalse hxa =>
      rw [if_neg hxa]
      exact h.none x hx

theorem Lists.replace (hl : l.Covers s) (hst : l.strict = strict) :
    Lists strict (if l.empty then p.erase a else p.insert a l) (Function.update c a s) := by
  split
  case isTrue he  => exact h.erase (hl.empty_iff.mp he)
  case isFalse he => exact h.insert hl hst

end

theorem lookup_replace_ne_none {b : Address} (hl : l.Covers s)
    (h : (if l.empty then p.erase a else p.insert a l).lookup b ≠ none) :
    b = a ∧ s.txs ≠ [] ∨ b ≠ a ∧ p.lookup b ≠ none := by
  split at h
  case isTrue he =>
    rw [GoMap.lookup_erase_eq_ite] at h
    split at h
    case isTrue _   => exact absurd rfl h
    case isFalse hb => exact Or.inr ⟨hb, h⟩
  case isFalse he =>
    rw [GoMap.lookup_insert_eq_ite] at h
    split at h
    case isTrue hb  => exact Or.inl ⟨hb, fun hs => he (hl.empty_iff.mpr hs)⟩
    case isFalse hb => exact Or.inr ⟨hb, h⟩

theorem Lists.insert_self (h : Lists strict p c) (hl : l.Covers (c a)) (hst : l.strict = strict) :
    Lists strict (p.insert a l) c := by
  have := h.insert (a := a) hl hst
  rwa [Function.update_eq_self] at this

end TxPool

structure PoolView where
  pending : Address → TxSeq
  queue   : Address → TxSeq
  all     : Hash → Option Transaction
  nonces  : Address → UInt64

namespace PoolView

variable (hash : Transaction → Hash) (sender : Transaction → Address) (v : PoolView)

def deleteAll (txs : List Transaction) : PoolView :=
  { v with all := fun h => if h ∈ txs.map hash then none else v.all h }

-- A transaction takes its place in the index, and the one that it replaces loses it.
def mark (old : Option Transaction) (tx : Transaction) : PoolView :=
  { v.deleteAll hash old.toList with
    all := Function.update (v.deleteAll hash old.toList).all (hash tx) (some tx) }

def enqueueTx (tx : Transaction) : PoolView :=
  let s := v.queue (sender tx)
  if TxList.keepsOut s tx then
    v
  else
    { v.mark hash (s.rival tx) tx with queue := Function.update v.queue (sender tx) (s.put tx) }

def promoteTx (a : Address) (tx : Transaction) : PoolView :=
  let s := v.pending a
  if TxList.keepsOut s tx then
    v.deleteAll hash [tx]
  else
    { v.mark hash (s.rival tx) tx with
      pending := Function.update v.pending a (s.put tx)
      nonces  := Function.update v.nonces a (tx.accountNonce + 1) }

-- Takes a transaction off the pending ones by its nonce, and everything above it.
def cutPending (a : Address) (n : UInt64) : PoolView :=
  { v with pending := Function.update v.pending a ((v.pending a).keep (accountNonce · < n)) }

def lowerNonce (a : Address) (n : UInt64) : PoolView :=
  if v.nonces a > n then { v with nonces := Function.update v.nonces a n } else v

-- `invalids` are the transactions above the one that is removed, in some order.
def removePending (a : Address) (tx : Transaction) (invalids : List Transaction) : PoolView :=
  if (v.pending a).rival tx = none then
    v
  else
    let cut := v.cutPending a tx.accountNonce
    let cut := if (cut.pending a).txs = [] then cut else invalids.foldl (enqueueTx hash sender) cut
    cut.lowerNonce a tx.accountNonce

def removeQueued (a : Address) (n : UInt64) : PoolView :=
  { v with queue := Function.update v.queue a ((v.queue a).keep (accountNonce · ≠ n)) }

def removeTx (x : Hash) (tx : Transaction) (invalids : List Transaction) : PoolView :=
  let v := { v with all := Function.update v.all x none }
  (v.removePending hash sender (sender tx) tx invalids).removeQueued (sender tx) tx.accountNonce

end PoolView

namespace TxPool

structure Represents (pool : TxPool) (v : PoolView) : Prop where
  pending : Lists true pool.pending v.pending
  queue   : Lists false pool.queue v.queue
  all     : ∀ h, pool.all.lookup h = v.all h
  nonces  : pool.pendingState = v.nonces

variable {E : PoolEnv} {pool : TxPool} {v : PoolView} {tx : Transaction} {a : Address}

theorem lookup_foldl_erase (txs : List Transaction) (all : GoMap Hash Transaction) (h : Hash) :
    (txs.foldl (fun all tx => all.erase (E.hash tx)) all).lookup h =
      if h ∈ txs.map E.hash then none else all.lookup h := by
  induction txs generalizing all
  case nil => rfl
  case cons tx txs hi =>
    rw [List.foldl_cons, hi, GoMap.lookup_erase_eq_ite, List.map_cons]
    grind

variable (h : pool.Represents v)
include h

theorem Represents.deleteAll (txs : List Transaction) :
    (pool.deleteAll E txs).Represents (v.deleteAll E.hash txs) where
  pending := h.pending
  queue   := h.queue
  nonces  := h.nonces
  all x   := by
    rw [TxPool.deleteAll, lookup_foldl_erase, h.all, PoolView.deleteAll]

theorem Represents.lookup_mark (old : Option Transaction) (x : Hash) :
    ((pool.deleteAll E old.toList).all.insert (E.hash tx) tx).lookup x =
      (v.mark E.hash old tx).all x := by
  rw [GoMap.lookup_insert_eq_ite, (h.deleteAll old.toList).all]
  exact (Function.update_apply _ _ _ _).symm

theorem Represents.enqueueTx (tx : Transaction) :
    (pool.enqueueTx E tx).Represents (v.enqueueTx E.hash (senderOf E) tx) := by
  obtain ⟨hc, hst⟩ := h.queue.covers_getD (senderOf E tx)
  rw [TxPool.enqueueTx, PoolView.enqueueTx]
  obtain ⟨hk, he⟩ | ⟨hk, l, he, hc', hst'⟩ := hc.add_eq tx <;> simp only [he]
  · rw [if_pos hk]
    exact { h with queue := h.queue.insert_self hc hst }
  · rw [if_neg hk]
    exact { h with
      queue := h.queue.insert hc' (hst'.trans hst)
      all   := h.lookup_mark _ }

theorem Represents.promoteTx (a : Address) (tx : Transaction) :
    (pool.promoteTx E a tx).Represents (v.promoteTx E.hash a tx) := by
  obtain ⟨hc, hst⟩ := h.pending.covers_getD a
  rw [TxPool.promoteTx, PoolView.promoteTx]
  obtain ⟨hk, he⟩ | ⟨hk, l, he, hc', hst'⟩ := hc.add_eq tx <;> simp only [he]
  · rw [if_pos hk]
    exact { h.deleteAll [tx] with pending := h.pending.insert_self hc hst }
  · rw [if_neg hk]
    exact { h with
      pending := h.pending.insert hc' (hst'.trans hst)
      all     := h.lookup_mark _
      nonces  := by rw [h.nonces] }

theorem Represents.foldl_enqueueTx (txs : List Transaction) :
    (txs.foldl (TxPool.enqueueTx E) pool).Represents
      (txs.foldl (PoolView.enqueueTx E.hash (senderOf E)) v) := by
  induction txs generalizing pool v
  case nil            => exact h
  case cons tx txs hi => exact hi (h.enqueueTx tx)

theorem Represents.foldl_promoteTx (a : Address) (txs : List Transaction) :
    (txs.foldl (TxPool.promoteTx E · a) pool).Represents
      (txs.foldl (PoolView.promoteTx E.hash · a) v) := by
  induction txs generalizing pool v
  case nil            => exact h
  case cons tx txs hi => exact hi (h.promoteTx a tx)

theorem Represents.lowerNonce (a : Address) (n : UInt64) :
    (if pool.pendingState a > n then
      { pool with pendingState := Function.update pool.pendingState a n }
    else
      pool).Represents (v.lowerNonce a n) := by
  rw [PoolView.lowerNonce, h.nonces]
  split
  case isTrue _  => exact { h with nonces := rfl }
  case isFalse _ => exact h

theorem Represents.removePending (a : Address) (tx : Transaction) :
    ∃ invalids, invalids.Perm ((v.pending a).txs.filter (accountNonce · > tx.accountNonce)) ∧
      (pool.removePending E a tx).Represents
        (v.removePending E.hash (senderOf E) a tx invalids) := by
  rw [TxPool.removePending]
  cases hl : pool.pending.lookup a
  case none =>
    have hr : (v.pending a).rival tx = none := by
      rw [TxSeq.rival_eq_none_iff, h.pending.none a hl]
      exact fun t ht => absurd ht List.not_mem_nil
    refine ⟨_, List.Perm.refl _, ?_⟩
    rw [PoolView.removePending, if_pos hr]
    exact h
  case some l =>
    obtain ⟨hc, hst⟩ := h.pending.covers a l hl
    by_cases hr : (v.pending a).rival tx = none
    · refine ⟨_, List.Perm.refl _, ?_⟩
      simp only [hc.remove_of_none E.txRange hr]
      rw [PoolView.removePending, if_pos hr]
      exact h
    · obtain ⟨invalids, l', he, hst', hstrict, -⟩ := hc.remove_of_ne_none E.txRange hr
      obtain ⟨hp, hc'⟩ := hstrict hst
      refine ⟨invalids, hp, ?_⟩
      simp only [he]
      rw [PoolView.removePending, if_neg hr]
      apply Represents.lowerNonce
      have hpend : (v.cutPending a tx.accountNonce).pending a =
          (v.pending a).keep (accountNonce · < tx.accountNonce) := Function.update_self ..
      simp only [hpend, ← hc'.empty_iff]
      split
      case isTrue hemp => exact { h with pending := h.pending.erase (hc'.empty_iff.mp hemp) }
      case isFalse _ =>
        apply Represents.foldl_enqueueTx
        exact { h with pending := h.pending.insert hc' (hst'.trans hst) }

theorem Represents.removeQueued (a : Address) (tx : Transaction) :
    (pool.removeQueued E a tx).Represents (v.removeQueued a tx.accountNonce) := by
  rw [TxPool.removeQueued]
  cases hl : pool.queue.lookup a
  case none =>
    have hnil : (v.queue a).keep (accountNonce · ≠ tx.accountNonce) = v.queue a := by
      apply TxSeq.ext
      rw [TxSeq.keep_txs, h.queue.none a hl, List.filter_nil]
    rw [PoolView.removeQueued, hnil, Function.update_eq_self]
    exact h
  case some l =>
    obtain ⟨hc, hst⟩ := h.queue.covers a l hl
    by_cases hr : (v.queue a).rival tx = none
    · have hk : (v.queue a).keep (accountNonce · ≠ tx.accountNonce) = v.queue a := by
        apply TxSeq.ext
        rw [TxSeq.keep_txs]
        simpa using TxSeq.rival_eq_none_iff.mp hr
      simp only [hc.remove_of_none E.txRange hr]
      rw [PoolView.removeQueued, hk]
      exact { h with queue := h.queue.replace hc hst }
    · obtain ⟨invalids, l', he, hst', -, hloose⟩ := hc.remove_of_ne_none E.txRange hr
      simp only [he]
      exact { h with queue := h.queue.replace (hloose hst) (hst'.trans hst) }

theorem Represents.removeTx_of_none {x : Hash} (hx : v.all x = none) :
    pool.removeTx E x = pool := by
  rw [TxPool.removeTx, h.all, hx]

theorem Represents.removeTx {x : Hash} (hx : v.all x = some tx) :
    ∃ invalids, invalids.Perm
        ((v.pending (senderOf E tx)).txs.filter (accountNonce · > tx.accountNonce)) ∧
      (pool.removeTx E x).Represents
        (v.removeTx E.hash (senderOf E) x tx invalids) := by
  rw [TxPool.removeTx, h.all, hx]
  have h' : { pool with all := pool.all.erase x }.Represents
      { v with all := Function.update v.all x none } :=
    { h with
      all := fun y => by
        rw [GoMap.lookup_erase_eq_ite, h.all]
        exact (Function.update_apply _ _ _ _).symm }
  obtain ⟨invalids, hp, hr⟩ := h'.removePending (senderOf E tx) tx
  exact ⟨invalids, hp, hr.removeQueued _ tx⟩

end TxPool

end Core
