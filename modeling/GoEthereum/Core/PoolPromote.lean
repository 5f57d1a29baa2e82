import GoEthereum.Core.PoolView

-- Promotion and demotion of accounts, on the contents of the pool.

namespace Core

open Common
open Transaction (accountNonce)

theorem TxSeq.ext_mem {s s' : TxSeq} (h : ∀ tx, tx ∈ s.txs ↔ tx ∈ s'.txs) : s = s' := by
  apply TxSeq.ext
  apply s.sorted.eq_of_perm s'.sorted
  exact (List.perm_ext_iff_of_nodup s.sorted.nodup s'.sorted.nodup).mpr h

namespace TxSeq

variable (s : TxSeq)

def outdated (n : UInt64) : List Transaction :=
  s.txs.filter (accountNonce · < n)

def current (n : UInt64) : TxSeq :=
  s.keep (n ≤ accountNonce ·)

end TxSeq

namespace TxList

variable {l : TxList} {s : TxSeq} {strict : Bool} {threshold : Int} {tx : Transaction}

def unpayable (s : TxSeq) (threshold : Int) : List Transaction :=
  s.txs.filter (·.cost > threshold)

def payable (s : TxSeq) (threshold : Int) : TxSeq :=
  s.keep (·.cost ≤ threshold)

-- In a strict list, a transaction above one that goes cannot stay.
def invalidated (strict : Bool) (s : TxSeq) (threshold : Int) (tx : Transaction) : Bool :=
  strict && (unpayable s threshold).any (·.accountNonce < tx.accountNonce)

theorem mem_unpayable : tx ∈ unpayable s threshold ↔ tx ∈ s.txs ∧ threshold < tx.cost := by
  rw [unpayable, List.mem_filter, decide_eq_true_eq]

theorem mem_payable : tx ∈ (payable s threshold).txs ↔ tx ∈ s.txs ∧ tx ∉ unpayable s threshold := by
  rw [mem_unpayable, payable, TxSeq.keep_txs, List.mem_filter, decide_eq_true_eq, ← not_lt]
  tauto

theorem invalidated_iff : invalidated strict s threshold tx ↔
    strict ∧ ∃ t ∈ unpayable s threshold, t.accountNonce < tx.accountNonce := by
  rw [invalidated, Bool.and_eq_true, List.any_eq_true]
  simp only [decide_eq_true_eq]

theorem Covers.filter_perm (h : l.Covers s) (ω : TxRange) (threshold : Int) :
    ∃ drops invalids l', l.filter ω threshold = ((drops, invalids), l') ∧
      drops.Perm (unpayable s threshold) ∧
      invalids.Perm ((payable s threshold).txs.filter (invalidated l.strict s threshold)) ∧
      l'.Covers ((payable s threshold).keep fun tx => !invalidated l.strict s threshold tx) ∧
      l'.strict = l.strict := by
  obtain ⟨hf, s', hc⟩ := h.filter ω threshold
  have hr : ∀ tx, tx ∈ (l.filter ω threshold).fst.fst ↔ tx ∈ unpayable s threshold := by
    intro tx
    rw [hf.removed_iff, h.stores.mem_iff, mem_unpayable]
  have hi : ∀ tx, tx ∈ (l.filter ω threshold).fst.snd ↔
      tx ∈ (payable s threshold).txs ∧ invalidated l.strict s threshold tx := by
    intro tx
    rw [hf.invalids_iff, h.stores.mem_iff, hr, mem_payable, invalidated_iff]
    constructor
    · rintro ⟨hst, hm, hn, t, ht, -, hlt⟩
      exact ⟨⟨hm, hn⟩, hst, t, (hr t).mp ht, hlt⟩
    · rintro ⟨⟨hm, hn⟩, hst, t, ht, hlt⟩
      obtain ⟨t₀, ht₀, he⟩ := exists_lowest (List.ne_nil_of_mem ((hr t).mpr ht))
      refine ⟨hst, hm, hn, t₀, ht₀, fun t' ht' => he ▸ lowest_le ht', ?_⟩
      exact lt_of_le_of_lt (he ▸ lowest_le ((hr t).mpr ht)) hlt
  have hs : s' = (payable s threshold).keep fun tx => !invalidated l.strict s threshold tx := by
    apply TxSeq.ext_mem
    intro tx
    rw [← hc.stores.mem_iff, hf.left_iff, h.stores.mem_iff, hr, hi, TxSeq.keep_txs, List.mem_filter,
      mem_payable, Bool.not_eq_true', Bool.eq_false_iff]
    tauto
  refine ⟨_, _, _, rfl, ?_, ?_, hs ▸ hc, filter_strict ω threshold⟩
  · exact (List.perm_ext_iff_of_nodup hf.removed_nodup (s.sorted.filter _).nodup).mpr hr
  · refine (List.perm_ext_iff_of_nodup hf.invalids_nodup
      ((payable s threshold).sorted.filter _).nodup).mpr fun tx => ?_
    rw [hi, List.mem_filter]

theorem keep_of_loose : (payable s threshold).keep (fun tx => !invalidated false s threshold tx) =
    payable s threshold := by
  apply TxSeq.ext
  rw [TxSeq.keep_txs, List.filter_eq_self]
  intro tx _
  rfl

variable (h : l.Covers s)
include h

theorem Covers.forward_eq (n : UInt64) :
    ∃ l', l.forward n = .ok (s.outdated n, l') ∧
      l'.Covers (s.current n) ∧ l'.strict = l.strict := by
  obtain ⟨m', he, hs⟩ := h.stores.forward n
  refine ⟨{ l with txs := m' }, ?_, h.with_txs hs (List.filter_subset_self _), rfl⟩
  rw [TxList.forward, he]
  rfl

theorem Covers.ready_eq (start : UInt64) :
    ∃ l', l.ready start = .ok (s.txs.take (s.readyLength start), l') ∧
      l'.Covers (s.drop (s.readyLength start)) ∧ l'.strict = l.strict := by
  obtain ⟨m', he, hs⟩ := h.stores.ready start
  refine ⟨{ l with txs := m' }, ?_, h.with_txs hs (List.drop_subset _ _), rfl⟩
  rw [TxList.ready, he]
  rfl

theorem Covers.cap_eq (n : Nat) :
    ∃ l', l.cap n = .ok ((s.txs.drop n).reverse, l') ∧ l'.Covers (s.take n) ∧
      l'.strict = l.strict := by
  obtain ⟨m', he, hs⟩ := h.stores.cap n
  refine ⟨{ l with txs := m' }, ?_, h.with_txs hs (List.take_subset _ _), rfl⟩
  rw [TxList.cap, he]
  rfl

theorem Covers.flatten_eq (ω : TxRange) :
    ∃ l', l.flatten ω = (s.txs, l') ∧ l'.Covers s ∧ l'.strict = l.strict := by
  obtain ⟨he, hs⟩ := h.stores.flatten ω
  refine ⟨{ l with txs := (l.txs.flatten ω).snd }, ?_, h.with_txs hs (List.Subset.refl _), rfl⟩
  rw [TxList.flatten, ← he]

end TxList

namespace PoolView

variable (hash : Transaction → Hash) (sender : Transaction → Address) (state : Accounts)
  (v : PoolView) (a : Address)

-- What is left of the queue of an account without the old and the unpayable transactions.
def ripe : TxSeq :=
  TxList.payable ((v.queue a).current (state.nonce a)) (state.balance a)

def ready : List Transaction :=
  (v.ripe state a).txs.take ((v.ripe state a).readyLength (v.nonces a))

def unready : TxSeq :=
  (v.ripe state a).drop ((v.ripe state a).readyLength (v.nonces a))

def promoteAccount : PoolView :=
  let unpayable := TxList.unpayable ((v.queue a).current (state.nonce a)) (state.balance a)
  let v' := (v.deleteAll hash ((v.queue a).outdated (state.nonce a))).deleteAll hash unpayable
  let v' := (v.ready state a).foldl (promoteTx hash · a) v'
  let v' := v'.deleteAll hash ((v.unready state a).txs.drop maxQueuedPerAccount)
  { v' with queue := Function.update v.queue a ((v.unready state a).take maxQueuedPerAccount) }

-- What of the pending transactions of an account can still be executed.
def executable : TxSeq :=
  let current := (v.pending a).current (state.nonce a)
  (TxList.payable current (state.balance a)).keep fun tx =>
    !TxList.invalidated true current (state.balance a) tx

def postponed : List Transaction :=
  let current := (v.pending a).current (state.nonce a)
  (TxList.payable current (state.balance a)).txs.filter
    (TxList.invalidated true current (state.balance a))

-- `invalids` are the postponed transactions, in some order.
def demoteAccount (invalids : List Transaction) : PoolView :=
  let unpayable := TxList.unpayable ((v.pending a).current (state.nonce a)) (state.balance a)
  let v' := (v.deleteAll hash ((v.pending a).outdated (state.nonce a))).deleteAll hash unpayable
  let v' := invalids.foldl (enqueueTx hash sender) v'
  { v' with pending := Function.update v.pending a (v.executable state a) }

def updateNonce : PoolView :=
  match (v.pending a).txs.getLast? with
  | none    => v
  | some tx => { v with nonces := Function.update v.nonces a (tx.accountNonce + 1) }

variable {hash sender state v a}

theorem deleteAll_congr {txs txs' : List Transaction} (h : txs.Perm txs') :
    v.deleteAll hash txs = v.deleteAll hash txs' := by
  have hm : ∀ x, x ∈ txs.map hash ↔ x ∈ txs'.map hash := fun _ => (h.map hash).mem_iff
  simp only [deleteAll, hm]

theorem deleteAll_nil : v.deleteAll hash [] = v :=
  rfl

theorem foldl_promoteTx_queue (txs : List Transaction) :
    (txs.foldl (promoteTx hash · a) v).queue = v.queue := by
  induction txs generalizing v
  case nil => rfl
  case cons tx txs hi =>
    rw [List.foldl_cons, hi, promoteTx]
    split <;> rfl

theorem foldl_promoteTx_of_ne {b : Address} (hb : b ≠ a) (txs : List Transaction) :
    (txs.foldl (promoteTx hash · a) v).pending b = v.pending b ∧
    (txs.foldl (promoteTx hash · a) v).nonces b = v.nonces b := by
  induction txs generalizing v
  case nil => exact ⟨rfl, rfl⟩
  case cons tx txs hi =>
    rw [List.foldl_cons]
    obtain ⟨hp, hn⟩ := hi (v := v.promoteTx hash a tx)
    rw [hp, hn, promoteTx]
    split
    case isTrue _  => exact ⟨rfl, rfl⟩
    case isFalse _ => exact ⟨Function.update_of_ne hb .., Function.update_of_ne hb ..⟩

theorem foldl_enqueueTx_pending (txs : List Transaction) :
    (txs.foldl (enqueueTx hash sender) v).pending = v.pending := by
  induction txs generalizing v
  case nil => rfl
  case cons tx txs hi =>
    rw [List.foldl_cons, hi, enqueueTx]
    split <;> rfl

theorem promoteAccount_of_nil (h : (v.queue a).txs = []) : v.promoteAccount hash state a = v := by
  have he : v.queue a = TxSeq.nil := TxSeq.ext h
  have hs : (v.unready state a).take maxQueuedPerAccount = v.queue a := by
    rw [unready, ripe, he]
    rfl
  rw [promoteAccount, hs, Function.update_eq_self, ready, unready, ripe, he]
  rfl

theorem demoteAccount_of_nil (h : (v.pending a).txs = []) :
    v.demoteAccount hash sender state a [] = v := by
  have he : v.pending a = TxSeq.nil := TxSeq.ext h
  have hs : v.executable state a = v.pending a := by
    rw [executable, he]
    rfl
  rw [demoteAccount, hs, Function.update_eq_self, he]
  rfl

end PoolView

namespace TxPool

variable {E : PoolEnv} {state : Accounts} {pool pool' : TxPool} {v : PoolView} {a : Address}

theorem foldl_promoteTx_queue (txs : List Transaction) :
    (txs.foldl (TxPool.promoteTx E · a) pool).queue = pool.queue := by
  induction txs generalizing pool
  case nil => rfl
  case cons tx txs hi =>
    rw [List.foldl_cons, hi, TxPool.promoteTx]
    split <;> rfl

variable (h : pool.Represents v)
include h

theorem Represents.promoteAccount (state : Accounts) (n : Nat) (a : Address) :
    ∃ pool', TxPool.promoteAccount E state (n, pool) a =
        .ok (n + ((v.promoteAccount E.hash state a).queue a).txs.length, pool') ∧
      pool'.Represents (v.promoteAccount E.hash state a) ∧
      ∀ b, pool'.queue.lookup b ≠ none →
        ((v.promoteAccount E.hash state a).queue b).txs ≠ [] ∨
          b ≠ a ∧ pool.queue.lookup b ≠ none := by
  rw [TxPool.promoteAccount]
  cases hl : pool.queue.lookup a
  case none =>
    have hnil := h.queue.none a hl
    rw [PoolView.promoteAccount_of_nil hnil, hnil]
    refine ⟨pool, rfl, h, fun b hb => Or.inr ⟨?_, hb⟩⟩
    rintro rfl
    exact hb hl
  case some l =>
    obtain ⟨hc, hst⟩ := h.queue.covers a l hl
    obtain ⟨l₁, he₁, hc₁, hst₁⟩ := hc.forward_eq (state.nonce a)
    obtain ⟨drops, _, l₂, he₂, hd, -, hc₂, hst₂⟩ := hc₁.filter_perm E.txRange (state.balance a)
    rw [hst₁, hst, TxList.keep_of_loose] at hc₂
    obtain ⟨l₃, he₃, hc₃, hst₃⟩ : ∃ l₃, l₂.ready (v.nonces a) = .ok (v.ready state a, l₃) ∧
      l₃.Covers (v.unready state a) ∧ l₃.strict = l₂.strict := hc₂.ready_eq (v.nonces a)
    obtain ⟨l₄, he₄, hc₄, hst₄⟩ := hc₃.cap_eq maxQueuedPerAccount
    have hn : ∀ txs txs', ((pool.deleteAll E txs).deleteAll E txs').pendingState a = v.nonces a :=
      fun _ _ => congrFun h.nonces a
    have hq : (v.promoteAccount E.hash state a).queue a =
      (v.unready state a).take maxQueuedPerAccount := Function.update_self ..
    have hv := (((h.deleteAll (E := E) ((v.queue a).outdated (state.nonce a))).deleteAll
      (E := E) drops).foldl_promoteTx (E := E) a (v.ready state a)).deleteAll (E := E)
        ((v.unready state a).txs.drop maxQueuedPerAccount).reverse
    rw [PoolView.deleteAll_congr hd, PoolView.deleteAll_congr (List.reverse_perm _)] at hv
    have hr := hv.queue.replace (a := a) hc₄ (hst₄.trans (hst₃.trans (hst₂.trans (hst₁.trans hst))))
    simp only [he₁, he₂, hn, he₃, he₄, Go.ok_bind, hc₄.len_eq, hq]
    refine ⟨_, rfl, { hv with queue := ?_ }, fun b hb => ?_⟩
    · rwa [PoolView.deleteAll, PoolView.foldl_promoteTx_queue] at hr
    · rw [TxPool.deleteAll, foldl_promoteTx_queue] at hb
      obtain ⟨rfl, hne⟩ | hb := lookup_replace_ne_none hc₄ hb
      · rw [hq]
        exact Or.inl hne
      · exact Or.inr hb

theorem Represents.demoteAccount (state : Accounts) (a : Address) :
    ∃ invalids pool', invalids.Perm (v.postponed state a) ∧
      TxPool.demoteAccount E state pool a = .ok pool' ∧
      pool'.Represents (v.demoteAccount E.hash (senderOf E) state a invalids) := by
  rw [TxPool.demoteAccount]
  cases hl : pool.pending.lookup a
  case none =>
    have hnil := h.pending.none a hl
    refine ⟨[], pool, ?_, rfl, ?_⟩
    · have he : v.pending a = TxSeq.nil := TxSeq.ext hnil
      rw [PoolView.postponed, he]
      exact List.Perm.refl _
    · rwa [PoolView.demoteAccount_of_nil hnil]
  case some l =>
    obtain ⟨hc, hst⟩ := h.pending.covers a l hl
    obtain ⟨l₁, he₁, hc₁, hst₁⟩ := hc.forward_eq (state.nonce a)
    obtain ⟨drops, invalids, l₂, he₂, hd, hi, hc₂, hst₂⟩ := hc₁.filter_perm E.txRange
      (state.balance a)
    rw [hst₁, hst] at hc₂ hi
    have hv := ((h.deleteAll (E := E) ((v.pending a).outdated (state.nonce a))).deleteAll (E := E)
      drops).foldl_enqueueTx (E := E) invalids
    rw [PoolView.deleteAll_congr hd] at hv
    have hr := hv.pending.replace (a := a) hc₂ (hst₂.trans (hst₁.trans hst))
    rw [PoolView.foldl_enqueueTx_pending] at hr
    simp only [he₁, he₂, Go.ok_bind]
    refine ⟨invalids, _, hi, rfl, ?_⟩
    split at hr
    case isTrue hemp =>
      rw [if_pos hemp]
      exact { hv with pending := hr }
    case isFalse hemp =>
      rw [if_neg hemp]
      exact { hv with pending := hr }

theorem Represents.updateNonce
    (he : TxPool.updateNonce E pool a = .ok pool') : pool'.Represents (v.updateNonce a) := by
  rw [TxPool.updateNonce] at he
  cases hl : pool.pending.lookup a
  case none =>
    rw [hl] at he
    cases he
    rwa [PoolView.updateNonce, h.pending.none a hl]
  case some l =>
    obtain ⟨hc, hst⟩ := h.pending.covers a l hl
    obtain ⟨l', hf, hc', hst'⟩ := hc.flatten_eq E.txRange
    simp only [hl, hf] at he
    split at he
    case h_1 hlast     => cases he
    case h_2 tx hlast =>
      cases he
      have hv : v.updateNonce a =
          { v with nonces := Function.update v.nonces a (tx.accountNonce + 1) } := by
        rw [PoolView.updateNonce, hlast]
      rw [hv]
      exact { h with
        pending := h.pending.insert_self hc' (hst'.trans hst)
        nonces  := by rw [h.nonces] }

end TxPool

end Core
