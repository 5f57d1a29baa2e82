import GoEthereum.Core.PoolIndex

-- The nonces of the pending transactions.

namespace Core

open Common
open Transaction (accountNonce)
open TxSortedMap (add_one_le lt_of_add_one_le)

namespace TxSeq

-- The nonces are all those from the first number up to the second one.
structure Spans (s : TxSeq) (low high : UInt64) : Prop where
  le  : low ≤ high
  mem : ∀ k, k ∈ s.txs.map accountNonce ↔ low ≤ k ∧ k < high

variable {s : TxSeq} {low high n : UInt64} {tx : Transaction}

theorem Spans.mem_iff (h : s.Spans low high) :
    (∃ t ∈ s.txs, t.accountNonce = n) ↔ low ≤ n ∧ n < high := by
  rw [← h.mem, List.mem_map]

theorem lt_add_one_iff {a b : UInt64} (h : b + 1 ≠ 0) : a < b + 1 ↔ a ≤ b := by
  have hb := b.toNat_lt
  have hne : (b + 1).toNat ≠ 0 := fun h' => h (UInt64.toNat_inj.mp h')
  rw [UInt64.lt_iff_toNat_lt, UInt64.le_iff_toNat_le]
  rw [UInt64.toNat_add] at hne ⊢
  have h1 : (1 : UInt64).toNat = 1 := rfl
  omega

section

variable (h : s.Spans low high)
include h

theorem Spans.rival (ht : high ≤ tx.accountNonce) : s.rival tx = none := by
  rw [rival_eq_none_iff]
  intro t hm he
  exact absurd ht (not_le_of_gt (h.mem_iff.mp ⟨t, hm, he⟩).2)

theorem Spans.put (hn : high + 1 ≠ 0) (ht : tx.accountNonce = high) :
    (s.put tx).Spans low (high + 1) := by
  have hr := h.rival ht.ge
  have hle : high ≤ high + 1 := le_of_lt ((lt_add_one_iff hn).mpr le_rfl)
  refine ⟨h.le.trans hle, fun k => ?_⟩
  rw [lt_add_one_iff hn, List.mem_map]
  simp only [mem_put_of_rival hr]
  constructor
  · rintro ⟨t, rfl | hm, rfl⟩
    · exact ⟨ht ▸ h.le, ht.le⟩
    · obtain ⟨h₁, h₂⟩ := h.mem_iff.mp ⟨t, hm, rfl⟩
      exact ⟨h₁, h₂.le⟩
  · rintro ⟨h₁, h₂⟩
    obtain rfl | hlt := h₂.eq_or_lt
    · exact ⟨tx, Or.inl rfl, ht⟩
    · obtain ⟨t, hm, he⟩ := h.mem_iff.mpr ⟨h₁, hlt⟩
      exact ⟨t, Or.inr hm, he⟩

theorem Spans.keep (h₁ : low ≤ n) (h₂ : n < high) :
    (s.keep (accountNonce · < n)).Spans low n := by
  refine ⟨h₁, fun k => ?_⟩
  rw [List.mem_map]
  simp only [mem_keep, decide_eq_true_eq]
  constructor
  · rintro ⟨t, ⟨hm, hlt⟩, rfl⟩
    exact ⟨(h.mem_iff.mp ⟨t, hm, rfl⟩).1, hlt⟩
  · rintro ⟨hle, hlt⟩
    obtain ⟨t, hm, rfl⟩ := h.mem_iff.mpr ⟨hle, hlt.trans h₂⟩
    exact ⟨t, ⟨hm, hlt⟩, rfl⟩

end

theorem chain_of_interval {txs : List Transaction} (hs : SortedBy accountNonce txs)
    (hm : ∀ k, k ∈ txs.map accountNonce ↔ low ≤ k ∧ k < high) :
    txs.IsChain (fun t t' => t'.accountNonce = t.accountNonce + 1) ∧
    (∀ t ∈ txs.head?, t.accountNonce = low) ∧ ∀ t ∈ txs.getLast?, high = t.accountNonce + 1 := by
  induction txs generalizing low
  case nil => exact ⟨List.isChain_nil, by simp, by simp⟩
  case cons t txs hi =>
    obtain ⟨hlt, hs'⟩ := List.pairwise_cons.mp hs
    obtain ⟨h₁, h₂⟩ := (hm t.accountNonce).mp (List.mem_map_of_mem (List.mem_cons_self ..))
    have hlow : t.accountNonce = low := by
      obtain ⟨t', ht', he⟩ := List.mem_map.mp ((hm low).mpr ⟨le_rfl, lt_of_le_of_lt h₁ h₂⟩)
      obtain rfl | ht' := List.mem_cons.mp ht'
      · exact he
      · exact le_antisymm (he ▸ (hlt t' ht').le) h₁
    rw [hlow] at h₂
    have hrest : ∀ k, k ∈ txs.map accountNonce ↔ low + 1 ≤ k ∧ k < high := by
      intro k
      constructor
      · intro hk
        refine ⟨add_one_le ?_, ((hm k).mp (List.mem_cons_of_mem _ hk)).2⟩
        obtain ⟨t', ht', rfl⟩ := List.mem_map.mp hk
        exact hlow ▸ hlt t' ht'
      · rintro ⟨hk₁, hk₂⟩
        have hk : low < k := lt_of_add_one_le h₂ hk₁
        refine (List.mem_cons.mp ((hm k).mpr ⟨hk.le, hk₂⟩)).resolve_left fun he => ?_
        exact absurd (he.trans hlow) (ne_of_gt hk)
    obtain ⟨hc, hh, hl⟩ := hi hs' hrest
    cases txs
    case nil =>
      refine ⟨List.isChain_singleton t, by simp [hlow], ?_⟩
      simp only [List.getLast?_singleton, Option.mem_some_iff, forall_eq', hlow]
      by_contra hne
      have := (hrest (low + 1)).mpr ⟨le_rfl, lt_of_le_of_ne (add_one_le h₂) (Ne.symm hne)⟩
      cases this
    case cons t' txs =>
      refine ⟨List.isChain_cons_cons.mpr ⟨?_, hc⟩, by simp [hlow], ?_⟩
      · rw [hh t' rfl, hlow]
      · rwa [List.getLast?_cons_cons]

theorem runLength_take (n : UInt64) (txs : List Transaction) :
    runLength n (txs.take (runLength n txs)) = (txs.take (runLength n txs)).length := by
  induction txs generalizing n
  case nil => rfl
  case cons tx txs hi =>
    rw [runLength]
    split
    case isTrue he =>
      rw [List.take_succ_cons, runLength, if_pos he, hi, List.length_cons]
    case isFalse _ => rfl

theorem spans_nextNonce (hle : ∀ t ∈ s.txs, n ≤ t.accountNonce)
    (hmax : ∀ t ∈ s.txs, t.accountNonce + 1 ≠ 0)
    (hd : ∀ t ∈ s.txs, ∀ k, n ≤ k → k < t.accountNonce → ∃ t' ∈ s.txs, t'.accountNonce = k) :
    s.Spans n (TxPool.nextNonce s n) := by
  rw [TxPool.nextNonce]
  cases hl : s.txs.getLast?
  case none =>
    rw [List.getLast?_eq_none_iff] at hl
    refine ⟨le_rfl, fun k => ?_⟩
    rw [hl]
    simp
  case some t =>
    have ht : t ∈ s.txs := List.mem_of_getLast? hl
    have hlast : ∀ t' ∈ s.txs, t'.accountNonce ≤ t.accountNonce := by
      intro t' ht'
      obtain ⟨init, he⟩ := List.getLast?_eq_some_iff.mp hl
      have hs := s.sorted
      rw [SortedBy, he, List.pairwise_append] at hs
      rw [he, List.mem_append, List.mem_singleton] at ht'
      obtain ht' | rfl := ht'
      · exact (hs.2.2 t' ht' t (List.mem_singleton_self t)).le
      · exact le_rfl
    have hm := hmax t ht
    refine ⟨(hle t ht).trans (le_of_lt ((lt_add_one_iff hm).mpr le_rfl)), fun k => ?_⟩
    rw [Option.elim_some, lt_add_one_iff hm, List.mem_map]
    constructor
    · rintro ⟨t', ht', rfl⟩
      exact ⟨hle t' ht', hlast t' ht'⟩
    · rintro ⟨h₁, h₂⟩
      obtain rfl | hlt := h₂.eq_or_lt
      · exact ⟨t, ht, rfl⟩
      · exact hd t ht k h₁ hlt

end TxSeq

namespace PoolView

variable {hash : Transaction → Hash} {sender : Transaction → Address} {T : Set Transaction}
  {state : Accounts} {v v' : PoolView} {a : Address} {tx : Transaction} {txs : List Transaction}
  {low : Address → UInt64}

-- The pending nonces of every account go from a given one up to its managed nonce.
def Consecutive (low : Address → UInt64) (v : PoolView) : Prop :=
  ∀ a, (v.pending a).Spans (low a) (v.nonces a)

theorem spans_foldl_promoteTx {n : UInt64} (hs : (v.pending a).Spans n (v.nonces a))
    (hlen : TxSeq.runLength (v.nonces a) txs = txs.length)
    (hmax : ∀ t ∈ txs, t.accountNonce + 1 ≠ 0) (ht : ∀ t ∈ txs, v.all (hash t) = some t) :
    ((txs.foldl (promoteTx hash · a) v).pending a).Spans n
      ((txs.foldl (promoteTx hash · a) v).nonces a) := by
  induction txs generalizing v
  case nil => exact hs
  case cons tx txs hi =>
    obtain ⟨hm₁, hm₂⟩ := List.forall_mem_cons.mp hmax
    obtain ⟨ht₁, ht₂⟩ := List.forall_mem_cons.mp ht
    rw [TxSeq.runLength] at hlen
    split at hlen
    case isFalse _ => cases hlen
    case isTrue he =>
      have hp := promoteTx_of_rival (hs.rival he.ge) ht₁
      rw [List.foldl_cons, hp]
      refine hi ?_ ?_ hm₂ ht₂
      · dsimp only
        rw [Function.update_self, Function.update_self, he]
        exact hs.put (he ▸ hm₁) he
      · dsimp only
        rw [Function.update_self, he]
        exact Nat.succ.inj hlen

theorem Sound.runLength_ready (hv : v.Sound hash sender T) (hs : v.Consecutive low)
    (hle : low a ≤ state.nonce a) :
    TxSeq.runLength (v.nonces a) (v.ready state a) = (v.ready state a).length := by
  rw [ready, TxSeq.readyLength]
  split
  case h_1 => rfl
  case h_2 tx _ he =>
    split
    case isTrue _     => rfl
    case isFalse hnot =>
      have hm : tx ∈ (v.ripe state a).txs := he ▸ List.mem_cons_self ..
      obtain ⟨hq, hout, -⟩ := mem_ripe.mp hm
      have hge : low a ≤ tx.accountNonce :=
        hle.trans (not_lt.mp fun hlt => hout (TxSeq.mem_outdated.mpr ⟨hq, hlt⟩))
      have hn : tx.accountNonce = v.nonces a := by
        refine le_antisymm (not_lt.mp hnot) (not_lt.mp fun hlt => ?_)
        obtain ⟨t, ht, hen⟩ := (hs a).mem_iff.mpr ⟨hge, hlt⟩
        exact hv.apart a t ht tx hq hen
      rw [← hn, TxSeq.runLength_take]

theorem Sound.consecutive_promoteAccount (hinj : Set.InjOn hash T) (hv : v.Sound hash sender T)
    (hmax : ∀ t ∈ T, t.accountNonce + 1 ≠ 0) (hs : v.Consecutive low)
    (hle : ∀ a, low a ≤ state.nonce a) (a : Address) :
    (v.promoteAccount hash state a).Consecutive low := by
  intro b
  by_cases hb : b = a
  · subst hb
    exact spans_foldl_promoteTx (hs b) (hv.runLength_ready hs (hle b))
      (fun t ht => hmax t (hv.owned (Or.inr (ready_subset ht))).1)
      fun t ht => hv.all_of_ready hinj ht
  · obtain ⟨hp, hn⟩ := @foldl_promoteTx_of_ne hash
      ((v.deleteAll hash ((v.queue a).outdated (state.nonce a))).deleteAll hash
        (TxList.unpayable ((v.queue a).current (state.nonce a)) (state.balance a)))
      a b hb (v.ready state a)
    rw [PoolView.promoteAccount]
    dsimp only [deleteAll] at hp hn ⊢
    rw [hp, hn]
    exact hs b

theorem Removes.consecutive (h : Removes hash a tx v v') (hs : v.Consecutive low) :
    v'.Consecutive low := by
  intro b
  by_cases hr : (v.pending a).rival tx = none
  · have hn := h.nonces
    have hp := h.pending
    rw [if_pos hr] at hn hp
    rw [hn]
    by_cases hb : b = a
    · rw [hb, hp]
      exact hs a
    · rw [(h.other b hb).1]
      exact hs b
  · have hn := h.nonces
    have hp := h.pending
    rw [if_neg hr] at hn hp
    obtain ⟨old, hold⟩ := Option.ne_none_iff_exists'.mp hr
    obtain ⟨ho, hoe⟩ := TxSeq.rival_eq_some_iff.mp hold
    obtain ⟨h₁, h₂⟩ := (hs a).mem_iff.mp ⟨old, ho, hoe⟩
    rw [lowerNonce, if_pos h₂] at hn
    rw [hn]
    by_cases hb : b = a
    · rw [hb, hp]
      dsimp only
      rw [Function.update_self]
      exact (hs a).keep h₁ h₂
    · rw [(h.other b hb).1]
      dsimp only
      rw [Function.update_of_ne hb]
      exact hs b

theorem mem_executable : tx ∈ (v.executable state a).txs ↔ tx ∈ (v.pending a).txs ∧
    state.nonce a ≤ tx.accountNonce ∧
    ∀ t ∈ (v.pending a).txs, state.nonce a ≤ t.accountNonce → t.accountNonce ≤ tx.accountNonce →
      t.cost ≤ state.balance a := by
  have hc : ∀ t, t ∈ ((v.pending a).current (state.nonce a)).txs ↔
      t ∈ (v.pending a).txs ∧ state.nonce a ≤ t.accountNonce := by
    intro t
    rw [TxSeq.mem_current, TxSeq.mem_outdated]
    constructor
    · exact fun h => ⟨h.1, not_lt.mp fun hlt => h.2 ⟨h.1, hlt⟩⟩
    · exact fun h => ⟨h.1, fun hn => absurd h.2 (not_le_of_gt hn.2)⟩
  rw [executable, TxSeq.mem_keep, TxList.mem_payable, Bool.not_eq_true',
    ← Bool.not_eq_true, TxList.invalidated_iff]
  simp only [TxList.mem_unpayable, hc]
  constructor
  · rintro ⟨⟨⟨hp, hn⟩, hpay⟩, hinv⟩
    refine ⟨hp, hn, fun t ht htn hle => not_lt.mp fun hlt => ?_⟩
    obtain he | hlt' := hle.eq_or_lt
    · obtain rfl := (v.pending a).sorted.eq_of_key_eq ht hp he
      exact hpay ⟨⟨hp, hn⟩, hlt⟩
    · exact hinv ⟨trivial, t, ⟨⟨ht, htn⟩, hlt⟩, hlt'⟩
  · rintro ⟨hp, hn, hall⟩
    refine ⟨⟨⟨hp, hn⟩, fun h => not_le_of_gt h.2 (hall tx hp hn le_rfl)⟩, ?_⟩
    rintro ⟨-, t, ⟨⟨ht, htn⟩, hlt⟩, hlt'⟩
    exact not_le_of_gt hlt (hall t ht htn hlt'.le)

theorem spans_executable {n : UInt64} (hs : (v.pending a).Spans n (v.nonces a))
    (hmax : ∀ t ∈ (v.pending a).txs, t.accountNonce + 1 ≠ 0) (hle : n ≤ state.nonce a) :
    (v.executable state a).Spans (state.nonce a)
      (TxPool.nextNonce (v.executable state a) (state.nonce a)) := by
  refine TxSeq.spans_nextNonce (fun t ht => (mem_executable.mp ht).2.1)
    (fun t ht => hmax t (mem_executable.mp ht).1) fun t ht k hk hlt => ?_
  obtain ⟨hp, -, hpay⟩ := mem_executable.mp ht
  obtain ⟨t', ht', rfl⟩ := hs.mem_iff.mpr
    ⟨hle.trans hk, hlt.trans (hs.mem_iff.mp ⟨t, hp, rfl⟩).2⟩
  exact ⟨t', mem_executable.mpr ⟨ht', hk, fun t'' h'' hn hle' => hpay t'' h'' hn (hle'.trans hlt.le)⟩, rfl⟩

end PoolView

namespace TxPool

section

variable {E : PoolEnv} {T : Set Transaction} {state : Accounts} {pool pool' : TxPool}
  {v v' : PoolView} {c : PoolCall} {low : Address → UInt64}

theorem consecutive_promoted {sender : Transaction → Address} (hinj : Set.InjOn E.hash T)
    (hv : v.Sound E.hash sender T) (hmax : ∀ t ∈ T, t.accountNonce + 1 ≠ 0)
    (hs : v.Consecutive low) (hle : ∀ a, low a ≤ state.nonce a) (as : List Address) :
    (promoted E state v as).Consecutive low := by
  induction as generalizing v
  case nil => exact hs
  case cons a as hi =>
    exact hi ((hv.promoteAccount hinj state a).shrinks.sound hinj hv)
      (hv.consecutive_promoteAccount hinj hmax hs hle a)

theorem Resets.consecutive (h : Resets E T state v v') (hv : v.Sound E.hash (senderOf E) T)
    (hmax : ∀ t ∈ T, t.accountNonce + 1 ≠ 0) (hs : v.Consecutive low)
    (hle : ∀ a, low a ≤ state.nonce a) : v'.Consecutive state.nonce := by
  intro a
  rw [h.nonces, h.pending]
  exact PoolView.spans_executable (hs a) (fun t ht => hmax t (hv.owned (Or.inl ht)).1) (hle a)

variable (hinj : Set.InjOn E.hash T)
include hinj

variable (h : pool.Represents v)
include h

variable (hv : v.Sound E.hash (senderOf E) T)
include hv

theorem Represents.consecutive_remove (hs : v.Consecutive low) (hash : Hash) :
    ∃ v', (pool.removeTx E hash).Represents v' ∧ v'.Sound E.hash (senderOf E) T ∧
      v'.Consecutive low := by
  cases hx : v.all hash
  case none =>
    rw [h.removeTx_of_none hx]
    exact ⟨v, h, hv, hs⟩
  case some tx =>
    obtain ⟨invalids, hp, h'⟩ := h.removeTx (E := E) hx
    have hr := hv.removes hinj hx hp
    have hsh : PoolView.Shrinks E.hash T v _ := ⟨_, hr.sheds hv (hv.known hx).1⟩
    exact ⟨_, h', hsh.sound hinj hv, hr.consecutive hs⟩

theorem Represents.consecutive_removeTxs (hs : v.Consecutive low) (txs : List Transaction) :
    ∃ v', (pool.removeTxs E txs).Represents v' ∧ v'.Sound E.hash (senderOf E) T ∧
      v'.Consecutive low := by
  induction txs generalizing pool v
  case nil => exact ⟨v, h, hv, hs⟩
  case cons tx txs hi =>
    obtain ⟨v₁, h₁, hv₁, hs₁⟩ := h.consecutive_remove hinj hv hs (E.hash tx)
    exact hi h₁ hv₁ hs₁

-- A reset moves the lowest nonces to those of the state, and the other calls keep them.
theorem Represents.consecutive_call (hmax : ∀ t ∈ T, t.accountNonce + 1 ≠ 0)
    (hs : v.Consecutive low) (hle : ∀ state, E.current = some state → ∀ a, low a ≤ state.nonce a)
    (hT : ∀ tx ∈ c.txs, tx ∈ T) (ha : pool.Additive E c) (hroom : pool.Roomy c)
    (hc : c ≠ .pending) (he : pool.call E c = .ok pool') :
    ∃ v' low', pool'.Represents v' ∧ v'.Sound E.hash (senderOf E) T ∧ v'.Consecutive low' ∧
      (low' = low ∨ ∃ state, E.current = some state ∧ low' = state.nonce) := by
  have hpromote : PoolCall.Promoting c →
      GoMap.total pool.pending TxList.len + GoMap.total pool.queue TxList.len +
        c.txs.length ≤ maxPendingTotal →
      ∃ v' low', pool'.Represents v' ∧ v'.Sound E.hash (senderOf E) T ∧ v'.Consecutive low' ∧
        (low' = low ∨ ∃ state, E.current = some state ∧ low' = state.nonce) := by
    intro hp hroom
    obtain ⟨pool₁, state, hentry, he⟩ := exists_entry hp he
    obtain ⟨v₁, h₁, hen⟩ := h.entry hinj hv hT ha hentry
    obtain ⟨v', hpr⟩ := (h₁.limits hinj hen.sound state).2 pool' he
    have hpend := (hpr.few (h.few hroom hen)).2
    have hfinal : ∀ low', v₁.Consecutive low' → (∀ a, low' a ≤ state.nonce a) →
        v'.Consecutive low' := by
      intro low' hs' hle' a
      rw [hpend, hpr.nonces]
      exact consecutive_promoted hinj hen.sound hmax hs' hle' _ a
    have hle := hle state hen.current
    have hv' := hpr.shrinks.sound hinj hen.sound
    by_cases hreset : c = .reset
    · have hs₁ := (hen.resets hreset).consecutive hv hmax hs hle
      exact ⟨v', state.nonce, hpr.represents, hv', hfinal _ hs₁ fun _ => le_rfl,
        Or.inr ⟨state, hen.current, rfl⟩⟩
    · obtain ⟨hkp, hkn⟩ := hen.keeps hreset
      have hs₁ : v₁.Consecutive low := fun a => by
        rw [hkp, hkn]
        exact hs a
      exact ⟨v', low, hpr.represents, hv', hfinal _ hs₁ hle, Or.inl rfl⟩
  cases c
  case add tx       => exact hpromote (Or.inl ⟨tx, rfl⟩) hroom
  case addBatch txs => exact hpromote (Or.inr (Or.inl ⟨txs, rfl⟩)) hroom
  case reset        => exact hpromote (Or.inr (Or.inr rfl)) hroom
  case pending      => exact absurd rfl hc
  case remove hash =>
    cases he
    obtain ⟨v', h', hv', hs'⟩ := h.consecutive_remove hinj hv hs hash
    exact ⟨v', low, h', hv', hs', Or.inl rfl⟩
  case removeBatch txs =>
    cases he
    obtain ⟨v', h', hv', hs'⟩ := h.consecutive_removeTxs hinj hv hs txs
    exact ⟨v', low, h', hv', hs', Or.inl rfl⟩
  case expire =>
    cases he
    obtain ⟨v', h', hs', hp, hn⟩ := h.expire hinj hv
    refine ⟨v', low, h', hs'.shrinks.sound hinj hv, fun a => ?_, Or.inl rfl⟩
    rw [hp, hn]
    exact hs a
  case settings minGasPrice localTx homestead =>
    cases he
    exact ⟨v, low, { h with }, hv, hs, Or.inl rfl⟩

end

variable {hash : Transaction → Hash} {sender : Transaction → Option Address}
  {calls : List (PoolEnv × PoolCall)} {pool pool' : TxPool} {state : Accounts} {v : PoolView}
  {T : Set Transaction} {low : Address → UInt64}

-- The nonces of the pending transactions of every account follow each other, and the next nonce
-- that is handed out is the one after the last of them.
def Gapless (pool : TxPool) : Prop :=
  ∀ a l ω, pool.pending.lookup a = some l → (l.flatten ω).fst ≠ [] →
    (l.flatten ω).fst.IsChain (fun t t' => t'.accountNonce = t.accountNonce + 1) ∧
    ∀ t ∈ (l.flatten ω).fst.getLast?, pool.pendingState a = t.accountNonce + 1

-- The nonces of the chain never decrease from one state to a later one.
def Ascending (state : Accounts) (calls : List (PoolEnv × PoolCall)) : Prop :=
  (state :: calls.filterMap (·.fst.current)).Pairwise fun s s' => ∀ a, s.nonce a ≤ s'.nonce a

theorem Represents.gapless (h : pool.Represents v) (hs : v.Consecutive low) : pool.Gapless := by
  intro a l ω hl _
  obtain ⟨l', he, -, -⟩ := (h.pending.covers a l hl).1.flatten_eq ω
  rw [he, h.nonces]
  obtain ⟨hc, -, hlast⟩ := TxSeq.chain_of_interval (v.pending a).sorted (hs a).mem
  exact ⟨hc, hlast⟩

theorem run_consecutive (hf : Fits hash sender calls) (hinj : Set.InjOn hash T)
    (hT : ∀ tx ∈ added calls, tx ∈ T) (hmax : ∀ t ∈ T, t.accountNonce + 1 ≠ 0)
    (hlow : ∀ e ∈ calls, ∀ s, e.fst.current = some s → ∀ a, low a ≤ s.nonce a)
    (hasc : (calls.filterMap (·.fst.current)).Pairwise fun s s' => ∀ a, s.nonce a ≤ s'.nonce a)
    (hp : ∀ e ∈ calls, e.snd ≠ .pending)
    (hm : Meets (fun E pool c => pool.Additive E c ∧ pool.Roomy c) calls pool)
    (h : pool.Represents v) (hv : v.Sound hash (owner sender) T) (hs : v.Consecutive low)
    (hr : run calls pool = .ok pool') : pool'.Gapless := by
  induction calls generalizing pool v low
  case nil =>
    cases hr
    exact h.gapless hs
  case cons e calls ih =>
    obtain ⟨E, c⟩ := e
    obtain ⟨⟨ha, hroom⟩, hm⟩ := hm
    obtain ⟨pool₁, he, hr'⟩ := Go.bind_eq_ok.mp hr
    obtain ⟨hf₁, hf⟩ := List.forall_mem_cons.mp hf
    obtain ⟨rfl, hsender⟩ := hf₁
    obtain ⟨hl₁, hl⟩ := List.forall_mem_cons.mp hlow
    obtain ⟨hp₁, hp⟩ := List.forall_mem_cons.mp hp
    obtain ⟨hT₁, hT⟩ : (∀ tx ∈ c.txs, tx ∈ T) ∧ ∀ tx ∈ added calls, tx ∈ T :=
      List.forall_mem_append.mp hT
    have hrest : (calls.filterMap (·.fst.current)).Pairwise fun s s' => ∀ a, s.nonce a ≤ s'.nonce a :=
      hasc.sublist ((List.sublist_cons_self _ calls).filterMap _)
    have hafter : ∀ s, E.current = some s → ∀ e ∈ calls, ∀ s', e.fst.current = some s' →
        ∀ a, s.nonce a ≤ s'.nonce a := by
      intro s hc e hmem s' hc'
      rw [List.filterMap_cons_some (f := fun e : PoolEnv × PoolCall => e.fst.current) hc] at hasc
      exact (List.pairwise_cons.mp hasc).1 s' (List.mem_filterMap.mpr ⟨e, hmem, hc'⟩)
    obtain he' | rfl := after_cases he
    · rw [← senderOf_eq hsender] at hv
      obtain ⟨v', low', h', hv', hs', hlow'⟩ := h.consecutive_call hinj hv hmax hs
        (fun s hc => hl₁ s hc) hT₁ ha hroom hp₁ he'
      rw [senderOf_eq hsender] at hv'
      refine ih hf hT (fun e hmem s' hc' => ?_) hrest hp (hm pool₁ he) h' hv' hs' hr'
      obtain rfl | ⟨s, hc, rfl⟩ := hlow'
      · exact hl e hmem s' hc'
      · exact hafter s hc e hmem s' hc'
    · exact ih hf hT hl hrest hp (hm _ he) h hv hs hr'

-- In a run in which no new transaction has the nonce of a pending one, the pending limit is not
-- reached, and no transaction has the last nonce that there is.
theorem run_gapless (hf : Fits hash sender calls)
    (hinj : Set.InjOn hash {tx | tx ∈ added calls}) (hasc : Ascending state calls)
    (hp : ∀ e ∈ calls, e.snd ≠ .pending) (hn : ∀ tx ∈ added calls, tx.accountNonce + 1 ≠ 0)
    (hm : Meets (fun E pool c => pool.Additive E c ∧ pool.Roomy c) calls (start state))
    (hr : run calls (start state) = .ok pool) : pool.Gapless := by
  obtain ⟨hlow, hasc⟩ := List.pairwise_cons.mp hasc
  have hs : (startView state).Consecutive state.nonce := by
    refine fun a => ⟨le_rfl, fun k => ?_⟩
    constructor
    · exact fun hk => absurd hk List.not_mem_nil
    · exact fun hk => absurd hk.1 (not_le_of_gt hk.2)
  refine run_consecutive hf hinj (fun _ ht => ht) hn (fun e he s hc => ?_) hasc hp hm
    start_represents start_sound hs hr
  exact hlow s (List.mem_filterMap.mpr ⟨e, he, hc⟩)

theorem run_gapless_sample : ∃ pool, run sampleCalls (start richState) = .ok pool ∧
    pool.Gapless := by
  obtain ⟨pool, hr⟩ := sampleCalls_run
  have ha : added sampleCalls = [pooledTx 0 0, pooledTx 0 1] := rfl
  refine ⟨pool, hr, @run_gapless pooledHash pooledSender sampleCalls pool richState (fun e he => ?_)
    (pooledHash_injOn.mono fun t ht => ?_) ?_ (fun e he => ?_) (fun t ht => ?_)
    ⟨⟨fun _ _ _ l hl => ?_, ?_⟩, fun _ _ => trivial⟩ hr⟩
  · rw [List.mem_singleton.mp he]
    exact ⟨rfl, rfl⟩
  · change t ∈ [pooledTx 0 0, pooledTx 0 1] at ht
    simp only [List.mem_cons, List.not_mem_nil, or_false] at ht
    obtain rfl | rfl := ht <;> exact ⟨0, _, by decide, rfl⟩
  · exact List.pairwise_pair.mpr fun a => le_rfl
  · rw [List.mem_singleton.mp he]
    exact PoolCall.noConfusion
  · rw [ha] at ht
    simp only [List.mem_cons, List.not_mem_nil, or_false] at ht
    obtain rfl | rfl := ht <;> decide
  · cases hl
  · show 0 + 0 + 2 ≤ 4096
    decide

-- The first transaction is replaced by one that pays more.
def rewindingCalls : List (PoolEnv × PoolCall) :=
  [(pooledEnv, .addBatch [pooledTx 0 0, pooledTx 0 1]),
    (pooledEnv, .add { pooledTx 1 0 with price := 2 })]

theorem run_rewinds : ∃ pool, run rewindingCalls (start richState) = .ok pool ∧
    ¬ pool.Gapless := by
  have hs : (run rewindingCalls (start richState)).map (fun pool =>
      (pool.pendingState (pooledOwner 0), (pool.pending.lookup (pooledOwner 0)).map
        fun l => ((l.flatten pooledEnv.txRange).fst.map accountNonce))) =
          .ok (1, some [0, 1]) := by
    decide +kernel
  cases hr : run rewindingCalls (start richState)
  case error e =>
    rw [hr] at hs
    cases hs
  case ok pool =>
    rw [hr] at hs
    obtain ⟨hn, l, hl, hm⟩ : pool.pendingState (pooledOwner 0) = 1 ∧
        ∃ l, pool.pending.lookup (pooledOwner 0) = some l ∧
          (l.flatten pooledEnv.txRange).fst.map accountNonce = [0, 1] := by
      simpa [Except.map] using hs
    refine ⟨pool, rfl, fun hg => ?_⟩
    obtain ⟨t₀, t₁, he, -, h₁⟩ : ∃ t₀ t₁, (l.flatten pooledEnv.txRange).fst = [t₀, t₁] ∧
        t₀.accountNonce = 0 ∧ t₁.accountNonce = 1 := by
      simpa [List.map_eq_cons_iff] using hm
    have hlast := (hg (pooledOwner 0) l pooledEnv.txRange hl (by simp [he])).2 t₁ (by simp [he])
    rw [hn, h₁] at hlast
    exact absurd hlast (by decide)

end TxPool

end Core
