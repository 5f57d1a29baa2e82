import GoEthereum.Core.PoolSound

-- Removing single transactions from the pool, and adding new ones.

namespace Core

open Common
open Transaction (accountNonce)

namespace PoolView

variable {hash : Transaction → Hash} {sender : Transaction → Address} {T : Set Transaction}
  {v v' : PoolView} {a : Address} {x : Hash} {tx t : Transaction} {txs : List Transaction}
  {n : UInt64}

theorem lowerNonce_pending : (v.lowerNonce a n).pending = v.pending := by
  rw [lowerNonce]
  split <;> rfl

theorem lowerNonce_queue : (v.lowerNonce a n).queue = v.queue := by
  rw [lowerNonce]
  split <;> rfl

theorem lowerNonce_all : (v.lowerNonce a n).all = v.all := by
  rw [lowerNonce]
  split <;> rfl

-- The pending transactions that go back to the queue when another one is removed.
def Returns (v : PoolView) (a : Address) (tx t : Transaction) : Prop :=
  (v.pending a).rival tx ≠ none ∧
  ((v.pending a).keep (accountNonce · < tx.accountNonce)).txs ≠ [] ∧
  t ∈ (v.pending a).txs ∧ t.accountNonce > tx.accountNonce

structure Removes (hash : Transaction → Hash) (a : Address) (tx : Transaction) (v v' : PoolView) :
    Prop where
  all     : v'.all = (v.deleteAll hash [tx]).all
  other   : ∀ b ≠ a, v'.pending b = v.pending b ∧ v'.queue b = v.queue b
  pending : v'.pending a = if (v.pending a).rival tx = none then v.pending a else
    (v.pending a).keep (accountNonce · < tx.accountNonce)
  queue   : ∀ t, t ∈ (v'.queue a).txs ↔
    (t ∈ (v.queue a).txs ∨ v.Returns a tx t) ∧ t.accountNonce ≠ tx.accountNonce
  nonces  : v'.nonces = if (v.pending a).rival tx = none then v.nonces else
    (v.lowerNonce a tx.accountNonce).nonces

theorem mem_removeQueued : t ∈ ((v.removeQueued a n).queue a).txs ↔
    t ∈ (v.queue a).txs ∧ t.accountNonce ≠ n := by
  have hq : (v.removeQueued a n).queue a = (v.queue a).keep (accountNonce · ≠ n) :=
    Function.update_self ..
  rw [hq, TxSeq.mem_keep, decide_eq_true_eq]

theorem deleteAll_singleton : (v.deleteAll hash [tx]).all = Function.update v.all (hash tx) none := by
  funext y
  rw [Function.update_apply, deleteAll]
  simp only [List.map_cons, List.map_nil, List.mem_singleton]

-- The view after a pending transaction and everything above it have left the pending ones.
def withdraw (hash : Transaction → Hash) (v : PoolView) (a : Address) (tx : Transaction) : PoolView :=
  { v.deleteAll hash [tx] with
    pending := Function.update v.pending a ((v.pending a).keep (accountNonce · < tx.accountNonce)) }

theorem Sound.foldl_enqueueTx_withdraw (hinj : Set.InjOn hash T) (hv : v.Sound hash sender T)
    (ht : tx ∈ T) (hp : txs.Perm ((v.pending a).txs.filter (accountNonce · > tx.accountNonce))) :
    (txs.foldl (enqueueTx hash sender) (v.withdraw hash a tx)).all =
      (v.deleteAll hash [tx]).all ∧
    (txs.foldl (enqueueTx hash sender) (v.withdraw hash a tx)).nonces = v.nonces ∧
    (∀ t, t ∈ ((txs.foldl (enqueueTx hash sender) (v.withdraw hash a tx)).queue a).txs ↔
      t ∈ (v.queue a).txs ∨ t ∈ (v.pending a).txs ∧ t.accountNonce > tx.accountNonce) ∧
    ∀ b ≠ a, (txs.foldl (enqueueTx hash sender) (v.withdraw hash a tx)).queue b = v.queue b := by
  have hm : ∀ t, t ∈ txs ↔ t ∈ (v.pending a).txs ∧ t.accountNonce > tx.accountNonce := fun t => by
    rw [hp.mem_iff, List.mem_filter, decide_eq_true_eq]
  have hn : (txs.map accountNonce).Nodup := by
    rw [(hp.map accountNonce).nodup_iff]
    exact ((v.pending a).sorted.filter _).nodup_keys
  obtain ⟨h₁, h₂, h₃⟩ := @foldl_enqueueTx hash sender (v.withdraw hash a tx) a txs hn
    (fun t h => (hv.owned (Or.inl ((hm t).mp h).1)).2)
    (fun t h => hv.rival_of_pending ((hm t).mp h).1) (fun t h => by
      obtain ⟨hmem, hgt⟩ := (hm t).mp h
      have hne : t ∉ [tx] := fun he => by
        rw [List.mem_singleton.mp he] at hgt
        exact lt_irrefl _ hgt
      refine (deleteAll_all_of_notMem hinj ?_ (hv.owned (Or.inl hmem)).1 hne).trans ?_
      · exact fun x hx => List.mem_singleton.mp hx ▸ ht
      · exact hv.indexed (Or.inl hmem))
  exact ⟨h₁, foldl_enqueueTx_nonces txs, fun t => (h₂ t).trans (or_congr_right (hm t)), h₃⟩

theorem removeTx_of_rival (hr : (v.pending (sender tx)).rival tx = none) :
    v.removeTx hash sender x tx txs =
      { v with
        all   := Function.update v.all x none
        queue := Function.update v.queue (sender tx)
          ((v.queue (sender tx)).keep (accountNonce · ≠ tx.accountNonce)) } := by
  rw [removeTx, removePending, if_pos hr]
  rfl

theorem removeTx_of_ne_none (hr : (v.pending (sender tx)).rival tx ≠ none) (hx : hash tx = x) :
    v.removeTx hash sender x tx txs =
      ((if ((v.pending (sender tx)).keep (accountNonce · < tx.accountNonce)).txs = [] then
        v.withdraw hash (sender tx) tx
      else
        txs.foldl (enqueueTx hash sender) (v.withdraw hash (sender tx) tx)).lowerNonce
          (sender tx) tx.accountNonce).removeQueued (sender tx) tx.accountNonce := by
  have hw : cutPending { v with all := Function.update v.all x none } (sender tx) tx.accountNonce =
      v.withdraw hash (sender tx) tx := by
    rw [withdraw, deleteAll_singleton, hx]
    rfl
  rw [removeTx, removePending, if_neg hr, hw]
  have hp : (v.withdraw hash (sender tx) tx).pending (sender tx) =
    (v.pending (sender tx)).keep (accountNonce · < tx.accountNonce) := Function.update_self ..
  simp only [hp]

theorem removes_of_withdraw {w : PoolView} (hr : (v.pending a).rival tx ≠ none)
    (hall : w.all = (v.deleteAll hash [tx]).all) (hnon : w.nonces = v.nonces)
    (hpend : w.pending = (v.withdraw hash a tx).pending)
    (hq : ∀ t, t ∈ (w.queue a).txs ↔ t ∈ (v.queue a).txs ∨ v.Returns a tx t)
    (ho : ∀ b ≠ a, w.queue b = v.queue b) :
    Removes hash a tx v ((w.lowerNonce a tx.accountNonce).removeQueued a tx.accountNonce) := by
  constructor
  case all => exact lowerNonce_all.trans hall
  case other =>
    intro b hb
    constructor
    · rw [← Function.update_of_ne hb _ v.pending]
      exact congrFun (lowerNonce_pending.trans hpend) b
    · refine (Function.update_of_ne hb ..).trans ?_
      rw [lowerNonce_queue]
      exact ho b hb
  case pending =>
    rw [if_neg hr, ← Function.update_self a ((v.pending a).keep _) v.pending]
    exact congrFun (lowerNonce_pending.trans hpend) a
  case queue =>
    intro t
    rw [mem_removeQueued, lowerNonce_queue, hq]
  case nonces =>
    simp only [removeQueued, lowerNonce, hnon]
    split
    case isTrue _  => rfl
    case isFalse _ => exact hnon

theorem Sound.removes (hinj : Set.InjOn hash T) (hv : v.Sound hash sender T)
    (hx : v.all x = some tx)
    (hp : txs.Perm ((v.pending (sender tx)).txs.filter (accountNonce · > tx.accountNonce))) :
    Removes hash (sender tx) tx v (v.removeTx hash sender x tx txs) := by
  obtain ⟨htx, rfl⟩ := hv.known hx
  by_cases hr : (v.pending (sender tx)).rival tx = none
  · constructor
    case queue =>
      intro t
      rw [removeTx, removePending, if_pos hr, mem_removeQueued, Returns]
      tauto
    all_goals rw [removeTx_of_rival hr]
    case all     => exact deleteAll_singleton.symm
    case other   => exact fun b hb => ⟨rfl, Function.update_of_ne hb ..⟩
    case pending => rw [if_pos hr]
    case nonces  => rw [if_pos hr]
  · obtain ⟨h₁, h₂, h₃, h₄⟩ := hv.foldl_enqueueTx_withdraw hinj htx hp
    rw [removeTx_of_ne_none hr rfl]
    split
    case isTrue hnil =>
      refine @removes_of_withdraw _ _ _ _ (v.withdraw hash _ tx) hr rfl rfl rfl (fun t => ?_)
        fun _ _ => rfl
      exact (or_iff_left fun h => h.2.1 hnil).symm
    case isFalse hnil =>
      apply removes_of_withdraw hr h₁ h₂ (foldl_enqueueTx_pending txs) _ h₄
      intro t
      rw [h₃, Returns]
      tauto

-- The removal of the first one of several pending transactions of an account.
def Strands (v : PoolView) (a : Address) (tx : Transaction) : Prop :=
  tx ∈ (v.pending a).txs ∧ (∀ t ∈ (v.pending a).txs, tx.accountNonce ≤ t.accountNonce) ∧
  ∃ t ∈ (v.pending a).txs, tx.accountNonce < t.accountNonce

theorem Removes.sheds (h : Removes hash (sender tx) tx v v') (hv : v.Sound hash sender T)
    (ht : tx ∈ T) : Sheds hash T {t | t ∈ [tx]} v v' := by
  have hpend : ∀ t ∈ (v'.pending (sender tx)).txs, t ∈ (v.pending (sender tx)).txs ∧
      ((v.pending (sender tx)).rival tx ≠ none → t.accountNonce < tx.accountNonce) := by
    intro t ht
    rw [h.pending] at ht
    split at ht
    case isTrue hr  => exact ⟨ht, fun hn => absurd hr hn⟩
    case isFalse hr =>
      obtain ⟨hm, hlt⟩ := TxSeq.mem_keep.mp ht
      exact ⟨hm, fun _ => of_decide_eq_true hlt⟩
  apply hv.sheds_at h.other h.all
  case hg =>
    intro t hm
    rw [List.mem_singleton.mp hm]
    exact ⟨ht, rfl⟩
  case hl =>
    intro t hl
    rw [List.mem_singleton]
    obtain hl | hl := hl
    · obtain ⟨hm, hlt⟩ := hpend t hl
      refine ⟨Or.inl hm, ?_⟩
      rintro rfl
      have hr : (v.pending (sender t)).rival t ≠ none := fun hn =>
        TxSeq.rival_eq_none_iff.mp hn t hm rfl
      exact lt_irrefl _ (hlt hr)
    · obtain ⟨hm, hne⟩ := (h.queue t).mp hl
      refine ⟨hm.elim Or.inr fun hr => Or.inl hr.2.2.1, ?_⟩
      rintro rfl
      exact hne rfl
  case hap =>
    intro t hm q hq
    obtain ⟨hm, hlt⟩ := hpend t hm
    obtain ⟨hq | hq, -⟩ := (h.queue q).mp hq
    · exact hv.apart _ t hm q hq
    · exact ne_of_lt ((hlt hq.1).trans hq.2.2.2)

theorem Removes.lossless (h : Removes hash (sender tx) tx v v') (hv : v.Sound hash sender T)
    (hl : v.Listed (sender tx) tx) (hs : ¬ v.Strands (sender tx) tx) :
    Lossless {t | t ∈ [tx]} v v' := by
  apply lossless_at h.other
  intro t ht hne
  have hne : t ≠ tx := fun he => hne (List.mem_singleton.mpr he)
  rw [Listed, h.queue, h.pending]
  obtain hl | hl := hl
  · have hr : (v.pending (sender tx)).rival tx ≠ none := fun hn =>
      TxSeq.rival_eq_none_iff.mp hn tx hl rfl
    rw [if_neg hr]
    obtain ht | ht := ht
    · obtain hlt | heq | hgt := lt_trichotomy t.accountNonce tx.accountNonce
      · exact Or.inl (TxSeq.mem_keep.mpr ⟨ht, decide_eq_true hlt⟩)
      · exact absurd ((v.pending _).sorted.eq_of_key_eq ht hl heq) hne
      · refine Or.inr ⟨Or.inr ⟨hr, fun hnil => hs ⟨hl, fun s hm => ?_, t, ht, hgt⟩, ht, hgt⟩, ?_⟩
        · by_contra hlt
          have hm : s ∈ ((v.pending (sender tx)).keep (accountNonce · < tx.accountNonce)).txs :=
            TxSeq.mem_keep.mpr ⟨hm, decide_eq_true (not_le.mp hlt)⟩
          rw [hnil] at hm
          cases hm
        · exact (ne_of_lt hgt).symm
    · exact Or.inr ⟨Or.inl ht, (hv.apart _ tx hl t ht).symm⟩
  · rw [if_pos (hv.rival_of_queued hl)]
    obtain ht | ht := ht
    · exact Or.inl ht
    · exact Or.inr ⟨Or.inl ht, fun he => hne ((v.queue _).sorted.eq_of_key_eq ht hl he)⟩

def dropQueued (hash : Transaction → Hash) (v : PoolView) (a : Address) (txs : List Transaction) :
    PoolView :=
  { v.deleteAll hash txs with
    queue := Function.update v.queue a
      ((v.queue a).keep (accountNonce · ∉ txs.map accountNonce)) }

theorem dropQueued_nil : v.dropQueued hash a [] = v := by
  have hk : (v.queue a).keep (accountNonce · ∉ ([] : List Transaction).map accountNonce) =
      v.queue a := by
    apply TxSeq.ext
    rw [TxSeq.keep_txs, List.filter_eq_self]
    simp
  rw [dropQueued, hk, Function.update_eq_self]
  rfl

theorem dropQueued_dropQueued (txs txs' : List Transaction) :
    (v.dropQueued hash a txs).dropQueued hash a txs' = v.dropQueued hash a (txs ++ txs') := by
  have hk : ((v.dropQueued hash a txs).queue a).keep (accountNonce · ∉ txs'.map accountNonce) =
      (v.queue a).keep (accountNonce · ∉ (txs ++ txs').map accountNonce) := by
    have hq : (v.dropQueued hash a txs).queue a =
      (v.queue a).keep (accountNonce · ∉ txs.map accountNonce) := Function.update_self ..
    apply TxSeq.ext
    rw [hq, TxSeq.keep_txs, TxSeq.keep_txs, List.filter_filter]
    apply List.filter_congr
    grind
  rw [dropQueued, hk, dropQueued, dropQueued, ← deleteAll_append]
  simp only [deleteAll, Function.update_idem]

theorem mem_dropQueued (hs : ∀ t ∈ txs, t ∈ (v.queue a).txs) :
    t ∈ ((v.dropQueued hash a txs).queue a).txs ↔ t ∈ (v.queue a).txs ∧ t ∉ txs := by
  have hq : (v.dropQueued hash a txs).queue a =
    (v.queue a).keep (accountNonce · ∉ txs.map accountNonce) := Function.update_self ..
  rw [hq, TxSeq.mem_keep, decide_eq_true_eq]
  refine and_congr_right fun ht => not_congr ⟨fun hm => ?_, List.mem_map_of_mem⟩
  obtain ⟨s, hm, he⟩ := List.mem_map.mp hm
  rwa [← (v.queue a).sorted.eq_of_key_eq (hs s hm) ht he]

theorem Sound.dropQueued (hv : v.Sound hash sender T) (hs : ∀ t ∈ txs, t ∈ (v.queue a).txs) :
    Settles hash T v (v.dropQueued hash a txs) := by
  have ho : ∀ b ≠ a, (v.dropQueued hash a txs).pending b = v.pending b ∧
    (v.dropQueued hash a txs).queue b = v.queue b := fun b hb => ⟨rfl, Function.update_of_ne hb ..⟩
  refine ⟨{t | t ∈ txs}, ?_, ?_⟩
  · apply hv.sheds_at ho rfl
    case hg => exact fun t ht => hv.owned (Or.inr (hs t ht))
    case hl =>
      rintro t (ht | ht)
      · exact ⟨Or.inl ht, fun hm => hv.apart a t ht t (hs t hm) rfl⟩
      · exact ((mem_dropQueued hs).mp ht).imp_left Or.inr
    case hap => exact fun t ht q hq => hv.apart a t ht q ((mem_dropQueued hs).mp hq).1
  · apply lossless_at ho
    rintro t (ht | ht) hn
    · exact Or.inl ht
    · exact Or.inr ((mem_dropQueued hs).mpr ⟨ht, hn⟩)

theorem removeTx_of_queued (hv : v.Sound hash sender T) (ht : tx ∈ (v.queue a).txs) :
    v.removeTx hash sender (hash tx) tx txs = v.dropQueued hash a [tx] := by
  obtain ⟨-, rfl⟩ := hv.owned (Or.inr ht)
  rw [removeTx_of_rival (hv.rival_of_queued ht)]
  have hk : (v.queue (sender tx)).keep (accountNonce · ≠ tx.accountNonce) =
      (v.queue (sender tx)).keep (accountNonce · ∉ [tx].map accountNonce) := by
    apply TxSeq.ext
    apply List.filter_congr
    simp
  rw [hk, ← deleteAll_singleton]
  rfl

theorem Sound.fewer {c : Address → TxSeq} (hv : v.Sound hash sender T)
    (hc : ∀ a, ∀ t ∈ (c a).txs, t ∈ (v.pending a).txs) (nonces : Address → UInt64) :
    Sheds hash T ∅ v { v with pending := c, nonces := nonces } where
  listed hl   := ⟨hl.imp_left (hc _ _), Set.notMem_empty _⟩
  delete tx h := absurd h (Set.notMem_empty tx)
  leave _ _   := rfl
  subset      := Set.empty_subset T
  apart a t h := hv.apart a t (hc a t h)

-- A transaction takes the place of any other one with its nonce in the queue.
def enlist (hash : Transaction → Hash) (sender : Transaction → Address) (v : PoolView)
    (tx : Transaction) : PoolView :=
  { v.mark hash ((v.queue (sender tx)).rival tx) tx with
    queue := Function.update v.queue (sender tx) ((v.queue (sender tx)).put tx) }

theorem mem_enlist_queue : t ∈ ((v.enlist hash sender tx).queue a).txs ↔
    (a = sender tx ∧ t = tx) ∨
      t ∈ (v.queue a).txs ∧ (a = sender tx → t.accountNonce ≠ tx.accountNonce) := by
  by_cases ha : a = sender tx
  · subst ha
    have hq : (v.enlist hash sender tx).queue (sender tx) = (v.queue (sender tx)).put tx :=
      Function.update_self ..
    rw [hq, TxSeq.mem_put]
    simp
  · have hq : (v.enlist hash sender tx).queue a = v.queue a := Function.update_of_ne ha ..
    rw [hq]
    simp [ha]

theorem enlist_all : (v.enlist hash sender tx).all x = some t ↔ (x = hash tx ∧ t = tx) ∨
    x ≠ hash tx ∧ v.all x = some t ∧ ∀ q ∈ (v.queue (sender tx)).rival tx, hash q ≠ x := by
  have he : (v.enlist hash sender tx).all x = if x = hash tx then some tx else
    (v.deleteAll hash ((v.queue (sender tx)).rival tx).toList).all x := Function.update_apply ..
  rw [he]
  by_cases hx : x = hash tx
  · simp [hx, eq_comm]
  · rw [if_neg hx, mem_deleteAll]
    simp only [hx, Option.mem_toList, false_and, false_or, not_false_iff, ne_eq, true_and]
    rfl

theorem enlist_all_of_rival (hr : (v.queue (sender tx)).rival tx = none) :
    (v.enlist hash sender tx).all = Function.update v.all (hash tx) (some tx) := by
  rw [enlist, hr]
  rfl

theorem Sound.enlist (hinj : Set.InjOn hash T) (hv : v.Sound hash sender T) (ht : tx ∈ T)
    (hr : (v.pending (sender tx)).rival tx = none) :
    (v.enlist hash sender tx).Sound hash sender T where
  owned hl := by
    obtain hl | hl := hl
    · exact hv.owned (Or.inl hl)
    · obtain ⟨rfl, rfl⟩ | hl := mem_enlist_queue.mp hl
      · exact ⟨ht, rfl⟩
      · exact hv.owned (Or.inr hl.1)
  known hx := by
    obtain ⟨rfl, rfl⟩ | ⟨-, hx, -⟩ := enlist_all.mp hx
    · exact ⟨ht, rfl⟩
    · exact hv.known hx
  indexed {a t} hl := by
    have hold : v.Listed a t → (∀ q ∈ (v.queue (sender tx)).rival tx, t ≠ q) →
        (v.enlist hash sender tx).all (hash t) = some t := by
      intro hl hne
      have hmem := (hv.owned hl).1
      by_cases he : hash t = hash tx
      · exact enlist_all.mpr (Or.inl ⟨he, hinj hmem ht he⟩)
      · refine enlist_all.mpr (Or.inr ⟨he, hv.indexed hl, fun q hq hqt => hne q hq ?_⟩)
        exact (hinj (hv.owned (Or.inr (TxSeq.rival_eq_some_iff.mp hq).1)).1 hmem hqt).symm
    obtain hl | hl := hl
    · refine hold (Or.inl hl) ?_
      rintro q hq rfl
      have hq := (TxSeq.rival_eq_some_iff.mp hq).1
      obtain rfl := (hv.owned (Or.inl hl)).2.symm.trans (hv.owned (Or.inr hq)).2
      exact hv.apart _ t hl t hq rfl
    · obtain ⟨rfl, rfl⟩ | ⟨hl, hne⟩ := mem_enlist_queue.mp hl
      · exact enlist_all.mpr (Or.inl ⟨rfl, rfl⟩)
      · refine hold (Or.inr hl) ?_
        rintro q hq rfl
        obtain ⟨hq, he⟩ := TxSeq.rival_eq_some_iff.mp hq
        exact hne ((hv.owned (Or.inr hl)).2.symm.trans (hv.owned (Or.inr hq)).2) he
  apart a t hp q hq := by
    obtain ⟨rfl, rfl⟩ | ⟨hq, -⟩ := mem_enlist_queue.mp hq
    · exact TxSeq.rival_eq_none_iff.mp hr t hp
    · exact hv.apart a t hp q hq

theorem Exact.enlist (hv : v.Sound hash sender T) (he : v.Exact sender) (tx : Transaction) :
    (v.enlist hash sender tx).Exact sender := by
  intro x t hx
  obtain ⟨-, rfl⟩ | ⟨-, hx, hq⟩ := enlist_all.mp hx
  · exact Or.inr (mem_enlist_queue.mpr (Or.inl ⟨rfl, rfl⟩))
  · obtain hl | hl := he x t hx
    · exact Or.inl hl
    · refine Or.inr (mem_enlist_queue.mpr (Or.inr ⟨hl, fun hs hn => ?_⟩))
      rw [hs] at hl
      exact hq t (TxSeq.rival_eq_some_iff.mpr ⟨hl, hn⟩) (hv.known hx).2

theorem enqueueTx_eq : v.enqueueTx hash sender tx =
    if TxList.keepsOut (v.queue (sender tx)) tx then v else v.enlist hash sender tx :=
  rfl

end PoolView

end Core
