import GoEthereum.Core.PoolPromote

-- The index and the lists of the pool agree as long as no transaction is queued beside a pending one
-- with the same nonce.

namespace Core

open Common
open Transaction (accountNonce)

namespace TxSeq

variable {s : TxSeq} {tx t : Transaction} {n : UInt64}

theorem mem_put : t ∈ (s.put tx).txs ↔ t = tx ∨ t ∈ s.txs ∧ t.accountNonce ≠ tx.accountNonce :=
  mem_insertBy

theorem mem_put_of_rival (h : s.rival tx = none) : t ∈ (s.put tx).txs ↔ t = tx ∨ t ∈ s.txs := by
  rw [mem_put]
  exact or_congr_right (and_iff_left_of_imp fun ht => rival_eq_none_iff.mp h t ht)

theorem rival_put (h : s.rival t = none) (hn : tx.accountNonce ≠ t.accountNonce) :
    (s.put tx).rival t = none := by
  rw [rival_eq_none_iff] at h ⊢
  intro x hx
  obtain rfl | ⟨hx, -⟩ := mem_put.mp hx
  · exact hn
  · exact h x hx

theorem mem_keep {p : Transaction → Bool} : t ∈ (s.keep p).txs ↔ t ∈ s.txs ∧ p t := by
  rw [keep_txs, List.mem_filter]

theorem mem_outdated : t ∈ s.outdated n ↔ t ∈ s.txs ∧ t.accountNonce < n := by
  rw [outdated, List.mem_filter, decide_eq_true_eq]

theorem mem_current : t ∈ (s.current n).txs ↔ t ∈ s.txs ∧ t ∉ s.outdated n := by
  rw [current, mem_keep, mem_outdated, decide_eq_true_eq, ← not_lt]
  tauto

end TxSeq

namespace TxList

theorem not_keepsOut {s : TxSeq} {tx : Transaction} (h : s.rival tx = none) :
    ¬ keepsOut s tx := by
  rw [keepsOut, h]
  exact Bool.false_ne_true

end TxList

namespace PoolView

variable {hash : Transaction → Hash} {sender : Transaction → Address} {T : Set Transaction}
  {v v' v'' : PoolView} {a : Address} {tx : Transaction} {txs : List Transaction}

def Listed (v : PoolView) (a : Address) (tx : Transaction) : Prop :=
  tx ∈ (v.pending a).txs ∨ tx ∈ (v.queue a).txs

-- No transaction is queued beside a pending one with the same nonce.
def Apart (v : PoolView) : Prop :=
  ∀ a, ∀ t ∈ (v.pending a).txs, ∀ q ∈ (v.queue a).txs, t.accountNonce ≠ q.accountNonce

-- All transactions come from `T`, and the listed ones can be looked up.
structure Sound (hash : Transaction → Hash) (sender : Transaction → Address) (T : Set Transaction)
    (v : PoolView) : Prop where
  owned   : ∀ {a tx}, v.Listed a tx → tx ∈ T ∧ sender tx = a
  known   : ∀ {h tx}, v.all h = some tx → tx ∈ T ∧ hash tx = h
  indexed : ∀ {a tx}, v.Listed a tx → v.all (hash tx) = some tx
  apart   : v.Apart

-- From one view to the next, nothing enters the lists, and the transactions `gone` leave the lists
-- and the index.
structure Sheds (hash : Transaction → Hash) (T gone : Set Transaction) (v v' : PoolView) : Prop where
  listed : ∀ {a tx}, v'.Listed a tx → v.Listed a tx ∧ tx ∉ gone
  delete : ∀ tx ∈ gone, v'.all (hash tx) = none
  leave  : ∀ h, (∀ tx ∈ gone, hash tx ≠ h) → v'.all h = v.all h
  subset : gone ⊆ T
  apart  : v'.Apart

def Lossless (gone : Set Transaction) (v v' : PoolView) : Prop :=
  ∀ a tx, v.Listed a tx → tx ∉ gone → v'.Listed a tx

def Exact (sender : Transaction → Address) (v : PoolView) : Prop :=
  ∀ h tx, v.all h = some tx → v.Listed (sender tx) tx

section

variable {gone gone' : Set Transaction}

theorem Sheds.refl (h : v.Apart) : Sheds hash T ∅ v v where
  listed hl   := ⟨hl, Set.notMem_empty _⟩
  delete tx h := absurd h (Set.notMem_empty tx)
  leave _ _   := rfl
  subset      := Set.empty_subset T
  apart       := h

theorem Lossless.refl (v : PoolView) : Lossless gone v v :=
  fun _ _ h _ => h

theorem Sheds.trans (h : Sheds hash T gone v v') (h' : Sheds hash T gone' v' v'') :
    Sheds hash T (gone ∪ gone') v v'' where
  listed hl := by
    obtain ⟨hl, hg'⟩ := h'.listed hl
    obtain ⟨hl, hg⟩ := h.listed hl
    exact ⟨hl, not_or.mpr ⟨hg, hg'⟩⟩
  delete tx ht := by
    by_cases hg : ∃ t ∈ gone', hash t = hash tx
    · obtain ⟨t, hg, he⟩ := hg
      rw [← he]
      exact h'.delete t hg
    · rw [h'.leave _ fun t ht he => hg ⟨t, ht, he⟩]
      exact h.delete tx (ht.resolve_right fun hg' => hg ⟨tx, hg', rfl⟩)
  leave x hx := by
    rw [h'.leave x fun t ht => hx t (Or.inr ht), h.leave x fun t ht => hx t (Or.inl ht)]
  subset := Set.union_subset h.subset h'.subset
  apart := h'.apart

theorem Lossless.trans (h : Lossless gone v v') (h' : Lossless gone' v' v'') :
    Lossless (gone ∪ gone') v v'' := by
  intro a tx hl hg
  obtain ⟨hg, hg'⟩ := not_or.mp hg
  exact h' a tx (h a tx hl hg) hg'

theorem Sheds.sound (hinj : Set.InjOn hash T) (h : Sheds hash T gone v v')
    (hv : v.Sound hash sender T) : v'.Sound hash sender T where
  owned hl := hv.owned (h.listed hl).1
  known {x tx} hx := by
    by_cases hg : ∃ t ∈ gone, hash t = x
    · obtain ⟨t, hg, he⟩ := hg
      rw [← he, h.delete t hg] at hx
      cases hx
    · rw [h.leave x fun t ht he => hg ⟨t, ht, he⟩] at hx
      exact hv.known hx
  indexed {a tx} hl := by
    obtain ⟨hl, hg⟩ := h.listed hl
    rw [h.leave (hash tx) fun t ht he => hg ?_]
    · exact hv.indexed hl
    · rwa [← hinj (h.subset ht) (hv.owned hl).1 he]
  apart := h.apart

theorem Sheds.exact (h : Sheds hash T gone v v') (hl : Lossless gone v v')
    (hv : v.Sound hash sender T) (he : v.Exact sender) : v'.Exact sender := by
  intro x tx hx
  have hg : ¬ ∃ t ∈ gone, hash t = x := by
    rintro ⟨t, hg, rfl⟩
    rw [h.delete t hg] at hx
    cases hx
  rw [h.leave x fun t ht he => hg ⟨t, ht, he⟩] at hx
  exact hl _ _ (he x tx hx) fun ht => hg ⟨tx, ht, (hv.known hx).2⟩

-- What a call may do to the lists, and what it does when it keeps everything that it should.

def Shrinks (hash : Transaction → Hash) (T : Set Transaction) (v v' : PoolView) : Prop :=
  ∃ gone, Sheds hash T gone v v'

def Settles (hash : Transaction → Hash) (T : Set Transaction) (v v' : PoolView) : Prop :=
  ∃ gone, Sheds hash T gone v v' ∧ Lossless gone v v'

theorem Settles.refl (hv : v.Sound hash sender T) : Settles hash T v v :=
  ⟨∅, Sheds.refl hv.apart, Lossless.refl v⟩

theorem Shrinks.trans (h : Shrinks hash T v v') (h' : Shrinks hash T v' v'') :
    Shrinks hash T v v'' := by
  obtain ⟨gone, h⟩ := h
  obtain ⟨gone', h'⟩ := h'
  exact ⟨_, h.trans h'⟩

theorem Settles.trans (h : Settles hash T v v') (h' : Settles hash T v' v'') :
    Settles hash T v v'' := by
  obtain ⟨gone, h, hl⟩ := h
  obtain ⟨gone', h', hl'⟩ := h'
  exact ⟨_, h.trans h', hl.trans hl'⟩

theorem Settles.shrinks (h : Settles hash T v v') : Shrinks hash T v v' := by
  obtain ⟨gone, h, -⟩ := h
  exact ⟨gone, h⟩

theorem Shrinks.sound (hinj : Set.InjOn hash T) (h : Shrinks hash T v v')
    (hv : v.Sound hash sender T) : v'.Sound hash sender T := by
  obtain ⟨gone, h⟩ := h
  exact h.sound hinj hv

theorem Shrinks.listed (h : Shrinks hash T v v') (hl : v'.Listed a tx) : v.Listed a tx := by
  obtain ⟨gone, h⟩ := h
  exact (h.listed hl).1

theorem Settles.exact (h : Settles hash T v v') (hv : v.Sound hash sender T)
    (he : v.Exact sender) : v'.Exact sender := by
  obtain ⟨gone, h, hl⟩ := h
  exact h.exact hl hv he

theorem mem_deleteAll {x : Hash} : (v.deleteAll hash txs).all x = some tx ↔
    v.all x = some tx ∧ ∀ t ∈ txs, hash t ≠ x := by
  rw [deleteAll, Option.ite_none_left_eq_some, List.mem_map, and_comm]
  simp only [not_exists, not_and, ne_eq]

theorem Sheds.of_deleteAll (ha : v'.all = (v.deleteAll hash txs).all)
    (hl : ∀ {a tx}, v'.Listed a tx → v.Listed a tx ∧ tx ∉ txs) (hs : ∀ tx ∈ txs, tx ∈ T)
    (hap : v'.Apart) : Sheds hash T {tx | tx ∈ txs} v v' where
  listed := hl
  delete tx ht := by
    rw [ha]
    exact if_pos (List.mem_map_of_mem ht)
  leave x hx := by
    rw [ha]
    exact if_neg fun hm => by
      obtain ⟨t, ht, he⟩ := List.mem_map.mp hm
      exact hx t ht he
  subset := hs
  apart := hap

end

theorem update_all_self {x : Hash} (h : v.all x = some tx) :
    Function.update v.all x (some tx) = v.all := by
  rw [← h, Function.update_eq_self]

theorem promoteTx_of_rival (hr : (v.pending a).rival tx = none) (ht : v.all (hash tx) = some tx) :
    v.promoteTx hash a tx =
      { v with
        pending := Function.update v.pending a ((v.pending a).put tx)
        nonces  := Function.update v.nonces a (tx.accountNonce + 1) } := by
  rw [promoteTx, if_neg (TxList.not_keepsOut hr), hr, mark]
  simp only [Option.toList_none, deleteAll_nil, update_all_self ht]

theorem enqueueTx_of_rival (hr : (v.queue (sender tx)).rival tx = none)
    (ht : v.all (hash tx) = some tx) :
    v.enqueueTx hash sender tx =
      { v with queue := Function.update v.queue (sender tx) ((v.queue (sender tx)).put tx) } := by
  rw [enqueueTx, if_neg (TxList.not_keepsOut hr), hr, mark]
  simp only [Option.toList_none, deleteAll_nil, update_all_self ht]

-- The transactions are put into the list of one account by turns.
theorem foldl_put {get : PoolView → Address → TxSeq} {step : PoolView → Transaction → PoolView}
    (hstep : ∀ v, ∀ tx ∈ txs, (get v a).rival tx = none → v.all (hash tx) = some tx →
      get (step v tx) = Function.update (get v) a ((get v a).put tx) ∧ (step v tx).all = v.all)
    (hn : (txs.map accountNonce).Nodup) (hr : ∀ tx ∈ txs, (get v a).rival tx = none)
    (ht : ∀ tx ∈ txs, v.all (hash tx) = some tx) :
    (txs.foldl step v).all = v.all ∧
    (∀ t, t ∈ (get (txs.foldl step v) a).txs ↔ t ∈ (get v a).txs ∨ t ∈ txs) ∧
    ∀ b ≠ a, get (txs.foldl step v) b = get v b := by
  induction txs generalizing v
  case nil => exact ⟨rfl, fun t => by simp, fun _ _ => rfl⟩
  case cons tx txs hi =>
    obtain ⟨hr₁, hr₂⟩ := List.forall_mem_cons.mp hr
    obtain ⟨ht₁, ht₂⟩ := List.forall_mem_cons.mp ht
    obtain ⟨hn₁, hn₂⟩ := List.nodup_cons.mp hn
    obtain ⟨hg, hall⟩ := hstep v tx List.mem_cons_self hr₁ ht₁
    have hp : get (step v tx) a = (get v a).put tx := by rw [hg, Function.update_self]
    obtain ⟨h₁, h₂, h₃⟩ := @hi (step v tx) (fun v t hm => hstep v t (List.mem_cons_of_mem _ hm)) hn₂
      (fun t hm => hp ▸ TxSeq.rival_put (hr₂ t hm) fun he => hn₁ (he ▸ List.mem_map_of_mem hm))
      (fun t hm => hall ▸ ht₂ t hm)
    refine ⟨h₁.trans hall, fun t => ?_, fun b hb => (h₃ b hb).trans ?_⟩
    · rw [List.foldl_cons, h₂, hp, TxSeq.mem_put_of_rival hr₁, List.mem_cons]
      tauto
    · rw [hg, Function.update_of_ne hb]

theorem foldl_promoteTx (hn : (txs.map accountNonce).Nodup)
    (hr : ∀ tx ∈ txs, (v.pending a).rival tx = none) (ht : ∀ tx ∈ txs, v.all (hash tx) = some tx) :
    (txs.foldl (promoteTx hash · a) v).all = v.all ∧
    (∀ t, t ∈ ((txs.foldl (promoteTx hash · a) v).pending a).txs ↔
      t ∈ (v.pending a).txs ∨ t ∈ txs) ∧
    ∀ b ≠ a, (txs.foldl (promoteTx hash · a) v).pending b = v.pending b := by
  refine foldl_put (fun v tx _ hr ht => ?_) hn hr ht
  rw [promoteTx_of_rival hr ht]
  exact ⟨rfl, rfl⟩

theorem foldl_enqueueTx_nonces (txs : List Transaction) :
    (txs.foldl (enqueueTx hash sender) v).nonces = v.nonces := by
  induction txs generalizing v
  case nil => rfl
  case cons tx txs hi =>
    rw [List.foldl_cons, hi, enqueueTx]
    split <;> rfl

theorem foldl_enqueueTx (hn : (txs.map accountNonce).Nodup) (hs : ∀ tx ∈ txs, sender tx = a)
    (hr : ∀ tx ∈ txs, (v.queue a).rival tx = none) (ht : ∀ tx ∈ txs, v.all (hash tx) = some tx) :
    (txs.foldl (enqueueTx hash sender) v).all = v.all ∧
    (∀ t, t ∈ ((txs.foldl (enqueueTx hash sender) v).queue a).txs ↔
      t ∈ (v.queue a).txs ∨ t ∈ txs) ∧
    ∀ b ≠ a, (txs.foldl (enqueueTx hash sender) v).queue b = v.queue b := by
  refine foldl_put (fun v tx hm hr ht => ?_) hn hr ht
  obtain rfl := hs tx hm
  rw [enqueueTx_of_rival hr ht]
  exact ⟨rfl, rfl⟩

variable {state : Accounts}

theorem deleteAll_append (txs txs' : List Transaction) :
    (v.deleteAll hash txs).deleteAll hash txs' = v.deleteAll hash (txs ++ txs') := by
  simp only [deleteAll, List.map_append, List.mem_append]
  congr 1
  funext x
  by_cases h : x ∈ txs.map hash <;> simp [h]

theorem deleteAll_all_of_notMem (hinj : Set.InjOn hash T) (hs : ∀ t ∈ txs, t ∈ T) (ht : tx ∈ T)
    (hn : tx ∉ txs) : (v.deleteAll hash txs).all (hash tx) = v.all (hash tx) := by
  refine if_neg fun hm => hn ?_
  obtain ⟨t, hmem, he⟩ := List.mem_map.mp hm
  rwa [← hinj (hs t hmem) ht he]

def dropped (state : Accounts) (v : PoolView) (a : Address) : List Transaction :=
  (v.queue a).outdated (state.nonce a) ++
    TxList.unpayable ((v.queue a).current (state.nonce a)) (state.balance a) ++
      (v.unready state a).txs.drop maxQueuedPerAccount

theorem ripe_eq : (v.ripe state a).txs = v.ready state a ++
    (((v.unready state a).take maxQueuedPerAccount).txs ++
      (v.unready state a).txs.drop maxQueuedPerAccount) := by
  rw [TxSeq.take, List.take_append_drop]
  exact (List.take_append_drop ..).symm

theorem mem_ripe : tx ∈ (v.ripe state a).txs ↔ tx ∈ (v.queue a).txs ∧
    tx ∉ (v.queue a).outdated (state.nonce a) ∧
    tx ∉ TxList.unpayable ((v.queue a).current (state.nonce a)) (state.balance a) := by
  rw [ripe, TxList.mem_payable, TxSeq.mem_current, and_assoc]

theorem mem_undropped : tx ∈ (v.queue a).txs ∧ tx ∉ v.dropped state a ↔
    tx ∈ v.ready state a ∨ tx ∈ ((v.unready state a).take maxQueuedPerAccount).txs := by
  have hn := (v.ripe state a).sorted.nodup
  have hm := @mem_ripe v a tx state
  rw [ripe_eq] at hn hm
  obtain ⟨-, hn₁, hn₂⟩ := List.nodup_append.mp hn
  obtain ⟨-, -, hn₃⟩ := List.nodup_append.mp hn₁
  rw [dropped, List.mem_append, List.mem_append]
  simp only [List.mem_append] at hm hn₂
  constructor
  · tauto
  · rintro (hr | hr)
    · have := hm.mp (Or.inl hr)
      have h := hn₂ tx hr
      grind
    · have := hm.mp (Or.inr (Or.inl hr))
      have h := hn₃ tx hr
      grind

theorem Sound.sheds_at (hv : v.Sound hash sender T)
    (ho : ∀ b ≠ a, v'.pending b = v.pending b ∧ v'.queue b = v.queue b)
    (ha : v'.all = (v.deleteAll hash txs).all) (hg : ∀ t ∈ txs, t ∈ T ∧ sender t = a)
    (hl : ∀ t, v'.Listed a t → v.Listed a t ∧ t ∉ txs)
    (hap : ∀ t ∈ (v'.pending a).txs, ∀ q ∈ (v'.queue a).txs, t.accountNonce ≠ q.accountNonce) :
    Sheds hash T {tx | tx ∈ txs} v v' := by
  refine Sheds.of_deleteAll ha ?_ (fun t ht => (hg t ht).1) ?_
  · intro b t ht
    by_cases hb : b = a
    · subst hb
      exact hl t ht
    · rw [Listed, (ho b hb).1, (ho b hb).2] at ht
      exact ⟨ht, fun hm => hb ((hv.owned ht).2.symm.trans (hg t hm).2)⟩
  · intro b
    by_cases hb : b = a
    · subst hb
      exact hap
    · rw [(ho b hb).1, (ho b hb).2]
      exact hv.apart b

theorem lossless_at {gone : Set Transaction}
    (ho : ∀ b ≠ a, v'.pending b = v.pending b ∧ v'.queue b = v.queue b)
    (hl : ∀ t, v.Listed a t → t ∉ gone → v'.Listed a t) : Lossless gone v v' := by
  intro b t ht hg
  by_cases hb : b = a
  · subst hb
    exact hl t ht hg
  · rwa [Listed, (ho b hb).1, (ho b hb).2]

theorem Sound.rival_of_queued (hv : v.Sound hash sender T) (hq : tx ∈ (v.queue a).txs) :
    (v.pending a).rival tx = none :=
  TxSeq.rival_eq_none_iff.mpr fun t ht => hv.apart a t ht tx hq

theorem Sound.rival_of_pending (hv : v.Sound hash sender T) (hp : tx ∈ (v.pending a).txs) :
    (v.queue a).rival tx = none :=
  TxSeq.rival_eq_none_iff.mpr fun q hq he => hv.apart a tx hp q hq he.symm

theorem ready_subset (h : tx ∈ v.ready state a) : tx ∈ (v.queue a).txs :=
  (mem_undropped.mpr (Or.inl h)).1

theorem ready_nodup : ((v.ready state a).map accountNonce).Nodup :=
  ((v.ripe state a).sorted.sublist (List.take_sublist _ _)).nodup_keys

theorem Sound.all_of_ready (hinj : Set.InjOn hash T) (hv : v.Sound hash sender T)
    (ht : tx ∈ v.ready state a) :
    ((v.deleteAll hash ((v.queue a).outdated (state.nonce a))).deleteAll hash
      (TxList.unpayable ((v.queue a).current (state.nonce a)) (state.balance a))).all (hash tx) =
        some tx := by
  have hq : v.Listed a tx := Or.inr (ready_subset ht)
  have hn := (mem_undropped.mpr (Or.inl ht)).2
  rw [dropped, List.mem_append, not_or] at hn
  rw [deleteAll_append, deleteAll_all_of_notMem hinj _ (hv.owned hq).1 hn.1]
  · exact hv.indexed hq
  · intro x hx
    refine (hv.owned (a := a) (Or.inr ?_)).1
    obtain hx | hx := List.mem_append.mp hx
    · exact (TxSeq.mem_outdated.mp hx).1
    · exact (TxSeq.mem_current.mp (TxList.mem_unpayable.mp hx).1).1

theorem Sound.promoteAccount_eq (hinj : Set.InjOn hash T) (hv : v.Sound hash sender T)
    (state : Accounts) (a : Address) :
    (v.promoteAccount hash state a).all = (v.deleteAll hash (v.dropped state a)).all ∧
    (∀ t, t ∈ ((v.promoteAccount hash state a).pending a).txs ↔
      t ∈ (v.pending a).txs ∨ t ∈ v.ready state a) ∧
    ∀ b ≠ a, (v.promoteAccount hash state a).pending b = v.pending b := by
  obtain ⟨hall, hmem, hother⟩ := @foldl_promoteTx hash
    ((v.deleteAll hash ((v.queue a).outdated (state.nonce a))).deleteAll hash
      (TxList.unpayable ((v.queue a).current (state.nonce a)) (state.balance a)))
    a (v.ready state a) ready_nodup (fun t ht => hv.rival_of_queued (ready_subset ht))
    fun t ht => hv.all_of_ready hinj ht
  refine ⟨?_, hmem, hother⟩
  rw [promoteAccount, dropped, ← deleteAll_append, ← deleteAll_append]
  simp only [deleteAll] at hall ⊢
  rw [hall]

theorem dropped_subset (h : tx ∈ v.dropped state a) : tx ∈ (v.queue a).txs := by
  rw [dropped, List.mem_append, List.mem_append] at h
  obtain (h | h) | h := h
  · exact (TxSeq.mem_outdated.mp h).1
  · exact (TxSeq.mem_current.mp (TxList.mem_unpayable.mp h).1).1
  · have hr : tx ∈ (v.ripe state a).txs := by
      rw [ripe_eq]
      exact List.mem_append_right _ (List.mem_append_right _ h)
    exact (mem_ripe.mp hr).1

theorem Sound.promoteAccount (hinj : Set.InjOn hash T) (hv : v.Sound hash sender T)
    (state : Accounts) (a : Address) : Settles hash T v (v.promoteAccount hash state a) := by
  obtain ⟨hall, hmem, hother⟩ := hv.promoteAccount_eq hinj state a
  have hq : (v.promoteAccount hash state a).queue a =
    (v.unready state a).take maxQueuedPerAccount := Function.update_self ..
  have ho : ∀ b ≠ a, (v.promoteAccount hash state a).pending b = v.pending b ∧
    (v.promoteAccount hash state a).queue b = v.queue b :=
      fun b hb => ⟨hother b hb, Function.update_of_ne hb ..⟩
  have hu := fun t => @mem_undropped v a t state
  have hn : ∀ t ∈ (v.pending a).txs, t ∉ v.dropped state a :=
    fun t ht hd => hv.apart a t ht t (dropped_subset hd) rfl
  refine ⟨_, hv.sheds_at ho hall ?_ ?_ ?_, lossless_at ho ?_⟩
  · exact fun t ht => hv.owned (Or.inr (dropped_subset ht))
  · intro t ht
    rw [Listed, hmem, hq] at ht
    obtain (ht | ht) | ht := ht
    · exact ⟨Or.inl ht, hn t ht⟩
    · exact ((hu t).mpr (Or.inl ht)).imp_left Or.inr
    · exact ((hu t).mpr (Or.inr ht)).imp_left Or.inr
  · intro t ht q hq'
    rw [hq] at hq'
    have hq'' := ((hu q).mpr (Or.inr hq')).1
    obtain ht | ht := (hmem t).mp ht
    · exact hv.apart a t ht q hq''
    -- Both come from the queue, and the ready ones stand before the others.
    · have hs := (v.ripe state a).sorted
      rw [ripe_eq] at hs
      exact (ne_of_lt ((List.pairwise_append.mp hs).2.2 t ht q (List.mem_append_left _ hq')))
  · intro t ht hd
    rw [Listed, hmem, hq]
    obtain ht | ht := ht
    · exact Or.inl (Or.inl ht)
    · exact or_assoc.mpr (Or.inr ((hu t).mp ⟨ht, hd⟩))

def discarded (state : Accounts) (v : PoolView) (a : Address) : List Transaction :=
  (v.pending a).outdated (state.nonce a) ++
    TxList.unpayable ((v.pending a).current (state.nonce a)) (state.balance a)

theorem mem_undiscarded : tx ∈ (v.pending a).txs ∧ tx ∉ v.discarded state a ↔
    tx ∈ (v.executable state a).txs ∨ tx ∈ v.postponed state a := by
  rw [executable, postponed, TxSeq.mem_keep, List.mem_filter, TxList.mem_payable, TxSeq.mem_current,
    discarded]
  cases TxList.invalidated true ((v.pending a).current (state.nonce a)) (state.balance a) tx <;>
    simp <;> tauto

theorem discarded_subset (h : tx ∈ v.discarded state a) : tx ∈ (v.pending a).txs := by
  rw [discarded, List.mem_append] at h
  obtain h | h := h
  · exact (TxSeq.mem_outdated.mp h).1
  · exact (TxSeq.mem_current.mp (TxList.mem_unpayable.mp h).1).1

theorem Sound.demoteAccount_eq (hinj : Set.InjOn hash T) (hv : v.Sound hash sender T)
    (hp : txs.Perm (v.postponed state a)) :
    (v.demoteAccount hash sender state a txs).all = (v.deleteAll hash (v.discarded state a)).all ∧
    (v.demoteAccount hash sender state a txs).nonces = v.nonces ∧
    (∀ t, t ∈ ((v.demoteAccount hash sender state a txs).queue a).txs ↔
      t ∈ (v.queue a).txs ∨ t ∈ v.postponed state a) ∧
    ∀ b ≠ a, (v.demoteAccount hash sender state a txs).queue b = v.queue b := by
  have hs : ∀ t ∈ txs, t ∈ (v.pending a).txs ∧ t ∉ v.discarded state a :=
    fun t ht => mem_undiscarded.mpr (Or.inr (hp.mem_iff.mp ht))
  have hn : (txs.map accountNonce).Nodup := by
    rw [(hp.map accountNonce).nodup_iff]
    exact ((TxSeq.sorted _).filter _).nodup_keys
  obtain ⟨hall, hmem, hother⟩ := @foldl_enqueueTx hash sender
    (v.deleteAll hash (v.discarded state a)) a txs hn
    (fun t ht => (hv.owned (Or.inl (hs t ht).1)).2)
    (fun t ht => hv.rival_of_pending (hs t ht).1) (fun t ht => by
      have ho := hv.owned (Or.inl (hs t ht).1)
      rw [deleteAll_all_of_notMem hinj _ ho.1 (hs t ht).2]
      · exact hv.indexed (Or.inl (hs t ht).1)
      · exact fun x hx => (hv.owned (Or.inl (discarded_subset hx))).1)
  rw [demoteAccount, deleteAll_append, ← discarded]
  refine ⟨hall, foldl_enqueueTx_nonces txs, fun t => ?_, hother⟩
  rw [hmem, hp.mem_iff]
  rfl

theorem Sound.demoteAccount (hinj : Set.InjOn hash T) (hv : v.Sound hash sender T)
    (hp : txs.Perm (v.postponed state a)) :
    Settles hash T v (v.demoteAccount hash sender state a txs) := by
  obtain ⟨hall, -, hmem, hother⟩ := hv.demoteAccount_eq hinj hp
  have hpend : (v.demoteAccount hash sender state a txs).pending a = v.executable state a :=
    Function.update_self ..
  have ho : ∀ b ≠ a, (v.demoteAccount hash sender state a txs).pending b = v.pending b ∧
    (v.demoteAccount hash sender state a txs).queue b = v.queue b :=
      fun b hb => ⟨Function.update_of_ne hb .., hother b hb⟩
  have hu := fun t => @mem_undiscarded v a t state
  have hn : ∀ t ∈ (v.queue a).txs, t ∉ v.discarded state a :=
    fun t ht hd => hv.apart a t (discarded_subset hd) t ht rfl
  refine ⟨_, hv.sheds_at ho hall ?_ ?_ ?_, lossless_at ho ?_⟩
  · exact fun t ht => hv.owned (Or.inl (discarded_subset ht))
  · intro t ht
    rw [Listed, hmem, hpend] at ht
    obtain ht | ht | ht := ht
    · exact ((hu t).mpr (Or.inl ht)).imp_left Or.inl
    · exact ⟨Or.inr ht, hn t ht⟩
    · exact ((hu t).mpr (Or.inr ht)).imp_left Or.inl
  · intro t ht q hq
    rw [hpend] at ht
    have ht' := ((hu t).mpr (Or.inl ht)).1
    obtain hq | hq := (hmem q).mp hq
    · exact hv.apart a t ht' q hq
    -- Both were pending, and only one of them is above an unpayable transaction.
    · intro he
      have hq' := ((hu q).mpr (Or.inr hq)).1
      obtain rfl := (v.pending a).sorted.eq_of_key_eq ht' hq' he
      have h₁ := (TxSeq.mem_keep.mp ht).2
      rw [(List.mem_filter.mp hq).2] at h₁
      cases h₁
  · intro t ht hd
    rw [Listed, hmem, hpend]
    obtain ht | ht := ht
    · exact ((hu t).mp ⟨ht, hd⟩).imp_right Or.inr
    · exact Or.inr (Or.inl ht)

end PoolView

end Core
