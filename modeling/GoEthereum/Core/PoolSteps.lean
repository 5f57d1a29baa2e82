import GoEthereum.Core.PoolRemove
import GoEthereum.Core.TxLevel

-- What the loops of the pool do to its contents.

namespace Core

open Common
open Transaction (accountNonce)

namespace TxPool

variable {E : PoolEnv} {T : Set Transaction} {state : Accounts} {pool pool' : TxPool}
  {v v' : PoolView} {a : Address} {txs : List Transaction}

section

variable {strict : Bool} {p : GoMap Address TxList} {c : Address → TxSeq}

section

variable (h : Lists strict p c)
include h

theorem Lists.total_keys :
    GoMap.total p TxList.len = ∑ a ∈ p.keys.toFinset, size c a := by
  have he : p.entries.map (fun e => e.snd.len) = p.keys.map (size c) := by
    rw [AList.keys, List.keys, List.map_map]
    apply List.map_congr_left
    intro e he
    exact (h.covers e.fst e.snd (AList.mem_lookup_iff.mpr he)).1.len_eq
  rw [GoMap.total, he, List.sum_toFinset _ p.keys_nodup]

theorem Lists.total_eq {S : Finset Address}
    (hS : ∀ a ∉ S, (c a).txs = []) : GoMap.total p TxList.len = ∑ a ∈ S, size c a := by
  have hk : ∀ a ∉ p.keys.toFinset, (c a).txs = [] := fun a ha => by
    rw [List.mem_toFinset] at ha
    exact h.none a (GoMap.lookup_of_notMem_keys ha)
  rw [h.total_keys, Finset.sum_subset (@Finset.subset_union_left _ _ p.keys.toFinset S),
    ← Finset.sum_subset (@Finset.subset_union_right _ _ p.keys.toFinset S)]
  · intro a _ ha
    rw [size, hS a ha, List.length_nil]
  · intro a _ ha
    rw [size, hk a ha, List.length_nil]

theorem Lists.mem_keys (ha : (c a).txs ≠ []) : p.lookup a ≠ Option.none :=
  fun hn => ha (h.none a hn)

theorem Lists.exists_list : ∃ txs : List Transaction,
    txs.length = GoMap.total p TxList.len ∧ ∀ a, ∀ t ∈ (c a).txs, t ∈ txs := by
  refine ⟨p.keys.flatMap fun a => (c a).txs, ?_, fun a t ht => ?_⟩
  · rw [h.total_keys, List.length_flatMap, List.sum_toFinset _ p.keys_nodup]
    rfl
  · refine List.mem_flatMap.mpr ⟨a, ?_, ht⟩
    obtain ⟨l, hl⟩ := Option.ne_none_iff_exists'.mp (h.mem_keys (List.ne_nil_of_mem ht))
    exact GoMap.mem_keys_of_lookup hl

theorem Lists.total_le {sender : Transaction → Address}
    (ho : ∀ a, ∀ t ∈ (c a).txs, sender t = a) (hs : ∀ a, ∀ t ∈ (c a).txs, t ∈ txs) :
    GoMap.total p TxList.len ≤ txs.length := by
  have hn : (p.keys.flatMap fun a => (c a).txs).Nodup := by
    rw [List.nodup_flatMap]
    refine ⟨fun a _ => (c a).sorted.nodup, p.keys_nodup.imp fun {a b} hab t ha hb => hab ?_⟩
    exact (ho a t ha).symm.trans (ho b t hb)
  have hl : (p.keys.flatMap fun a => (c a).txs).length = GoMap.total p TxList.len := by
    rw [h.total_keys, List.length_flatMap, List.sum_toFinset _ p.keys_nodup]
    rfl
  rw [← hl]
  apply List.Subperm.length_le
  apply List.subperm_of_subset hn
  intro t ht
  obtain ⟨a, -, ht⟩ := List.mem_flatMap.mp ht
  exact hs a t ht

end

def promoted (E : PoolEnv) (state : Accounts) (v : PoolView) (as : List Address) : PoolView :=
  as.foldl (PoolView.promoteAccount E.hash state) v

variable {as : List Address}

theorem promoted_queue (ha : a ∉ as) :
    (promoted E state v as).queue a = v.queue a := by
  induction as generalizing v
  case nil => rfl
  case cons b as hi =>
    rw [List.mem_cons, not_or] at ha
    obtain ⟨hb, ha⟩ := ha
    refine (hi ha).trans ?_
    exact Function.update_of_ne hb ..

theorem promoted_queue_le (ha : a ∈ as) :
    ((promoted E state v as).queue a).txs.length ≤ maxQueuedPerAccount := by
  induction as generalizing v
  case nil => cases ha
  case cons b as hi =>
    by_cases ha' : a ∈ as
    · exact hi ha'
    · obtain rfl := (List.mem_cons.mp ha).resolve_right ha'
      have hq : (v.promoteAccount E.hash state a).queue a =
        (v.unready state a).take maxQueuedPerAccount := Function.update_self ..
      rw [promoted, List.foldl_cons, ← promoted, promoted_queue ha', hq]
      exact List.length_take_le ..

theorem Represents.foldlM_promoteAccount (h : pool.Represents v) (state : Accounts) (hn : as.Nodup) (n : Nat) : ∃ pool', as.foldlM (TxPool.promoteAccount E state) (n, pool) =
        .ok (n + (as.map (size (promoted E state v as).queue)).sum, pool') ∧
      pool'.Represents (promoted E state v as) ∧
      ∀ b, pool'.queue.lookup b ≠ none → ((promoted E state v as).queue b).txs ≠ [] ∨
        b ∉ as ∧ pool.queue.lookup b ≠ none := by
  induction as generalizing n pool v
  case nil => exact ⟨pool, rfl, h, fun b hb => Or.inr ⟨List.not_mem_nil, hb⟩⟩
  case cons a as hi =>
    obtain ⟨ha, hn⟩ := List.nodup_cons.mp hn
    obtain ⟨pool₁, he₁, h₁, hq₁⟩ := h.promoteAccount (E := E) state n a
    obtain ⟨pool', he, h', hq⟩ := hi h₁ hn
      (n + ((v.promoteAccount E.hash state a).queue a).txs.length)
    refine ⟨pool', ?_, h', fun b hb => ?_⟩
    · have hs : size (promoted E state v (a :: as)).queue a =
          ((v.promoteAccount E.hash state a).queue a).txs.length := by
        rw [size, promoted, List.foldl_cons, ← promoted, promoted_queue ha]
      rw [List.foldlM_cons, he₁, Go.ok_bind, he, List.map_cons, List.sum_cons, hs, ← Nat.add_assoc]
      rfl
    · obtain hb | ⟨hb, hl⟩ := hq b hb
      · exact Or.inl hb
      · obtain hne | ⟨hab, hl⟩ := hq₁ b hl
        · refine Or.inl ?_
          rwa [promoted, List.foldl_cons, ← promoted, promoted_queue hb]
        · exact Or.inr ⟨List.not_mem_cons_of_ne_of_not_mem hab hb, hl⟩

def accounts (E : PoolEnv) (p : GoMap Address TxList) : List Address :=
  (E.range.list p).map Prod.fst

theorem mem_accounts {p : GoMap Address TxList} : a ∈ accounts E p ↔ p.lookup a ≠ none := by
  rw [accounts, List.mem_map]
  constructor
  · rintro ⟨⟨b, l⟩, hm, rfl⟩
    rw [(E.range.mem_list).mp hm]
    exact Option.some_ne_none l
  · intro h
    obtain ⟨l, hl⟩ := Option.ne_none_iff_exists'.mp h
    exact ⟨(a, l), E.range.mem_list.mpr hl, rfl⟩

theorem accounts_nodup (p : GoMap Address TxList) : (accounts E p).Nodup :=
  E.range.nodup_fst p

theorem Represents.promoteQueue (h : pool.Represents v) (state : Accounts) :
    ∃ pool', TxPool.promoteQueue E pool state =
        .ok (GoMap.total pool'.queue TxList.len, pool') ∧
      pool'.Represents (promoted E state v (accounts E pool.queue)) ∧
      (∀ b, pool'.queue.lookup b ≠ none →
        ((promoted E state v (accounts E pool.queue)).queue b).txs ≠ []) ∧
      ∀ b, ((promoted E state v (accounts E pool.queue)).queue b).txs.length ≤
        maxQueuedPerAccount := by
  have hnil : ∀ b ∉ accounts E pool.queue,
      ((promoted E state v (accounts E pool.queue)).queue b).txs = [] := fun b hb => by
    rw [promoted_queue hb]
    exact h.queue.none b (not_not.mp fun hl => hb (mem_accounts.mpr hl))
  have hn : (accounts E pool.queue).Nodup := accounts_nodup pool.queue
  obtain ⟨pool', he, h', hq⟩ := h.foldlM_promoteAccount (E := E) state hn 0
  refine ⟨pool', ?_, h', fun b hb => ?_, fun b => ?_⟩
  · have ht : GoMap.total pool'.queue TxList.len =
        ∑ a ∈ (accounts E pool.queue).toFinset,
          size (promoted E state v (accounts E pool.queue)).queue a :=
      h'.queue.total_eq fun a ha => hnil a fun hm => ha (List.mem_toFinset.mpr hm)
    rw [List.sum_toFinset _ hn] at ht
    rw [TxPool.promoteQueue, ← accounts, he, ht, Nat.zero_add]
  · obtain hb | ⟨hb, hl⟩ := hq b hb
    · exact hb
    · exact absurd (mem_accounts.mpr hl) hb
  · by_cases hb : b ∈ accounts E pool.queue
    · exact promoted_queue_le hb
    · rw [hnil b hb]
      exact Nat.zero_le _

theorem settles_promoted {sender : Transaction → Address} (hinj : Set.InjOn E.hash T)
    (hv : v.Sound E.hash sender T) (state : Accounts) (as : List Address) :
    PoolView.Settles E.hash T v (promoted E state v as) := by
  induction as generalizing v
  case nil => exact PoolView.Settles.refl hv
  case cons a as hi =>
    have h := hv.promoteAccount hinj state a
    exact h.trans (hi (h.shrinks.sound hinj hv))

end

section

variable {p p' : GoMap Address TxList} {c : Address → TxSeq}

def Within (c : Address → TxSeq) (p : GoMap Address TxList) : Prop :=
  ∃ c', Lists true p c' ∧ ∀ a, ∀ t ∈ (c' a).txs, t ∈ (c a).txs

theorem Within.cutOne (h : Within c p) (he : cutOne p a = .ok p') : Within c p' := by
  obtain ⟨c', hl, hs⟩ := h
  rw [TxPool.cutOne] at he
  cases ha : p.lookup a
  case none =>
    rw [ha] at he
    cases he
  case some l =>
    obtain ⟨hc, hst⟩ := hl.covers a l ha
    rw [ha] at he
    obtain hz | hpos := Nat.eq_zero_or_pos l.len
    · have hneg : (l.len : Int) - 1 < 0 := by omega
      simp only [TxList.cap, hc.stores.cap_of_neg hneg] at he
      cases he
    · obtain ⟨l', he', hc', hst'⟩ := hc.cap_eq (l.len - 1)
      have hi : ((l.len - 1 : Nat) : Int) = l.len - 1 := by omega
      rw [hi] at he'
      simp only [he', Go.ok_bind] at he
      cases he
      refine ⟨_, hl.insert hc' (hst'.trans hst), fun b t ht => ?_⟩
      rw [Function.update_apply] at ht
      split at ht
      case isTrue hb =>
        rw [hb]
        exact hs a t (List.mem_of_mem_take ht)
      case isFalse hb => exact hs b t ht

theorem Within.cutLoop {offenders : List Address} {last : Address} {threshold rounds count count' : Nat}
    (h : Within c p) (he : cutLoop offenders last threshold rounds count p = .ok (count', p')) :
    Within c p' := by
  induction rounds generalizing p count
  case zero =>
    cases he
    exact h
  case succ rounds hi =>
    rw [TxPool.cutLoop] at he
    split at he
    case isTrue _ =>
      obtain ⟨p₁, he₁, he⟩ := Go.bind_eq_ok.mp he
      exact hi (Go.foldlM_keep Within.cutOne h he₁) he
    case isFalse _ =>
      cases he
      exact h

theorem Within.equalize {rest offenders offenders' : List Address} {count count' : Nat}
    (h : Within c p) (he : equalize rest offenders count p = .ok (offenders', count', p')) :
    Within c p' := by
  induction rest generalizing p offenders count
  case nil =>
    cases he
    exact h
  case cons o rest hi =>
    cases offenders
    case nil =>
      rw [TxPool.equalize] at he
      split at he
      case isTrue _ => exact hi h he
      case isFalse _ =>
        cases he
        exact h
    case cons last offenders =>
      rw [TxPool.equalize] at he
      split at he
      case isTrue _ =>
        obtain ⟨⟨count₁, p₁⟩, he₁, he⟩ := Go.bind_eq_ok.mp he
        exact hi (h.cutLoop he₁) he
      case isFalse _ =>
        cases he
        exact h

variable {isLocal : Transaction → Bool}

theorem Within.limitPending (h : Within c p)
    (he : limitPending E isLocal p = .ok p') : Within c p' := by
  rw [TxPool.limitPending] at he
  split at he
  case isTrue _ =>
    obtain ⟨⟨offenders, count, p₁⟩, he₁, he⟩ := Go.bind_eq_ok.mp he
    have h₁ := h.equalize he₁
    dsimp only at he
    split at he
    case h_1 =>
      cases he
      exact h₁
    case h_2 =>
      obtain ⟨⟨count₂, p₂⟩, he₂, he⟩ := Go.bind_eq_ok.mp he
      cases he
      exact h₁.cutLoop he₂
  case isFalse _ =>
    cases he
    exact h

theorem limitPending_of_le
    (h : GoMap.total p TxList.len ≤ maxPendingTotal) : limitPending E isLocal p = .ok p := by
  rw [limitPending, if_neg (by omega)]

end

theorem Represents.removeTxs_queued (hinj : Set.InjOn E.hash T) (h : pool.Represents v)
    (hv : v.Sound E.hash (senderOf E) T) (hs : ∀ t ∈ txs, t ∈ (v.queue a).txs) (hn : txs.Nodup) :
    (pool.removeTxs E txs).Represents (v.dropQueued E.hash a txs) := by
  induction txs generalizing pool v
  case nil =>
    rw [PoolView.dropQueued_nil]
    exact h
  case cons tx txs hi =>
    obtain ⟨ht, hs⟩ := List.forall_mem_cons.mp hs
    obtain ⟨hnt, hn⟩ := List.nodup_cons.mp hn
    obtain ⟨_, -, h₁⟩ := h.removeTx (E := E) (hv.indexed (Or.inr ht))
    rw [PoolView.removeTx_of_queued hv ht] at h₁
    have hone : ∀ t ∈ [tx], t ∈ (v.queue a).txs := fun t h => List.mem_singleton.mp h ▸ ht
    have h' := hi h₁ ((hv.dropQueued hone).shrinks.sound hinj hv)
      (fun t hm => (PoolView.mem_dropQueued hone).mpr ⟨hs t hm, fun he => hnt ?_⟩) hn
    · rwa [PoolView.dropQueued_dropQueued] at h'
    · rwa [← List.mem_singleton.mp he]

theorem Represents.flatten (h : pool.Represents v) {l : TxList} (hl : pool.queue.lookup a = some l) :
    l.len = (v.queue a).txs.length ∧ ∃ l', l.flatten E.txRange = ((v.queue a).txs, l') ∧
      l'.len = l.len ∧ { pool with queue := pool.queue.insert a l' }.Represents v := by
  obtain ⟨hc, hst⟩ := h.queue.covers a l hl
  obtain ⟨l', hf, hc', hst'⟩ := hc.flatten_eq E.txRange
  exact ⟨hc.len_eq, l', hf, hc'.len_eq.trans hc.len_eq.symm,
    { h with queue := h.queue.insert_self hc' (hst'.trans hst) }⟩

theorem dropQueued_queue_of_ne {b : Address} {hash : Transaction → Hash} (hb : b ≠ a) :
    (v.dropQueued hash a txs).queue b = v.queue b :=
  Function.update_of_ne hb ..

theorem dropQueued_length_le {hash : Transaction → Hash} (b : Address) :
    ((v.dropQueued hash a txs).queue b).txs.length ≤ (v.queue b).txs.length := by
  by_cases hb : b = a
  · have hq : (v.dropQueued hash a txs).queue a =
      (v.queue a).keep (accountNonce · ∉ txs.map accountNonce) := Function.update_self ..
    rw [hb, hq]
    exact List.length_filter_le ..
  · rw [dropQueued_queue_of_ne hb]

theorem size_dropQueued (hash : Transaction → Hash) (hs : ∀ t ∈ txs, t ∈ (v.queue a).txs)
    (hn : txs.Nodup) :
    size (v.dropQueued hash a txs).queue a + txs.length = size v.queue a := by
  rw [size, ← List.length_append]
  apply List.Perm.length_eq
  refine (List.perm_ext_iff_of_nodup ?_ (v.queue a).sorted.nodup).mpr fun t => ?_
  · refine List.Nodup.append (TxSeq.sorted _).nodup hn fun t ht => ?_
    exact ((PoolView.mem_dropQueued hs).mp ht).2
  · rw [List.mem_append, PoolView.mem_dropQueued hs]
    tauto

theorem Represents.total_dropQueued {hash : Transaction → Hash} (h : pool.Represents v)
    (h' : pool'.Represents (v.dropQueued hash a txs)) (hs : ∀ t ∈ txs, t ∈ (v.queue a).txs)
    (hn : txs.Nodup) :
    GoMap.total pool'.queue TxList.len + txs.length = GoMap.total pool.queue TxList.len := by
  have hq := fun b => @dropQueued_queue_of_ne v a txs b hash
  have hnil : ∀ b ∉ insert a pool.queue.keys.toFinset, (v.queue b).txs = [] := fun b hb => by
    rw [Finset.mem_insert, List.mem_toFinset, not_or] at hb
    exact h.queue.none b (GoMap.lookup_of_notMem_keys hb.2)
  have hnil' : ∀ b ∉ insert a pool.queue.keys.toFinset,
      ((v.dropQueued hash a txs).queue b).txs = [] := fun b hb => by
    rw [hq b fun he => hb (he ▸ Finset.mem_insert_self ..)]
    exact hnil b hb
  have ha := Finset.mem_insert_self a pool.queue.keys.toFinset
  have hsum : ∑ b ∈ (insert a pool.queue.keys.toFinset).erase a,
      size (v.dropQueued hash a txs).queue b =
      ∑ b ∈ (insert a pool.queue.keys.toFinset).erase a, size v.queue b :=
    Finset.sum_congr rfl fun b hb => by rw [size, hq b (Finset.ne_of_mem_erase hb), size]
  rw [h.queue.total_eq hnil, h'.queue.total_eq hnil', ← Finset.add_sum_erase _ _ ha,
    ← Finset.add_sum_erase _ _ ha, ← size_dropQueued hash hs hn]
  omega

-- The counter and the pool whenever the loop tests its condition.
def dropHeads (E : PoolEnv) : Nat → List Address → TxPool → List (Nat × TxPool)
  | 0, _, pool                       => [(0, pool)]
  | drop + 1, [], pool               => [(drop + 1, pool)]
  | drop + 1, addr :: addresses, pool =>
    (drop + 1, pool) ::
      match pool.queue.lookup addr with
      | none      => []
      | some list =>
        let (txs, flat) := list.flatten E.txRange
        let pool := { pool with queue := pool.queue.insert addr flat }
        if list.len ≤ drop + 1 then
          dropHeads E (drop + 1 - list.len) addresses (pool.removeTxs E txs)
        else
          [(0, pool.removeTxs E (txs.reverse.take (drop + 1)))]

theorem Represents.dropLoop (hinj : Set.InjOn E.hash T) {as : List Address} {drop : Nat}
    (h : pool.Represents v) (hv : v.Sound E.hash (senderOf E) T)
    (hne : ∀ b ∈ as, (v.queue b).txs ≠ []) (hn : as.Nodup)
    (hall : ∀ b, (v.queue b).txs ≠ [] → b ∈ as)
    (ht : GoMap.total pool.queue TxList.len = maxQueuedInTotal + drop) :
    ∃ pool' v', TxPool.dropLoop E drop as pool = .ok pool' ∧ pool'.Represents v' ∧
      PoolView.Settles E.hash T v v' ∧ v'.pending = v.pending ∧ v'.nonces = v.nonces ∧
      (∀ b, (v'.queue b).txs.length ≤ (v.queue b).txs.length) ∧
      GoMap.total pool'.queue TxList.len = maxQueuedInTotal ∧
      ∀ e ∈ dropHeads E drop as pool,
        GoMap.total e.snd.queue TxList.len = maxQueuedInTotal + e.fst := by
  induction as generalizing drop pool v
  case nil =>
    have hz : GoMap.total pool.queue TxList.len = 0 := by
      rw [h.queue.total_eq (S := ∅) fun b _ => not_not.mp fun hb => absurd (hall b hb) List.not_mem_nil]
      rfl
    rw [maxQueuedInTotal] at ht
    omega
  case cons addr as hi =>
    cases drop
    case zero =>
      refine ⟨pool, v, rfl, h, PoolView.Settles.refl hv, rfl, rfl, fun _ => le_refl _, ht, ?_⟩
      intro e he
      rw [dropHeads, List.mem_singleton] at he
      rw [he]
      exact ht
    case succ drop =>
      obtain ⟨hadr, hn⟩ := List.nodup_cons.mp hn
      obtain ⟨l, hl⟩ := Option.ne_none_iff_exists'.mp
        (h.queue.mem_keys (hne addr (List.mem_cons_self ..)))
      obtain ⟨hlen, l', hf, hlen', h₁⟩ := h.flatten (E := E) hl
      have ht₁ : GoMap.total (pool.queue.insert addr l') TxList.len = maxQueuedInTotal + (drop + 1) := by
        rw [← ht]
        exact GoMap.total_insert_of_lookup hl hlen'
      have hhead : ∀ {es : List (Nat × TxPool)},
          (∀ e ∈ es, GoMap.total e.snd.queue TxList.len = maxQueuedInTotal + e.fst) →
          ∀ e ∈ (drop + 1, pool) :: es,
            GoMap.total e.snd.queue TxList.len = maxQueuedInTotal + e.fst :=
        fun hes => List.forall_mem_cons.mpr ⟨ht, hes⟩
      rw [TxPool.dropLoop, dropHeads, hl]
      simp only [hf]
      split
      case isTrue hle =>
        rw [hlen] at hle
        have h₂ := h₁.removeTxs_queued hinj hv (fun _ ht => ht) (v.queue addr).sorted.nodup
        have ht₂ := h₁.total_dropQueued h₂ (fun _ ht => ht) (v.queue addr).sorted.nodup
        have hs : PoolView.Settles E.hash T v (v.dropQueued E.hash addr (v.queue addr).txs) :=
          hv.dropQueued fun _ ht => ht
        have hq := fun b => @dropQueued_queue_of_ne v addr (v.queue addr).txs b E.hash
        have hz : ((v.dropQueued E.hash addr (v.queue addr).txs).queue addr).txs = [] := by
          have := size_dropQueued E.hash (v := v) (a := addr) (fun _ ht => ht)
            (v.queue addr).sorted.nodup
          rw [size, size] at this
          exact List.length_eq_zero_iff.mp (by omega)
        obtain ⟨pool', v', he, h', hset, hp, hno, hle', htot, hheads⟩ :=
          @hi _ _ (drop + 1 - (v.queue addr).txs.length) h₂ (hs.shrinks.sound hinj hv)
            (fun b hb => by
              rw [hq b fun he => hadr (he ▸ hb)]
              exact hne b (List.mem_cons_of_mem _ hb)) hn
            (fun b hb => by
              have hba : b ≠ addr := fun he => hb (he ▸ hz)
              rw [hq b hba] at hb
              exact (List.mem_cons.mp (hall b hb)).resolve_left hba)
            (by dsimp only at ht₂; omega)
        rw [hlen]
        exact ⟨pool', v', he, h', hs.trans hset, hp, hno,
          fun b => (hle' b).trans (dropQueued_length_le b), htot, hhead hheads⟩
      case isFalse hgt =>
        rw [hlen] at hgt
        have hs : ∀ t ∈ (v.queue addr).txs.reverse.take (drop + 1), t ∈ (v.queue addr).txs :=
          fun t ht => List.mem_reverse.mp (List.mem_of_mem_take ht)
        have hnd : ((v.queue addr).txs.reverse.take (drop + 1)).Nodup :=
          (List.nodup_reverse.mpr (v.queue addr).sorted.nodup).sublist (List.take_sublist _ _)
        have h₂ := h₁.removeTxs_queued hinj hv hs hnd
        have ht₂ := h₁.total_dropQueued h₂ hs hnd
        have hlen : ((v.queue addr).txs.reverse.take (drop + 1)).length = drop + 1 := by
          rw [List.length_take, List.length_reverse]
          omega
        have htot : GoMap.total ({ pool with queue := pool.queue.insert addr l' }.removeTxs E
            ((v.queue addr).txs.reverse.take (drop + 1))).queue TxList.len = maxQueuedInTotal := by
          dsimp only at ht₂
          omega
        exact ⟨_, _, rfl, h₂, hv.dropQueued hs, rfl, rfl, dropQueued_length_le, htot,
          hhead (List.forall_mem_singleton.mpr htot)⟩

def dropOrder (E : PoolEnv) (pool : TxPool) : List Address :=
  (E.sorting.list (fun addr => (pool.beats.lookup addr).getD 0) (accounts E pool.queue)).reverse

theorem Represents.limitQueue (hinj : Set.InjOn E.hash T) (h : pool.Represents v)
    (hv : v.Sound E.hash (senderOf E) T)
    (hne : ∀ b, pool.queue.lookup b ≠ none → (v.queue b).txs ≠ []) :
    ∃ pool' v', TxPool.limitQueue E (GoMap.total pool.queue TxList.len) pool = .ok pool' ∧
      pool'.Represents v' ∧ PoolView.Settles E.hash T v v' ∧ v'.pending = v.pending ∧
      v'.nonces = v.nonces ∧ (∀ b, (v'.queue b).txs.length ≤ (v.queue b).txs.length) ∧
      GoMap.total pool'.queue TxList.len ≤ maxQueuedInTotal ∧
      (GoMap.total pool.queue TxList.len > maxQueuedInTotal →
        ∀ e ∈ dropHeads E (GoMap.total pool.queue TxList.len - maxQueuedInTotal)
          (dropOrder E pool) pool,
            GoMap.total e.snd.queue TxList.len = maxQueuedInTotal + e.fst) := by
  have hperm : (dropOrder E pool).Perm (accounts E pool.queue) :=
    (List.reverse_perm _).trans (E.sorting.perm _ _)
  have he : TxPool.limitQueue E (GoMap.total pool.queue TxList.len) pool =
    TxPool.dropLoop E (GoMap.total pool.queue TxList.len - maxQueuedInTotal) (dropOrder E pool) pool :=
      rfl
  obtain hgt | hle := Nat.lt_or_ge maxQueuedInTotal (GoMap.total pool.queue TxList.len)
  · obtain ⟨pool', v', he', h', hs, hp, hno, hlen, htot, hheads⟩ := @Represents.dropLoop E T pool v hinj
      (dropOrder E pool) (GoMap.total pool.queue TxList.len - maxQueuedInTotal) h hv
      (fun b hb => hne b (mem_accounts.mp (hperm.mem_iff.mp hb)))
      (hperm.nodup_iff.mpr (accounts_nodup _))
      (fun b hb => hperm.mem_iff.mpr (mem_accounts.mpr (h.queue.mem_keys hb))) (by omega)
    exact ⟨pool', v', he.trans he', h', hs, hp, hno, hlen, le_of_eq htot, fun _ => hheads⟩
  · refine ⟨pool, v, ?_, h, PoolView.Settles.refl hv, rfl, rfl, fun _ => le_refl _, hle, fun hgt => ?_⟩
    · rw [he, Nat.sub_eq_zero_of_le hle, TxPool.dropLoop]
    · exact absurd hgt (not_lt.mpr hle)

def Few (v : PoolView) : Prop :=
  ∃ txs : List Transaction, txs.length ≤ maxPendingTotal ∧ ∀ a t, v.Listed a t → t ∈ txs

theorem Few.mono {hash : Transaction → Hash} (h : Few v) (hs : PoolView.Shrinks hash T v v') :
    Few v' := by
  obtain ⟨txs, hl, hm⟩ := h
  exact ⟨txs, hl, fun a t ht => hm a t (hs.listed ht)⟩

theorem Few.total_le {hash : Transaction → Hash} {sender : Transaction → Address} (h : Few v)
    (hr : pool.Represents v) (hv : v.Sound hash sender T) :
    GoMap.total pool.pending TxList.len ≤ maxPendingTotal := by
  obtain ⟨txs, hl, hm⟩ := h
  exact (hr.pending.total_le (fun a t ht => (hv.owned (Or.inl ht)).2)
    fun a t ht => hm a t (Or.inl ht)).trans hl

structure Promotes (E : PoolEnv) (T : Set Transaction) (state : Accounts) (pool : TxPool)
    (v : PoolView) (pool' : TxPool) (v' : PoolView) : Prop where
  represents : pool'.Represents v'
  shrinks    : PoolView.Shrinks E.hash T v v'
  nonces     : v'.nonces = (promoted E state v (accounts E pool.queue)).nonces
  few        : Few v → PoolView.Settles E.hash T v v' ∧
    v'.pending = (promoted E state v (accounts E pool.queue)).pending
  each       : ∀ b, (v'.queue b).txs.length ≤ maxQueuedPerAccount
  total      : GoMap.total pool'.queue TxList.len ≤ maxQueuedInTotal

-- The loop that enforces the total: its count and its counter are right, and the addresses suffice.
def Counts (E : PoolEnv) (pool : TxPool) (state : Accounts) : Prop :=
  ∀ queued pool₁ pending, TxPool.promoteQueue E pool state = .ok (queued, pool₁) →
    TxPool.limitPending E (pool₁.isLocal E) pool₁.pending = .ok pending →
      queued = GoMap.total pool₁.queue TxList.len ∧
      (queued > maxQueuedInTotal →
        ∀ e ∈ dropHeads E (queued - maxQueuedInTotal) (dropOrder E { pool₁ with pending := pending })
          { pool₁ with pending := pending },
            GoMap.total e.snd.queue TxList.len = maxQueuedInTotal + e.fst) ∧
      ∃ pool', TxPool.limitQueue E queued { pool₁ with pending := pending } = .ok pool'

theorem Represents.limits (hinj : Set.InjOn E.hash T) (h : pool.Represents v)
    (hv : v.Sound E.hash (senderOf E) T) (state : Accounts) :
    Counts E pool state ∧ ∀ pool', TxPool.promoteExecutables E pool state = .ok pool' →
      ∃ v', Promotes E T state pool v pool' v' := by
  obtain ⟨pool₁, he₁, h₁, hne, hlen⟩ := h.promoteQueue (E := E) state
  have hs₁ := settles_promoted hinj hv state (accounts E pool.queue)
  have hv₁ := hs₁.shrinks.sound hinj hv
  have hlimit : ∀ pending, TxPool.limitPending E (pool₁.isLocal E) pool₁.pending = .ok pending →
      ∃ c, { pool₁ with pending := pending }.Represents
          { promoted E state v (accounts E pool.queue) with pending := c } ∧
        (∀ a, ∀ t ∈ (c a).txs,
          t ∈ ((promoted E state v (accounts E pool.queue)).pending a).txs) ∧
        (Few v → c = (promoted E state v (accounts E pool.queue)).pending) := by
    intro pending he
    by_cases hle : GoMap.total pool₁.pending TxList.len ≤ maxPendingTotal
    · cases (limitPending_of_le hle).symm.trans he
      exact ⟨_, h₁, fun _ _ h => h, fun _ => rfl⟩
    have hw : Within (promoted E state v (accounts E pool.queue)).pending pool₁.pending :=
      ⟨_, h₁.pending, fun _ _ h => h⟩
    obtain ⟨c, hl, hc⟩ := hw.limitPending he
    exact ⟨c, { h₁ with pending := hl }, hc,
      fun hf => absurd ((hf.mono hs₁.shrinks).total_le h₁ hv₁) hle⟩
  constructor
  · intro queued p pending hp he
    cases he₁.symm.trans hp
    obtain ⟨c, h₂, hc, -⟩ := hlimit pending he
    have hv₂ := (hv₁.fewer hc (promoted E state v (accounts E pool.queue)).nonces).sound hinj hv₁
    obtain ⟨pool', v', he', -, -, -, -, -, -, hheads⟩ := h₂.limitQueue hinj hv₂ hne
    exact ⟨rfl, hheads, pool', he'⟩
  · intro pool' he
    rw [TxPool.promoteExecutables, he₁, Go.ok_bind, Go.bind_eq_ok] at he
    obtain ⟨pending, he, he'⟩ := he
    obtain ⟨c, h₂, hc, hfew⟩ := hlimit pending he
    have hs₂ := hv₁.fewer hc (promoted E state v (accounts E pool.queue)).nonces
    obtain ⟨pool₃, v', he₃, h₃, hs₃, hp₃, hn₃, hl₃, ht₃, -⟩ :=
      h₂.limitQueue hinj (hs₂.sound hinj hv₁) hne
    obtain rfl : pool₃ = pool' := Except.ok.inj (he₃.symm.trans he')
    refine ⟨v', h₃, ?_, hn₃, ?_, fun b => (hl₃ b).trans (hlen b), ht₃⟩
    · exact hs₁.shrinks.trans (PoolView.Shrinks.trans ⟨_, hs₂⟩ hs₃.shrinks)
    · intro hf
      have hceq := hfew hf
      subst hceq
      exact ⟨hs₁.trans hs₃, hp₃⟩

theorem executable_congr (hp : v'.pending a = v.pending a) :
    v'.executable state a = v.executable state a := by
  rw [PoolView.executable, hp, PoolView.executable]

theorem Represents.foldlM_demoteAccount (hinj : Set.InjOn E.hash T) (h : pool.Represents v)
    (hv : v.Sound E.hash (senderOf E) T) (state : Accounts) {as : List Address} (hn : as.Nodup) :
    ∃ pool' v', as.foldlM (TxPool.demoteAccount E state) pool = .ok pool' ∧ pool'.Represents v' ∧
      PoolView.Settles E.hash T v v' ∧ v'.nonces = v.nonces ∧
      (∀ a ∈ as, v'.pending a = v.executable state a) ∧ ∀ a ∉ as, v'.pending a = v.pending a := by
  induction as generalizing pool v
  case nil =>
    exact ⟨pool, v, rfl, h, PoolView.Settles.refl hv, rfl, fun _ h => absurd h List.not_mem_nil,
      fun _ _ => rfl⟩
  case cons b as hi =>
    obtain ⟨hb, hn⟩ := List.nodup_cons.mp hn
    obtain ⟨invalids, pool₁, hp, he₁, h₁⟩ := h.demoteAccount (E := E) state b
    have hs₁ := hv.demoteAccount hinj hp
    obtain ⟨-, hn₁, -, -⟩ := hv.demoteAccount_eq hinj hp
    obtain ⟨pool', v', he, h', hs, hno, hin, hout⟩ := hi h₁ (hs₁.shrinks.sound hinj hv) hn
    have hself : (v.demoteAccount E.hash (senderOf E) state b invalids).pending b =
      v.executable state b := Function.update_self ..
    have hother : ∀ a ≠ b, (v.demoteAccount E.hash (senderOf E) state b invalids).pending a =
      v.pending a := fun a ha => Function.update_of_ne ha ..
    refine ⟨pool', v', ?_, h', hs₁.trans hs, hno.trans hn₁, fun a ha => ?_, fun a ha => ?_⟩
    · rw [List.foldlM_cons, he₁, Go.ok_bind, he]
    · by_cases hab : a = b
      · rw [hab, hout b hb, hself]
      · rw [hin a ((List.mem_cons.mp ha).resolve_left hab), executable_congr (hother a hab)]
    · rw [List.mem_cons, not_or] at ha
      rw [hout a ha.2, hother a ha.1]

theorem Represents.demoteUnexecutables (hinj : Set.InjOn E.hash T) (h : pool.Represents v)
    (hv : v.Sound E.hash (senderOf E) T) (state : Accounts) :
    ∃ pool' v', TxPool.demoteUnexecutables E pool state = .ok pool' ∧ pool'.Represents v' ∧
      PoolView.Settles E.hash T v v' ∧ v'.nonces = v.nonces ∧
      ∀ a, v'.pending a = v.executable state a := by
  obtain ⟨pool', v', he, h', hs, hno, hin, hout⟩ := h.foldlM_demoteAccount hinj hv state
    (accounts_nodup pool.pending)
  refine ⟨pool', v', he, h', hs, hno, fun a => ?_⟩
  by_cases ha : a ∈ accounts E pool.pending
  · exact hin a ha
  · have hnil : v.pending a = TxSeq.nil :=
      TxSeq.ext (h.pending.none a (not_not.mp fun hl => ha (mem_accounts.mpr hl)))
    rw [hout a ha, PoolView.executable, hnil]
    rfl

def nextNonce (s : TxSeq) (n : UInt64) : UInt64 :=
  s.txs.getLast?.elim n (·.accountNonce + 1)

theorem updateNonce_eq : v.updateNonce a =
    { v with nonces := Function.update v.nonces a (nextNonce (v.pending a) (v.nonces a)) } := by
  rw [PoolView.updateNonce]
  split
  case h_1 he    =>
    rw [nextNonce, he, Option.elim_none, Function.update_eq_self]
  case h_2 tx he => rw [nextNonce, he, Option.elim_some]

theorem Represents.foldlM_updateNonce {as : List Address} (hn : as.Nodup) (h : pool.Represents v)
    (he : as.foldlM (TxPool.updateNonce E) pool = .ok pool') :
    pool'.Represents { v with
      nonces := fun a => if a ∈ as then nextNonce (v.pending a) (v.nonces a) else v.nonces a } := by
  induction as generalizing pool v
  case nil =>
    cases he
    exact h
  case cons b as hi =>
    obtain ⟨hb, hn⟩ := List.nodup_cons.mp hn
    rw [List.foldlM_cons, Go.bind_eq_ok] at he
    obtain ⟨pool₁, he₁, he⟩ := he
    have h₁ := h.updateNonce he₁
    rw [updateNonce_eq] at h₁
    have h' := hi hn h₁ he
    convert h' using 2
    funext a
    by_cases hab : a = b
    · subst hab
      simp [hb]
    · simp [hab]

theorem Represents.updateNonces (h : pool.Represents v)
    (he : (accounts E pool.pending).foldlM (TxPool.updateNonce E) pool = .ok pool') :
    pool'.Represents { v with nonces := fun a => nextNonce (v.pending a) (v.nonces a) } := by
  have h' := h.foldlM_updateNonce (accounts_nodup _) he
  convert h' using 2
  funext a
  by_cases ha : a ∈ accounts E pool.pending
  · rw [if_pos ha]
  · rw [if_neg ha, nextNonce, h.pending.none a (not_not.mp fun hl => ha (mem_accounts.mpr hl))]
    rfl

structure Resets (E : PoolEnv) (T : Set Transaction) (state : Accounts) (v v' : PoolView) : Prop where
  settles : PoolView.Settles E.hash T v v'
  pending : ∀ a, v'.pending a = v.executable state a
  nonces  : ∀ a, v'.nonces a = nextNonce (v'.pending a) (state.nonce a)

def rebase (E : PoolEnv) (pool : TxPool) (state : Accounts) : Calls TxPool := do
  let pool ← TxPool.demoteUnexecutables E { pool with pendingState := state.nonce } state
  (accounts E pool.pending).foldlM (TxPool.updateNonce E) pool

theorem resetState_eq (hc : E.current = some state) :
    resetState E pool = rebase E pool state >>= (promoteExecutables E · state) := by
  rw [resetState, hc]
  exact (bind_assoc ..).symm

theorem Represents.rebase (hinj : Set.InjOn E.hash T) (h : pool.Represents v)
    (hv : v.Sound E.hash (senderOf E) T) (he : TxPool.rebase E pool state = .ok pool') :
    ∃ v', pool'.Represents v' ∧ Resets E T state v v' := by
  have h₀ : { pool with pendingState := state.nonce }.Represents { v with nonces := state.nonce } :=
    { h with nonces := rfl }
  have hs₀ : PoolView.Settles E.hash T v { v with nonces := state.nonce } :=
    ⟨∅, hv.fewer (fun _ _ h => h) _, fun _ _ h _ => h⟩
  obtain ⟨pool₁, v₁, he₁, h₁, hs₁, hn₁, hp₁⟩ := h₀.demoteUnexecutables hinj
    (hs₀.shrinks.sound hinj hv) state
  rw [TxPool.rebase, he₁] at he
  have hv₁ := (hs₀.trans hs₁).shrinks.sound hinj hv
  refine ⟨_, h₁.updateNonces he, (hs₀.trans hs₁).trans ?_, hp₁, fun a => ?_⟩
  · exact ⟨∅, hv₁.fewer (fun _ _ h => h) _, fun _ _ h _ => h⟩
  · rw [hn₁]

theorem Represents.expire (hinj : Set.InjOn E.hash T) (h : pool.Represents v)
    (hv : v.Sound E.hash (senderOf E) T) :
    ∃ v', (pool.expire E).Represents v' ∧ PoolView.Settles E.hash T v v' ∧
      v'.pending = v.pending ∧ v'.nonces = v.nonces := by
  rw [TxPool.expire, ← accounts]
  generalize accounts E pool.queue = as
  induction as generalizing pool v
  case nil => exact ⟨v, h, PoolView.Settles.refl hv, rfl, rfl⟩
  case cons a as hi =>
    rw [List.foldl_cons]
    split
    case isTrue _ =>
      split
      case h_1 hl   => exact hi h hv
      case h_2 l hl =>
        obtain ⟨-, l', hf, -, h₁⟩ := h.flatten (E := E) hl
        have h₂ := h₁.removeTxs_queued hinj hv (fun _ ht => ht) (v.queue a).sorted.nodup
        have hs : PoolView.Settles E.hash T v (v.dropQueued E.hash a (v.queue a).txs) :=
          hv.dropQueued fun _ ht => ht
        simp only [hf]
        obtain ⟨v', h', hs', hp, hn⟩ := hi h₂ (hs.shrinks.sound hinj hv)
        exact ⟨v', h', hs.trans hs', hp, hn⟩
    case isFalse _ => exact hi h hv

end TxPool

end Core
