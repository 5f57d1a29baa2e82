import GoEthereum.Core.PoolRun
import GoEthereum.Core.TxLimit

-- The limits of the queue.

namespace Core

open Common
open Transaction (accountNonce)

namespace TxPool

variable {hash : Transaction → Hash} {sender : Transaction → Option Address}
  {calls : List (PoolEnv × PoolCall)} {E : PoolEnv} {pool pool' : TxPool} {c : PoolCall}
  {state : Accounts} {v v' : PoolView} {a : Address}

def Limited (pool : TxPool) : Prop :=
  (∀ a, lenAt pool.queue a ≤ maxQueuedPerAccount) ∧
  GoMap.total pool.queue TxList.len ≤ maxQueuedInTotal

theorem Lists.lenAt_eq {strict : Bool} {p : GoMap Address TxList} {s : Address → TxSeq}
    (h : Lists strict p s) (a : Address) : lenAt p a = (s a).txs.length := by
  cases hl : p.lookup a
  case none   => rw [lenAt, hl, h.none a hl]; rfl
  case some l => rw [lenAt, hl, Option.elim_some, (h.covers a l hl).1.len_eq]

structure Sustained (state : Accounts) (v : PoolView) (a : Address) : Prop where
  current : ∀ t ∈ (v.queue a).txs, state.nonce a ≤ t.accountNonce
  payable : ∀ t ∈ (v.queue a).txs, t.cost ≤ state.balance a
  length  : (v.queue a).txs.length ≤ maxQueuedPerAccount

theorem Sustained.ripe_eq (h : Sustained state v a) : v.ripe state a = v.queue a := by
  have hcurrent : (v.queue a).current (state.nonce a) = v.queue a := by
    apply TxSeq.ext
    rw [TxSeq.current, TxSeq.keep_txs, List.filter_eq_self]
    exact fun t ht => decide_eq_true (h.current t ht)
  rw [PoolView.ripe, hcurrent]
  apply TxSeq.ext
  rw [TxList.payable, TxSeq.keep_txs, List.filter_eq_self]
  exact fun t ht => decide_eq_true (h.payable t ht)

theorem Sustained.promoteAccount_eq (h : Sustained state v a) {n : Nat}
    (hn : (v.queue a).readyLength (v.nonces a) = n) :
    v.promoteAccount hash state a =
      { ((v.queue a).txs.take n).foldl (PoolView.promoteTx hash · a) v with
        queue := Function.update v.queue a ((v.queue a).drop n) } := by
  have hgone : ∀ t, t ∉ (v.queue a).outdated (state.nonce a) ∧
      t ∉ TxList.unpayable ((v.queue a).current (state.nonce a)) (state.balance a) := by
    intro t
    by_cases ht : t ∈ (v.queue a).txs
    · rw [← h.ripe_eq] at ht
      exact (PoolView.mem_ripe.mp ht).2
    · refine ⟨fun hm => ht (TxSeq.mem_outdated.mp hm).1, fun hm => ht ?_⟩
      exact (TxSeq.mem_current.mp (TxList.mem_unpayable.mp hm).1).1
  have hlen : ((v.queue a).drop n).txs.length ≤ maxQueuedPerAccount := by
    rw [TxSeq.drop, List.length_drop]
    exact (Nat.sub_le _ _).trans h.length
  have htake : ((v.queue a).drop n).take maxQueuedPerAccount = (v.queue a).drop n :=
    TxSeq.ext (List.take_of_length_le hlen)
  rw [PoolView.promoteAccount, PoolView.ready, PoolView.unready, h.ripe_eq, hn, htake,
    List.drop_eq_nil_of_le hlen, List.eq_nil_iff_forall_not_mem.mpr fun t => (hgone t).1,
    List.eq_nil_iff_forall_not_mem.mpr fun t => (hgone t).2]
  rfl

structure Quiet (state : Accounts) (v : PoolView) (a : Address) : Prop
    extends Sustained state v a where
  gap : ∀ t ∈ (v.queue a).txs, v.nonces a < t.accountNonce

theorem Quiet.promoteAccount_eq (h : Quiet state v a) : v.promoteAccount hash state a = v := by
  have hlen : (v.queue a).readyLength (v.nonces a) = 0 := by
    rw [TxSeq.readyLength]
    split
    case h_1 => rfl
    case h_2 tx txs he =>
      have := h.gap tx (he ▸ List.mem_cons_self ..)
      rw [if_pos this]
  have hdrop : (v.queue a).drop 0 = v.queue a := TxSeq.ext (List.drop_zero ..)
  rw [h.toSustained.promoteAccount_eq hlen, hdrop, Function.update_eq_self]
  rfl

theorem Quiet.promoteAccount {b : Address} (h : Quiet state v b) (hb : b ≠ a) :
    Quiet state (v.promoteAccount hash state a) b := by
  have hq : (v.promoteAccount hash state a).queue b = v.queue b := Function.update_of_ne hb ..
  have hn : (v.promoteAccount hash state a).nonces b = v.nonces b := (PoolView.foldl_promoteTx_of_ne hb _).right
  refine ⟨⟨?_, ?_, ?_⟩, ?_⟩
  all_goals rw [hq]
  · exact h.current
  · exact h.payable
  · exact h.length
  · rw [hn]
    exact h.gap

theorem promoted_of_quiet {as : List Address} (hn : as.Nodup) (ha : a ∈ as)
    (hq : ∀ b ≠ a, Quiet state v b) :
    promoted E state v as = v.promoteAccount E.hash state a := by
  have hall : ∀ {v : PoolView} {bs : List Address}, a ∉ bs → (∀ b ≠ a, Quiet state v b) →
      promoted E state v bs = v := by
    intro v bs hm hq
    induction bs
    case nil => rfl
    case cons b bs hi =>
      rw [List.mem_cons, not_or] at hm
      rw [promoted, List.foldl_cons, (hq b (Ne.symm hm.1)).promoteAccount_eq]
      exact hi hm.2
  induction as
  case nil => cases ha
  case cons b bs hi =>
    obtain ⟨hb, hn⟩ := List.nodup_cons.mp hn
    rw [promoted, List.foldl_cons]
    by_cases hab : b = a
    · subst hab
      exact hall hb fun b' hb' => (hq b' hb').promoteAccount hb'
    · rw [(hq b hab).promoteAccount_eq]
      exact hi hn ((List.mem_cons.mp ha).resolve_left (Ne.symm hab))

open TxSortedMap (noncedTx)

-- Addresses with equal keys stand in the order of their ranks.
def ranking (rank : Address → Nat) (key : Address → Int) (x y : Address) : Prop :=
  key x < key y ∨ key x = key y ∧ rank x ≤ rank y

instance decidableRanking (rank : Address → Nat) (key : Address → Int) :
    DecidableRel (ranking rank key) :=
  fun x y => inferInstanceAs (Decidable (key x < key y ∨ key x = key y ∧ rank x ≤ rank y))

theorem ranking_sorted (rank : Address → Nat) (key : Address → Int) (l : List Address) :
    (l.insertionSort (ranking rank key)).Pairwise (ranking rank key) := by
  have : Std.Total (ranking rank key) := ⟨fun x y => by
    unfold ranking
    omega⟩
  have : IsTrans Address (ranking rank key) := ⟨fun x y z => by
    unfold ranking
    omega⟩
  exact List.pairwise_insertionSort (ranking rank key) l

def ranked (rank : Address → Nat) : Sorting where
  list key l   := l.insertionSort (ranking rank key)
  perm key l   := List.perm_insertionSort (ranking rank key) l
  sorted key l := (ranking_sorted rank key l).imp fun h => h.elim le_of_lt fun h => h.1.le

-- Sample transactions: the amount tells the sender, and two amounts belong to each.

def pooledTx (m : Nat) (n : UInt64) : Transaction :=
  { noncedTx n with amount := m }

def pooledHash (tx : Transaction) : Hash :=
  ⟨bigEndian 32 (tx.amount.toNat * 2 ^ 64 + tx.accountNonce.toNat), bigEndian_length _ _⟩

def pooledOwner (m : Nat) : Address :=
  ⟨bigEndian 20 (m / 2), bigEndian_length _ _⟩

def pooledSender (tx : Transaction) : Option Address :=
  some (pooledOwner tx.amount.toNat)

def richState : Accounts where
  nonce _   := 0
  balance _ := 10 ^ 9

def pooledEnv : PoolEnv :=
  { plainEnv (ranked fun a => if a = pooledOwner 0 then 1 else 0) with
    hash     := pooledHash
    sender   := pooledSender
    current  := some richState
    gasLimit := 10 ^ 6 }

variable {m m' : Nat} {txs : List Transaction} {t : Transaction}

theorem pooledHash_inj {n n' : UInt64} (hm : m < 2 ^ 64) (hm' : m' < 2 ^ 64)
    (h : pooledHash (pooledTx m n) = pooledHash (pooledTx m' n')) : m = m' ∧ n = n' := by
  have hb := congrArg (fun a : Hash => ofBigEndian a.val) h
  simp only [pooledHash, ofBigEndian_bigEndian] at hb
  have hn := n.toNat_lt
  have hn' := n'.toNat_lt
  have he : m * 2 ^ 64 + n.toNat = m' * 2 ^ 64 + n'.toNat := by
    rwa [Nat.mod_eq_of_lt, Nat.mod_eq_of_lt] at hb
    · exact lt_of_lt_of_le (by omega : m' * 2 ^ 64 + n'.toNat < 2 ^ 128) (by norm_num)
    · exact lt_of_lt_of_le (by omega : m * 2 ^ 64 + n.toNat < 2 ^ 128) (by norm_num)
  exact ⟨by omega, UInt64.toNat_inj.mp (by omega)⟩

theorem pooledOwner_inj (hm : m < 2 ^ 64) (hm' : m' < 2 ^ 64)
    (h : pooledOwner m = pooledOwner m') : m / 2 = m' / 2 := by
  have hb := congrArg (fun a : Address => ofBigEndian a.val) h
  simp only [pooledOwner, ofBigEndian_bigEndian] at hb
  rwa [Nat.mod_eq_of_lt (by omega), Nat.mod_eq_of_lt (by omega)] at hb

theorem senderOf_pooled (m : Nat) (n : UInt64) :
    senderOf pooledEnv (pooledTx m n) = pooledOwner m :=
  rfl

structure Plain (pool : TxPool) : Prop where
  price     : pool.minGasPrice = 0
  homestead : pool.homestead = false

theorem validateTx_eq_ok {tx : Transaction} (hc : E.current = some state) (hs : E.sender tx = some a)
    (h₁ : ¬ (!pool.isLocal E tx && decide (pool.minGasPrice > tx.price)) = true)
    (h₂ : ¬ state.nonce a > tx.accountNonce) (h₃ : ¬ E.gasLimit < tx.gasLimit)
    (h₄ : ¬ tx.amount < 0) (h₅ : ¬ state.balance a < tx.cost)
    (h₆ : ¬ tx.gasLimit < Core.intrinsicGas tx.payload tx.recipient.isNone pool.homestead) :
    pool.validateTx E tx = .ok () := by
  simp only [TxPool.validateTx, hc, hs]
  rw [if_neg h₁, if_neg h₂, if_neg h₃, if_neg h₄, if_neg h₅, if_neg h₆]
  rfl

theorem Plain.validateTx (h : Plain pool) {m : Nat} (hm : m < 100) (n : UInt64) :
    pool.validateTx pooledEnv (pooledTx m n) = .ok () := by
  apply @validateTx_eq_ok pooledEnv pool richState (pooledOwner m) (pooledTx m n) rfl rfl
  · rw [h.price, Bool.and_eq_true, decide_eq_true_eq, not_and]
    intro _
    show ¬ (0 : Int) > 1
    decide
  · exact UInt64.not_lt_zero
  · show ¬ (10 : Int) ^ 6 < 21000
    decide
  · simp only [pooledTx]
    omega
  · simp only [richState, Transaction.cost, pooledTx, noncedTx]
    omega
  · rw [h.homestead]
    simp [pooledTx, noncedTx, intrinsicGas, txGas]

theorem enqueueTx_settings (E : PoolEnv) (pool : TxPool) (tx : Transaction) :
    (pool.enqueueTx E tx).minGasPrice = pool.minGasPrice ∧
    (pool.enqueueTx E tx).homestead = pool.homestead ∧
    (pool.enqueueTx E tx).beats = pool.beats := by
  rw [enqueueTx]
  split <;> exact ⟨rfl, rfl, rfl⟩

structure Accepts (E : PoolEnv) (pool : TxPool) (v : PoolView) (txs : List Transaction)
    (pool' : TxPool) (v' : PoolView) : Prop where
  represents : pool'.Represents v'
  plain      : Plain pool'
  beats      : pool'.beats = pool.beats
  pending    : v'.pending = v.pending
  nonces     : v'.nonces = v.nonces
  queue      : ∀ a t, t ∈ (v'.queue a).txs ↔ t ∈ (v.queue a).txs ∨ t ∈ txs ∧ senderOf E t = a
  known      : ∀ t ∈ txs, v'.all (E.hash t) = some t
  others     : ∀ x, x ∉ txs.map E.hash → v'.all x = v.all x

theorem Represents.accepts (h : pool.Represents v) (hp : Plain pool)
    (ht : ∀ tx ∈ txs, ∀ pool, Plain pool → pool.validateTx E tx = .ok ())
    (hx : ∀ tx ∈ txs, v.all (E.hash tx) = none) (hn : (txs.map E.hash).Nodup)
    (hr : ∀ tx ∈ txs, (v.queue (senderOf E tx)).rival tx = none)
    (hd : txs.Pairwise fun t t' => senderOf E t = senderOf E t' → t.accountNonce ≠ t'.accountNonce) :
    ∃ v', Accepts E pool v txs (pool.addAll E txs) v' := by
  induction txs generalizing pool v
  case nil => exact ⟨v, h, hp, rfl, rfl, rfl, by simp, by simp, fun _ _ => rfl⟩
  case cons tx txs hi =>
    obtain ⟨ht₁, ht⟩ := List.forall_mem_cons.mp ht
    obtain ⟨hx₁, hx⟩ := List.forall_mem_cons.mp hx
    obtain ⟨hr₁, hr⟩ := List.forall_mem_cons.mp hr
    obtain ⟨hn₁, hn⟩ := List.nodup_cons.mp hn
    obtain ⟨hd₁, hd⟩ := List.pairwise_cons.mp hd
    have hadd : pool.add E tx = .ok (pool.enqueueTx E tx) := by
      refine add_eq_ok.mpr ⟨?_, ht₁ pool hp, rfl⟩
      rw [h.all, hx₁]
    have h₁ := h.enqueueTx (E := E) tx
    rw [PoolView.enqueueTx_eq, if_neg (TxList.not_keepsOut hr₁)] at h₁
    obtain ⟨hprice, hhome, hbeats⟩ := enqueueTx_settings E pool tx
    have hall : (v.enlist E.hash (senderOf E) tx).all = Function.update v.all (E.hash tx) (some tx) :=
      PoolView.enlist_all_of_rival hr₁
    obtain ⟨v', hacc⟩ := hi h₁ ⟨hprice.trans hp.price, hhome.trans hp.homestead⟩ ht
      (fun t hm => by
        have hne : E.hash t ≠ E.hash tx := fun he => hn₁ (he ▸ List.mem_map_of_mem hm)
        rw [hall, Function.update_of_ne hne]
        exact hx t hm) hn
      (fun t hm => by
        rw [TxSeq.rival_eq_none_iff]
        intro q hq
        obtain ⟨hs, rfl⟩ | ⟨hq, -⟩ := PoolView.mem_enlist_queue.mp hq
        · exact hd₁ t hm hs.symm
        · exact TxSeq.rival_eq_none_iff.mp (hr t hm) q hq) hd
    rw [TxPool.addAll, List.foldl_cons, hadd]
    refine ⟨v', { hacc with
      beats  := hacc.beats.trans hbeats
      queue  := fun a t => ?_
      known  := ?_
      others := fun x hx => ?_ }⟩
    · have hfree : t ∈ (v.queue a).txs → a = senderOf E tx → t.accountNonce ≠ tx.accountNonce := by
        rintro hq rfl
        exact TxSeq.rival_eq_none_iff.mp hr₁ t hq
      rw [hacc.queue, PoolView.mem_enlist_queue, List.mem_cons]
      constructor
      · rintro ((⟨rfl, rfl⟩ | ⟨hq, -⟩) | ⟨hm, rfl⟩)
        · exact Or.inr ⟨Or.inl rfl, rfl⟩
        · exact Or.inl hq
        · exact Or.inr ⟨Or.inr hm, rfl⟩
      · rintro (hq | ⟨rfl | hm, rfl⟩)
        · exact Or.inl (Or.inr ⟨hq, hfree hq⟩)
        · exact Or.inl (Or.inl ⟨rfl, rfl⟩)
        · exact Or.inr ⟨hm, rfl⟩
    · refine List.forall_mem_cons.mpr ⟨?_, hacc.known⟩
      rw [hacc.others _ hn₁, hall, Function.update_self]
    · rw [List.map_cons, List.mem_cons, not_or] at hx
      rw [hacc.others x hx.2, hall, Function.update_of_ne hx.1]

theorem Represents.promoteExecutables_eq (h : pool.Represents v)
    (hp : ∀ pool' : TxPool, pool'.Represents (promoted E state v (accounts E pool.queue)) →
      GoMap.total pool'.pending TxList.len ≤ maxPendingTotal) :
    ∃ pool', TxPool.promoteQueue E pool state = .ok (GoMap.total pool'.queue TxList.len, pool') ∧
      pool'.Represents (promoted E state v (accounts E pool.queue)) ∧
      promoteExecutables E pool state =
        TxPool.limitQueue E (GoMap.total pool'.queue TxList.len) pool' := by
  obtain ⟨pool', he, h', -, -⟩ := h.promoteQueue (E := E) state
  refine ⟨pool', he, h', ?_⟩
  rw [promoteExecutables, he, Go.ok_bind]
  dsimp only
  rw [limitPending_of_le (hp pool' h'), Go.ok_bind]

theorem limitQueue_of_le {n : Nat} (h : n ≤ maxQueuedInTotal) :
    TxPool.limitQueue E n pool = .ok pool := by
  rw [TxPool.limitQueue, Nat.sub_eq_zero_of_le h, TxPool.dropLoop]

-- Nobody has been heard of later than at the beginning of time.
def Still (pool : TxPool) : Prop :=
  ∀ a t, pool.beats.lookup a = some t → t = 0

theorem Still.promoteTx (h : Still pool) (hn : E.now = 0) (a : Address) (tx : Transaction) :
    Still (pool.promoteTx E a tx) := by
  rw [TxPool.promoteTx]
  split
  case h_1 => exact h
  case h_2 =>
    intro b t hb
    obtain ⟨-, rfl⟩ | ⟨-, hb⟩ := GoMap.of_lookup_insert hb
    · exact hn
    · exact h b t hb

theorem Still.promoteAccount {n n' : Nat} (h : Still pool) (hn : E.now = 0)
    (he : TxPool.promoteAccount E state (n, pool) a = .ok (n', pool')) : Still pool' := by
  have hfold : ∀ (txs : List Transaction) (pool : TxPool), Still pool →
      Still (txs.foldl (TxPool.promoteTx E · a) pool) := by
    intro txs
    induction txs
    case nil            => exact fun _ h => h
    case cons tx txs hi => exact fun pool h => hi _ (h.promoteTx hn a tx)
  rw [TxPool.promoteAccount] at he
  split at he
  case h_1 =>
    cases he
    exact h
  case h_2 l hl =>
    obtain ⟨⟨old, l₁⟩, -, he⟩ := Go.bind_eq_ok.mp he
    obtain ⟨⟨ready, l₂⟩, -, he⟩ := Go.bind_eq_ok.mp he
    obtain ⟨⟨capped, l₃⟩, -, he⟩ := Go.bind_eq_ok.mp he
    cases he
    exact hfold ready _ h

theorem Still.promoteQueue {n : Nat} (h : Still pool) (hn : E.now = 0)
    (he : TxPool.promoteQueue E pool state = .ok (n, pool')) : Still pool' :=
  Go.foldlM_keep (I := fun x : Nat × TxPool => Still x.snd) (fun h he => h.promoteAccount hn he) h he

theorem Still.dropOrder_eq (h : Still pool) {rank : Address → Nat} (hs : E.sorting = ranked rank)
    (ha : pool.queue.lookup a ≠ none) (hr : ∀ b, rank a ≤ rank b → b = a) :
    ∃ rest, dropOrder E pool = a :: rest := by
  have hperm : (dropOrder E pool).Perm (accounts E pool.queue) :=
    (List.reverse_perm _).trans (E.sorting.perm _ _)
  have hmem : a ∈ dropOrder E pool := hperm.mem_iff.mpr (mem_accounts.mpr ha)
  have hkey : ∀ b, (pool.beats.lookup b).getD 0 = 0 := fun b => by
    cases hb : pool.beats.lookup b
    case none   => rfl
    case some t => exact h b t hb
  have hsort : (dropOrder E pool).Pairwise fun x y => rank y ≤ rank x := by
    rw [dropOrder, List.pairwise_reverse, hs]
    refine (ranking_sorted rank _ _).imp fun {x y} hxy => ?_
    rw [ranking, hkey, hkey] at hxy
    exact (hxy.resolve_left (lt_irrefl _)).2
  cases ho : dropOrder E pool
  case nil =>
    rw [ho] at hmem
    cases hmem
  case cons b rest =>
    rw [ho] at hmem hsort
    obtain rfl | hm := List.mem_cons.mp hmem
    · exact ⟨rest, rfl⟩
    · rw [hr b ((List.pairwise_cons.mp hsort).1 a hm)]
      exact ⟨rest, rfl⟩

theorem Lists.total_eq_length {strict : Bool} {p : GoMap Address TxList} {s : Address → TxSeq}
    {sender : Transaction → Address} (h : Lists strict p s)
    (hn : txs.Nodup) (hm : ∀ a t, t ∈ (s a).txs ↔ t ∈ txs ∧ sender t = a) :
    GoMap.total p TxList.len = txs.length := by
  apply le_antisymm
  · exact h.total_le (fun a t ht => ((hm a t).mp ht).2) fun a t ht => ((hm a t).mp ht).1
  · obtain ⟨all, hl, ha⟩ := h.exists_list
    rw [← hl]
    apply List.Subperm.length_le
    apply List.subperm_of_subset hn
    exact fun t ht => ha (sender t) t ((hm _ t).mpr ⟨ht, rfl⟩)

-- Sixteen accounts with 64 transactions each that wait for the first one, and an account with four
-- transactions that are ready.

def waitingTx (k : Nat) : Transaction :=
  pooledTx (2 * (k / 64 + 1)) (UInt64.ofNat (k % 64 + 1))

def waitingTxs : List Transaction :=
  (List.range 1024).map waitingTx

def readyTxs : List Transaction :=
  [pooledTx 0 0, pooledTx 0 1, pooledTx 0 2, pooledTx 0 3]

-- Two transactions that have the nonces of pending ones, and a gap between them.
def rivalTxs : List Transaction :=
  [pooledTx 1 0, pooledTx 1 2]

theorem mem_waitingTxs : t ∈ waitingTxs ↔ ∃ k < 1024, t = waitingTx k := by
  rw [waitingTxs, List.mem_map]
  simp only [List.mem_range, eq_comm]

theorem pooledTx_inj {n n' : UInt64} (h : pooledTx m n = pooledTx m' n') :
    m = m' ∧ n = n' := by
  have hm : (m : Int) = m' := congrArg Transaction.amount h
  exact ⟨Int.ofNat_inj.mp hm, congrArg accountNonce h⟩

theorem toNat_waiting (k : Nat) : (UInt64.ofNat (k % 64 + 1)).toNat = k % 64 + 1 :=
  UInt64.toNat_ofNat_of_lt' (lt_of_lt_of_le (by omega : k % 64 + 1 < 65) (by decide))

theorem waitingTx_inj {k k' : Nat} (h : waitingTx k = waitingTx k') : k = k' := by
  obtain ⟨hm, hn⟩ := pooledTx_inj h
  have hn := congrArg UInt64.toNat hn
  rw [toNat_waiting, toNat_waiting] at hn
  omega

theorem waitingTxs_nodup : waitingTxs.Nodup :=
  List.nodup_range.map_on fun _ _ _ _ h => waitingTx_inj h

theorem senderOf_waitingTx (k : Nat) :
    senderOf pooledEnv (waitingTx k) = pooledOwner (2 * (k / 64 + 1)) :=
  rfl

theorem quiet_of_waiting (hq : ∀ t ∈ (v.queue a).txs, t ∈ waitingTxs ∧ senderOf pooledEnv t = a)
    (hn : v.nonces a = 0) : Quiet richState v a := by
  refine ⟨⟨fun t ht => UInt64.zero_le, fun t ht => ?_, ?_⟩, fun t ht => ?_⟩
  · obtain ⟨k, hk, rfl⟩ := mem_waitingTxs.mp (hq t ht).1
    simp only [waitingTx, Transaction.cost, pooledTx, noncedTx, richState]
    omega
  · cases hl : (v.queue a).txs
    case nil => exact Nat.zero_le _
    case cons t txs =>
      rw [← hl]
      obtain ⟨hw, hs⟩ := hq t (hl ▸ List.mem_cons_self ..)
      obtain ⟨k, hk, rfl⟩ := mem_waitingTxs.mp hw
      have hsub : (v.queue a).txs ⊆ (List.range 64).map fun j => waitingTx (64 * (k / 64) + j) := by
        intro t' ht'
        obtain ⟨hw', hs'⟩ := hq t' ht'
        obtain ⟨k', hk', rfl⟩ := mem_waitingTxs.mp hw'
        rw [← hs, senderOf_waitingTx, senderOf_waitingTx] at hs'
        have := pooledOwner_inj (by omega) (by omega) hs'
        refine List.mem_map.mpr ⟨k' % 64, List.mem_range.mpr (by omega), ?_⟩
        congr 1
        omega
      have hle := (List.subperm_of_subset (v.queue a).sorted.nodup hsub).length_le
      rwa [List.length_map] at hle
  · obtain ⟨k, hk, rfl⟩ := mem_waitingTxs.mp (hq t ht).1
    rw [hn]
    show 0 < (UInt64.ofNat (k % 64 + 1)).toNat
    rw [toNat_waiting]
    omega

structure Waiting (v : PoolView) : Prop where
  pending : ∀ a t, t ∈ (v.pending a).txs ↔ t ∈ readyTxs ∧ senderOf pooledEnv t = a
  queue   : ∀ a t, t ∈ (v.queue a).txs ↔ t ∈ waitingTxs ∧ senderOf pooledEnv t = a
  nonces  : ∀ a ≠ pooledOwner 0, v.nonces a = 0
  fresh   : ∀ t ∈ rivalTxs, v.all (pooledHash t) = none

def pooled (t : Transaction) : Prop :=
  ∃ m n, m < 100 ∧ t = pooledTx m n

theorem pooled_of_ready (h : t ∈ readyTxs) : ∃ n, t = pooledTx 0 n := by
  simp only [readyTxs, List.mem_cons, List.not_mem_nil, or_false] at h
  obtain rfl | rfl | rfl | rfl := h <;> exact ⟨_, rfl⟩

theorem pooled_of_rival (h : t ∈ rivalTxs) : ∃ n, t = pooledTx 1 n := by
  simp only [rivalTxs, List.mem_cons, List.not_mem_nil, or_false] at h
  obtain rfl | rfl := h <;> exact ⟨_, rfl⟩

theorem senderOf_rival (n : UInt64) : senderOf pooledEnv (pooledTx 1 n) = pooledOwner 0 := by
  rw [senderOf_pooled]
  decide

theorem pooledHash_injOn : Set.InjOn pooledHash {t | pooled t} := by
  rintro t ⟨m, n, hm, rfl⟩ t' ⟨m', n', hm', rfl⟩ h
  obtain ⟨rfl, rfl⟩ := pooledHash_inj (by omega) (by omega) h
  rfl

theorem validateTx_pooled (h : pooled t) (pool : TxPool) (hp : Plain pool) :
    pool.validateTx pooledEnv t = .ok () := by
  obtain ⟨m, n, hm, rfl⟩ := h
  exact hp.validateTx hm n

theorem firstBatch_nodup : (readyTxs ++ waitingTxs).Nodup := by
  refine List.Nodup.append (by decide) waitingTxs_nodup fun t ht hw => ?_
  obtain ⟨n, rfl⟩ := pooled_of_ready ht
  obtain ⟨k, hk, he⟩ := mem_waitingTxs.mp hw
  have := (pooledTx_inj he).1
  omega

theorem pooled_of_firstBatch (h : t ∈ readyTxs ++ waitingTxs) :
    ∃ m n, m < 50 ∧ t = pooledTx (2 * m) n := by
  obtain h | h := List.mem_append.mp h
  · obtain ⟨n, rfl⟩ := pooled_of_ready h
    exact ⟨0, n, by omega, rfl⟩
  · obtain ⟨k, hk, rfl⟩ := mem_waitingTxs.mp h
    exact ⟨k / 64 + 1, _, by omega, rfl⟩

theorem senderOf_waiting_ne (h : t ∈ waitingTxs) :
    senderOf pooledEnv t ≠ pooledOwner 0 := by
  obtain ⟨k, hk, rfl⟩ := mem_waitingTxs.mp h
  intro he
  rw [senderOf_waitingTx] at he
  have := pooledOwner_inj (by omega) (by omega) he
  omega

theorem readyTxs_sorted : SortedBy accountNonce readyTxs := by
  unfold SortedBy
  decide

def readySeq : TxSeq :=
  ⟨readyTxs, readyTxs_sorted⟩

theorem call_addBatch (hc : E.current = some state)
    (he : promoteExecutables E (pool.addAll E txs) state = .ok pool') :
    pool.call E (.addBatch txs) = .ok pool' := by
  rw [call, addBatch, hc]
  dsimp only
  split
  case h_1 pool₁ he₁ => rw [Except.ok.inj (he₁.symm.trans he)]
  case h_2 e he₁     => cases he₁.symm.trans he

theorem exists_waiting : ∃ pool v, (start richState).call pooledEnv
      (.addBatch (readyTxs ++ waitingTxs)) = .ok pool ∧
    pool.Represents v ∧ Still pool ∧ Waiting v := by
  have hpool : ∀ t ∈ readyTxs ++ waitingTxs, pooled t := fun t ht => by
    obtain ⟨m, n, hm, rfl⟩ := pooled_of_firstBatch ht
    exact ⟨_, n, by omega, rfl⟩
  obtain ⟨v₁, hacc⟩ := @Represents.accepts pooledEnv _ (startView richState)
    (readyTxs ++ waitingTxs) start_represents ⟨rfl, rfl⟩ (fun t ht => validateTx_pooled (hpool t ht))
    (fun _ _ => rfl)
    (firstBatch_nodup.map_on fun t ht t' ht' he => pooledHash_injOn (hpool t ht) (hpool t' ht') he)
    (fun _ _ => rfl)
    (firstBatch_nodup.imp_of_mem fun {t t'} ht ht' hne hs hn => hne (by
      obtain ⟨m, n, hm, rfl⟩ := pooled_of_firstBatch ht
      obtain ⟨m', n', hm', rfl⟩ := pooled_of_firstBatch ht'
      rw [senderOf_pooled, senderOf_pooled] at hs
      have hm := pooledOwner_inj (by omega) (by omega) hs
      obtain rfl : m = m' := by omega
      obtain rfl : n = n' := hn
      rfl))
  have hq : ∀ a t, t ∈ (v₁.queue a).txs ↔
      t ∈ readyTxs ++ waitingTxs ∧ senderOf pooledEnv t = a := fun a t => by
    rw [hacc.queue]
    exact or_iff_right List.not_mem_nil
  have hwait : ∀ a ≠ pooledOwner 0, ∀ t ∈ (v₁.queue a).txs,
      t ∈ waitingTxs ∧ senderOf pooledEnv t = a := fun a ha t ht => by
    obtain ⟨hm, hs⟩ := (hq a t).mp ht
    refine ⟨(List.mem_append.mp hm).resolve_left fun hr => ha ?_, hs⟩
    obtain ⟨n, rfl⟩ := pooled_of_ready hr
    exact hs.symm
  have hn₁ : v₁.nonces = fun _ => 0 := hacc.nonces
  have hX : v₁.queue (pooledOwner 0) = readySeq := by
    apply TxSeq.ext_mem
    intro t
    rw [hq, List.mem_append]
    refine ⟨fun h => h.1.resolve_right fun hw => ?_, fun h => ⟨Or.inl h, ?_⟩⟩
    · exact senderOf_waiting_ne hw h.2
    · obtain ⟨n, rfl⟩ := pooled_of_ready h
      rfl
  have hquiet : ∀ a ≠ pooledOwner 0, Quiet richState v₁ a := fun a ha =>
    quiet_of_waiting (hwait a ha) (congrFun hn₁ a)
  have hsus : Sustained richState v₁ (pooledOwner 0) := by
    constructor
    all_goals rw [hX]
    · exact fun _ _ => UInt64.zero_le
    · decide
    · decide
  have hlen : (v₁.queue (pooledOwner 0)).readyLength (v₁.nonces (pooledOwner 0)) = 4 := by
    rw [hX, hn₁]
    decide
  have hin : pooledOwner 0 ∈ accounts pooledEnv ((start richState).addAll pooledEnv
      (readyTxs ++ waitingTxs)).queue := by
    refine mem_accounts.mpr (hacc.represents.queue.mem_keys ?_)
    rw [hX]
    decide
  have hprom := promoted_of_quiet (E := pooledEnv) (accounts_nodup _) hin hquiet
  rw [hsus.promoteAccount_eq hlen, hX] at hprom
  obtain ⟨hall, hmem, hother⟩ := @PoolView.foldl_promoteTx pooledHash v₁ (pooledOwner 0) readyTxs
    (by decide) (fun t _ => by rw [hacc.pending]; rfl)
    (fun t ht => hacc.known t (List.mem_append_left _ ht))
  have hw : Waiting (promoted pooledEnv richState v₁ (accounts pooledEnv ((start richState).addAll
      pooledEnv (readyTxs ++ waitingTxs)).queue)) := by
    rw [hprom]
    refine ⟨fun a t => ?_, fun a t => ?_, fun a ha => ?_, fun t ht => ?_⟩
    · by_cases ha : a = pooledOwner 0
      · subst ha
        refine (hmem t).trans ?_
        rw [hacc.pending]
        refine (or_iff_right List.not_mem_nil).trans ⟨fun h => ⟨h, ?_⟩, fun h => h.1⟩
        obtain ⟨n, rfl⟩ := pooled_of_ready h
        rfl
      · have hnil : (v₁.pending a).txs = [] := by
          rw [hacc.pending]
          rfl
        refine (iff_of_eq (congrArg (t ∈ TxSeq.txs ·) (hother a ha))).trans ?_
        rw [hnil]
        refine ⟨fun h => absurd h List.not_mem_nil, fun h => absurd h.2 ?_⟩
        obtain ⟨n, rfl⟩ := pooled_of_ready h.1
        exact Ne.symm ha
    · dsimp only
      rw [Function.update_apply]
      split
      case isTrue ha =>
        subst ha
        refine ⟨fun h => absurd h List.not_mem_nil, fun h => absurd h.2 (senderOf_waiting_ne h.1)⟩
      case isFalse ha =>
        exact ⟨hwait a ha t, fun h => (hq a t).mpr ⟨List.mem_append_right _ h.1, h.2⟩⟩
    · exact (PoolView.foldl_promoteTx_of_ne ha _).right.trans (congrFun hn₁ a)
    · refine (congrFun hall _).trans (hacc.others _ fun hm => ?_)
      obtain ⟨t', ht', he⟩ := List.mem_map.mp hm
      obtain ⟨m, n, hlt, rfl⟩ := pooled_of_firstBatch ht'
      obtain ⟨n', rfl⟩ := pooled_of_rival ht
      have := (pooledHash_inj (by omega) (by omega) he).1
      omega
  obtain ⟨pool, he, h, hpe⟩ := @Represents.promoteExecutables_eq pooledEnv _ richState v₁
    hacc.represents fun pool' h' => by
      rw [h'.pending.total_eq_length (by decide) hw.pending]
      decide
  rw [limitQueue_of_le] at hpe
  · refine ⟨pool, _, call_addBatch rfl hpe, h, ?_, hw⟩
    refine Still.promoteQueue ?_ rfl he
    intro b t hb
    rw [hacc.beats] at hb
    cases hb
  · rw [h.queue.total_eq_length waitingTxs_nodup hw.queue, waitingTxs, List.length_map,
      List.length_range]
    decide

-- A pending transaction is removed for a queued one with its nonce, and the one above it is queued.
theorem mem_queue_removeTx {tx t t' : Transaction} {a : Address}
    (hr : (v.pending (senderOf E tx)).rival tx ≠ none)
    (hk : ((v.pending (senderOf E tx)).keep (accountNonce · < tx.accountNonce)).txs ≠ [])
    (hs : senderOf E t' = senderOf E tx) (hn : t'.accountNonce ≠ tx.accountNonce)
    (hq : (v.queue (senderOf E tx)).rival t' = none) :
    t ∈ ((v.removeTx E.hash (senderOf E) (E.hash tx) tx [t']).queue a).txs ↔
      (a = senderOf E tx ∧ t = t') ∨
        t ∈ (v.queue a).txs ∧ (a = senderOf E tx → t.accountNonce ≠ tx.accountNonce) := by
  have hfree : ¬ TxList.keepsOut ((v.withdraw E.hash (senderOf E tx) tx).queue (senderOf E t')) t' := by
    rw [hs]
    exact TxList.not_keepsOut hq
  rw [PoolView.removeTx_of_ne_none hr rfl, if_neg hk, List.foldl_cons, List.foldl_nil,
    PoolView.enqueueTx_eq, if_neg hfree]
  have hother : t ∈ (v.queue a).txs → a = senderOf E tx → t.accountNonce ≠ t'.accountNonce := by
    rintro ht rfl
    exact TxSeq.rival_eq_none_iff.mp hq t ht
  by_cases ha : a = senderOf E tx
  · subst ha
    rw [PoolView.mem_removeQueued, PoolView.lowerNonce_queue, PoolView.mem_enlist_queue, hs]
    constructor
    · rintro ⟨⟨-, rfl⟩ | ⟨ht, -⟩, hne⟩
      · exact Or.inl ⟨rfl, rfl⟩
      · exact Or.inr ⟨ht, fun _ => hne⟩
    · rintro (⟨-, rfl⟩ | ⟨ht, hne⟩)
      · exact ⟨Or.inl ⟨rfl, rfl⟩, hn⟩
      · exact ⟨Or.inr ⟨ht, hother ht⟩, hne rfl⟩
  · have hq' : ∀ w : PoolView, (w.removeQueued (senderOf E tx) tx.accountNonce).queue a = w.queue a :=
      fun w => Function.update_of_ne ha ..
    rw [hq', PoolView.lowerNonce_queue, PoolView.mem_enlist_queue, hs]
    simp only [ha, false_and, false_or, false_implies, and_true]
    exact Iff.rfl

theorem rivalTxs_sorted : SortedBy accountNonce rivalTxs := by
  unfold SortedBy
  decide

def rivalSeq : TxSeq :=
  ⟨rivalTxs, rivalTxs_sorted⟩

theorem rivalSeq_readyLength (n : UInt64) : rivalSeq.readyLength n = 1 := by
  have hn : ¬ (pooledTx 1 0).accountNonce > n := UInt64.not_lt_zero
  rw [TxSeq.readyLength, rivalSeq]
  simp only [rivalTxs]
  rw [if_neg hn]
  decide

structure Crowded (v : PoolView) : Prop where
  pending : ∀ a t, t ∈ (v.pending a).txs ↔ t ∈ readyTxs ∧ senderOf pooledEnv t = a
  queue   : ∀ a t, t ∈ (v.queue a).txs ↔
    t ∈ waitingTxs ++ [pooledTx 1 2] ∧ senderOf pooledEnv t = a
  known   : v.all (pooledHash (pooledTx 1 2)) = some (pooledTx 1 2)

theorem Waiting.crowded (hw : Waiting v) {pool₀ : TxPool}
    (hacc : Accepts pooledEnv pool₀ v rivalTxs pool v') :
    Crowded (promoted pooledEnv richState v' (accounts pooledEnv pool.queue)) := by
  have hX : v'.queue (pooledOwner 0) = rivalSeq := by
    apply TxSeq.ext_mem
    intro t
    rw [hacc.queue, hw.queue]
    refine (or_iff_right fun h => senderOf_waiting_ne h.1 h.2).trans ⟨fun h => h.1, fun h => ⟨h, ?_⟩⟩
    obtain ⟨n, rfl⟩ := pooled_of_rival h
    exact senderOf_rival n
  have hother : ∀ a ≠ pooledOwner 0, ∀ t, t ∈ (v'.queue a).txs ↔
      t ∈ waitingTxs ∧ senderOf pooledEnv t = a := fun a ha t => by
    rw [hacc.queue, hw.queue]
    refine or_iff_left fun h => ha (h.2.symm.trans ?_)
    obtain ⟨n, rfl⟩ := pooled_of_rival h.1
    exact senderOf_rival n
  have hquiet : ∀ a ≠ pooledOwner 0, Quiet richState v' a := fun a ha =>
    quiet_of_waiting (fun t => (hother a ha t).mp) (by rw [hacc.nonces, hw.nonces a ha])
  have hsus : Sustained richState v' (pooledOwner 0) := by
    constructor
    all_goals rw [hX]
    · exact fun _ _ => UInt64.zero_le
    · decide
    · decide
  have hlen : (v'.queue (pooledOwner 0)).readyLength (v'.nonces (pooledOwner 0)) = 1 := by
    rw [hX, rivalSeq_readyLength]
  have hin : pooledOwner 0 ∈ accounts pooledEnv pool.queue := by
    refine mem_accounts.mpr (hacc.represents.queue.mem_keys ?_)
    rw [hX]
    decide
  -- The transaction with the lowest nonce gives way to the pending one.
  have hold : TxList.keepsOut (v'.pending (pooledOwner 0)) (pooledTx 1 0) := by
    have hr : (v'.pending (pooledOwner 0)).rival (pooledTx 1 0) = some (pooledTx 0 0) := by
      rw [TxSeq.rival_eq_some_iff, hacc.pending, hw.pending]
      exact ⟨⟨by decide, rfl⟩, rfl⟩
    rw [TxList.keepsOut, hr]
    decide
  have hfold : (rivalSeq.txs.take 1).foldl (PoolView.promoteTx pooledHash · (pooledOwner 0)) v' =
      v'.deleteAll pooledHash [pooledTx 1 0] := by
    show v'.promoteTx pooledHash (pooledOwner 0) (pooledTx 1 0) = _
    rw [PoolView.promoteTx, if_pos hold]
  rw [promoted_of_quiet (accounts_nodup _) hin hquiet, hsus.promoteAccount_eq hlen, hX]
  rw [show pooledEnv.hash = pooledHash from rfl, hfold]
  refine ⟨fun a t => ?_, fun a t => ?_, ?_⟩
  · rw [← hw.pending, ← hacc.pending]
    rfl
  · dsimp only
    rw [Function.update_apply, List.mem_append]
    split
    case isTrue ha =>
      subst ha
      refine ⟨fun h => ⟨Or.inr h, ?_⟩, fun h => h.1.resolve_left fun hm => senderOf_waiting_ne hm h.2⟩
      rw [List.mem_singleton.mp h]
      rfl
    case isFalse ha =>
      rw [hother a ha]
      refine and_congr_left fun hs => (or_iff_left fun hm => ha ?_).symm
      rw [← hs, List.mem_singleton.mp hm]
      rfl
  · rw [PoolView.mem_deleteAll]
    refine ⟨hacc.known _ (by decide), fun t ht he => ?_⟩
    rw [List.mem_singleton.mp ht] at he
    have := (pooledHash_inj (by omega) (by omega) he).2
    revert this
    decide

theorem waitingTxs_concat (h : senderOf pooledEnv t = pooledOwner 0) :
    (waitingTxs ++ [t]).Nodup ∧ (waitingTxs ++ [t]).length = maxQueuedInTotal + 1 := by
  constructor
  · refine List.Nodup.append waitingTxs_nodup (List.nodup_singleton t) fun s hs he => ?_
    rw [List.mem_singleton.mp he] at hs
    exact senderOf_waiting_ne hs h
  · rw [List.length_append, waitingTxs, List.length_map, List.length_range, List.length_singleton,
      maxQueuedInTotal]

theorem mem_concat_iff {t t' : Transaction} (ht : senderOf pooledEnv t' = pooledOwner 0) :
    t ∈ waitingTxs ++ [t'] ∧ senderOf pooledEnv t = pooledOwner 0 ↔ t = t' := by
  rw [List.mem_append, List.mem_singleton]
  constructor
  · rintro ⟨hm | rfl, hs⟩
    · exact absurd hs (senderOf_waiting_ne hm)
    · rfl
  · rintro rfl
    exact ⟨Or.inr rfl, ht⟩

theorem Crowded.limitQueue (hv : Crowded v) (h : pool.Represents v) (hst : Still pool) :
    ∃ pool', TxPool.limitQueue pooledEnv (GoMap.total pool.queue TxList.len) pool = .ok pool' ∧
      GoMap.total pool'.queue TxList.len = maxQueuedInTotal + 1 := by
  obtain ⟨hnd, hlen⟩ := waitingTxs_concat (senderOf_rival 2)
  have htotal : GoMap.total pool.queue TxList.len = maxQueuedInTotal + 1 :=
    (h.queue.total_eq_length hnd hv.queue).trans hlen
  have hX : (v.queue (pooledOwner 0)).txs = [pooledTx 1 2] := by
    have hs : v.queue (pooledOwner 0) = TxSeq.nil.put (pooledTx 1 2) := by
      apply TxSeq.ext_mem
      intro t
      rw [hv.queue, mem_concat_iff (senderOf_rival 2)]
      exact List.mem_singleton.symm
    rw [hs]
    rfl
  have hP : v.pending (pooledOwner 0) = readySeq := by
    apply TxSeq.ext_mem
    intro t
    rw [hv.pending]
    refine and_iff_left_of_imp fun ht => ?_
    obtain ⟨n, rfl⟩ := pooled_of_ready ht
    rfl
  obtain ⟨l, hl⟩ := Option.ne_none_iff_exists'.mp (h.queue.mem_keys (a := pooledOwner 0) (by
    rw [hX]
    exact List.cons_ne_nil _ _))
  obtain ⟨hlen₀, l', hf, -, h₁⟩ := h.flatten (E := pooledEnv) hl
  obtain ⟨rest, hord⟩ := hst.dropOrder_eq (E := pooledEnv) (a := pooledOwner 0) rfl
    (by rw [hl]; exact Option.some_ne_none l) (fun b hb => by
      by_contra hne
      simp [hne] at hb)
  have hrm : { pool with queue := pool.queue.insert (pooledOwner 0) l' }.removeTxs pooledEnv
      [pooledTx 1 2] = { pool with queue := pool.queue.insert (pooledOwner 0) l' }.removeTx pooledEnv
        (pooledHash (pooledTx 1 2)) := rfl
  obtain ⟨invalids, hp, h₂⟩ := h₁.removeTx (E := pooledEnv) hv.known
  rw [senderOf_rival, hP, show readySeq.txs.filter (accountNonce · > (pooledTx 1 2).accountNonce) =
    [pooledTx 0 3] from by decide, List.perm_singleton] at hp
  subst hp
  have hS : senderOf pooledEnv (pooledTx 1 2) = pooledOwner 0 := senderOf_rival 2
  have hq : ∀ a t, t ∈ ((v.removeTx pooledEnv.hash (senderOf pooledEnv) (pooledHash (pooledTx 1 2))
      (pooledTx 1 2) [pooledTx 0 3]).queue a).txs ↔
        t ∈ waitingTxs ++ [pooledTx 0 3] ∧ senderOf pooledEnv t = a := by
    intro a t
    refine (@mem_queue_removeTx pooledEnv v (pooledTx 1 2) t (pooledTx 0 3) a ?_ ?_ hS.symm
      (by decide) ?_).trans ?_
    · rw [hS, hP]
      decide
    · rw [hS, hP]
      decide
    · rw [hS, TxSeq.rival_eq_none_iff, hX]
      decide
    rw [hv.queue, List.mem_append, List.mem_append, List.mem_singleton, List.mem_singleton]
    constructor
    · rintro (⟨rfl, rfl⟩ | ⟨⟨hm | rfl, hs⟩, hne⟩)
      · exact ⟨Or.inr rfl, rfl⟩
      · exact ⟨Or.inl hm, hs⟩
      · exact absurd rfl (hne (hs.symm.trans hS))
    · rintro ⟨hm | rfl, rfl⟩
      · exact Or.inr ⟨⟨Or.inl hm, rfl⟩, fun hX => absurd hX (senderOf_waiting_ne hm)⟩
      · exact Or.inl ⟨rfl, rfl⟩
  obtain ⟨hnd', hlen'⟩ := @waitingTxs_concat (pooledTx 0 3) rfl
  refine ⟨_, ?_, (h₂.queue.total_eq_length hnd' hq).trans hlen'⟩
  have he : TxPool.limitQueue pooledEnv (GoMap.total pool.queue TxList.len) pool =
    TxPool.dropLoop pooledEnv (GoMap.total pool.queue TxList.len - maxQueuedInTotal)
      (dropOrder pooledEnv pool) pool := rfl
  rw [he, htotal, hord, Nat.add_sub_cancel_left, TxPool.dropLoop, hl]
  simp only [hf, hX, hlen₀, List.length_singleton]
  rw [if_pos (by decide), TxPool.dropLoop, hrm]

end TxPool

end Core
