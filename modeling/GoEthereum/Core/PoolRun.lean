import GoEthereum.Core.PoolSteps

-- Sequences of calls of the pool, and what holds after each of them.

namespace Core

open Common
open Transaction (accountNonce)

inductive PoolCall
  | add (tx : Transaction)
  | addBatch (txs : List Transaction)
  | remove (hash : Hash)
  | removeBatch (txs : List Transaction)
  | pending
  | expire
  | reset
  -- `SetLocal`, and what the events of the chain set beside the lists.
  | settings (minGasPrice : Int) (localTx : GoMap Hash Unit) (homestead : Bool)

def PoolCall.txs : PoolCall → List Transaction
  | add tx       => [tx]
  | addBatch txs => txs
  | _            => []

namespace TxPool

def lift {α : Type} : Calls α → Go PoolError α
  | .ok a    => .ok a
  | .error _ => Go.panics

section

variable (E : PoolEnv) (pool : TxPool)

def call : PoolCall → Go PoolError TxPool
  | .add tx          => pool.addTx E tx
  | .addBatch txs    => pool.addBatch E txs
  | .remove hash     => .ok (pool.removeTx E hash)
  | .removeBatch txs => .ok (pool.removeTxs E txs)
  | .pending         => pool.refresh E
  | .expire          => .ok (pool.expire E)
  -- A reset that cannot get the current state only logs that.
  | .reset           => if E.current = none then Go.fail .currentState else lift (resetState E pool)
  | .settings minGasPrice localTx homestead =>
    .ok { pool with minGasPrice := minGasPrice, localTx := localTx, homestead := homestead }

-- A call that returns an error leaves the pool as it is.
def after (c : PoolCall) : Calls TxPool :=
  match pool.call E c with
  | .ok pool'         => .ok pool'
  | .error (.error _) => .ok pool
  | .error .panic     => Go.panics

end

def run : List (PoolEnv × PoolCall) → TxPool → Calls TxPool
  | [], pool              => .ok pool
  | (E, c) :: calls, pool => do
    let pool ← pool.after E c
    run calls pool

def start (state : Accounts) : TxPool where
  pendingState := state.nonce
  minGasPrice  := 0
  localTx      := ∅
  pending      := ∅
  queue        := ∅
  all          := ∅
  beats        := ∅
  homestead    := false

def added (calls : List (PoolEnv × PoolCall)) : List Transaction :=
  calls.flatMap fun e => e.snd.txs

-- Every call of a run meets a condition on the pool that it finds.
def Meets (P : PoolEnv → TxPool → PoolCall → Prop) :
    List (PoolEnv × PoolCall) → TxPool → Prop
  | [], _                 => True
  | (E, c) :: calls, pool =>
    P E pool c ∧ ∀ pool', pool.after E c = .ok pool' → Meets P calls pool'

section

variable (E : PoolEnv) (pool : TxPool)

def Fresh (tx : Transaction) : Prop :=
  ∀ l, pool.pending.lookup (senderOf E tx) = some l → l.txs.get tx.accountNonce = none

def Additive (c : PoolCall) : Prop :=
  ∀ tx ∈ c.txs, pool.all.lookup (E.hash tx) = none → pool.Fresh E tx

def Roomy : PoolCall → Prop
  | .remove _ | .removeBatch _ | .expire | .settings .. => True
  | c                                                   =>
    GoMap.total pool.pending TxList.len + GoMap.total pool.queue TxList.len + c.txs.length ≤
      maxPendingTotal

def Leads (tx : Transaction) : Prop :=
  ∃ l, pool.pending.lookup (senderOf E tx) = some l ∧ l.txs.get tx.accountNonce = some tx ∧
    (∀ n t, l.txs.get n = some t → tx.accountNonce ≤ n) ∧
    ∃ n t, l.txs.get n = some t ∧ tx.accountNonce < n

def Detachable (hash : Hash) : Prop :=
  ∀ tx, pool.all.lookup hash = some tx → ¬ pool.Leads E tx

def AllDetachable : TxPool → List Transaction → Prop
  | _, []         => True
  | pool, tx :: txs =>
    pool.Detachable E (E.hash tx) ∧ AllDetachable (pool.removeTx E (E.hash tx)) txs

-- A transaction is not removed from before others of its account.
def Detaching : PoolCall → Prop
  | .remove hash     => pool.Detachable E hash
  | .removeBatch txs => AllDetachable E pool txs
  | _                => True

end

section

variable {E : PoolEnv} {T : Set Transaction} {state : Accounts} {pool pool' : TxPool}
  {v v' : PoolView} {a : Address} {tx t : Transaction} {txs : List Transaction}

theorem Represents.fresh_iff (h : pool.Represents v) :
    pool.Fresh E tx ↔ (v.pending (senderOf E tx)).rival tx = none := by
  cases hl : pool.pending.lookup (senderOf E tx)
  case none =>
    rw [Fresh, hl, TxSeq.rival_eq_none_iff, h.pending.none _ hl]
    simp
  case some l =>
    rw [Fresh, hl]
    simp only [Option.some.injEq, forall_eq', (h.pending.covers _ l hl).1.get_eq]

theorem add_eq_ok : pool.add E tx = .ok pool' ↔ pool.all.lookup (E.hash tx) = none ∧
    pool.validateTx E tx = .ok () ∧ pool' = pool.enqueueTx E tx := by
  rw [TxPool.add]
  cases pool.all.lookup (E.hash tx) <;> cases pool.validateTx E tx <;>
    simp [bind, Except.bind, pure, Except.pure, throw, throwThe, MonadExceptOf.throw, eq_comm]

structure Adds (E : PoolEnv) (T : Set Transaction) (txs : List Transaction) (v v' : PoolView) :
    Prop where
  sound   : v'.Sound E.hash (senderOf E) T
  exact   : v.Exact (senderOf E) → v'.Exact (senderOf E)
  pending : v'.pending = v.pending
  nonces  : v'.nonces = v.nonces
  listed  : ∀ {a t}, v'.Listed a t → v.Listed a t ∨ t ∈ txs

theorem Adds.refl (hv : v.Sound E.hash (senderOf E) T) : Adds E T txs v v :=
  ⟨hv, id, rfl, rfl, Or.inl⟩

theorem adds_enqueueTx (hinj : Set.InjOn E.hash T) (hv : v.Sound E.hash (senderOf E) T)
    (ht : tx ∈ T) (hr : (v.pending (senderOf E tx)).rival tx = none) :
    Adds E T [tx] v (v.enqueueTx E.hash (senderOf E) tx) := by
  rw [PoolView.enqueueTx_eq]
  split
  case isTrue _ => exact Adds.refl hv
  case isFalse _ =>
    refine ⟨hv.enlist hinj ht hr, fun he => PoolView.Exact.enlist hv he tx, rfl, rfl, ?_⟩
    rintro a t (hl | hl)
    · exact Or.inl (Or.inl hl)
    · obtain ⟨-, rfl⟩ | ⟨hl, -⟩ := PoolView.mem_enlist_queue.mp hl
      · exact Or.inr (List.mem_singleton_self _)
      · exact Or.inl (Or.inr hl)

theorem Adds.trans {v'' : PoolView} {txs' : List Transaction} (h : Adds E T txs v v')
    (h' : Adds E T txs' v' v'') : Adds E T (txs ++ txs') v v'' where
  sound   := h'.sound
  exact   := h'.exact ∘ h.exact
  pending := h'.pending.trans h.pending
  nonces  := h'.nonces.trans h.nonces
  listed hl := by
    rw [List.mem_append, ← or_assoc]
    exact (h'.listed hl).imp_left h.listed

theorem rival_of_pushed (hinj : Set.InjOn E.hash T) (hv : v.Sound E.hash (senderOf E) T)
    (hx : v.all (E.hash tx) = none) (ht : t ∈ T)
    (hf : v.all (E.hash t) = none → (v.pending (senderOf E t)).rival t = none)
    (hn : (v.enqueueTx E.hash (senderOf E) tx).all (E.hash t) = none) :
    (v.pending (senderOf E t)).rival t = none := by
  rw [PoolView.enqueueTx_eq] at hn
  split at hn
  case isTrue _ => exact hf hn
  case isFalse _ =>
    cases hs : v.all (E.hash t)
    case none   => exact hf hs
    case some s =>
      have hne : E.hash t ≠ E.hash tx := fun he => by
        rw [he, hx] at hs
        cases hs
      have hpush : ¬ ∀ q ∈ (v.queue (senderOf E tx)).rival tx, E.hash q ≠ E.hash t := fun hq => by
        rw [PoolView.enlist_all.mpr (Or.inr ⟨hne, hs, hq⟩)] at hn
        cases hn
      push Not at hpush
      obtain ⟨q, hq, he⟩ := hpush
      have hq := (TxSeq.rival_eq_some_iff.mp hq).1
      obtain ⟨hqT, hqs⟩ := hv.owned (Or.inr hq)
      obtain rfl := hinj hqT ht he
      rw [hqs]
      exact hv.rival_of_queued hq

def addAll (E : PoolEnv) (pool : TxPool) (txs : List Transaction) : TxPool :=
  txs.foldl (fun pool tx =>
    match pool.add E tx with
    | .ok pool => pool
    | .error _ => pool) pool

theorem Represents.addAll (hinj : Set.InjOn E.hash T) (h : pool.Represents v)
    (hv : v.Sound E.hash (senderOf E) T) (hT : ∀ tx ∈ txs, tx ∈ T)
    (hf : ∀ tx ∈ txs, v.all (E.hash tx) = none → (v.pending (senderOf E tx)).rival tx = none) :
    ∃ v', (pool.addAll E txs).Represents v' ∧ Adds E T txs v v' := by
  induction txs generalizing pool v
  case nil => exact ⟨v, h, Adds.refl hv⟩
  case cons tx txs hi =>
    obtain ⟨hT₁, hT⟩ := List.forall_mem_cons.mp hT
    obtain ⟨hf₁, hf⟩ := List.forall_mem_cons.mp hf
    cases he : pool.add E tx
    case error e =>
      obtain ⟨v', h', ha⟩ := hi h hv hT hf
      rw [TxPool.addAll, List.foldl_cons, he]
      exact ⟨v', h', { ha with listed := fun hl => (ha.listed hl).imp_right (List.mem_cons_of_mem _) }⟩
    case ok pool₁ =>
      obtain ⟨hx, -, rfl⟩ := add_eq_ok.mp he
      rw [h.all] at hx
      have ha₁ := adds_enqueueTx hinj hv hT₁ (hf₁ hx)
      obtain ⟨v', h', ha⟩ := hi (h.enqueueTx tx) ha₁.sound hT fun t ht hn => by
        rw [ha₁.pending]
        exact rival_of_pushed hinj hv hx (hT t ht) (hf t ht) hn
      rw [TxPool.addAll, List.foldl_cons, he]
      exact ⟨v', h', ha₁.trans ha⟩

variable {c : PoolCall}

def entry (E : PoolEnv) (pool : TxPool) : PoolCall → Option (TxPool × Accounts)
  | .add tx       =>
    match pool.add E tx, E.current with
    | .ok pool, some state => some (pool, state)
    | _, _                 => none
  | .addBatch txs => E.current.map fun state => (pool.addAll E txs, state)
  | .pending      => E.current.map fun state => (pool, state)
  | .reset        => E.current.bind fun state =>
    match rebase E pool state with
    | .ok pool => some (pool, state)
    | .error _ => none
  | _             => none

structure Enters (E : PoolEnv) (T : Set Transaction) (c : PoolCall) (state : Accounts)
    (v v' : PoolView) : Prop where
  current : E.current = some state
  sound   : v'.Sound E.hash (senderOf E) T
  exact   : v.Exact (senderOf E) → v'.Exact (senderOf E)
  listed  : ∀ {a t}, v'.Listed a t → v.Listed a t ∨ t ∈ c.txs
  keeps   : c ≠ .reset → v'.pending = v.pending ∧ v'.nonces = v.nonces
  resets  : c = .reset → Resets E T state v v'

theorem Adds.enters (h : Adds E T c.txs v v') (hc : E.current = some state) (hn : c ≠ .reset) :
    Enters E T c state v v' where
  current   := hc
  sound     := h.sound
  exact     := h.exact
  listed    := h.listed
  keeps _   := ⟨h.pending, h.nonces⟩
  resets hr := absurd hr hn

theorem Represents.entry (hinj : Set.InjOn E.hash T) (h : pool.Represents v)
    (hv : v.Sound E.hash (senderOf E) T) (hT : ∀ tx ∈ c.txs, tx ∈ T) (ha : pool.Additive E c)
    (he : pool.entry E c = some (pool', state)) :
    ∃ v', pool'.Represents v' ∧ Enters E T c state v v' := by
  have hf : ∀ tx ∈ c.txs, v.all (E.hash tx) = none →
      (v.pending (senderOf E tx)).rival tx = none := fun tx htx hx =>
    h.fresh_iff.mp (ha tx htx (by rwa [h.all]))
  cases c
  case add tx =>
    rw [TxPool.entry] at he
    split at he
    case h_1 pool₁ state' he₁ hc =>
      cases he
      obtain ⟨hx, -, rfl⟩ := add_eq_ok.mp he₁
      rw [h.all] at hx
      have htx : tx ∈ (PoolCall.add tx).txs := List.mem_singleton_self tx
      have hadds := adds_enqueueTx hinj hv (hT tx htx) (hf tx htx hx)
      exact ⟨_, h.enqueueTx tx, Adds.enters (c := .add tx) hadds hc PoolCall.noConfusion⟩
    case h_2 => cases he
  case addBatch txs =>
    obtain ⟨s, hc, hs⟩ := Option.map_eq_some_iff.mp he
    cases hs
    obtain ⟨v', h', hadds⟩ := h.addAll hinj hv hT hf
    exact ⟨v', h', Adds.enters (c := .addBatch txs) hadds hc PoolCall.noConfusion⟩
  case pending =>
    obtain ⟨s, hc, hs⟩ := Option.map_eq_some_iff.mp he
    cases hs
    exact ⟨v, h, Adds.enters (c := .pending) (Adds.refl hv) hc PoolCall.noConfusion⟩
  case reset =>
    obtain ⟨s, hc, hs⟩ := Option.bind_eq_some_iff.mp he
    split at hs
    case h_1 pool₁ he₁ =>
      cases hs
      obtain ⟨v', h', hr⟩ := h.rebase hinj hv he₁
      exact ⟨v', h', hc, hr.settles.shrinks.sound hinj hv, hr.settles.exact hv,
        fun hl => Or.inl (hr.settles.shrinks.listed hl), fun hn => absurd rfl hn, fun _ => hr⟩
    case h_2 => cases hs
  all_goals cases he

theorem lift_eq_ok {α : Type} {x : Calls α} {a : α} : lift x = .ok a ↔ x = .ok a := by
  cases x <;> simp [lift, Go.panics]

def PoolCall.Promoting (c : PoolCall) : Prop :=
  (∃ tx, c = .add tx) ∨ (∃ txs, c = .addBatch txs) ∨ c = .reset

theorem exists_entry (hp : PoolCall.Promoting c) (he : pool.call E c = .ok pool') :
    ∃ pool₁ state, pool.entry E c = some (pool₁, state) ∧
      promoteExecutables E pool₁ state = .ok pool' := by
  obtain ⟨tx, rfl⟩ | ⟨txs, rfl⟩ | rfl := hp
  · rw [call, addTx] at he
    rw [entry]
    split at he
    case h_1           => cases he
    case h_2           => cases he
    case h_3 pool₁ state he₁ hc =>
      rw [he₁, hc]
      split at he
      case h_1 pool₂ he₂ =>
        cases he
        exact ⟨pool₁, state, rfl, he₂⟩
      case h_2 => cases he
  · rw [call, addBatch] at he
    rw [entry]
    split at he
    case h_1          => cases he
    case h_2 state hc =>
      rw [hc]
      split at he
      case h_1 pool₂ he₂ =>
        cases he
        exact ⟨_, state, rfl, he₂⟩
      case h_2 => cases he
  · rw [call] at he
    rw [entry]
    cases hc : E.current
    case none =>
      rw [if_pos hc] at he
      cases he
    case some state =>
      rw [if_neg (by simp [hc]), lift_eq_ok, resetState_eq hc, Go.bind_eq_ok] at he
      obtain ⟨pool₁, he₁, he⟩ := he
      exact ⟨pool₁, state, by rw [Option.bind_some, he₁], he⟩

end

variable {E : PoolEnv} {T : Set Transaction} {state : Accounts} {pool pool' : TxPool}
  {v v' : PoolView} {c : PoolCall} {tx : Transaction}

theorem Represents.leads_iff (h : pool.Represents v) :
    pool.Leads E tx ↔ v.Strands (senderOf E tx) tx := by
  constructor
  · rintro ⟨l, hl, hm, hmin, n, t, ht, hlt⟩
    have hc := (h.pending.covers _ l hl).1
    obtain ⟨ht', rfl⟩ := hc.stores.get_iff.mp ht
    refine ⟨hc.stores.mem_iff.mp hm, fun s hs => ?_, t, ht', hlt⟩
    exact hmin s.accountNonce s (hc.stores.mem_iff.mpr hs)
  · rintro ⟨hm, hmin, t, ht, hlt⟩
    obtain ⟨l, hl⟩ := Option.ne_none_iff_exists'.mp (h.pending.mem_keys (List.ne_nil_of_mem hm))
    have hc := (h.pending.covers _ l hl).1
    refine ⟨l, hl, hc.stores.mem_iff.mpr hm, fun n s hs => ?_, t.accountNonce, t,
      hc.stores.mem_iff.mpr ht, hlt⟩
    obtain ⟨hs', rfl⟩ := hc.stores.get_iff.mp hs
    exact hmin s hs'

theorem Represents.few (h : pool.Represents v)
    (hr : GoMap.total pool.pending TxList.len + GoMap.total pool.queue TxList.len + c.txs.length ≤
      maxPendingTotal) (he : Enters E T c state v v') : Few v' := by
  obtain ⟨ps, hps, hp⟩ := h.pending.exists_list
  obtain ⟨qs, hqs, hq⟩ := h.queue.exists_list
  refine ⟨ps ++ qs ++ c.txs, ?_, fun a t ht => ?_⟩
  · rw [List.length_append, List.length_append, hps, hqs]
    exact hr
  · rw [List.mem_append, List.mem_append]
    exact (he.listed ht).imp_left (Or.imp (hp a t) (hq a t))

theorem Represents.remove (hinj : Set.InjOn E.hash T) (h : pool.Represents v)
    (hv : v.Sound E.hash (senderOf E) T) (hash : Hash) :
    ∃ v', (pool.removeTx E hash).Represents v' ∧ PoolView.Shrinks E.hash T v v' ∧
      (pool.Detachable E hash → v.Exact (senderOf E) → PoolView.Settles E.hash T v v') := by
  cases hx : v.all hash
  case none =>
    rw [h.removeTx_of_none hx]
    exact ⟨v, h, (PoolView.Settles.refl hv).shrinks, fun _ _ => PoolView.Settles.refl hv⟩
  case some tx =>
    obtain ⟨invalids, hp, h'⟩ := h.removeTx (E := E) hx
    have hr := hv.removes hinj hx hp
    have hs := hr.sheds hv (hv.known hx).1
    refine ⟨_, h', ⟨_, hs⟩, fun hd he => ⟨_, hs, hr.lossless hv (he hash tx hx) ?_⟩⟩
    rw [← h.leads_iff]
    exact hd tx (by rw [h.all, hx])

theorem Represents.removeTxs (hinj : Set.InjOn E.hash T) (h : pool.Represents v)
    (hv : v.Sound E.hash (senderOf E) T) (txs : List Transaction) :
    ∃ v', (pool.removeTxs E txs).Represents v' ∧ PoolView.Shrinks E.hash T v v' ∧
      (AllDetachable E pool txs → v.Exact (senderOf E) → PoolView.Settles E.hash T v v') := by
  induction txs generalizing pool v
  case nil =>
    exact ⟨v, h, (PoolView.Settles.refl hv).shrinks, fun _ _ => PoolView.Settles.refl hv⟩
  case cons tx txs hi =>
    obtain ⟨v₁, h₁, hs₁, hd₁⟩ := h.remove hinj hv (E.hash tx)
    have hv₁ := hs₁.sound hinj hv
    obtain ⟨v', h', hs, hd⟩ := hi h₁ hv₁
    refine ⟨v', h', hs₁.trans hs, fun hall he => ?_⟩
    have hset := hd₁ hall.1 he
    exact hset.trans (hd hall.2 (hset.exact hv he))

-- Every call keeps the contents sound, and exact under the two other conditions.
theorem Represents.call (hinj : Set.InjOn E.hash T) (h : pool.Represents v)
    (hv : v.Sound E.hash (senderOf E) T) (hT : ∀ tx ∈ c.txs, tx ∈ T) (ha : pool.Additive E c)
    (he : pool.call E c = .ok pool') :
    ∃ v', pool'.Represents v' ∧ v'.Sound E.hash (senderOf E) T ∧
      (pool.Roomy c → pool.Detaching E c → v.Exact (senderOf E) → v'.Exact (senderOf E)) := by
  have hpromote : PoolCall.Promoting c →
      (pool.Roomy c → GoMap.total pool.pending TxList.len + GoMap.total pool.queue TxList.len +
        c.txs.length ≤ maxPendingTotal) →
      ∃ v', pool'.Represents v' ∧ v'.Sound E.hash (senderOf E) T ∧
        (pool.Roomy c → pool.Detaching E c → v.Exact (senderOf E) → v'.Exact (senderOf E)) := by
    intro hp hroom
    obtain ⟨pool₁, state, hentry, he⟩ := exists_entry hp he
    obtain ⟨v₁, h₁, hen⟩ := h.entry hinj hv hT ha hentry
    obtain ⟨v', hpr⟩ := (h₁.limits hinj hen.sound state).2 pool' he
    refine ⟨v', hpr.represents, hpr.shrinks.sound hinj hen.sound, fun hr _ hex => ?_⟩
    exact (hpr.few (h.few (hroom hr) hen)).1.exact hen.sound (hen.exact hex)
  cases c
  case add tx       => exact hpromote (Or.inl ⟨tx, rfl⟩) id
  case addBatch txs => exact hpromote (Or.inr (Or.inl ⟨txs, rfl⟩)) id
  case reset        => exact hpromote (Or.inr (Or.inr rfl)) id
  case remove hash =>
    cases he
    obtain ⟨v', h', hs, hd⟩ := h.remove hinj hv hash
    exact ⟨v', h', hs.sound hinj hv, fun _ hdet hex => (hd hdet hex).exact hv hex⟩
  case removeBatch txs =>
    cases he
    obtain ⟨v', h', hs, hd⟩ := h.removeTxs hinj hv txs
    exact ⟨v', h', hs.sound hinj hv, fun _ hdet hex => (hd hdet hex).exact hv hex⟩
  case expire =>
    cases he
    obtain ⟨v', h', hs, -, -⟩ := h.expire hinj hv
    exact ⟨v', h', hs.shrinks.sound hinj hv, fun _ _ => hs.exact hv⟩
  case settings minGasPrice localTx homestead =>
    cases he
    exact ⟨v, { h with }, hv, fun _ _ => id⟩
  case pending =>
    rw [TxPool.call, refresh] at he
    split at he
    case h_1          => cases he
    case h_2 state hc =>
      split at he
      case h_2            => cases he
      case h_1 pool₂ he₂ =>
        cases he
        obtain ⟨pool₁, he₁, he₂⟩ := Go.bind_eq_ok.mp he₂
        obtain ⟨v₁, hpr⟩ := (h.limits hinj hv state).2 pool₁ he₁
        have hv₁ := hpr.shrinks.sound hinj hv
        obtain ⟨pool', v', he', h', hs, -, -⟩ := hpr.represents.demoteUnexecutables hinj hv₁ state
        cases he'.symm.trans he₂
        refine ⟨v', h', hs.shrinks.sound hinj hv₁, fun hr _ hex => hs.exact hv₁ ?_⟩
        have hen : Enters E T .pending state v v :=
          Adds.enters (c := .pending) (Adds.refl hv) hc PoolCall.noConfusion
        exact (hpr.few (h.few hr hen)).1.exact hv hex

variable {hash : Transaction → Hash} {sender : Transaction → Option Address}
  {P : PoolEnv → TxPool → PoolCall → Prop} {calls : List (PoolEnv × PoolCall)}

theorem after_cases (he : pool.after E c = .ok pool') :
    pool.call E c = .ok pool' ∨ pool' = pool := by
  rw [after] at he
  split at he
  case h_1 pool₁ hc =>
    cases he
    exact Or.inl hc
  case h_2 e hc =>
    cases he
    exact Or.inr rfl
  case h_3 hc => cases he

theorem run_induct {I : TxPool → Prop} (hs : ∀ E c pool pool', (E, c) ∈ calls → P E pool c →
      I pool → pool.after E c = .ok pool' → I pool')
    (hm : Meets P calls pool) (hi : I pool) (hr : run calls pool = .ok pool') : I pool' := by
  induction calls generalizing pool
  case nil =>
    cases hr
    exact hi
  case cons e calls ih =>
    obtain ⟨E, c⟩ := e
    obtain ⟨hp, hm⟩ := hm
    obtain ⟨pool₁, he, hr⟩ := Go.bind_eq_ok.mp hr
    exact ih (fun E c p p' h => hs E c p p' (List.mem_cons_of_mem _ h)) (hm pool₁ he)
      (hs E c pool pool₁ (List.mem_cons_self ..) hp hi he) hr

theorem meets_append {e : PoolEnv × PoolCall} (h : Meets P (calls ++ [e]) pool) :
    Meets P calls pool ∧ ∀ pool', run calls pool = .ok pool' → P e.fst pool' e.snd := by
  induction calls generalizing pool
  case nil =>
    refine ⟨trivial, fun pool' hr => ?_⟩
    cases hr
    exact h.1
  case cons e' calls ih =>
    refine ⟨⟨h.1, fun pool₁ he => (ih (h.2 pool₁ he)).1⟩, fun pool' hr => ?_⟩
    obtain ⟨pool₁, he, hr⟩ := Go.bind_eq_ok.mp hr
    exact (ih (h.2 pool₁ he)).2 pool' hr

def Fits (hash : Transaction → Hash) (sender : Transaction → Option Address)
    (calls : List (PoolEnv × PoolCall)) : Prop :=
  ∀ e ∈ calls, e.fst.hash = hash ∧ e.fst.sender = sender

def owner (sender : Transaction → Option Address) (tx : Transaction) : Address :=
  (sender tx).getD Address.zero

theorem senderOf_eq (h : E.sender = sender) : senderOf E = owner sender := by
  funext tx
  rw [senderOf, h, owner]

def Sound (hash : Transaction → Hash) (sender : Transaction → Option Address) (T : Set Transaction)
    (pool : TxPool) : Prop :=
  ∃ v, pool.Represents v ∧ v.Sound hash (owner sender) T

def Exact (hash : Transaction → Hash) (sender : Transaction → Option Address) (T : Set Transaction)
    (pool : TxPool) : Prop :=
  ∃ v, pool.Represents v ∧ v.Sound hash (owner sender) T ∧ v.Exact (owner sender)

def startView (state : Accounts) : PoolView where
  pending _ := TxSeq.nil
  queue _   := TxSeq.nil
  all _     := none
  nonces    := state.nonce

theorem lists_empty (strict : Bool) : Lists strict ∅ fun _ => TxSeq.nil where
  covers a l h := by
    cases h
  none _ _ := rfl

theorem start_represents : (start state).Represents (startView state) where
  pending := lists_empty true
  queue   := lists_empty false
  all     := AList.lookup_empty
  nonces  := rfl

theorem start_not_listed {a : Address} {tx : Transaction} : ¬ (startView state).Listed a tx := by
  rintro (h | h) <;> exact List.not_mem_nil h

variable {owner : Transaction → Address}

theorem start_sound : (startView state).Sound hash owner T where
  owned h     := absurd h start_not_listed
  known h     := by cases h
  indexed h   := absurd h start_not_listed
  apart _ _ h := absurd h List.not_mem_nil

theorem start_exact : (startView state).Exact owner := by
  intro h tx hx
  cases hx

theorem run_sound (hf : Fits hash sender calls) (hinj : Set.InjOn hash T)
    (hT : ∀ tx ∈ added calls, tx ∈ T)
    (hm : Meets (fun E pool c => pool.Additive E c) calls (start state))
    (hr : run calls (start state) = .ok pool) : pool.Sound hash sender T := by
  refine run_induct ?_ hm ⟨_, start_represents, start_sound⟩ hr
  rintro E c pool pool' hmem ha ⟨v, h, hv⟩ he
  obtain ⟨rfl, hs⟩ := hf _ hmem
  rw [← senderOf_eq hs] at hv
  obtain he | rfl := after_cases he
  · obtain ⟨v', h', hv', -⟩ := h.call hinj hv
      (fun tx htx => hT tx (List.mem_flatMap.mpr ⟨_, hmem, htx⟩)) ha he
    rw [senderOf_eq hs] at hv'
    exact ⟨v', h', hv'⟩
  · rw [senderOf_eq hs] at hv
    exact ⟨v, h, hv⟩

theorem run_exact (hf : Fits hash sender calls) (hinj : Set.InjOn hash T)
    (hT : ∀ tx ∈ added calls, tx ∈ T)
    (hm : Meets (fun E pool c => pool.Additive E c ∧ pool.Roomy c ∧ pool.Detaching E c) calls
      (start state))
    (hr : run calls (start state) = .ok pool) : pool.Exact hash sender T := by
  refine run_induct ?_ hm ⟨_, start_represents, start_sound, start_exact⟩ hr
  rintro E c pool pool' hmem ⟨ha, hroom, hdet⟩ ⟨v, h, hv, hex⟩ he
  obtain ⟨rfl, hs⟩ := hf _ hmem
  rw [← senderOf_eq hs] at hv hex
  obtain he | rfl := after_cases he
  · obtain ⟨v', h', hv', hex'⟩ := h.call hinj hv
      (fun tx htx => hT tx (List.mem_flatMap.mpr ⟨_, hmem, htx⟩)) ha he
    have hex' := hex' hroom hdet hex
    rw [senderOf_eq hs] at hv' hex'
    exact ⟨v', h', hv', hex'⟩
  · rw [senderOf_eq hs] at hv hex
    exact ⟨v, h, hv, hex⟩

end TxPool

end Core
