import GoEthereum.Core.PoolLimits

-- The index of the pool and its lists.

namespace Core

open Common

namespace TxPool

variable {hash : Transaction → Hash} {sender : Transaction → Option Address}
  {calls : List (PoolEnv × PoolCall)} {pool : TxPool} {state : Accounts} {v : PoolView}
  {tx : Transaction}

def Held (p : GoMap Address TxList) (tx : Transaction) : Prop :=
  ∃ a l, p.lookup a = some l ∧ l.txs.get tx.accountNonce = some tx

-- The index contains exactly the transactions in the lists, and none is in two of them.
structure Indexed (hash : Transaction → Hash) (pool : TxPool) : Prop where
  index    : ∀ h tx, pool.all.lookup h = some tx ↔
    hash tx = h ∧ (Held pool.pending tx ∨ Held pool.queue tx)
  disjoint : ∀ tx, ¬ (Held pool.pending tx ∧ Held pool.queue tx)

theorem Lists.held_iff {strict : Bool} {p : GoMap Address TxList} {s : Address → TxSeq}
    (h : Lists strict p s) : Held p tx ↔ ∃ a, tx ∈ (s a).txs := by
  constructor
  · rintro ⟨a, l, hl, ht⟩
    exact ⟨a, (h.covers a l hl).1.stores.mem_iff.mp ht⟩
  · rintro ⟨a, ht⟩
    obtain ⟨l, hl⟩ := Option.ne_none_iff_exists'.mp (h.mem_keys (List.ne_nil_of_mem ht))
    exact ⟨a, l, hl, (h.covers a l hl).1.stores.mem_iff.mpr ht⟩

theorem Represents.indexed {owner : Transaction → Address} {T : Set Transaction}
    (h : pool.Represents v) (hv : v.Sound hash owner T) (he : v.Exact owner) : Indexed hash pool where
  index x tx := by
    rw [h.all, h.pending.held_iff, h.queue.held_iff, ← exists_or]
    constructor
    · exact fun hx => ⟨(hv.known hx).2, owner tx, he x tx hx⟩
    · rintro ⟨rfl, a, hl⟩
      exact hv.indexed hl
  disjoint tx := by
    rw [h.pending.held_iff, h.queue.held_iff]
    rintro ⟨⟨a, hp⟩, b, hq⟩
    obtain rfl := (hv.owned (Or.inl hp)).2.symm.trans (hv.owned (Or.inr hq)).2
    exact hv.apart a tx hp tx hq rfl

theorem not_held_of_length {p : GoMap Address TxList} (h : p.entries.length = 0) : ¬ Held p tx := by
  rintro ⟨a, l, hl, -⟩
  have hm := AList.mem_lookup_iff.mp hl
  rw [List.length_eq_zero_iff.mp h] at hm
  cases hm

-- In a run in which no new transaction has the nonce of a pending one, the pending limit is not
-- reached, and no transaction is removed from before others of its account.
theorem run_indexed (hf : Fits hash sender calls)
    (hinj : Set.InjOn hash {tx | tx ∈ added calls})
    (hm : Meets (fun E pool c => pool.Additive E c ∧ pool.Roomy c ∧ pool.Detaching E c) calls
      (start state))
    (hr : run calls (start state) = .ok pool) : Indexed hash pool := by
  obtain ⟨v, h, hv, he⟩ := run_exact hf hinj (fun _ ht => ht) hm hr
  exact h.indexed hv he

def sampleCalls : List (PoolEnv × PoolCall) :=
  [(pooledEnv, .addBatch [pooledTx 0 0, pooledTx 0 1])]

theorem sampleCalls_run : ∃ pool, run sampleCalls (start richState) = .ok pool :=
  ⟨_, rfl⟩

theorem run_indexed_sample : ∃ pool, run sampleCalls (start richState) = .ok pool ∧
    Indexed pooledHash pool := by
  obtain ⟨pool, hr⟩ := sampleCalls_run
  refine ⟨pool, hr, @run_indexed pooledHash pooledSender sampleCalls pool richState (fun e he => ?_)
    (pooledHash_injOn.mono fun t ht => ?_) ⟨⟨fun _ _ _ l hl => ?_, ?_, trivial⟩, fun _ _ => trivial⟩ hr⟩
  · rw [List.mem_singleton.mp he]
    exact ⟨rfl, rfl⟩
  · change t ∈ [pooledTx 0 0, pooledTx 0 1] at ht
    simp only [List.mem_cons, List.not_mem_nil, or_false] at ht
    obtain rfl | rfl := ht <;> exact ⟨0, _, by decide, rfl⟩
  · cases hl
  · show 0 + 0 + 2 ≤ 4096
    decide

def strandingCalls : List (PoolEnv × PoolCall) :=
  sampleCalls ++ [(pooledEnv, .remove (pooledHash (pooledTx 0 0)))]

-- The second transaction leaves the lists together with the first one, and stays known.
theorem run_strands : ∃ pool, run strandingCalls (start richState) = .ok pool ∧
    ¬ Indexed pooledHash pool := by
  have hs : (run strandingCalls (start richState)).map (fun pool =>
      (pool.all.lookup (pooledHash (pooledTx 0 1)), pool.pending.entries.length,
        pool.queue.entries.length)) = .ok (some (pooledTx 0 1), 0, 0) := by
    decide +kernel
  cases hr : run strandingCalls (start richState)
  case error e =>
    rw [hr] at hs
    cases hs
  case ok pool =>
    rw [hr] at hs
    obtain ⟨hall, hp, hq⟩ : pool.all.lookup (pooledHash (pooledTx 0 1)) = some (pooledTx 0 1) ∧
        pool.pending.entries.length = 0 ∧ pool.queue.entries.length = 0 := by
      simpa [Except.map] using hs
    refine ⟨pool, rfl, fun hi => ?_⟩
    obtain ⟨-, h | h⟩ := (hi.index _ _).mp hall
    · exact not_held_of_length hp h
    · exact not_held_of_length hq h

end TxPool

end Core
