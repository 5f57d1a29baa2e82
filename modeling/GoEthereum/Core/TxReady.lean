import GoEthereum.Core.TxSorted

-- `Ready`: the run of nonces from the lowest stored one, and what its documentation promises.

namespace Core

open Transaction (accountNonce)

namespace TxSortedMap

section

variable {m : TxSortedMap} {s : TxSeq} {start next : UInt64} {tx : Transaction}

theorem add_one_le {a b : UInt64} (h : a < b) : a + 1 ≤ b := by
  rw [UInt64.lt_iff_toNat_lt] at h
  have hb := b.toNat_lt
  rw [UInt64.le_iff_toNat_le, UInt64.toNat_add, UInt64.toNat_one, Nat.mod_eq_of_lt (by omega)]
  exact h

theorem lt_of_add_one_le {a b c : UInt64} (hc : a < c) (h : a + 1 ≤ b) : a < b := by
  rw [UInt64.lt_iff_toNat_lt] at hc ⊢
  have hb := c.toNat_lt
  rw [UInt64.le_iff_toNat_le, UInt64.toNat_add, UInt64.toNat_one, Nat.mod_eq_of_lt (by omega)] at h
  exact h

-- A transaction is in the run from `next` on if all nonces up to its own are there.
theorem mem_take_runLength {txs : List Transaction} (hs : SortedBy accountNonce txs)
    (hn : ∀ t ∈ txs, next ≤ t.accountNonce) : tx ∈ txs.take (TxSeq.runLength next txs) ↔
    tx ∈ txs ∧ ∀ j, next ≤ j → j ≤ tx.accountNonce → j ∈ txs.map accountNonce := by
  induction txs generalizing next
  case nil => simp
  case cons t txs hi =>
    obtain ⟨ht, hs'⟩ := List.pairwise_cons.mp hs
    rw [TxSeq.runLength]
    split
    case isTrue he =>
      subst he
      rw [List.take_succ_cons, List.mem_cons, List.mem_cons, hi hs' fun t' ht' => add_one_le (ht t' ht')]
      constructor
      · rintro (rfl | ⟨hm, hj⟩)
        · refine ⟨Or.inl rfl, fun j h₁ h₂ => ?_⟩
          simp [le_antisymm h₂ h₁]
        · refine ⟨Or.inr hm, fun j h₁ h₂ => ?_⟩
          obtain rfl | hlt := eq_or_lt_of_le h₁
          · simp
          · exact List.mem_cons_of_mem _ (hj j (add_one_le hlt) h₂)
      · rintro ⟨rfl | hm, hj⟩
        · exact Or.inl rfl
        · refine Or.inr ⟨hm, fun j h₁ h₂ => ?_⟩
          have hlt := lt_of_add_one_le (ht tx hm) h₁
          exact (List.mem_cons.mp (hj j hlt.le h₂)).resolve_left hlt.ne'
    case isFalse he =>
      have hlt : next < t.accountNonce := lt_of_le_of_ne (hn t (List.mem_cons_self ..)) (Ne.symm he)
      refine ⟨fun h => absurd h List.not_mem_nil, ?_⟩
      rintro ⟨hm, hj⟩
      obtain ⟨t', ht', hj'⟩ := List.mem_map.mp (hj next (le_refl _) (hn tx hm))
      obtain rfl | ht' := List.mem_cons.mp ht'
      · exact absurd hj' he
      · exact absurd (hj' ▸ ht t' ht') hlt.asymm

-- What the documentation of `Ready` promises: everything below `start`, and the run from `start` on.
def Promised (m : TxSortedMap) (start : UInt64) (tx : Transaction) : Prop :=
  m.get tx.accountNonce = some tx ∧
  (tx.accountNonce < start ∨ ∀ j, start ≤ j → j ≤ tx.accountNonce → (m.get j).isSome)

-- The list that was returned holds what was promised, each transaction once, and that is what is
-- no longer stored.
structure AsPromised (m : TxSortedMap) (start : UInt64) (ready : List Transaction)
    (m' : TxSortedMap) : Prop where
  nodup    : ready.Nodup
  returned : ∀ tx, tx ∈ ready ↔ m.Promised start tx
  removed  : ∀ tx, m'.get tx.accountNonce = some tx ↔
    m.get tx.accountNonce = some tx ∧ ¬ m.Promised start tx

-- No nonce is missing between two stored ones that are not above `start`.
def GapFree (m : TxSortedMap) (start : UInt64) : Prop :=
  ∀ l j n, (m.get l).isSome → (m.get n).isSome → n ≤ start → l ≤ j → j ≤ n → (m.get j).isSome

variable (h : m.Stores s)
include h

theorem Stores.isSome_get_iff {n : UInt64} :
    (m.get n).isSome ↔ n ∈ s.txs.map accountNonce := by
  rw [Option.isSome_iff_exists, List.mem_map]
  exact exists_congr fun _ => h.get_iff

theorem Stores.mem_iff : m.get tx.accountNonce = some tx ↔ tx ∈ s.txs := by
  rw [h.get_iff]
  exact and_iff_left rfl

-- The returned list: the nonces up to a transaction's own are there from the lowest one on.
theorem Stores.mem_ready_iff : tx ∈ s.txs.take (s.readyLength start) ↔
    tx ∈ s.txs ∧ (∃ l ≤ start, (m.get l).isSome) ∧
      ∀ l j, (m.get l).isSome → l ≤ j → j ≤ tx.accountNonce → (m.get j).isSome := by
  simp only [h.isSome_get_iff]
  obtain ⟨txs, hs⟩ := s
  cases txs
  case nil => simp
  case cons t txs =>
    have hle : ∀ l ∈ (t :: txs).map accountNonce, t.accountNonce ≤ l := by
      intro l hl
      obtain ⟨t', ht', rfl⟩ := List.mem_map.mp hl
      obtain rfl | ht' := List.mem_cons.mp ht'
      · exact le_refl _
      · exact ((List.pairwise_cons.mp hs).1 t' ht').le
    have ht : t.accountNonce ∈ (t :: txs).map accountNonce := List.mem_cons_self ..
    simp only [TxSeq.readyLength]
    split
    case isTrue hlt =>
      refine ⟨fun h => absurd h List.not_mem_nil, ?_⟩
      rintro ⟨-, ⟨l, hl, hm⟩, -⟩
      exact absurd (lt_of_lt_of_le hlt (hle l hm)) hl.not_gt
    case isFalse hlt =>
      rw [mem_take_runLength hs fun t' ht' => hle _ (List.mem_map_of_mem ht')]
      refine and_congr_right fun _ => ⟨fun hj => ⟨⟨_, not_lt.mp hlt, ht⟩, ?_⟩, fun hj => ?_⟩
      · intro l j hl hlj
        exact hj j ((hle l hl).trans hlj)
      · exact fun j => hj.2 t.accountNonce j ht

theorem Stores.asPromised_iff {m' : TxSortedMap} (h' : m'.Stores (s.drop (s.readyLength start))) :
    m.AsPromised start (s.txs.take (s.readyLength start)) m' ↔ m.GapFree start := by
  constructor
  · intro ha l j n hl hn hle h₁ h₂
    obtain ⟨tx, hx⟩ := Option.isSome_iff_exists.mp hn
    obtain ⟨hm, rfl⟩ := h.get_iff.mp hx
    have hp : m.Promised start tx := by
      refine ⟨hx, (lt_or_eq_of_le hle).imp_right ?_⟩
      intro he j h₁ h₂
      rwa [le_antisymm h₂ (he ▸ h₁)]
    obtain ⟨-, -, hall⟩ := h.mem_ready_iff.mp ((ha.returned tx).mpr hp)
    exact hall l j hl h₁ h₂
  · intro hg
    have hr : ∀ tx, tx ∈ s.txs.take (s.readyLength start) ↔ m.Promised start tx := by
      intro tx
      rw [h.mem_ready_iff, Promised, h.mem_iff]
      refine and_congr_right fun hm => ?_
      have hsome : (m.get tx.accountNonce).isSome := by rw [h.mem_iff.mpr hm, Option.isSome_some]
      constructor
      · rintro ⟨⟨l, hl, hs⟩, hall⟩
        refine Or.inr fun j h₁ h₂ => ?_
        exact hall l j hs (hl.trans h₁) h₂
      · rintro (hlt | hall)
        · exact ⟨⟨_, hlt.le, hsome⟩, fun l j hl => hg l j _ hl hsome hlt.le⟩
        · by_cases hlt : tx.accountNonce < start
          · exact ⟨⟨_, hlt.le, hsome⟩, fun l j hl => hg l j _ hl hsome hlt.le⟩
          · have hst := hall start (le_refl _) (not_lt.mp hlt)
            refine ⟨⟨start, le_refl _, hst⟩, fun l j hl h₁ h₂ => ?_⟩
            obtain hj | hj := le_total j start
            · exact hg l j start hl hst (le_refl _) h₁ hj
            · exact hall j hj h₂
    refine ⟨(s.sorted.sublist (List.take_sublist _ _)).nodup, hr, ?_⟩
    intro tx
    rw [h'.mem_iff, h.mem_iff, ← hr tx]
    have hd := s.sorted.nodup
    rw [← List.take_append_drop (s.readyLength start) s.txs, List.nodup_append] at hd
    have hmem : tx ∈ s.txs ↔ tx ∈ s.txs.take (s.readyLength start) ∨
        tx ∈ s.txs.drop (s.readyLength start) := by
      rw [← List.mem_append, List.take_append_drop]
    rw [hmem]
    constructor
    · intro ht
      exact ⟨Or.inr ht, fun ht' => hd.2.2 tx ht' tx ht rfl⟩
    · rintro ⟨ht | ht, hn⟩
      · exact absurd ht hn
      · exact ht

end

theorem ready_asPromised_iff {ops : List Op} {outs : List Out} {m : TxSortedMap}
    (h : new.run ops = .ok (outs, m)) (start : UInt64) :
    ∃ ready m', m.ready start = .ok (ready, m') ∧
      (m.AsPromised start ready m' ↔ m.GapFree start) := by
  obtain ⟨hp, -⟩ | ⟨_, m₁, he, hs, -⟩ := stores_new.run ops
  · rw [h] at hp
    cases hp
  · rw [h] at he
    cases he
    obtain ⟨m', he, hs'⟩ := hs.ready start
    exact ⟨_, m', he, hs.asPromised_iff hs'⟩

def noncedTx (nonce : UInt64) : Transaction where
  accountNonce := nonce
  price        := 1
  gasLimit     := 21000
  recipient    := none
  amount       := 0
  payload      := []
  v            := 0
  r            := 0
  s            := 0

def sampleOps : List Op :=
  [.put (noncedTx 1), .put (noncedTx 3)]

theorem sampleOps_run : ∃ outs m, new.run sampleOps = .ok (outs, m) ∧
    m.Stores (Op.afterAll TxSeq.nil sampleOps) := by
  obtain ⟨-, t, -, hm⟩ | ⟨outs, m, he, hs, -⟩ := stores_new.run sampleOps
  · simp [sampleOps] at hm
  · exact ⟨outs, m, he, hs⟩

-- The transaction with nonce 3 is left behind.
theorem ready_leaves_old : ∃ outs m ready m', new.run sampleOps = .ok (outs, m) ∧
    m.ready 5 = .ok (ready, m') ∧ m.Promised 5 (noncedTx 3) ∧ noncedTx 3 ∉ ready ∧
    m'.get 3 = some (noncedTx 3) := by
  obtain ⟨outs, m, he, hs⟩ := sampleOps_run
  obtain ⟨m', hr, hs'⟩ := hs.ready 5
  refine ⟨outs, m, _, m', he, hr, ⟨hs.mem_iff.mpr ?_, Or.inl ?_⟩, ?_, hs'.get_iff.mpr ?_⟩
  all_goals decide

theorem ready_asPromised_iff_sample : ∃ outs m, new.run sampleOps = .ok (outs, m) ∧
    ∃ ready m', m.ready 1 = .ok (ready, m') ∧ (m.AsPromised 1 ready m' ↔ m.GapFree 1) := by
  obtain ⟨outs, m, he, -⟩ := sampleOps_run
  exact ⟨outs, m, he, ready_asPromised_iff he 1⟩

end TxSortedMap

end Core
