import GoEthereum.Core.TxReady

-- The cost cap of a transaction list covers the cost of every stored transaction.

namespace Core

open Transaction (accountNonce)

namespace TxList

section

variable {txs : List Transaction} {tx : Transaction}

theorem foldl_lower (bound : UInt64) :
    txs.foldl lower bound ≤ bound ∧ (∀ tx ∈ txs, txs.foldl lower bound ≤ tx.accountNonce) ∧
    (txs.foldl lower bound = bound ∨ ∃ tx ∈ txs, tx.accountNonce = txs.foldl lower bound) := by
  induction txs generalizing bound
  case nil => exact ⟨le_refl _, fun _ h => absurd h List.not_mem_nil, Or.inl rfl⟩
  case cons tx txs hi =>
    obtain ⟨h₁, h₂, h₃⟩ := hi (lower bound tx)
    have hl : lower bound tx ≤ bound ∧ lower bound tx ≤ tx.accountNonce ∧
        (lower bound tx = bound ∨ tx.accountNonce = lower bound tx) := by
      grind [lower]
    rw [List.foldl_cons]
    refine ⟨h₁.trans hl.1, ?_, ?_⟩
    · intro t ht
      obtain rfl | ht := List.mem_cons.mp ht
      · exact h₁.trans hl.2.1
      · exact h₂ t ht
    · obtain he | ⟨t, ht, he⟩ := h₃
      · rw [he]
        exact hl.2.2.imp_right fun h => ⟨tx, List.mem_cons_self .., h⟩
      · exact Or.inr ⟨t, List.mem_cons_of_mem _ ht, he⟩

theorem lowest_le (h : tx ∈ txs) : lowest txs ≤ tx.accountNonce :=
  (foldl_lower _).2.1 tx h

theorem exists_lowest (h : txs ≠ []) : ∃ tx ∈ txs, tx.accountNonce = lowest txs := by
  obtain he | he := (@foldl_lower txs (UInt64.ofNat (UInt64.size - 1))).2.2
  · obtain ⟨tx, ht⟩ := List.exists_mem_of_ne_nil txs h
    refine ⟨tx, ht, le_antisymm ?_ (lowest_le ht)⟩
    rw [lowest, he]
    exact Nat.le_of_lt_succ tx.accountNonce.toNat_lt
  · exact he

end

-- The list stores the transactions of a sequence, and its cap covers each of them.
structure Covers (l : TxList) (s : TxSeq) : Prop where
  stores : l.txs.Stores s
  cost   : ∀ tx ∈ s.txs, tx.cost ≤ l.costcap

theorem covers_new (strict : Bool) : (new strict).Covers TxSeq.nil :=
  ⟨TxSortedMap.stores_new, fun _ h => absurd h List.not_mem_nil⟩

structure Filtered (l : TxList) (threshold : Int) (removed invalids : List Transaction)
    (l' : TxList) : Prop where
  removed_nodup  : removed.Nodup
  invalids_nodup : invalids.Nodup
  removed_iff    : ∀ tx, tx ∈ removed ↔
    l.txs.get tx.accountNonce = some tx ∧ threshold < tx.cost
  -- Invalid is what remains above the lowest nonce of the removed ones.
  invalids_iff   : ∀ tx, tx ∈ invalids ↔
    l.strict ∧ l.txs.get tx.accountNonce = some tx ∧ tx ∉ removed ∧
      ∃ t ∈ removed, (∀ t' ∈ removed, t.accountNonce ≤ t'.accountNonce) ∧
        t.accountNonce < tx.accountNonce
  left_iff       : ∀ tx, l'.txs.get tx.accountNonce = some tx ↔
    l.txs.get tx.accountNonce = some tx ∧ tx ∉ removed ∧ tx ∉ invalids

section

variable {l : TxList} {s : TxSeq}

theorem Covers.add (h : l.Covers s) (tx : Transaction) : ∃ s', (l.add tx).snd.Covers s' := by
  rw [TxList.add]
  split
  case isTrue _ => exact ⟨s, h⟩
  case isFalse _ =>
    refine ⟨s.put tx, h.stores.put tx, fun t ht => ?_⟩
    obtain rfl | ⟨ht, -⟩ := mem_insertBy.mp ht
    · dsimp only
      split <;> omega
    · have := h.cost t ht
      dsimp only
      split <;> omega

theorem filter_mem {m : TxSortedMap} (h : m.Stores s) (ω : TxRange) (p : Transaction → Bool) :
    (m.filter ω p).fst.Nodup ∧ (∀ tx, tx ∈ (m.filter ω p).fst ↔ tx ∈ s.txs ∧ p tx) ∧
    ∀ tx, tx ∈ (s.keep fun tx => !p tx).txs ↔ tx ∈ s.txs ∧ ¬ p tx := by
  obtain ⟨hp, -⟩ := h.filter ω p
  refine ⟨hp.nodup_iff.mpr (s.sorted.filter p).nodup, fun tx => ?_, fun tx => ?_⟩
  · rw [hp.mem_iff, List.mem_filter]
  · rw [TxSeq.keep, List.mem_filter, Bool.not_eq_true, Bool.not_eq_true']

-- The transactions that exceed the threshold, and the map without them.
def exceeding (l : TxList) (ω : TxRange) (threshold : Int) : List Transaction × TxSortedMap :=
  l.txs.filter ω fun tx => tx.cost > threshold

theorem filter_eq {ω : TxRange} {threshold : Int} (hc : ¬ l.costcap ≤ threshold) :
    l.filter ω threshold =
      if l.strict ∧ (l.exceeding ω threshold).fst ≠ [] then
        let r := (l.exceeding ω threshold).snd.filter ω fun tx =>
          tx.accountNonce > lowest (l.exceeding ω threshold).fst
        (((l.exceeding ω threshold).fst, r.fst), { l with txs := r.snd, costcap := threshold })
      else
        (((l.exceeding ω threshold).fst, []),
          { l with txs := (l.exceeding ω threshold).snd, costcap := threshold }) := by
  rw [TxList.filter, if_neg hc]
  rfl

theorem filter_strict (ω : TxRange) (threshold : Int) :
    (l.filter ω threshold).snd.strict = l.strict := by
  by_cases hc : l.costcap ≤ threshold
  · rw [TxList.filter, if_pos hc]
  · rw [filter_eq hc]
    split <;> rfl

theorem Covers.filter (h : l.Covers s) (ω : TxRange) (threshold : Int) :
    l.Filtered threshold (l.filter ω threshold).fst.fst (l.filter ω threshold).fst.snd
      (l.filter ω threshold).snd ∧
    ∃ s', (l.filter ω threshold).snd.Covers s' := by
  by_cases hc : l.costcap ≤ threshold
  · -- The cap covers everything, so nothing exceeds the threshold.
    have hn : ∀ tx, l.txs.get tx.accountNonce = some tx → ¬ threshold < tx.cost := by
      intro tx ht
      have := h.cost tx (h.stores.mem_iff.mp ht)
      omega
    rw [TxList.filter, if_pos hc]
    refine ⟨⟨List.nodup_nil, List.nodup_nil, ?_, ?_, ?_⟩, s, h⟩ <;> intro tx
    · simpa using hn tx
    · simp
    · simp
  · have hs : (l.exceeding ω threshold).snd.Stores _ := (h.stores.filter ω _).2
    obtain ⟨hnd, hr, hk⟩ := filter_mem h.stores ω fun tx => tx.cost > threshold
    rw [← exceeding] at hnd hr
    simp only [decide_eq_true_eq] at hr hk
    rw [filter_eq hc]
    split
    case isTrue hst =>
      have hs' := (hs.filter ω fun tx => tx.accountNonce > lowest (l.exceeding ω threshold).fst).2
      obtain ⟨hnd', hr', hk'⟩ := filter_mem hs ω fun tx =>
        tx.accountNonce > lowest (l.exceeding ω threshold).fst
      simp only [decide_eq_true_eq, hk] at hr' hk'
      obtain ⟨t, ht, hl⟩ := exists_lowest hst.2
      refine ⟨⟨hnd, hnd', ?_, ?_, ?_⟩, _, hs', ?_⟩
      · intro tx
        rw [h.stores.mem_iff]
        exact hr tx
      · intro tx
        rw [h.stores.mem_iff, hr tx]
        refine (hr' tx).trans ⟨?_, ?_⟩
        · rintro ⟨⟨hm, hn⟩, hgt⟩
          exact ⟨hst.1, hm, fun hc => hn hc.2, t, ht, fun t' ht' => hl ▸ lowest_le ht', hl ▸ hgt⟩
        · rintro ⟨-, hm, hn, t₁, ht₁, -, hlt⟩
          exact ⟨⟨hm, fun hc => hn ⟨hm, hc⟩⟩, lt_of_le_of_lt (lowest_le ht₁) hlt⟩
      · intro tx
        rw [h.stores.mem_iff, hr tx]
        refine hs'.mem_iff.trans ((hk' tx).trans ?_)
        have := hr' tx
        tauto
      · intro tx ht
        exact not_lt.mp ((hk' tx).mp ht).1.2
    case isFalse hst =>
      refine ⟨⟨hnd, List.nodup_nil, ?_, ?_, ?_⟩, _, hs, ?_⟩
      · intro tx
        rw [h.stores.mem_iff]
        exact hr tx
      · intro tx
        refine ⟨fun h => absurd h List.not_mem_nil, ?_⟩
        rintro ⟨hst', -, -, t, ht, -⟩
        exact absurd ⟨hst', List.ne_nil_of_mem ht⟩ hst
      · intro tx
        rw [h.stores.mem_iff, hr tx]
        refine hs.mem_iff.trans ((hk tx).trans ?_)
        tauto
      · intro tx ht
        exact not_lt.mp ((hk tx).mp ht).2

end

inductive Op
  | add (tx : Transaction)
  | forward (threshold : UInt64)
  | filter (ω : TxRange) (threshold : Int)
  | cap (threshold : Int)
  | remove (ω : TxRange) (tx : Transaction)
  | ready (start : UInt64)

def step (l : TxList) : Op → Calls TxList
  | .add tx      => .ok (l.add tx).snd
  | .forward t   => Prod.snd <$> l.forward t
  | .filter ω t  => .ok (l.filter ω t).snd
  | .cap t       => Prod.snd <$> l.cap t
  | .remove ω tx => .ok (l.remove ω tx).snd
  | .ready start => Prod.snd <$> l.ready start

def run (l : TxList) (ops : List Op) : Calls TxList :=
  ops.foldlM step l

section

variable {l : TxList} {s : TxSeq}

variable (h : l.Covers s)
include h

theorem Covers.with_txs {m : TxSortedMap} {s' : TxSeq} (hs : m.Stores s')
    (hm : s'.txs ⊆ s.txs) : { l with txs := m }.Covers s' :=
  ⟨hs, fun tx ht => h.cost tx (hm ht)⟩

theorem Covers.remove (ω : TxRange) (tx : Transaction) :
    ∃ s', (l.remove ω tx).snd.Covers s' ∧ (l.remove ω tx).snd.strict = l.strict := by
  obtain ⟨-, hs⟩ := h.stores.remove tx.accountNonce
  have hm := List.filter_subset_self (p := fun t => decide (t.accountNonce ≠ tx.accountNonce)) s.txs
  rw [TxList.remove]
  split
  case h_1 _ => exact ⟨s, h, rfl⟩
  case h_2 txs he =>
    rw [he] at hs
    split
    case isTrue _ =>
      obtain ⟨-, hs'⟩ := hs.filter ω fun t => t.accountNonce > tx.accountNonce
      exact ⟨_, h.with_txs hs' (List.Subset.trans (List.filter_subset_self _) hm), rfl⟩
    case isFalse _ => exact ⟨_, h.with_txs hs hm, rfl⟩

theorem Covers.step (op : Op) : (l.step op = Go.panics ∧ ∃ t < 0, op = .cap t) ∨
    ∃ l' s', l.step op = .ok l' ∧ l'.Covers s' ∧ l'.strict = l.strict := by
  cases op
  case add tx =>
    obtain ⟨s', hc⟩ := h.add tx
    refine Or.inr ⟨_, s', rfl, hc, ?_⟩
    rw [TxList.add]
    split <;> rfl
  case forward t =>
    obtain ⟨m', he, hs⟩ := h.stores.forward t
    refine Or.inr ⟨{ l with txs := m' }, _, ?_, h.with_txs hs (List.filter_subset_self _), rfl⟩
    rw [TxList.step, TxList.forward, he]
    rfl
  case filter ω t =>
    obtain ⟨-, s', hc⟩ := h.filter ω t
    exact Or.inr ⟨_, s', rfl, hc, filter_strict ω t⟩
  case cap t =>
    by_cases ht : t < 0
    · refine Or.inl ⟨?_, t, ht, rfl⟩
      rw [TxList.step, TxList.cap, h.stores.cap_of_neg ht]
      rfl
    · obtain ⟨n, rfl⟩ := Int.eq_ofNat_of_zero_le (not_lt.mp ht)
      obtain ⟨m', he, hs⟩ := h.stores.cap n
      refine Or.inr ⟨{ l with txs := m' }, _, ?_, h.with_txs hs (List.take_subset _ _), rfl⟩
      rw [TxList.step, TxList.cap, he]
      rfl
  case remove ω tx =>
    obtain ⟨s', hc, hst⟩ := h.remove ω tx
    exact Or.inr ⟨_, s', rfl, hc, hst⟩
  case ready start =>
    obtain ⟨m', he, hs⟩ := h.stores.ready start
    refine Or.inr ⟨{ l with txs := m' }, _, ?_, h.with_txs hs (List.drop_subset _ _), rfl⟩
    rw [TxList.step, TxList.ready, he]
    rfl

theorem Covers.run (ops : List Op) :
    (l.run ops = Go.panics ∧ ∃ t < 0, Op.cap t ∈ ops) ∨
    ∃ l' s', l.run ops = .ok l' ∧ l'.Covers s' ∧ l'.strict = l.strict := by
  induction ops generalizing l s
  case nil => exact Or.inr ⟨l, s, rfl, h, rfl⟩
  case cons op ops hi =>
    rw [TxList.run, List.foldlM_cons]
    obtain ⟨hp, t, ht, rfl⟩ | ⟨l₁, s₁, he, hc, hst⟩ := h.step op
    · refine Or.inl ⟨?_, t, ht, List.mem_cons_self ..⟩
      rw [hp]
      rfl
    · rw [he, ← hst]
      refine (hi hc).imp_left ?_
      rintro ⟨hp, t, ht, hm⟩
      exact ⟨hp, t, ht, List.mem_cons_of_mem _ hm⟩

end

-- In every list that calls can build, up to a call of `Cap` with a negative limit, the cap covers
-- every stored transaction, and `Filter` takes exactly what exceeds its threshold.
theorem run_filtered (strict : Bool) (ops : List Op) :
    ((new strict).run ops = Go.panics ∧ ∃ t < 0, Op.cap t ∈ ops) ∨
    ∃ l, (new strict).run ops = .ok l ∧ l.strict = strict ∧
      (∀ n tx, l.txs.get n = some tx → tx.cost ≤ l.costcap) ∧
      ∀ ω threshold, l.Filtered threshold (l.filter ω threshold).fst.fst
        (l.filter ω threshold).fst.snd (l.filter ω threshold).snd := by
  refine ((covers_new strict).run ops).imp_right ?_
  rintro ⟨l, s, he, hc, hst⟩
  refine ⟨l, he, hst, ?_, fun ω threshold => (hc.filter ω threshold).1⟩
  intro n tx ht
  exact hc.cost tx (hc.stores.get_iff.mp ht).1

end TxList

end Core
