import GoEthereum.Core.TxLevel

-- The limit on pending transactions cuts the accounts that send the most, all to the same length.

namespace Core

open Common
open Transaction (accountNonce)

namespace TxPool

section

variable {p p' : GoMap Address TxList} {c : Address → TxSeq} {E : PoolEnv}
  {isLocal : Transaction → Bool} {a b : Address}

def Local (isLocal : Transaction → Bool) (c : Address → TxSeq) (a : Address) : Prop :=
  ∀ tx ∈ (c a).txs, isLocal tx

def Remote (isLocal : Transaction → Bool) (c : Address → TxSeq) (a : Address) : Prop :=
  ∀ tx ∈ (c a).txs, ¬ isLocal tx

-- The transactions of an account are either all local or all remote.
def Uniform (isLocal : Transaction → Bool) (c : Address → TxSeq) : Prop :=
  ∀ a, Local isLocal c a ∨ Remote isLocal c a

def Ranked (isLocal : Transaction → Bool) (c : Address → TxSeq) : Prop :=
  ∀ a b, Remote isLocal c a → Remote isLocal c b → minPendingPerAccount < size c a →
    minPendingPerAccount < size c b →
    SinglePrecision.round (size c a) = SinglePrecision.round (size c b) → size c a = size c b

structure Fair (isLocal : Transaction → Bool) (c c' : Address → TxSeq) (p' : GoMap Address TxList) :
    Prop where
  contains : Contains p' c'
  small    : ∀ a, size c a ≤ minPendingPerAccount → c' a = c a
  locals   : ∀ a, Local isLocal c a → c' a = c a
  floor    : ∀ a, size c' a < size c a → minPendingPerAccount ≤ size c' a
  lowest   : ∀ a, ∃ n, c' a = (c a).take n
  equal    : ∀ a b, size c' a < size c a → size c' b < size c b → size c' a = size c' b
  uncut    : ∀ a b, size c' a < size c a → size c' b = size c b → Remote isLocal c b →
    size c b ≤ size c' a
  total    : GoMap.total p' TxList.len ≤ maxPendingTotal ∨
    ∀ a, Remote isLocal c a → size c' a ≤ minPendingPerAccount

theorem isSpammer_iff {txRange : TxRange} {l : TxList} (h : l.txs.Stores (c a))
    (hu : Uniform isLocal c) : isSpammer txRange isLocal l ↔
      minPendingPerAccount < size c a ∧ Remote isLocal c a := by
  have hlen : l.len = size c a := h.len_eq
  have hrange := h.indexes.holds.range_snd txRange
  rw [isSpammer, hlen, Bool.and_eq_true, decide_eq_true_eq]
  refine and_congr_right fun hgt => ?_
  cases hl : txRange.list l.txs.items
  case nil =>
    rw [hl] at hrange
    rw [size, hrange.nil_eq.symm] at hgt
    cases hgt
  case cons e es =>
    obtain ⟨n, tx⟩ := e
    have hmem : tx ∈ (c a).txs := by
      rw [← hrange.mem_iff, hl]
      exact List.mem_cons_self ..
    obtain hloc | hrem := hu a
    · have ht := hloc tx hmem
      simp only [ht, Bool.not_true, Bool.false_eq_true, false_iff]
      exact fun hrem => hrem tx hmem ht
    · simpa [hrem tx hmem] using hrem

theorem mem_spammers (h : Contains p c) (hu : Uniform isLocal c) : a ∈ spammers E isLocal p ↔
    minPendingPerAccount < size c a ∧ Remote isLocal c a := by
  rw [spammers, (E.sorting.perm _ _).mem_iff, List.mem_map]
  constructor
  · rintro ⟨⟨x, l⟩, he, rfl⟩
    obtain ⟨hl, hsp⟩ := List.mem_filter.mp he
    exact (isSpammer_iff (h.stores x l (E.range.mem_list.mp hl)) hu).mp hsp
  · intro hsp
    cases hl : p.lookup a
    case none =>
      rw [size, h.none a hl] at hsp
      exact absurd hsp.1 (Nat.not_lt_zero _)
    case some l =>
      refine ⟨(a, l), List.mem_filter.mpr ⟨E.range.mem_list.mpr hl, ?_⟩, rfl⟩
      exact (isSpammer_iff (h.stores a l hl) hu).mpr hsp

theorem spammers_nodup : (spammers E isLocal p).Nodup := by
  rw [spammers, (E.sorting.perm _ _).nodup_iff]
  exact (E.range.nodup_fst p).sublist (List.filter_sublist.map Prod.fst)

theorem spammers_sorted (h : Contains p c) : (spammers E isLocal p).Pairwise fun a b =>
    SinglePrecision.round (size c b) ≤ SinglePrecision.round (size c a) := by
  refine (E.sorting.sorted _ _).imp fun {a b} hab => ?_
  rw [h.lenAt_eq, h.lenAt_eq] at hab
  omega

theorem fair_of_ranked (h : Contains p c) (hu : Uniform isLocal c) (hr : Ranked isLocal c) :
    ∃ p' c', limitPending E isLocal p = .ok p' ∧ Fair isLocal c c' p' := by
  have hmem : ∀ a, a ∈ spammers E isLocal p ↔ _ := fun a => mem_spammers h hu
  have hs : (spammers E isLocal p).Pairwise fun a b => size c b ≤ size c a := by
    refine (spammers_sorted h).imp_of_mem fun {a b} ha hb hab => ?_
    obtain ⟨ha, ha'⟩ := (hmem a).mp ha
    obtain ⟨hb, hb'⟩ := (hmem b).mp hb
    by_contra hlt
    have hmono := SinglePrecision.round_mono (not_le.mp hlt).le
    exact hlt (hr a b ha' hb' ha hb (le_antisymm hmono hab)).ge
  obtain ⟨level, p', he, ht, hle, hend⟩ := limitPending_levels h spammers_nodup hs
    fun a ha => ((hmem a).mp ha).1
  have hsize : ∀ a, size (trim c (lowered c (spammers E isLocal p) level)) a =
      lowered c (spammers E isLocal p) level a := fun a => by
    rw [← ht.contains.lenAt_eq, ht.lenAt_eq]
  have hsame : ∀ a, lowered c (spammers E isLocal p) level a = size c a →
      trim c (lowered c (spammers E isLocal p) level) a = c a := fun a ha => by
    rw [trim, ha]
    exact TxSeq.ext List.take_length
  have hcut : ∀ a, lowered c (spammers E isLocal p) level a < size c a →
      lowered c (spammers E isLocal p) level a = level := fun a ha => by
    grind [lowered]
  have hout : ∀ a, a ∉ spammers E isLocal p → lowered c (spammers E isLocal p) level a = size c a :=
    fun a ha => if_neg ha
  -- An account that is not a spammer is small or local.
  have hsmall : ∀ a, a ∉ spammers E isLocal p → Remote isLocal c a →
      size c a ≤ minPendingPerAccount := fun a ha hrem => by
    rw [hmem] at ha
    exact not_lt.mp fun hlt => ha ⟨hlt, hrem⟩
  refine ⟨p', trim c (lowered c (spammers E isLocal p) level), he, ?_⟩
  constructor
  case contains => exact ht.contains
  case small =>
    intro a ha
    exact hsame a (lowered_of_le (ha.trans hle))
  case locals =>
    intro a ha
    refine hsame a (hout a fun hsp => ?_)
    obtain ⟨hlt, hrem⟩ := (hmem a).mp hsp
    obtain ⟨tx, htx⟩ := List.exists_mem_of_length_pos (Nat.zero_lt_of_lt hlt)
    exact hrem tx htx (ha tx htx)
  case floor =>
    intro a ha
    rw [hsize] at ha ⊢
    rwa [hcut a ha]
  case lowest => exact fun a => ⟨_, rfl⟩
  case equal =>
    intro a b ha hb
    rw [hsize] at ha hb ⊢
    rw [hsize, hcut a ha, hcut b hb]
  case uncut =>
    intro a b ha hb hrem
    rw [hsize] at ha hb ⊢
    rw [hcut a ha]
    by_cases hsp : b ∈ spammers E isLocal p
    · rw [lowered, if_pos hsp] at hb
      exact hb ▸ Nat.min_le_right _ _
    · exact (hsmall b hsp hrem).trans hle
  case total =>
    refine hend.imp_right fun hlev a hrem => ?_
    rw [hsize]
    by_cases hsp : a ∈ spammers E isLocal p
    · rw [lowered, if_pos hsp, hlev a hsp]
      exact Nat.min_le_right _ _
    · rw [hout a hsp]
      exact hsmall a hsp hrem

end

section

variable {p : GoMap Address TxList} {c : Address → TxSeq} {f : Address → Nat} {a b : Address}
  {E : PoolEnv} {isLocal : Transaction → Bool}

structure Popping (c : Address → TxSeq) (f : Address → Nat) (O rest : List Address)
    (p : GoMap Address TxList) : Prop where
  trims : Trims c f p
  nodup : (O.reverse ++ rest).Nodup
  fresh : ∀ a, a ∉ O → f a = size c a

variable {O rest : List Address} {count : Nat}

theorem Popping.offenders_nodup (h : Popping c f O rest p) : O.Nodup :=
  List.nodup_reverse.mp (List.nodup_append.mp h.nodup).1

theorem Popping.notMem (h : Popping c f O rest p) (ha : a ∈ rest) : a ∉ O :=
  fun ho => (List.nodup_append.mp h.nodup).2.2 a (List.mem_reverse.mpr ho) a ha rfl

theorem Popping.pop {o : Address} (h : Popping c f O (o :: rest) p)
    (hc : count = GoMap.total p TxList.len) (hgt : maxPendingTotal < count) :
    equalize (o :: rest) O count p = Go.panics ∨
    ∃ n p', equalize (o :: rest) O count p =
        equalize rest (o :: O) (GoMap.total p' TxList.len) p' ∧
      Popping c (cut n O f) (o :: O) rest p' ∧ ∀ a ∈ O, n ≤ f a := by
  have hn : ((o :: O).reverse ++ rest).Nodup := by
    have := h.nodup
    rwa [List.reverse_cons, List.append_assoc]
  cases O
  case nil =>
    refine Or.inr ⟨0, p, ?_, ⟨?_, hn, ?_⟩, fun _ ha => absurd ha List.not_mem_nil⟩
    · rw [equalize, if_pos hgt, hc]
    · exact h.trims
    · exact fun a _ => h.fresh a List.not_mem_nil
  case cons last O =>
    obtain ⟨hp, -⟩ | ⟨n, p', he, hr⟩ := @equalize_cons p c f o last rest O _ h.trims
      h.offenders_nodup hc hgt
    · exact Or.inl hp
    · refine Or.inr ⟨n, p', he, ⟨hr.trims, hn, fun a ha => ?_⟩, hr.le⟩
      have ha' : a ∉ last :: O := fun h => ha (List.mem_cons_of_mem _ h)
      rw [cut, if_neg ha']
      exact h.fresh a ha'

-- Both accounts are offenders, and the one that was longer still is. Either both have been cut, or
-- there will be another round.
structure Apart (c : Address → TxSeq) (f : Address → Nat) (a b : Address) (O : List Address) :
    Prop where
  left  : a ∈ O
  right : b ∈ O
  lt    : f a < f b
  phase : f a < size c a ∧ f b < size c b ∨
    f b = size c b ∧ ∀ last ∈ O.head?, minPendingPerAccount < f last

theorem Trims.le_total (h : Trims c f p) (a : Address) : f a ≤ GoMap.total p TxList.len := by
  rw [← h.lenAt_eq]
  cases hl : p.lookup a
  case none   => simp [lenAt, hl]
  case some l => simpa [lenAt, hl] using GoMap.le_total hl

theorem Apart.popAll (h : Popping c f O rest p) (hap : Apart c f a b O)
    (hmin : ∀ a ∈ rest, minPendingPerAccount < size c a) (hc : count = GoMap.total p TxList.len) :
    equalize rest O count p = Go.panics ∨
    ∃ f' O' p', equalize rest O count p = .ok (O', GoMap.total p' TxList.len, p') ∧
      Popping c f' O' [] p' ∧ Apart c f' a b O' := by
  induction rest generalizing O f p count
  case nil => exact Or.inr ⟨f, O, p, by rw [equalize, hc], h, hap⟩
  case cons o rest hi =>
    by_cases hgt : maxPendingTotal < count
    · obtain hp | ⟨n, p', he, hpop, hle⟩ := h.pop hc hgt
      · exact Or.inl hp
      · have ha : cut n O f a = f a - n := if_pos hap.left
        have hb' : cut n O f b = f b - n := if_pos hap.right
        have hna := hle a hap.left
        have hsa := h.trims.le a
        have hsb := h.trims.le b
        have hlt := hap.lt
        rw [he]
        refine hi hpop ⟨List.mem_cons_of_mem _ hap.left, List.mem_cons_of_mem _ hap.right, ?_, ?_⟩
          (fun x hx => hmin x (List.mem_cons_of_mem _ hx)) rfl
        · omega
        · obtain rfl | hn := Nat.eq_zero_or_pos n
          · refine hap.phase.imp (by omega) ?_
            rintro ⟨hfb, -⟩
            refine ⟨by omega, fun last hl => ?_⟩
            cases hl
            have ho := h.notMem (List.mem_cons_self ..)
            rw [cut, if_neg ho, h.fresh o ho]
            exact hmin o (List.mem_cons_self ..)
          · exact Or.inl (by omega)
    · refine Or.inr ⟨f, O, p, ?_, ⟨h.trims, ?_, h.fresh⟩, hap⟩
      · rw [equalize_of_le (not_lt.mp hgt), hc]
      · rw [List.append_nil]
        exact (List.nodup_append.mp h.nodup).1

theorem Popping.popApart {O mid rest : List Address} (h : Popping c f O (mid ++ b :: rest) p)
    (ha : a ∈ O ∨ a ∈ mid) (hlt : size c a < size c b) (hb : maxPendingTotal < size c b)
    (hmin : ∀ a ∈ mid ++ b :: rest, minPendingPerAccount < size c a)
    (hc : count = GoMap.total p TxList.len) :
    equalize (mid ++ b :: rest) O count p = Go.panics ∨
    ∃ f' O' p', equalize (mid ++ b :: rest) O count p = .ok (O', GoMap.total p' TxList.len, p') ∧
      Popping c f' O' [] p' ∧ Apart c f' a b O' := by
  have hbO : b ∉ O := h.notMem (List.mem_append_right _ (List.mem_cons_self ..))
  have hgt : maxPendingTotal < count := by
    have := h.trims.le_total b
    rw [h.fresh b hbO] at this
    omega
  induction mid generalizing O f p count
  case nil =>
    obtain hp | ⟨n, p', he, hpop, hle⟩ := h.pop hc hgt
    · exact Or.inl hp
    · have haO := ha.resolve_right List.not_mem_nil
      have hfa : cut n O f a = f a - n := if_pos haO
      have hfb : cut n O f b = size c b := by rw [cut, if_neg hbO, h.fresh b hbO]
      have hsa := h.trims.le a
      rw [List.nil_append, he]
      refine Apart.popAll hpop ⟨List.mem_cons_of_mem _ haO, List.mem_cons_self .., ?_, Or.inr ⟨hfb, ?_⟩⟩
        (fun x hx => hmin x (List.mem_cons_of_mem _ hx)) rfl
      · omega
      · intro last hl
        cases hl
        rw [hfb]
        exact hmin b (List.mem_cons_self ..)
  case cons o mid hi =>
    rw [List.cons_append] at h ⊢
    obtain hp | ⟨n, p', he, hpop, hle⟩ := h.pop hc hgt
    · exact Or.inl hp
    · have hbo : b ∉ o :: O := hpop.notMem (List.mem_append_right _ (List.mem_cons_self ..))
      have hgt' : maxPendingTotal < GoMap.total p' TxList.len := by
        have := hpop.trims.le_total b
        rw [hpop.fresh b hbo] at this
        omega
      rw [he]
      refine hi hpop ?_ (fun x hx => hmin x (List.mem_cons_of_mem _ hx)) rfl hbo hgt'
      obtain ha | ha := ha
      · exact Or.inl (List.mem_cons_of_mem _ ha)
      · obtain rfl | ha := List.mem_cons.mp ha
        · exact Or.inl (List.mem_cons_self ..)
        · exact Or.inr ha

-- An account that comes before a longer one ends with fewer transactions, and both are cut.
theorem limitPending_apart {before rest : List Address} (h : Contains p c)
    (ho : spammers E isLocal p = before ++ b :: rest) (ha : a ∈ before)
    (hmin : ∀ a ∈ spammers E isLocal p, minPendingPerAccount < size c a)
    (hlt : size c a < size c b) (hb : maxPendingTotal < size c b) :
    limitPending E isLocal p = Go.panics ∨
    ∃ f p', limitPending E isLocal p = .ok p' ∧ Trims c f p' ∧ f a < f b ∧ f a < size c a ∧
      f b < size c b := by
  have hpop : Popping c (size c) [] (spammers E isLocal p) p :=
    ⟨h.trims, spammers_nodup, fun _ _ => rfl⟩
  have hgt : maxPendingTotal < GoMap.total p TxList.len := by
    have := h.trims.le_total b
    omega
  rw [limitPending]
  rw [if_pos hgt, ho]
  rw [ho] at hpop hmin
  obtain hp | ⟨f, O, p', he, hpop', hap⟩ := hpop.popApart (Or.inr ha) hlt hb hmin rfl
  · refine Or.inl ?_
    rw [hp]
    rfl
  · simp only [he, Go.ok_bind]
    cases O
    case nil => exact absurd hap.left List.not_mem_nil
    case cons last O =>
      simp only [hpop'.trims.lenAt_eq]
      obtain ⟨hp, -⟩ | ⟨n, p'', he', hr⟩ := @cutLoop_cases _ _ _ _ last minPendingPerAccount _ _
        hpop'.trims (List.nodup_reverse.mpr hpop'.offenders_nodup)
        (List.mem_reverse.mpr (List.mem_cons_self ..)) (le_refl _) rfl
      · refine Or.inl ?_
        rw [hp]
        rfl
      · simp only [he', Go.ok_bind]
        have hfa : cut n (last :: O).reverse f a = f a - n := if_pos (List.mem_reverse.mpr hap.left)
        have hfb : cut n (last :: O).reverse f b = f b - n := if_pos (List.mem_reverse.mpr hap.right)
        have hna := hr.le a (List.mem_reverse.mpr hap.left)
        have hlt' := hap.lt
        have hsa := hpop'.trims.le a
        have hsb := hpop'.trims.le b
        have hrounds : 0 < n ∨ f a < size c a ∧ f b < size c b := by
          refine hap.phase.symm.imp_left ?_
          rintro ⟨hfb, hlast⟩
          refine hr.starts ?_ (hlast last rfl)
          have := hpop'.trims.le_total b
          omega
        refine Or.inr ⟨_, p'', rfl, hr.trims, ?_⟩
        omega

def favour (first : Address) (key : Address → Int) (x y : Address) : Prop :=
  key x < key y ∨ key x = key y ∧ (x = first ∨ y ≠ first)

instance decidableFavour (first : Address) (key : Address → Int) : DecidableRel (favour first key) :=
  fun x y => inferInstanceAs (Decidable (key x < key y ∨ key x = key y ∧ (x = first ∨ y ≠ first)))

theorem favour_sorted (first : Address) (key : Address → Int) (l : List Address) :
    (l.insertionSort (favour first key)).Pairwise (favour first key) := by
  have : Std.Total (favour first key) := ⟨fun x y => by
    unfold favour
    grind⟩
  have : IsTrans Address (favour first key) := ⟨fun x y z => by
    unfold favour
    grind⟩
  exact List.pairwise_insertionSort (favour first key) l

def favouring (first : Address) : Sorting where
  list key l   := l.insertionSort (favour first key)
  perm key l   := List.perm_insertionSort (favour first key) l
  sorted key l := (favour_sorted first key l).imp fun h => h.elim le_of_lt fun h => h.1.le

-- Surroundings in which maps are read in the order of their entries.
def plainEnv (sorting : Sorting) : PoolEnv where
  hash _   := Hash.zero
  sender _ := none
  current  := none
  gasLimit := 0
  now      := 0
  txRange  := ⟨fun m => m.entries.map fun e => (e.fst, e.snd), fun _ => List.Perm.refl _⟩
  range    := ⟨fun m => m.entries.map fun e => (e.fst, e.snd), fun _ => List.Perm.refl _⟩
  sorting  := sorting

-- Two lists of different lengths whose priorities are the same can be taken in the wrong order.
theorem exists_unfair (h : Contains p c) (hu : Uniform isLocal c) (ha : Remote isLocal c a)
    (hb : Remote isLocal c b) (hma : minPendingPerAccount < size c a) (hlt : size c a < size c b)
    (heq : SinglePrecision.round (size c a) = SinglePrecision.round (size c b)) :
    ∃ E, ¬ ∃ p' c', limitPending E isLocal p = .ok p' ∧ Fair isLocal c c' p' := by
  have hbig : maxPendingTotal < size c b := by
    by_contra hle
    have hs : size c b < 2 ^ SinglePrecision.digits := by
      rw [maxPendingTotal] at hle
      rw [SinglePrecision.digits]
      omega
    rw [SinglePrecision.round_of_lt hs, SinglePrecision.round_of_lt (hlt.trans hs)] at heq
    omega
  refine ⟨plainEnv (favouring a), ?_⟩
  have hmem : ∀ x, x ∈ spammers (plainEnv (favouring a)) isLocal p ↔ _ := fun x => mem_spammers h hu
  have hsort : (spammers (plainEnv (favouring a)) isLocal p).Pairwise
      (favour a fun x => -(SinglePrecision.round (lenAt p x) : Int)) := favour_sorted a _ _
  obtain ⟨before, rest, ho⟩ := List.append_of_mem ((hmem b).mpr ⟨hma.trans hlt, hb⟩)
  have hbefore : a ∈ before := by
    have ha' := (hmem a).mpr ⟨hma, ha⟩
    rw [ho, List.mem_append, List.mem_cons] at ha'
    obtain ha' | rfl | ha' := ha'
    · exact ha'
    · omega
    · rw [ho] at hsort
      have hf := (List.pairwise_cons.mp (List.pairwise_append.mp hsort).2.1).1 a ha'
      rw [favour, h.lenAt_eq, h.lenAt_eq, heq] at hf
      obtain hlt' | ⟨-, rfl | hne⟩ := hf
      · exact absurd hlt' (lt_irrefl _)
      · exact absurd hlt (lt_irrefl _)
      · exact absurd rfl hne
  rintro ⟨p', c', he, hf⟩
  obtain hp | ⟨f, p'', he', ht, hab, hca, hcb⟩ := limitPending_apart h ho hbefore
    (fun x hx => ((hmem x).mp hx).1) hlt hbig
  · rw [hp] at he
    cases he
  · rw [he] at he'
    cases he'
    have hsize : ∀ x, size c' x = f x := fun x => by
      rw [← hf.contains.lenAt_eq, ht.lenAt_eq]
    have := hf.equal a b (by rwa [hsize]) (by rwa [hsize])
    rw [hsize, hsize] at this
    omega

end

def firstAddress : Address :=
  Address.zero

def secondAddress : Address :=
  State.StateDB.ripemd

theorem nodupKeys_entries (s : TxSeq) :
    (s.txs.map fun tx => (⟨tx.accountNonce, tx⟩ : Sigma fun _ => Transaction)).NodupKeys := by
  rw [List.NodupKeys, List.keys, List.map_map]
  exact s.sorted.nodup_keys

def mapOf (s : TxSeq) : TxSortedMap where
  items := ⟨s.txs.map fun tx => ⟨tx.accountNonce, tx⟩, nodupKeys_entries s⟩
  index := s.txs.map accountNonce
  cache := none

theorem mapOf_stores (s : TxSeq) : (mapOf s).Stores s where
  indexes :=
    ⟨List.Perm.refl _, List.Perm.refl _,
      Heap.isHeap_of_sorted (List.pairwise_map.mpr (s.sorted.imp le_of_lt))⟩
  cache   := Or.inl rfl

def listsOf (a b : Address) (s t : TxSeq) : GoMap Address TxList :=
  ((∅ : GoMap Address TxList).insert a ⟨true, mapOf s, 0⟩).insert b ⟨true, mapOf t, 0⟩

def contentsOf (a b : Address) (s t : TxSeq) : Address → TxSeq :=
  Function.update (Function.update (fun _ => TxSeq.nil) a s) b t

theorem listsOf_contains (a b : Address) (s t : TxSeq) :
    Contains (listsOf a b s t) (contentsOf a b s t) := by
  have hempty : Contains ∅ fun _ => TxSeq.nil := ⟨fun _ _ hl => (by cases hl), fun _ _ => rfl⟩
  exact (hempty.insert (mapOf_stores s)).insert (mapOf_stores t)

theorem exists_seq {n : Nat} (h : n ≤ 2 ^ 64) : ∃ s : TxSeq, s.txs.length = n := by
  refine ⟨⟨(List.range n).map fun i => TxSortedMap.noncedTx (UInt64.ofNat i), ?_⟩, by simp⟩
  refine List.pairwise_map.mpr (List.pairwise_lt_range.imp_of_mem fun {i j} hi hj hlt => ?_)
  rw [List.mem_range] at hi hj
  change UInt64.ofNat i < UInt64.ofNat j
  rw [UInt64.lt_iff_toNat_lt, UInt64.toNat_ofNat_of_lt' (hi.trans_le h),
    UInt64.toNat_ofNat_of_lt' (hj.trans_le h)]
  exact hlt

def oneTx : TxSeq :=
  TxSeq.nil.put (TxSortedMap.noncedTx 0)

end TxPool

end Core
