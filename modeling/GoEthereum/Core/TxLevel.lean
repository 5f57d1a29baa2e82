import GoEthereum.Core.TxPool
import GoEthereum.Core.TxReady

-- Rounds that take one transaction from each of some accounts, and the level that they reach.

namespace Core

open Common
open Transaction (accountNonce)

namespace TxPool

-- The lists hold the transactions of each account. An account with none may have no list.
structure Contains (p : GoMap Address TxList) (c : Address → TxSeq) : Prop where
  stores : ∀ a l, p.lookup a = some l → l.txs.Stores (c a)
  none   : ∀ a, p.lookup a = none → (c a).txs = []

variable {p : GoMap Address TxList} {c : Address → TxSeq} {f : Address → Nat} {a : Address}
  {offenders : List Address}

def size (c : Address → TxSeq) (a : Address) : Nat :=
  (c a).txs.length

def trim (c : Address → TxSeq) (f : Address → Nat) (a : Address) : TxSeq :=
  (c a).take (f a)

-- The lists hold the first transactions of each account, as many as `f` says.
structure Trims (c : Address → TxSeq) (f : Address → Nat) (p : GoMap Address TxList) : Prop where
  contains : Contains p (trim c f)
  le       : ∀ a, f a ≤ size c a

theorem Contains.trims (h : Contains p c) : Trims c (size c) p := by
  have he : trim c (size c) = c := by
    funext a
    exact TxSeq.ext (List.take_length)
  refine ⟨?_, fun _ => le_refl _⟩
  rwa [he]

theorem Contains.insert {l : TxList} {s : TxSeq} (h : Contains p c) (hs : l.txs.Stores s) :
    Contains (p.insert a l) (Function.update c a s) where
  stores x l' hx := by
    obtain ⟨rfl, rfl⟩ | ⟨hxa, hx⟩ := GoMap.of_lookup_insert hx
    · rwa [Function.update_self]
    · rw [Function.update_of_ne hxa]
      exact h.stores x l' hx
  none x hx := by
    rw [GoMap.lookup_insert_eq_ite] at hx
    split at hx
    case isTrue _    => cases hx
    case isFalse hxa =>
      rw [Function.update_of_ne hxa]
      exact h.none x hx

theorem Contains.lenAt_eq (h : Contains p c) (a : Address) : lenAt p a = size c a := by
  cases hl : p.lookup a
  case none => simp [lenAt, hl, size, h.none a hl]
  case some l =>
    rw [lenAt, hl]
    exact (h.stores a l hl).len_eq

theorem Trims.lenAt_eq (h : Trims c f p) (a : Address) : lenAt p a = f a := by
  have hle : f a ≤ (c a).txs.length := h.le a
  rw [h.contains.lenAt_eq, size]
  exact (List.length_take).trans (Nat.min_eq_left hle)

def cut (n : Nat) (offenders : List Address) (f : Address → Nat) (a : Address) : Nat :=
  if a ∈ offenders then f a - n else f a

theorem cutOne_of_zero (h : Trims c f p) (hz : f a = 0) : cutOne p a = Go.panics := by
  rw [cutOne]
  cases hl : p.lookup a
  case none => rfl
  case some l =>
    have hlen : l.len = 0 := by
      have := h.lenAt_eq a
      rwa [lenAt, hl, hz] at this
    have ht : ((0 : Nat) : Int) - 1 < 0 := by decide
    simp only [hlen, TxList.cap, (h.contains.stores a l hl).cap_of_neg ht]
    rfl

theorem cutOne_eq (h : Trims c f p) (hp : 0 < f a) : ∃ p', cutOne p a = .ok p' ∧
    Trims c (Function.update f a (f a - 1)) p' ∧
    GoMap.total p' TxList.len + 1 = GoMap.total p TxList.len := by
  have hlen := h.lenAt_eq a
  rw [cutOne]
  cases hl : p.lookup a
  case none =>
    simp only [lenAt, hl, Option.elim_none] at hlen
    omega
  case some l =>
    simp only [lenAt, hl, Option.elim_some] at hlen
    obtain ⟨m, he, hs⟩ := (h.contains.stores a l hl).cap (f a - 1)
    have hi : (((f a - 1 : Nat)) : Int) = l.len - 1 := by omega
    rw [hi] at he
    refine ⟨p.insert a { l with txs := m }, ?_, ?_, ?_⟩
    · simp only [TxList.cap, he]
      rfl
    · have ht : trim c (Function.update f a (f a - 1)) =
          Function.update (trim c f) a ((trim c f a).take (f a - 1)) := by
        funext x
        by_cases hxa : x = a
        · subst hxa
          apply TxSeq.ext
          simp only [trim, TxSeq.take, List.take_take, Function.update_self]
          congr 1
          omega
        · rw [trim, Function.update_of_ne hxa, Function.update_of_ne hxa, trim]
      refine ⟨ht ▸ h.contains.insert hs, fun x => ?_⟩
      have hx := h.le x
      by_cases hxa : x = a
      · subst hxa
        rw [Function.update_self]
        exact (Nat.sub_le _ _).trans hx
      · rwa [Function.update_of_ne hxa]
    · have hm : { l with txs := m }.len = f a - 1 := by
        have hle : f a ≤ (c a).txs.length := h.le a
        refine hs.len_eq.trans ?_
        simp only [trim, TxSeq.take, List.length_take]
        omega
      rw [GoMap.total_insert, GoMap.total_of_lookup hl]
      omega

theorem cut_nil (n : Nat) (f : Address → Nat) : cut n [] f = f := by
  funext a
  exact if_neg List.not_mem_nil

theorem cutRound_cases (h : Trims c f p) (hn : offenders.Nodup) :
    (cutRound offenders p = Go.panics ∧ ∃ a ∈ offenders, f a = 0) ∨
    ∃ p', cutRound offenders p = .ok p' ∧ Trims c (cut 1 offenders f) p' ∧
      GoMap.total p' TxList.len + offenders.length = GoMap.total p TxList.len ∧
      ∀ a ∈ offenders, 0 < f a := by
  induction offenders generalizing p f
  case nil =>
    refine Or.inr ⟨p, rfl, ?_, rfl, fun _ ha => absurd ha List.not_mem_nil⟩
    rwa [cut_nil]
  case cons a offenders hi =>
    obtain ⟨ha, hn'⟩ := List.nodup_cons.mp hn
    rw [cutRound, List.foldlM_cons]
    obtain hz | hp := Nat.eq_zero_or_pos (f a)
    · refine Or.inl ⟨?_, a, List.mem_cons_self .., hz⟩
      rw [cutOne_of_zero h hz]
      rfl
    · obtain ⟨p₁, he, ht, htot⟩ := cutOne_eq h hp
      have hne : ∀ x ∈ offenders, x ≠ a := fun x hx hxa => ha (hxa ▸ hx)
      rw [he]
      obtain ⟨hpan, x, hx, hz⟩ | ⟨p', he', ht', htot', hpos⟩ := hi ht hn'
      · rw [Function.update_of_ne (hne x hx)] at hz
        exact Or.inl ⟨hpan, x, List.mem_cons_of_mem _ hx, hz⟩
      · refine Or.inr ⟨p', he', ?_, ?_, ?_⟩
        · have hc : cut 1 offenders (Function.update f a (f a - 1)) = cut 1 (a :: offenders) f := by
            funext x
            by_cases hxa : x = a
            · subst hxa
              simp [cut, ha]
            · simp [cut, hxa]
          rwa [← hc]
        · rw [List.length_cons]
          omega
        · intro x hx
          obtain rfl | hx := List.mem_cons.mp hx
          · exact hp
          · have := hpos x hx
            rwa [Function.update_of_ne (hne x hx)] at this

theorem cut_cut (m n : Nat) : cut m offenders (cut n offenders f) = cut (n + m) offenders f := by
  funext a
  by_cases ha : a ∈ offenders
  · simp only [cut, ha, if_true]
    omega
  · simp only [cut, ha, if_false]

-- The rounds of a loop: how many there were, and why there were no more.
structure Rounds (c : Address → TxSeq) (f : Address → Nat) (offenders : List Address) (last : Address)
    (threshold n : Nat) (p p' : GoMap Address TxList) : Prop where
  trims   : Trims c (cut n offenders f) p'
  le      : ∀ a ∈ offenders, n ≤ f a
  above   : 0 < n → threshold + n ≤ f last
  starts  : GoMap.total p TxList.len > maxPendingTotal → f last > threshold → 0 < n
  stops   : GoMap.total p' TxList.len ≤ maxPendingTotal ∨ f last - n ≤ threshold

variable {last : Address} {threshold rounds count : Nat}

theorem Rounds.zero {threshold : Nat} (h : Trims c f p)
    (hs : GoMap.total p TxList.len ≤ maxPendingTotal ∨ f last ≤ threshold) :
    Rounds c f offenders last threshold 0 p p := by
  refine ⟨?_, fun _ _ => Nat.zero_le _, by omega, by omega, by omega⟩
  have hc : cut 0 offenders f = f := by
    funext a
    simp [cut]
  rwa [hc]

theorem cutLoop_of_le (hc : count ≤ maxPendingTotal) :
    cutLoop offenders last threshold rounds count p = .ok (count, p) := by
  cases rounds
  case zero        => rw [cutLoop]
  case succ rounds => rw [cutLoop, if_neg (by omega)]

theorem cutLoop_cases (h : Trims c f p) (hn : offenders.Nodup) (hl : last ∈ offenders)
    (hr : f last ≤ rounds) (hc : count = GoMap.total p TxList.len) :
    (cutLoop offenders last threshold rounds count p = Go.panics ∧
      ∃ a ∈ offenders, f a < f last) ∨
    ∃ n p', cutLoop offenders last threshold rounds count p =
        .ok (GoMap.total p' TxList.len, p') ∧
      Rounds c f offenders last threshold n p p' := by
  induction rounds generalizing p f count
  case zero => exact Or.inr ⟨0, p, by rw [cutLoop, hc], Rounds.zero h (by omega)⟩
  case succ rounds hi =>
    rw [cutLoop, h.lenAt_eq]
    split
    case isTrue hgo =>
      obtain ⟨hp, a, ha, hz⟩ | ⟨p₁, he, ht, htot, hpos⟩ := cutRound_cases h hn
      · refine Or.inl ⟨?_, a, ha, by omega⟩
        rw [hp]
        rfl
      · have hlast : cut 1 offenders f last = f last - 1 := if_pos hl
        have hcut : ∀ a ∈ offenders, cut 1 offenders f a = f a - 1 := fun a ha => if_pos ha
        rw [he]
        obtain ⟨hp, a, ha, hlt⟩ | ⟨n, p', he', hr'⟩ := @hi _ _ (count - offenders.length) ht
          (by omega) (by omega)
        · rw [hcut a ha] at hlt
          exact Or.inl ⟨hp, a, ha, by omega⟩
        · refine Or.inr ⟨n + 1, p', he', ?_, ?_, ?_, ?_, ?_⟩
          · rw [Nat.add_comm, ← cut_cut]
            exact hr'.trims
          · intro a ha
            have h₁ := hr'.le a ha
            have h₂ := hpos a ha
            rw [hcut a ha] at h₁
            omega
          · have h₁ := hr'.above
            omega
          · omega
          · have h₁ := hr'.stops
            omega
    case isFalse hgo => exact Or.inr ⟨0, p, by rw [hc], Rounds.zero h (by omega)⟩

theorem cut_reverse (n : Nat) : cut n offenders.reverse f = cut n offenders f := by
  funext a
  simp [cut]

theorem equalize_of_le {rest : List Address} {count : Nat} (hc : count ≤ maxPendingTotal) :
    equalize rest offenders count p = .ok (offenders, count, p) := by
  cases rest
  case nil         => rw [equalize]
  case cons o rest => cases offenders <;> rw [equalize, if_neg (by omega)]

theorem equalize_cons {o last : Address} {rest O : List Address} {count : Nat} (h : Trims c f p)
    (hn : (last :: O).Nodup) (hc : count = GoMap.total p TxList.len) (hgt : maxPendingTotal < count) :
    (equalize (o :: rest) (last :: O) count p = Go.panics ∧ ∃ a ∈ last :: O, f a < f last) ∨
    ∃ n p', equalize (o :: rest) (last :: O) count p =
        equalize rest (o :: last :: O) (GoMap.total p' TxList.len) p' ∧
      Rounds c f (last :: O) last (f o) n p p' := by
  rw [equalize, if_pos hgt, h.lenAt_eq, h.lenAt_eq]
  obtain ⟨hp, a, ha, hlt⟩ | ⟨n, p', he, hr⟩ := @cutLoop_cases _ _ _ _ last (f o) _ _ h
    (List.nodup_reverse.mpr hn) (List.mem_reverse.mpr (List.mem_cons_self ..)) (le_refl _) hc
  · refine Or.inl ⟨?_, a, List.mem_reverse.mp ha, hlt⟩
    simp only [hp]
    rfl
  · refine Or.inr ⟨n, p', ?_, ?_⟩
    · simp only [he]
      rfl
    · refine ⟨?_, ?_, hr.above, hr.starts, hr.stops⟩
      · rw [← cut_reverse]
        exact hr.trims
      · intro a ha
        exact hr.le a (List.mem_reverse.mpr ha)

variable {ord : List Address} {level : Nat}

def lowered (c : Address → TxSeq) (ord : List Address) (level : Nat) (a : Address) : Nat :=
  if a ∈ ord then min (size c a) level else size c a

theorem lowered_of_le {a : Address} (h : size c a ≤ level) : lowered c ord level a = size c a := by
  rw [lowered, Nat.min_eq_left h, ite_self]

theorem lowered_congr {level' : Nat} (h : ∀ a ∈ ord, size c a ≤ level)
    (h' : ∀ a ∈ ord, size c a ≤ level') : lowered c ord level = lowered c ord level' := by
  funext a
  by_cases ha : a ∈ ord
  · rw [lowered_of_le (h a ha), lowered_of_le (h' a ha)]
  · rw [lowered, lowered, if_neg ha, if_neg ha]

theorem cut_lowered {O : List Address} {n : Nat} (ho : ∀ a ∈ O, a ∈ ord ∧ level ≤ size c a)
    (hr : ∀ a ∈ ord, a ∉ O → size c a ≤ level - n) :
    cut n O (lowered c ord level) = lowered c ord (level - n) := by
  funext a
  by_cases ha : a ∈ O
  · obtain ⟨ha', hle⟩ := ho a ha
    simp only [cut, lowered, ha, ha', if_true]
    omega
  · rw [cut, if_neg ha]
    by_cases ha' : a ∈ ord
    · have hle := hr a ha' ha
      rw [lowered_of_le hle, lowered_of_le (by omega)]
    · rw [lowered, lowered, if_neg ha', if_neg ha']

-- Where the loop over the spammers ends, if it takes them in the order of their lengths.
structure Leveled (c : Address → TxSeq) (ord : List Address) (level : Nat) (O : List Address)
    (p : GoMap Address TxList) : Prop where
  trims  : Trims c (lowered c ord level) p
  above  : minPendingPerAccount < level
  nodup  : O.Nodup
  subset : ∀ a ∈ O, a ∈ ord
  ends   : GoMap.total p TxList.len ≤ maxPendingTotal ∨
    (∀ a ∈ ord, a ∈ O) ∧ ∀ a ∈ O, level ≤ size c a

theorem equalize_levels {rest O : List Address} {count : Nat} (hnd : ord.Nodup)
    (hs : ord.Pairwise fun a b => size c b ≤ size c a)
    (hmin : ∀ a ∈ ord, minPendingPerAccount < size c a) (ho : O.reverse ++ rest = ord)
    (h : Trims c (lowered c ord level) p) (hO : ∀ a ∈ O, level ≤ size c a)
    (hr : ∀ a ∈ rest, size c a ≤ level) (hl : minPendingPerAccount < level)
    (hc : count = GoMap.total p TxList.len) :
    ∃ level' O' p', equalize rest O count p = .ok (O', GoMap.total p' TxList.len, p') ∧
      Leveled c ord level' O' p' := by
  have hmem : ∀ a ∈ O, a ∈ ord := fun a ha => by
    rw [← ho]
    exact List.mem_append_left _ (List.mem_reverse.mpr ha)
  have hOn : O.Nodup := by
    rw [← ho] at hnd
    exact List.nodup_reverse.mp (List.nodup_append.mp hnd).1
  induction rest generalizing O p level count
  case nil =>
    refine ⟨level, O, p, by rw [equalize, hc], h, hl, hOn, hmem, Or.inr ⟨?_, hO⟩⟩
    intro a ha
    rw [← ho, List.append_nil] at ha
    exact List.mem_reverse.mp ha
  case cons o rest hi =>
    have ho' : (o :: O).reverse ++ rest = ord := by
      rw [← ho, List.reverse_cons, List.append_assoc]
      rfl
    have hord : o ∈ ord := by
      rw [← ho]
      simp
    have hrest : ∀ a ∈ rest, size c a ≤ size c o := by
      rw [← ho] at hs
      exact (List.pairwise_cons.mp (List.pairwise_append.mp hs).2.1).1
    by_cases hgt : maxPendingTotal < count
    · cases O
      case nil =>
        rw [equalize, if_pos hgt]
        have hall : ∀ a ∈ ord, size c a ≤ size c o := by
          rw [← ho]
          intro a ha
          obtain rfl | ha := List.mem_cons.mp ha
          · exact le_refl _
          · exact hrest a ha
        rw [lowered_congr (fun a ha => (hall a ha).trans (hr o (List.mem_cons_self ..))) hall] at h
        apply hi ho' h _ hrest (hmin o hord) hc
        all_goals simp [hord]
      case cons last O =>
        have hf : ∀ a ∈ last :: O, lowered c ord level a = level := fun a ha => by
          rw [lowered, if_pos (hmem a ha), Nat.min_eq_right (hO a ha)]
        have hfo : lowered c ord level o = size c o := lowered_of_le (hr o (List.mem_cons_self ..))
        have hlast := hf last (List.mem_cons_self ..)
        obtain ⟨-, a, ha, hlt⟩ | ⟨n, p', he, hrounds⟩ := @equalize_cons p c _ o last rest O _ h hOn hc
          hgt
        · rw [hf a ha, hlast] at hlt
          exact absurd hlt (lt_irrefl _)
        · have hle : size c o ≤ level - n := by
            have h₁ := hrounds.above
            have h₂ := hr o (List.mem_cons_self ..)
            omega
          have ht : Trims c (lowered c ord (level - n)) p' := by
            rw [← cut_lowered (O := last :: O) fun a ha => ⟨hmem a ha, hO a ha⟩]
            · exact hrounds.trims
            · intro a ha hn
              rw [← ho, List.mem_append, List.mem_reverse] at ha
              obtain rfl | ha := List.mem_cons.mp (ha.resolve_left hn)
              · exact hle
              · exact (hrest a ha).trans hle
          have hmin' := hmin o hord
          have hn' : (o :: last :: O).Nodup := by
            rw [← ho'] at hnd
            exact List.nodup_reverse.mp (List.nodup_append.mp hnd).1
          have hmem' : ∀ a ∈ o :: last :: O, a ∈ ord := fun a ha => by
            rw [← ho']
            exact List.mem_append_left _ (List.mem_reverse.mpr ha)
          rw [he]
          obtain hstop | hstop := hrounds.stops
          · exact ⟨level - n, _, p', equalize_of_le hstop, ht, by omega, hn', hmem', Or.inl hstop⟩
          · rw [hlast, hfo] at hstop
            have hlev : level - n = size c o := le_antisymm hstop hle
            rw [hlev] at ht
            refine hi ho' ht ?_ hrest hmin' rfl hmem' hn'
            intro a ha
            obtain rfl | ha := List.mem_cons.mp ha
            · exact le_refl _
            · exact (hr o (List.mem_cons_self ..)).trans (hO a ha)
    · exact ⟨level, O, p, by rw [equalize_of_le (by omega), hc], h, hl, hOn, hmem, Or.inl (by omega)⟩

theorem exists_level (c : Address → TxSeq) (ord : List Address) :
    ∃ level, minPendingPerAccount < level ∧ ∀ a ∈ ord, size c a ≤ level := by
  refine ⟨(ord.map (size c)).sum + minPendingPerAccount + 1, by omega, fun a ha => ?_⟩
  have := List.le_sum_of_mem (List.mem_map_of_mem (f := size c) ha)
  omega

variable {E : PoolEnv} {isLocal : Transaction → Bool}

-- The accounts are lowered to one level, which is not below the allowance.
theorem limitPending_levels (h : Contains p c) (hnd : (spammers E isLocal p).Nodup)
    (hs : (spammers E isLocal p).Pairwise fun a b => size c b ≤ size c a)
    (hmin : ∀ a ∈ spammers E isLocal p, minPendingPerAccount < size c a) :
    ∃ level p', limitPending E isLocal p = .ok p' ∧
      Trims c (lowered c (spammers E isLocal p) level) p' ∧ minPendingPerAccount ≤ level ∧
      (GoMap.total p' TxList.len ≤ maxPendingTotal ∨
        ∀ a ∈ spammers E isLocal p, level = minPendingPerAccount) := by
  obtain ⟨level, hl, hle⟩ := exists_level c (spammers E isLocal p)
  have ht : Trims c (lowered c (spammers E isLocal p) level) p := by
    have hc : lowered c (spammers E isLocal p) level = size c := by
      funext a
      by_cases ha : a ∈ spammers E isLocal p
      · exact lowered_of_le (hle a ha)
      · exact if_neg ha
    rw [hc]
    exact h.trims
  rw [limitPending]
  split
  case isTrue hgt =>
    obtain ⟨level', O, p', he, hlev⟩ := equalize_levels (O := []) hnd hs hmin
      (show [].reverse ++ spammers E isLocal p = spammers E isLocal p from rfl) ht (fun _ ha => absurd ha List.not_mem_nil) hle hl rfl
    simp only [he, Go.ok_bind]
    cases O
    case nil =>
      refine ⟨level', p', rfl, hlev.trims, hlev.above.le, hlev.ends.imp_right fun hall a ha => ?_⟩
      exact absurd (hall.1 a ha) List.not_mem_nil
    case cons last O =>
      obtain hend | ⟨hall, hat⟩ := hlev.ends
      · simp only [cutLoop_of_le hend, Go.ok_bind]
        exact ⟨level', p', rfl, hlev.trims, hlev.above.le, Or.inl hend⟩
      · have hf : ∀ a ∈ last :: O, lowered c (spammers E isLocal p) level' a = level' :=
          fun a ha => by rw [lowered, if_pos (hlev.subset a ha), Nat.min_eq_right (hat a ha)]
        have hlast := hf last (List.mem_cons_self ..)
        simp only [hlev.trims.lenAt_eq]
        obtain ⟨-, a, ha, hlt⟩ | ⟨n, p'', he', hr⟩ := @cutLoop_cases _ _ _ _ last
          minPendingPerAccount _ _ hlev.trims (List.nodup_reverse.mpr hlev.nodup)
          (List.mem_reverse.mpr (List.mem_cons_self ..)) (le_refl _) rfl
        · rw [hf a (List.mem_reverse.mp ha), hlast] at hlt
          exact absurd hlt (lt_irrefl _)
        · have habove := hr.above
          have hstops := hr.stops
          have hmin' := hlev.above
          have ht' := hr.trims
          rw [cut_reverse, cut_lowered (fun a ha => ⟨hlev.subset a ha, hat a ha⟩)
            (fun a ha hn => absurd (hall a ha) hn)] at ht'
          simp only [he', Go.ok_bind]
          refine ⟨level' - n, p'', rfl, ht', by omega, hstops.imp_right fun hstop _ _ => ?_⟩
          omega
  case isFalse hgt => exact ⟨level, p, rfl, ht, hl.le, Or.inl (by omega)⟩

end TxPool

end Core
