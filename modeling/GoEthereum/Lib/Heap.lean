import Mathlib.Tactic
import Mathlib.Order.Basic

-- Binary heaps in a list: `container/heap`, with a smallest element at the front. Different
-- elements can stand at the same place in the order.

namespace Heap

variable {α : Type} [Inhabited α]

section

variable [LT α] [DecidableLT α]

def slot (l : List α) (i : Nat) : α :=
  l.getD i default

def swap (l : List α) (i j : Nat) : List α :=
  (l.set i (slot l j)).set j (slot l i)

def parent (j : Nat) : Nat :=
  (j - 1) / 2

-- Each round halves the position, so that `j` rounds reach the root.
def upLoop : Nat → List α → Nat → List α
  | 0, l, _          => l
  | rounds + 1, l, j =>
    let i := parent j
    if i = j ∨ ¬ slot l j < slot l i then l else upLoop rounds (swap l i j) i

def up (l : List α) (j : Nat) : List α :=
  upLoop j l j

-- The child of `i` with the smaller element, the right one if neither is smaller. The right child may
-- be beyond the end.
def child (l : List α) (n i : Nat) : Nat :=
  if 2 * i + 2 < n ∧ ¬ slot l (2 * i + 1) < slot l (2 * i + 2) then 2 * i + 2 else 2 * i + 1

def downLoop : Nat → List α → Nat → Nat → List α
  | 0, l, _, _          => l
  | rounds + 1, l, i, n =>
    if n ≤ 2 * i + 1 then
      l
    else
      let j := child l n i
      if ¬ slot l j < slot l i then l else downLoop rounds (swap l i j) j n

-- Moves the element at `i` down in the heap of the first `n` elements.
def down (l : List α) (i n : Nat) : List α :=
  downLoop n l i n

def initLoop (l : List α) : Nat → List α
  | 0     => l
  | i + 1 => initLoop (down l i l.length) i

def init (l : List α) : List α :=
  initLoop l (l.length / 2)

def push (l : List α) (x : α) : List α :=
  up (l ++ [x]) l.length

def takeLast (l : List α) : α × List α :=
  (slot l (l.length - 1), l.dropLast)

def pop (l : List α) : α × List α :=
  let n := l.length - 1
  takeLast (down (swap l 0 n) 0 n)

def remove (l : List α) (i : Nat) : α × List α :=
  let n := l.length - 1
  takeLast (if n = i then l else up (down (swap l i n) i n) i)

-- Moves the element at `i` to where it belongs after it has changed.
def fix (l : List α) (i : Nat) : List α :=
  up (down l i l.length) i

end

section

variable {l : List α} {i j k n : Nat}

theorem parent_lt (h : 0 < k) : parent k < k := by
  unfold parent
  omega

theorem parent_eq_iff (h : 0 < k) : parent k = i ↔ k = 2 * i + 1 ∨ k = 2 * i + 2 := by
  unfold parent
  omega

theorem slot_eq_getElem (h : i < l.length) : slot l i = l[i] := by
  simp [slot, h]

theorem slot_dropLast (h : k < l.length - 1) : slot l.dropLast k = slot l k := by
  have hd : k < l.dropLast.length := by rwa [List.length_dropLast]
  rw [slot_eq_getElem hd, slot_eq_getElem (by omega), List.getElem_dropLast]

theorem slot_set_of_ne (h : k ≠ i) (x : α) : slot (l.set i x) k = slot l k := by
  rw [slot, slot, List.getD_eq_getElem?_getD, List.getD_eq_getElem?_getD,
    List.getElem?_set_ne h.symm]

theorem slot_append_left (l' : List α) (h : k < l.length) : slot (l ++ l') k = slot l k := by
  rw [slot_eq_getElem h, slot_eq_getElem (by rw [List.length_append]; omega), List.getElem_append_left h]

theorem mem_iff_slot {x : α} : x ∈ l ↔ ∃ k < l.length, slot l k = x := by
  constructor
  · intro h
    obtain ⟨k, hk, rfl⟩ := List.getElem_of_mem h
    exact ⟨k, hk, slot_eq_getElem hk⟩
  · rintro ⟨k, hk, rfl⟩
    rw [slot_eq_getElem hk]
    exact List.getElem_mem hk

@[simp]
theorem length_swap : (swap l i j).length = l.length := by
  simp [swap]

section

variable (hi : i < l.length)
include hi

variable (hj : j < l.length)
include hj

theorem swap_perm : (swap l i j).Perm l := by
  rw [swap, slot_eq_getElem hi, slot_eq_getElem hj]
  exact List.set_set_perm hi hj

theorem slot_swap :
    slot (swap l i j) k = if k = j then slot l i else if k = i then slot l j else slot l k := by
  by_cases hk : k < l.length
  · rw [slot_eq_getElem (by simpa using hk), slot_eq_getElem hk]
    simp only [swap, List.getElem_set]
    grind
  · have h₁ : k ≠ j := by omega
    have h₂ : k ≠ i := by omega
    rw [if_neg h₁, if_neg h₂]
    simp [slot, hk]

theorem slot_swap_left : slot (swap l i j) i = slot l j := by
  rw [slot_swap hi hj]
  grind

theorem slot_swap_right : slot (swap l i j) j = slot l i := by
  rw [slot_swap hi hj, if_pos rfl]

theorem slot_swap_of_ne (h₁ : k ≠ i) (h₂ : k ≠ j) :
    slot (swap l i j) k = slot l k := by
  rw [slot_swap hi hj, if_neg h₂, if_neg h₁]

end

-- What moving an element up or down the heap of the first `n` elements does not do.
structure Moves (n : Nat) (l l' : List α) : Prop where
  perm  : l'.Perm l
  frame : ∀ k, n ≤ k → slot l' k = slot l k

theorem Moves.refl (n : Nat) (l : List α) : Moves n l l :=
  ⟨List.Perm.refl l, fun _ _ => rfl⟩

theorem Moves.trans {l' l'' : List α} (h : Moves n l l') (h' : Moves n l' l'') : Moves n l l'' where
  perm      := h'.perm.trans h.perm
  frame k hk := (h'.frame k hk).trans (h.frame k hk)

theorem Moves.length {l' : List α} (h : Moves n l l') : l'.length = l.length :=
  h.perm.length_eq

theorem moves_swap (hn : n ≤ l.length) (hi : i < n) (hj : j < n) : Moves n l (swap l i j) where
  perm := swap_perm (by omega) (by omega)
  frame k hk := slot_swap_of_ne (by omega) (by omega) (by omega) (by omega)

end

section

variable [Preorder α]

-- Among the first `n` elements, no child whose parent is at `b` or later is below its parent.
def Ordered (b n : Nat) (l : List α) : Prop :=
  ∀ k, 0 < k → k < n → b ≤ parent k → slot l (parent k) ≤ slot l k

def IsHeap (l : List α) : Prop :=
  Ordered 0 l.length l

variable {l : List α} {b i j k n : Nat}

theorem Ordered.front_le (h : Ordered 0 n l) (hk : k < n) : slot l 0 ≤ slot l k := by
  induction k using Nat.strong_induction_on
  case h k hi =>
    obtain rfl | hp := Nat.eq_zero_or_pos k
    · exact le_refl _
    · have hlt := parent_lt hp
      exact le_trans (hi (parent k) hlt (by omega)) (h k hp hk (Nat.zero_le _))

theorem IsHeap.front_le (h : IsHeap l) {x : α} (hx : x ∈ l) : slot l 0 ≤ x := by
  obtain ⟨k, hk, rfl⟩ := mem_iff_slot.mp hx
  exact Ordered.front_le h hk

theorem isHeap_nil : IsHeap ([] : List α) := by
  intro k _ hk
  cases hk

theorem Ordered.isHeap_dropLast (h : Ordered 0 (l.length - 1) l) : IsHeap l.dropLast := by
  intro k h₀ hk hb
  rw [List.length_dropLast] at hk
  have hp := parent_lt h₀
  rw [slot_dropLast hk, slot_dropLast (by omega)]
  exact h k h₀ hk hb

theorem isHeap_of_sorted (h : l.Pairwise (· ≤ ·)) : IsHeap l := by
  intro k h₀ hk _
  have hp := parent_lt h₀
  rw [slot_eq_getElem hk, slot_eq_getElem (by omega)]
  exact List.pairwise_iff_getElem.mp h _ _ _ _ hp

-- Every edge but the one above `j` is in order, and so are the edges that would skip `j`.
structure UpOrdered (n : Nat) (l : List α) (j : Nat) : Prop where
  edge : ∀ k, 0 < k → k < n → k ≠ j → slot l (parent k) ≤ slot l k
  skip : ∀ k, 0 < k → k < n → parent k = j → 0 < j → slot l (parent j) ≤ slot l k

-- Every edge but those below `i` is in order, and so are the edges that would skip `i`.
structure DownOrdered (b n : Nat) (l : List α) (i : Nat) : Prop where
  edge : ∀ k, 0 < k → k < n → b ≤ parent k → parent k ≠ i → slot l (parent k) ≤ slot l k
  skip : ∀ k, 0 < k → k < n → parent k = i → 0 < i → b ≤ parent i → slot l (parent i) ≤ slot l k

theorem UpOrdered.ordered (h : UpOrdered n l j) (hj : 0 < j → slot l (parent j) ≤ slot l j) :
    Ordered 0 n l := by
  intro k h₀ hk _
  by_cases hkj : k = j
  · subst hkj
    exact hj h₀
  · exact h.edge k h₀ hk hkj

theorem UpOrdered.step (h : UpOrdered n l j) (hn : n ≤ l.length) (hj : j < n) (h₀ : 0 < j)
    (hlt : slot l j < slot l (parent j)) : UpOrdered n (swap l (parent j) j) (parent j) := by
  have hp := parent_lt h₀
  have hi : parent j < l.length := by omega
  have hj' : j < l.length := by omega
  constructor
  case edge =>
    intro k hk₀ hk hkp
    by_cases hkj : k = j
    · subst hkj
      rw [slot_swap_left hi hj', slot_swap_right hi hj']
      exact hlt.le
    · rw [slot_swap_of_ne hi hj' hkp hkj]
      by_cases h₁ : parent k = j
      · rw [h₁, slot_swap_right hi hj']
        exact h.skip k hk₀ hk h₁ h₀
      · by_cases h₂ : parent k = parent j
        · rw [h₂, slot_swap_left hi hj']
          exact le_trans hlt.le (h₂ ▸ h.edge k hk₀ hk hkj)
        · rw [slot_swap_of_ne hi hj' h₂ h₁]
          exact h.edge k hk₀ hk hkj
  case skip =>
    intro k hk₀ hk hkp hp₀
    have hpp := parent_lt hp₀
    have hup : slot l (parent (parent j)) ≤ slot l (parent j) :=
      h.edge (parent j) hp₀ (by omega) (by omega)
    rw [slot_swap_of_ne hi hj' (by omega) (by omega)]
    by_cases hkj : k = j
    · subst hkj
      rwa [slot_swap_right hi hj']
    · have hpk := parent_lt hk₀
      rw [slot_swap_of_ne hi hj' (by omega) hkj]
      exact le_trans hup (hkp ▸ h.edge k hk₀ hk hkj)

theorem DownOrdered.ordered (h : DownOrdered b n l i)
    (hi : ∀ k, 0 < k → k < n → parent k = i → slot l i ≤ slot l k) : Ordered b n l := by
  intro k h₀ hk hb
  by_cases hp : parent k = i
  · rw [hp]
    exact hi k h₀ hk hp
  · exact h.edge k h₀ hk hb hp

theorem DownOrdered.step (h : DownOrdered b n l i) (hn : n ≤ l.length) (hb : b ≤ i) (h₀ : 0 < j)
    (hj : j < n) (hp : parent j = i) (hmin : ∀ k, 0 < k → k < n → parent k = i → slot l j ≤ slot l k)
    (hlt : slot l j < slot l i) : DownOrdered b n (swap l i j) j := by
  have hij : i < j := hp ▸ parent_lt h₀
  have hi : i < l.length := by omega
  have hj' : j < l.length := by omega
  constructor
  case edge =>
    intro k hk₀ hk hbk hkj
    have hpk := parent_lt hk₀
    by_cases h₁ : k = j
    · subst h₁
      rw [hp, slot_swap_left hi hj', slot_swap_right hi hj']
      exact hlt.le
    · by_cases h₂ : k = i
      · subst h₂
        rw [slot_swap_left hi hj', slot_swap_of_ne hi hj' (by omega) hkj]
        exact h.skip j h₀ hj hp hk₀ hbk
      · rw [slot_swap_of_ne hi hj' h₂ h₁]
        by_cases h₃ : parent k = i
        · rw [h₃, slot_swap_left hi hj']
          exact hmin k hk₀ hk h₃
        · rw [slot_swap_of_ne hi hj' h₃ hkj]
          exact h.edge k hk₀ hk hbk h₃
  case skip =>
    intro k hk₀ hk hkj _ _
    have hpk := parent_lt hk₀
    rw [hp, slot_swap_left hi hj', slot_swap_of_ne hi hj' (by omega) (by omega), ← hkj]
    exact h.edge k hk₀ hk (by omega) (by omega)

variable [Std.Total (α := α) (· ≤ ·)]

omit [Inhabited α] in
theorem not_lt_iff_le {x y : α} : ¬ x < y ↔ y ≤ x := by
  rw [lt_iff_le_not_ge, not_and_not_right]
  exact ⟨fun h => (Std.Total.total x y).elim h id, fun h _ => h⟩

variable [DecidableLT α]

theorem upLoop_spec {rounds : Nat} (hr : j ≤ rounds) (hn : n ≤ l.length) (hj : j < n) :
    Moves n l (upLoop rounds l j) ∧ (UpOrdered n l j → Ordered 0 n (upLoop rounds l j)) := by
  induction rounds generalizing l j
  case zero =>
    refine ⟨Moves.refl n l, fun h => h.ordered ?_⟩
    omega
  case succ rounds hi =>
    rw [upLoop]
    split
    case isTrue hs =>
      refine ⟨Moves.refl n l, fun h => h.ordered ?_⟩
      intro h₀
      have hp := parent_lt h₀
      exact not_lt_iff_le.mp (hs.resolve_left (by omega))
    case isFalse hs =>
      obtain ⟨hne, hlt⟩ := not_or.mp hs
      have h₀ : 0 < j := Nat.pos_of_ne_zero fun h => hne (by simp [h, parent])
      have hp := parent_lt h₀
      have hm := moves_swap (i := parent j) hn (by omega) hj
      obtain ⟨hm', ho⟩ := hi (l := swap l (parent j) j) (j := parent j) (by omega) (by simpa using hn)
        (by omega)
      exact ⟨hm.trans hm', fun h => ho (h.step hn hj h₀ (not_not.mp hlt))⟩

theorem up_spec (hn : n ≤ l.length) (hj : j < n) :
    Moves n l (up l j) ∧ (UpOrdered n l j → Ordered 0 n (up l j)) :=
  upLoop_spec (le_refl j) hn hj

theorem Ordered.up_eq (h : Ordered 0 n l) (hj : j < n) : up l j = l := by
  cases j
  case zero => rfl
  case succ j =>
    rw [up, upLoop, if_pos]
    exact Or.inr (not_lt_iff_le.mpr (h (j + 1) (Nat.succ_pos j) hj (Nat.zero_le _)))

theorem child_spec (h : 2 * i + 1 < n) : parent (child l n i) = i ∧ i < child l n i ∧ child l n i < n ∧
    ∀ k, 0 < k → k < n → parent k = i → slot l (child l n i) ≤ slot l k := by
  have hc : child l n i = 2 * i + 1 ∨ child l n i = 2 * i + 2 ∧ 2 * i + 2 < n := by
    grind [child]
  have hlt : i < child l n i ∧ child l n i < n := by omega
  refine ⟨(parent_eq_iff (by omega)).mpr (by omega), hlt.1, hlt.2, ?_⟩
  intro k h₀ hk hp
  rw [child]
  split
  case isTrue hs =>
    obtain rfl | rfl := (parent_eq_iff h₀).mp hp
    · exact not_lt_iff_le.mp hs.2
    · exact le_refl _
  case isFalse hs =>
    obtain rfl | rfl := (parent_eq_iff h₀).mp hp
    · exact le_refl _
    · exact (not_not.mp (not_and.mp hs hk)).le

theorem downLoop_spec {rounds : Nat} (hr : n ≤ rounds + i) (hn : n ≤ l.length) (hb : b ≤ i) :
    Moves n l (downLoop rounds l i n) ∧
    (DownOrdered b n l i → Ordered b n (downLoop rounds l i n)) := by
  induction rounds generalizing l i
  case zero =>
    refine ⟨Moves.refl n l, fun h => h.ordered ?_⟩
    intro k h₀ hk hp
    have := parent_lt h₀
    omega
  case succ rounds hi =>
    rw [downLoop]
    split
    case isTrue hs =>
      refine ⟨Moves.refl n l, fun h => h.ordered ?_⟩
      intro k h₀ hk hp
      have := (parent_eq_iff h₀).mp hp
      omega
    case isFalse hs =>
      obtain ⟨hp, hij, hj, hmin⟩ := child_spec (l := l) (not_le.mp hs)
      dsimp only
      split
      case isTrue hlt =>
        refine ⟨Moves.refl n l, fun h => h.ordered ?_⟩
        intro k h₀ hk hpk
        exact le_trans (not_lt_iff_le.mp hlt) (hmin k h₀ hk hpk)
      case isFalse hlt =>
        have hm := moves_swap (i := i) hn (by omega) hj
        obtain ⟨hm', ho⟩ := hi (l := swap l i (child l n i)) (i := child l n i) (by omega)
          (by simpa using hn) (by omega)
        refine ⟨hm.trans hm', fun h => ho ?_⟩
        exact h.step hn hb (by omega) hj hp hmin (not_not.mp hlt)

theorem down_spec (hn : n ≤ l.length) (hb : b ≤ i) :
    Moves n l (down l i n) ∧ (DownOrdered b n l i → Ordered b n (down l i n)) :=
  downLoop_spec (by omega) hn hb

theorem down_eq (h : ∀ k, 0 < k → k < n → parent k = i → slot l i ≤ slot l k) : down l i n = l := by
  cases n
  case zero => rfl
  case succ n =>
    rw [down, downLoop]
    split
    case isTrue _ => rfl
    case isFalse hs =>
      obtain ⟨hp, hij, hj, _⟩ := child_spec (l := l) (not_le.mp hs)
      rw [if_pos (not_lt_iff_le.mpr (h _ (by omega) hj hp))]

end

variable [Preorder α] [DecidableLT α] [Std.Total (α := α) (· ≤ ·)] {l : List α} {i n : Nat}

theorem initLoop_spec (h : Ordered i l.length l) :
    (initLoop l i).Perm l ∧ IsHeap (initLoop l i) := by
  induction i generalizing l
  case zero => exact ⟨List.Perm.refl l, h⟩
  case succ i hi =>
    obtain ⟨hm, ho⟩ := down_spec (l := l) (b := i) (le_refl l.length) (le_refl i)
    have hd : DownOrdered i l.length l i := by
      constructor
      case edge =>
        intro k h₀ hk hb hne
        exact h k h₀ hk (by omega)
      case skip =>
        intro k _ _ _ h₀ hb
        have := parent_lt h₀
        omega
    have ho' : Ordered i (down l i l.length).length (down l i l.length) := by
      rw [hm.length]
      exact ho hd
    obtain ⟨hp, hh⟩ := hi ho'
    exact ⟨hp.trans hm.perm, hh⟩

theorem init_spec (l : List α) : (init l).Perm l ∧ IsHeap (init l) := by
  apply initLoop_spec
  intro k h₀ hk hb
  unfold parent at hb
  omega

theorem push_spec (h : IsHeap l) (x : α) : (push l x).Perm (x :: l) ∧ IsHeap (push l x) := by
  have hn : (l ++ [x]).length = l.length + 1 := by simp
  obtain ⟨hm, ho⟩ := up_spec (l := l ++ [x]) (n := l.length + 1) hn.ge (Nat.lt_succ_self l.length)
  have hu : UpOrdered (l.length + 1) (l ++ [x]) l.length := by
    constructor
    case edge =>
      intro k h₀ hk hne
      have hp := parent_lt h₀
      rw [slot_append_left _ (by omega), slot_append_left _ (by omega)]
      exact h k h₀ (by omega) (Nat.zero_le _)
    case skip =>
      intro k h₀ hk hp _
      have := parent_lt h₀
      omega
  refine ⟨hm.perm.trans (List.perm_append_singleton x l), ?_⟩
  have hl : (push l x).length = l.length + 1 := hm.length.trans hn
  rw [IsHeap, hl]
  exact ho hu

-- Taking off the last place after a move that left it alone.
omit [DecidableLT α] [Std.Total (α := α) (· ≤ ·)] in
theorem takeLast_spec {l' : List α} (hl : l ≠ []) (hm : Moves (l.length - 1) l l')
    (ho : Ordered 0 (l.length - 1) l') :
    (takeLast l').fst = slot l (l.length - 1) ∧
    l.Perm ((takeLast l').fst :: (takeLast l').snd) ∧ IsHeap (takeLast l').snd := by
  have hlen := hm.length
  have hpos := List.length_pos_of_ne_nil hl
  have hl' : l' ≠ [] := List.ne_nil_of_length_pos (by omega)
  have hlast : slot l' (l'.length - 1) = l'.getLast hl' := by
    rw [slot_eq_getElem (by omega), List.getLast_eq_getElem]
  refine ⟨?_, ?_, ?_⟩
  · rw [takeLast, hlen]
    exact hm.frame _ (le_refl _)
  · have hp : (l'.dropLast ++ [l'.getLast hl']).Perm (l'.getLast hl' :: l'.dropLast) :=
      List.perm_append_singleton _ _
    rw [List.dropLast_append_getLast] at hp
    rw [takeLast, hlast]
    exact hm.perm.symm.trans hp
  · apply Ordered.isHeap_dropLast
    rwa [hlen]

theorem pop_spec (h : IsHeap l) (hl : l ≠ []) : (pop l).fst = slot l 0 ∧
    l.Perm ((pop l).fst :: (pop l).snd) ∧ IsHeap (pop l).snd := by
  have hpos := List.length_pos_of_ne_nil hl
  have hs : (swap l 0 (l.length - 1)).Perm l := swap_perm hpos (by omega)
  have hlen : (swap l 0 (l.length - 1)).length = l.length := length_swap
  obtain ⟨hm, ho⟩ := down_spec (l := swap l 0 (l.length - 1)) (n := l.length - 1) (b := 0) (i := 0)
    (by omega) (le_refl 0)
  have hd : DownOrdered 0 (l.length - 1) (swap l 0 (l.length - 1)) 0 := by
    constructor
    case edge =>
      intro k h₀ hk _ hne
      have hp := parent_lt h₀
      rw [slot_swap_of_ne hpos (by omega) hne (by omega), slot_swap_of_ne hpos (by omega) (by omega)
        (by omega)]
      exact h k h₀ (by omega) (Nat.zero_le _)
    case skip =>
      omega
  obtain ⟨hf, hp, hh⟩ := takeLast_spec (l := swap l 0 (l.length - 1))
    (List.ne_nil_of_length_pos (by omega)) (by rwa [hlen]) (by rw [hlen]; exact ho hd)
  refine ⟨?_, hs.symm.trans hp, hh⟩
  rw [hlen, slot_swap_right hpos (by omega)] at hf
  exact hf

-- The element that `remove` puts in the place of another one goes down or up, not both.
theorem ordered_up_down {x : List α} (hn : n ≤ x.length) (hi : i < n)
    (he : ∀ k, 0 < k → k < n → k ≠ i → parent k ≠ i → slot x (parent k) ≤ slot x k)
    (hs : ∀ k, 0 < k → k < n → parent k = i → 0 < i → slot x (parent i) ≤ slot x k) :
    Ordered 0 n (up (down x i n) i) := by
  by_cases hlt : 0 < i ∧ slot x i < slot x (parent i)
  · have hc : ∀ k, 0 < k → k < n → parent k = i → slot x i ≤ slot x k :=
      fun k h₀ hk hp => le_trans hlt.2.le (hs k h₀ hk hp hlt.1)
    rw [down_eq hc]
    refine (up_spec hn hi).2 ⟨?_, hs⟩
    intro k h₀ hk hne
    by_cases hp : parent k = i
    · rw [hp]
      exact hc k h₀ hk hp
    · exact he k h₀ hk hne hp
  · have hd : DownOrdered 0 n x i := by
      constructor
      case edge =>
        intro k h₀ hk _ hp
        by_cases hki : k = i
        · subst hki
          exact not_lt_iff_le.mp fun h => hlt ⟨h₀, h⟩
        · exact he k h₀ hk hki hp
      case skip =>
        intro k h₀ hk hp hi₀ _
        exact hs k h₀ hk hp hi₀
    have ho := (down_spec hn (Nat.zero_le i)).2 hd
    rwa [ho.up_eq hi]

theorem remove_spec (h : IsHeap l) (hi : i < l.length) : (remove l i).fst = slot l i ∧
    l.Perm ((remove l i).fst :: (remove l i).snd) ∧ IsHeap (remove l i).snd := by
  have hl : l ≠ [] := List.ne_nil_of_length_pos (by omega)
  rw [remove]
  split
  case isTrue hn =>
    have ho : Ordered 0 (l.length - 1) l := fun k h₀ hk hb => h k h₀ (by omega) hb
    have ht := takeLast_spec hl (Moves.refl _ l) ho
    rwa [hn] at ht
  case isFalse hn =>
    have hj : l.length - 1 < l.length := by omega
    have hs : (swap l i (l.length - 1)).Perm l := swap_perm hi hj
    have hlen : (swap l i (l.length - 1)).length = l.length := length_swap
    obtain ⟨hm, -⟩ := down_spec (l := swap l i (l.length - 1)) (n := l.length - 1) (i := i) (b := 0)
      (by omega) (Nat.zero_le i)
    obtain ⟨hm', -⟩ := up_spec (l := down (swap l i (l.length - 1)) i (l.length - 1))
      (n := l.length - 1) (j := i) (by rw [hm.length]; omega) (by omega)
    have ho : Ordered 0 (l.length - 1) (up (down (swap l i (l.length - 1)) i (l.length - 1)) i) := by
      apply ordered_up_down (by omega) (by omega)
      · intro k h₀ hk hki hp
        have hlt := parent_lt h₀
        rw [slot_swap_of_ne hi hj hp (by omega), slot_swap_of_ne hi hj hki (by omega)]
        exact h k h₀ (by omega) (Nat.zero_le _)
      · intro k h₀ hk hp hi₀
        have hlt := parent_lt h₀
        have hlt' := parent_lt hi₀
        rw [slot_swap_of_ne hi hj (by omega) (by omega), slot_swap_of_ne hi hj (by omega) (by omega)]
        have h₁ := h k h₀ (by omega) (Nat.zero_le _)
        rw [hp] at h₁
        exact le_trans (h i hi₀ hi (Nat.zero_le _)) h₁
    obtain ⟨hf, hp, hh⟩ := takeLast_spec (l := swap l i (l.length - 1))
      (List.ne_nil_of_length_pos (by omega)) (by rw [hlen]; exact hm.trans hm') (by rwa [hlen])
    refine ⟨?_, hs.symm.trans hp, hh⟩
    rw [hlen, slot_swap_right hi hj] at hf
    exact hf

theorem fix_spec (h : IsHeap l) (hi : i < l.length) (x : α) :
    (fix (l.set i x) i).Perm (l.set i x) ∧ IsHeap (fix (l.set i x) i) := by
  have hlen : (l.set i x).length = l.length := List.length_set
  obtain ⟨hm, -⟩ := down_spec (l := l.set i x) (n := l.length) (i := i) (b := 0) hlen.ge
    (Nat.zero_le i)
  obtain ⟨hm', -⟩ := up_spec (l := down (l.set i x) i l.length) (n := l.length) (j := i)
    (by rw [hm.length, hlen]) hi
  have ho : Ordered 0 l.length (up (down (l.set i x) i l.length) i) := by
    apply ordered_up_down hlen.ge hi
    · intro k h₀ hk hki hp
      rw [slot_set_of_ne hp, slot_set_of_ne hki]
      exact h k h₀ hk (Nat.zero_le _)
    · intro k h₀ hk hp hi₀
      have hlt := parent_lt h₀
      have hlt' := parent_lt hi₀
      rw [slot_set_of_ne (by omega), slot_set_of_ne (by omega)]
      have h₁ := h k h₀ hk (Nat.zero_le _)
      rw [hp] at h₁
      exact le_trans (h i hi₀ hi (Nat.zero_le _)) h₁
  rw [fix, hlen, IsHeap, hm'.length, hm.length, hlen]
  exact ⟨hm'.perm.trans hm.perm, ho⟩

end Heap
