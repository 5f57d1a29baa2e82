import GoEthereum.Lib.BigEndian
import Mathlib.Logic.Equiv.Basic

-- The items that the chunk store may collect, and the selection of the ones accessed first.

namespace Swarm

structure GcItem where
  idx    : UInt64
  value  : UInt64
  idxKey : Bytes
  deriving DecidableEq

-- The three assignments by which two items change places. An index that is out of range is `none`.
def swap (list : List GcItem) (i j : Nat) : Option (List GcItem) := do
  let dd ← list[i]?
  return (list.set i (← list[j]?)).set j dd

-- The loop of `gcListPartition`, from `i` on and for `k` items.
def storeSmaller (pivotValue : UInt64) :
    Nat → List GcItem → Nat → Nat → Option (List GcItem × Nat)
  | 0,     list, _, storeIndex => some (list, storeIndex)
  | k + 1, list, i, storeIndex => do
    if (← list[i]?).value < pivotValue then
      storeSmaller pivotValue k (← swap list storeIndex i) (i + 1) (storeIndex + 1)
    else
      storeSmaller pivotValue k list (i + 1) storeIndex

def gcListPartition (list : List GcItem) (left right pivotIndex : Nat) :
    Option (List GcItem × Nat) := do
  let pivotValue := (← list[pivotIndex]?).value
  let list ← swap list pivotIndex right
  let (list, storeIndex) ← storeSmaller pivotValue (right - left) list left left
  return (← swap list storeIndex right, storeIndex)

-- `none` also if there are more than `fuel` calls.
def gcListSelect : Nat → List GcItem → Nat → Nat → Nat → Option (List GcItem × Nat)
  | 0,        _,    _,    _,     _ => none
  | fuel + 1, list, left, right, n => do
    if left = right then
      return (list, left)
    let (list, pivotIndex) ← gcListPartition list left right ((left + right) / 2)
    if n = pivotIndex then
      return (list, n)
    else if n < pivotIndex then
      gcListSelect fuel list left (pivotIndex - 1) n
    else
      gcListSelect fuel list (pivotIndex + 1) right n

-- The items from `left` on and before `right` are permuted, and the others stay where they are.
def Permutes (left right : Nat) (list list' : List GcItem) : Prop :=
  list'.length = list.length ∧
  ∃ σ : Equiv.Perm Nat, (∀ i, i < left ∨ right ≤ i → σ i = i) ∧ ∀ i, list'[i]? = list[σ i]?

-- The values from `left` on and before `right` are as `P` says.
def Within (list : List GcItem) (left right : Nat) (P : UInt64 → Prop) : Prop :=
  ∀ i x, left ≤ i → i < right → list[i]? = some x → P x.value

section

variable {left right i j k : Nat} {list list' : List GcItem} {P : UInt64 → Prop}

namespace Permutes

theorem refl : Permutes left right list list :=
  ⟨rfl, Equiv.refl _, fun _ _ => rfl, fun _ => rfl⟩

variable (h : Permutes left right list list')
include h

theorem trans {list'' : List GcItem}
    (h' : Permutes left right list' list'') : Permutes left right list list'' := by
  obtain ⟨hn, σ, hσ, hl⟩ := h
  obtain ⟨hn', τ, hτ, hl'⟩ := h'
  refine ⟨hn'.trans hn, τ.trans σ, ?_, fun i => (hl' i).trans (hl _)⟩
  intro i hi
  rw [Equiv.trans_apply, hτ i hi, hσ i hi]

theorem mono {left' right' : Nat} (hl : left' ≤ left)
    (hr : right ≤ right') : Permutes left' right' list list' := by
  obtain ⟨hn, σ, hσ, he⟩ := h
  exact ⟨hn, σ, fun i hi => hσ i (by omega), he⟩

theorem getElem?_eq (hi : i < left ∨ right ≤ i) :
    list'[i]? = list[i]? := by
  obtain ⟨-, σ, hσ, he⟩ := h
  rw [he, hσ i hi]

-- An index of the range is taken to one of the range, as the others stay.
theorem within (hw : Within list left right P) :
    Within list' left right P := by
  obtain ⟨-, σ, hσ, he⟩ := h
  intro i x hl hr hx
  have hi : ¬ (σ i < left ∨ right ≤ σ i) := by
    intro hi
    have := σ.injective (hσ _ hi)
    omega
  exact hw (σ i) x (by omega) (by omega) (he i ▸ hx)

theorem within_outside {left' right' : Nat}
    (hd : right' ≤ left ∨ right ≤ left') (hw : Within list left' right' P) :
    Within list' left' right' P :=
  fun i x hl hr hx => hw i x hl hr ((h.getElem?_eq (i := i) (by omega)) ▸ hx)

end Permutes

namespace Within

variable {Q : UInt64 → Prop}

theorem nil (h : right ≤ left) : Within list left right P :=
  fun _ _ _ _ _ => by omega

theorem mono (h : Within list left right P) (hq : ∀ v, P v → Q v) : Within list left right Q :=
  fun i x hl hr hx => hq _ (h i x hl hr hx)

theorem append {mid : Nat} (h : Within list left mid P) (h' : Within list mid right P) :
    Within list left right P :=
  fun i x hl hr hx => (lt_or_ge i mid).elim (h i x hl · hx) (h' i x · hr hx)

theorem single {x : GcItem} (hx : list[i]? = some x) (hp : P x.value) : Within list i (i + 1) P := by
  intro j y hl hr hy
  obtain rfl : j = i := by omega
  rw [← Option.some.inj (hx.symm.trans hy)]
  exact hp

end Within

-- The items between the two that change places go one index up with the first of them.
theorem swap_spec (hij : i ≤ j) (hj : j < list.length) :
    ∃ list', swap list i j = some list' ∧ list'[i]? = list[j]? ∧ list'[j]? = list[i]? ∧
      (∀ left right, left ≤ i → j < right → Permutes left right list list') ∧
      (∀ left P, Within list left i P → Within list' left i P) ∧
      ∀ P, Within list i j P → Within list' (i + 1) (j + 1) P := by
  have hi : i < list.length := by omega
  refine ⟨(list.set i list[j]).set j list[i], by simp [swap, hi, hj], by grind, by grind, ?_, ?_, ?_⟩
  · intro left right hl hr
    refine ⟨by simp, Equiv.swap i j, ?_, ?_⟩
    · intro k hk
      exact Equiv.swap_apply_of_ne_of_ne (by omega) (by omega)
    · intro k
      rw [Equiv.swap_apply_def]
      grind
  · intro left P h k x hl hk hx
    exact h k x hl hk (by grind)
  · intro P h k x hl hk hx
    rcases Nat.lt_succ_iff_lt_or_eq.mp hk with hk | rfl
    · exact h k x (by omega) hk (by grind)
    · exact h i x (le_refl _) (by omega) (by grind)

-- The items before `storeIndex` are smaller than the pivot, and those from there to `i` are not.
theorem storeSmaller_spec (pivotValue : UInt64) {storeIndex : Nat} (hl : left ≤ storeIndex)
    (hs : storeIndex ≤ i) (hr : i + k = right) (hn : right ≤ list.length)
    (hlt : Within list left storeIndex (· < pivotValue))
    (hge : Within list storeIndex i (pivotValue ≤ ·)) :
    ∃ list' store, storeSmaller pivotValue k list i storeIndex = some (list', store) ∧
      left ≤ store ∧ store ≤ right ∧ Permutes left right list list' ∧
      Within list' left store (· < pivotValue) ∧ Within list' store right (pivotValue ≤ ·) := by
  induction k generalizing list i storeIndex
  case zero => exact ⟨list, storeIndex, rfl, hl, (by omega), .refl, hlt, hr ▸ hge⟩
  case succ k ih =>
    have hi : i < list.length := by omega
    have hx := List.getElem?_eq_getElem hi
    rw [storeSmaller, hx, Option.bind_eq_bind, Option.bind_some]
    split
    case isTrue hv =>
      obtain ⟨swapped, he, hsi, -, hp, hlt', hge'⟩ := swap_spec hs hi
      have hp := hp left right hl (by omega)
      obtain ⟨list', store, he', hl', hr', hp', hw⟩ := ih (by omega) (by omega) (by omega)
        (hp.left ▸ hn) ((hlt' left _ hlt).append (.single (hsi.trans hx) hv)) (hge' _ hge)
      exact ⟨list', store, by rw [he]; exact he', hl', hr', hp.trans hp', hw⟩
    case isFalse hv =>
      exact ih hl (by omega) (by omega) hn hlt (hge.append (.single hx (UInt64.not_lt.mp hv)))

theorem gcListPartition_spec {pivotIndex : Nat} (hl : left ≤ pivotIndex) (hr : pivotIndex ≤ right)
    (hn : right < list.length) :
    ∃ list' store pivot, gcListPartition list left right pivotIndex = some (list', store) ∧
      left ≤ store ∧ store ≤ right ∧ Permutes left (right + 1) list list' ∧
      list'[store]? = some pivot ∧ Within list' left store (· < pivot.value) ∧
      Within list' (store + 1) (right + 1) (pivot.value ≤ ·) := by
  have hx := List.getElem?_eq_getElem (show pivotIndex < list.length by omega)
  obtain ⟨parted, he, -, hright, hp, -⟩ := swap_spec hr hn
  have hp := hp left (right + 1) hl right.lt_succ_self
  obtain ⟨stored, store, he', hl', hr', hp', hlt, hge⟩ := storeSmaller_spec
    list[pivotIndex].value (le_refl left) (le_refl left)
    (show left + (right - left) = right by omega) (hp.left ▸ hn.le)
    (.nil (le_refl _)) (.nil (le_refl _))
  have hpivot : stored[right]? = some list[pivotIndex] := by
    rw [hp'.getElem?_eq (.inr (le_refl _)), hright, hx]
  have hp' := hp.trans (hp'.mono (le_refl left) right.le_succ)
  obtain ⟨list', he'', hs, -, hp'', hlt', hge'⟩ := swap_spec hr' (hp'.left ▸ hn)
  refine ⟨list', store, list[pivotIndex], ?_, hl', hr', hp'.trans (hp'' left _ hl' right.lt_succ_self),
    hs.trans hpivot, hlt' left _ hlt, hge' _ hge⟩
  simp [gcListPartition, hx, he, he', he'']

end

-- With enough fuel the call returns `n`, and the items are only permuted between `left` and
-- `right`. No value before `n` is larger than the one at `n`, and no value after it is smaller.
theorem gcListSelect_selects (list : List GcItem) {left right n fuel : Nat} (hl : left ≤ n)
    (hr : n ≤ right) (hn : right < list.length) (hf : right - left < fuel) :
    ∃ list' item, gcListSelect fuel list left right n = some (list', n) ∧
      Permutes left (right + 1) list list' ∧ list'[n]? = some item ∧
      Within list' left n (· ≤ item.value) ∧ Within list' (n + 1) (right + 1) (item.value ≤ ·) := by
  induction fuel generalizing list left right
  case zero => omega
  case succ fuel hi =>
    by_cases he : left = right
    case pos =>
      obtain rfl : left = n := by omega
      refine ⟨list, list[left], ?_, .refl, by simp, .nil (le_refl _), .nil (by omega)⟩
      rw [gcListSelect, if_pos he]
      rfl
    case neg =>
      obtain ⟨parted, store, pivot, hpart, hl', hr', hp, hs, hlt, hge⟩ := gcListPartition_spec
        (show left ≤ (left + right) / 2 by omega) (by omega) hn
      have hpivot {P : UInt64 → Prop} (h : P pivot.value) := Within.single hs h
      have hle := (hlt.mono fun _ => UInt64.le_of_lt).append (hpivot (UInt64.le_refl _))
      have hn' : right < parted.length := hp.left ▸ hn
      rw [gcListSelect, if_neg he, hpart]
      simp only [Option.bind_eq_bind, Option.bind_some]
      rcases Nat.lt_trichotomy n store with hns | rfl | hns
      · obtain ⟨list', item, hsel, hp', hx, hle, hge'⟩ := hi parted hl
          (show n ≤ store - 1 by omega) (by omega) (by omega)
        rw [show store - 1 + 1 = store by omega] at hp' hge'
        have hv := UInt64.le_of_lt (hp'.within hlt n item hl hns hx)
        have hge := ((hpivot (UInt64.le_refl _)).append hge).mono fun _ => UInt64.le_trans hv
        refine ⟨list', item, ?_, hp.trans (hp'.mono (le_refl _) (by omega)), hx, hle,
          hge'.append (hp'.within_outside (.inr (le_refl _)) hge)⟩
        rw [if_neg hns.ne, if_pos hns, hsel]
      · exact ⟨parted, pivot, if_pos rfl, hp, hs, hlt.mono fun _ => UInt64.le_of_lt, hge⟩
      · obtain ⟨list', item, hsel, hp', hx, hle', hge'⟩ := hi parted
          (show store + 1 ≤ n by omega) hr hn' (by omega)
        have hv := hp'.within hge n item hns (by omega) hx
        have hle := hle.mono fun _ h => UInt64.le_trans h hv
        refine ⟨list', item, ?_, hp.trans (hp'.mono (by omega) (le_refl _)), hx,
          (hp'.within_outside (.inl (le_refl _)) hle).append hle', hge'⟩
        rw [if_neg hns.ne', if_neg hns.not_gt, hsel]

theorem gcListSelect_selects_three : ∃ list' item,
    gcListSelect 3 [⟨0, 2, []⟩, ⟨1, 2, []⟩, ⟨2, 1, []⟩] 0 2 1 = some (list', 1) ∧
      list'[1]? = some item ∧ Within list' 0 1 (· ≤ item.value) := by
  obtain ⟨list', item, he, -, hx, hle, -⟩ := gcListSelect_selects
    [⟨0, 2, []⟩, ⟨1, 2, []⟩, ⟨2, 1, []⟩] (show 0 ≤ 1 by omega) (show 1 ≤ 2 by omega) (by decide)
    (show 2 - 0 < 3 by omega)
  exact ⟨list', item, he, hx, hle⟩

end Swarm
