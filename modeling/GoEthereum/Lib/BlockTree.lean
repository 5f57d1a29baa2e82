import Mathlib.Tactic

-- Blocks that name their parent by its key. Every block is one higher than its parent.
structure BlockTree (α κ : Type) where
  key    : α → κ
  parent : α → κ
  height : α → Nat
  weight : α → Nat
  root   : α

namespace BlockTree

variable {α κ : Type} (T : BlockTree α κ)

structure On (b p : α) : Prop where
  parent : T.parent b = T.key p
  height : T.height b = T.height p + 1

-- The list holds `b` and its ancestors down to the root, all of them blocks of `S`.
inductive Branch (S : Set α) : α → List α → Prop
  | root : T.root ∈ S → Branch S T.root [T.root]
  | step {b p : α} {l : List α} : b ∈ S → T.On b p → Branch S p l → Branch S b (b :: l)

def total (l : List α) : Nat :=
  (l.map T.weight).sum

-- No two blocks of `S` have the same key, and the root is the block at height 0.
structure Proper (S : Set α) : Prop where
  inj  : Set.InjOn T.key S
  base : T.height T.root = 0

-- Blocks that arrive one after another, each of them after its parent.
def Ordered : Set α → List α → Prop
  | _, []      => True
  | S, b :: bs => (∃ p ∈ S, T.On b p) ∧ Ordered (insert b S) bs

variable {T} {S S' : Set α} {a b b' p : α} {l l' : List α}

@[simp]
theorem total_cons : T.total (b :: l) = T.weight b + T.total l := by
  simp [total]

theorem Proper.mono (h : T.Proper S') (hs : S ⊆ S') : T.Proper S where
  inj  := h.inj.mono hs
  base := h.base

namespace Branch

section

variable (h : T.Branch S b l)
include h

theorem mono (hs : S ⊆ S') : T.Branch S' b l := by
  induction h
  case root hr         => exact .root (hs hr)
  case step hb ho _ hi => exact .step (hs hb) ho hi

theorem restrict (hs : ∀ a ∈ l, a ∈ S') : T.Branch S' b l := by
  induction h
  case root             => exact .root (hs _ List.mem_cons_self)
  case step ho _ hi     =>
    obtain ⟨hb, hs⟩ := List.forall_mem_cons.mp hs
    exact .step hb ho (hi hs)

theorem eq_cons : ∃ t, l = b :: t := by
  cases h
  case root => exact ⟨_, rfl⟩
  case step => exact ⟨_, rfl⟩

theorem mem_head : b ∈ l := by
  obtain ⟨t, rfl⟩ := h.eq_cons
  exact List.mem_cons_self

theorem subset : ∀ a ∈ l, a ∈ S := by
  induction h
  case root hr         => simpa using hr
  case step hb _ _ hi  => simpa using ⟨hb, hi⟩

theorem mem : b ∈ S :=
  h.subset b h.mem_head

theorem root_mem : T.root ∈ l := by
  induction h
  case root                => exact List.mem_cons_self
  case step b _ _ _ _ _ hi => exact List.mem_cons_of_mem b hi

theorem height_le : ∀ a ∈ l, T.height a ≤ T.height b := by
  induction h
  case root => simp
  case step ho _ hi =>
    simp only [List.mem_cons, forall_eq_or_imp, le_refl, true_and]
    intro a ha
    have := hi a ha
    have := ho.height
    omega

end

theorem height_lt (h : T.Branch S b (b :: l)) : ∀ a ∈ l, T.height a < T.height b := by
  cases h
  case root => simp
  case step p ho h =>
    intro a ha
    have := h.height_le a ha
    have := ho.height
    omega

theorem pairwise (h : T.Branch S b l) : l.Pairwise fun a a' => T.height a' < T.height a := by
  induction h
  case root => simp
  case step hb ho h hi => exact List.pairwise_cons.mpr ⟨height_lt (.step hb ho h), hi⟩

theorem suffix (h : T.Branch S b l) (ha : a ∈ l) : ∃ l₁ l₂, l = l₁ ++ l₂ ∧ T.Branch S a l₂ := by
  induction h
  case root hr =>
    rw [List.mem_singleton.mp ha]
    exact ⟨[], _, rfl, .root hr⟩
  case step b p l hb ho h hi =>
    cases ha
    case head => exact ⟨[], _, rfl, .step hb ho h⟩
    case tail ha =>
      obtain ⟨l₁, l₂, rfl, h₂⟩ := hi ha
      exact ⟨b :: l₁, l₂, rfl, h₂⟩

theorem eq_root (h : T.Branch S b l) (hb : T.height b = 0) :
    b = T.root ∧ l = [T.root] := by
  cases h
  case root    => exact ⟨rfl, rfl⟩
  case step ho => exact absurd hb (by simp [ho.height])

section

variable (hp : T.Proper S)
include hp

theorem unique (h : T.Branch S b l) (h' : T.Branch S b l') : l = l' := by
  induction h generalizing l'
  case root =>
    cases h'
    case root    => rfl
    case step ho => exact absurd hp.base (by simp [ho.height])
  case step b p l hb ho h hi =>
    cases h'
    case root => exact absurd hp.base (by simp [ho.height])
    case step p' l' h' _ ho' =>
      have he : p = p' := hp.inj h.mem h'.mem (ho.parent.symm.trans ho'.parent)
      subst he
      rw [hi h']

theorem exists_height (h : T.Branch S b l) {n : Nat} (hn : n ≤ T.height b) :
    ∃ a ∈ l, T.height a = n := by
  induction h
  case root => exact ⟨_, List.mem_cons_self, by have := hp.base; omega⟩
  case step b p l _ ho _ hi =>
    by_cases hb : n = T.height b
    case pos => exact ⟨b, List.mem_cons_self, hb.symm⟩
    case neg =>
      obtain ⟨a, ha, hn⟩ := hi (by have := ho.height; omega)
      exact ⟨a, List.mem_cons_of_mem b ha, hn⟩

end

theorem eq_of_height (h : T.Branch S b l) {a a' : α} (ha : a ∈ l) (ha' : a' ∈ l)
    (he : T.height a = T.height a') : a = a' := by
  induction h
  case root => simp_all
  case step b p l hb ho h hi =>
    have hl := height_lt (.step hb ho h)
    cases ha
    case head =>
      cases ha'
      case head       => rfl
      case tail ha'   => exact absurd he (hl a' ha').ne'
    case tail ha =>
      cases ha'
      case head       => exact absurd he (hl a ha).ne
      case tail ha'   => exact hi ha ha'

theorem mem_take_iff (h : T.Branch S b l) {n : Nat} :
    a ∈ l.take n ↔ a ∈ l ∧ T.height b < T.height a + n := by
  induction h generalizing n
  case root =>
    by_cases ha : a = T.root
    case pos => cases n <;> simp [ha]
    case neg => cases n <;> simp [ha]
  case step b p l hb ho h hi =>
    cases n
    case zero =>
      have hle := height_le (.step hb ho h) a
      simp only [List.take_zero, List.not_mem_nil, false_iff, not_and, not_lt, add_zero]
      exact hle
    case succ n =>
      have hh := ho.height
      rw [List.take_succ_cons, List.mem_cons, hi, List.mem_cons]
      constructor
      case mp =>
        rintro (rfl | ⟨ha, hn⟩)
        case inl => exact ⟨.inl rfl, by omega⟩
        case inr => exact ⟨.inr ha, by omega⟩
      case mpr =>
        rintro ⟨rfl | ha, hn⟩
        case inl => exact .inl rfl
        case inr => exact .inr ⟨ha, by omega⟩

end Branch

-- Two branches and the part they share. The blocks above it are the ones in which they differ.
structure Fork (T : BlockTree α κ) (S : Set α) (b b' : α) (old new common : List α) : Prop where
  left  : T.Branch S b (old ++ common)
  right : T.Branch S b' (new ++ common)
  apart : ∀ a ∈ old, a ∉ new

end BlockTree
