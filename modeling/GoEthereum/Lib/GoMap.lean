import Mathlib.Data.List.AList
import Mathlib.Tactic

-- Maps that a loop can range over.

abbrev GoMap (α β : Type) := AList fun _ : α => β

namespace GoMap

section

variable {α β : Type} [DecidableEq α] (m : GoMap α β) (a x : α)

theorem lookup_insert_eq_ite (b : β) :
    (m.insert a b).lookup x = if x = a then some b else m.lookup x := by
  split
  case isTrue h  => rw [h, AList.lookup_insert]
  case isFalse h => exact AList.lookup_insert_ne h

theorem lookup_erase_eq_ite :
    (m.erase a).lookup x = if x = a then none else m.lookup x := by
  split
  case isTrue h  => rw [h, AList.lookup_erase]
  case isFalse h => exact AList.lookup_erase_ne h

variable {m a x}

theorem of_lookup_insert {b c : β} (h : (m.insert a b).lookup x = some c) :
    x = a ∧ c = b ∨ x ≠ a ∧ m.lookup x = some c := by
  rw [lookup_insert_eq_ite] at h
  split at h
  case isTrue he  => exact .inl ⟨he, (Option.some.inj h).symm⟩
  case isFalse he => exact .inr ⟨he, h⟩

theorem of_lookup_erase {c : β} (h : (m.erase a).lookup x = some c) :
    x ≠ a ∧ m.lookup x = some c := by
  rw [lookup_erase_eq_ite] at h
  split at h
  case isTrue he  => cases h
  case isFalse he => exact ⟨he, h⟩

variable (x)

theorem mem_keys_of_lookup {b : β} (h : m.lookup a = some b) : a ∈ m.keys := by
  apply AList.lookup_isSome.mp
  rw [h, Option.isSome_some]

theorem lookup_of_notMem_keys (h : a ∉ m.keys) : m.lookup a = none :=
  AList.lookup_eq_none.mpr fun h' => h (AList.mem_keys.mp h')

theorem foldl_update (f : α → β) :
    m.foldl Function.update f x = (m.lookup x).getD (f x) := by
  induction m using AList.insertRec generalizing f
  case H0 => simp [AList.foldl]
  case IH a b m hm hi =>
    have hf : (m.insert a b).foldl Function.update f = m.foldl Function.update (Function.update f a b) := by
      rw [AList.foldl, AList.entries_insert_of_notMem hm, List.foldl_cons, AList.foldl]
    rw [hf, hi, lookup_insert_eq_ite]
    split
    case isTrue h =>
      subst h
      simp [AList.lookup_eq_none.mpr hm]
    case isFalse h => simp [Function.update_of_ne h]

end

section

variable {α β : Type} [DecidableEq α] {m : GoMap α β} {a : α} {b b' : β} {f : β → Nat}

def total (m : GoMap α β) (f : β → Nat) : Nat :=
  (m.entries.map fun e => f e.snd).sum

theorem total_insert (m : GoMap α β) (a : α) (b : β) (f : β → Nat) :
    total (m.insert a b) f = f b + total (m.erase a) f :=
  rfl

theorem total_of_lookup (h : m.lookup a = some b) : total m f = f b + total (m.erase a) f := by
  obtain ⟨c, l₁, l₂, h₁, he, hk⟩ := List.exists_of_kerase (mem_keys_of_lookup h)
  have hc : c = b := by
    rw [AList.lookup, he, List.dlookup_append, List.dlookup_eq_none.mpr h₁] at h
    simpa using h
  have hs : total (m.erase a) f = ((l₁ ++ l₂).map fun e => f e.snd).sum := by
    rw [← hk]
    rfl
  rw [hs, total, he, ← hc]
  simp only [List.map_append, List.map_cons, List.sum_append, List.sum_cons]
  omega

theorem total_erase_of_lookup_none (h : m.lookup a = none) : total (m.erase a) f = total m f := by
  have hk : a ∉ m.entries.keys := fun hk => AList.lookup_eq_none.mp h (AList.mem_keys.mpr hk)
  change ((List.kerase a m.entries).map fun e => f e.snd).sum = _
  rw [List.kerase_of_notMem_keys hk]
  rfl

theorem total_insert_of_lookup (h : m.lookup a = some b) (hf : f b' = f b) :
    total (m.insert a b') f = total m f := by
  rw [total_insert, total_of_lookup h, hf]

theorem total_insert_of_lookup_none (h : m.lookup a = none) :
    total (m.insert a b) f = f b + total m f := by
  have he : (m.insert a b).entries = ⟨a, b⟩ :: m.entries :=
    AList.entries_insert_of_notMem (AList.lookup_eq_none.mp h)
  rw [total, he, List.map_cons, List.sum_cons, total]

theorem total_eq_zero (h : ∀ a b, m.lookup a = some b → f b = 0) : total m f = 0 := by
  apply List.sum_eq_zero
  intro n hn
  obtain ⟨⟨a, b⟩, he, hf⟩ := List.mem_map.mp hn
  rw [← hf]
  exact h a b (AList.mem_lookup_iff.mpr he)

theorem le_total (h : m.lookup a = some b) : f b ≤ total m f := by
  rw [total_of_lookup h]
  exact Nat.le_add_right _ _

omit [DecidableEq α] in
theorem total_one (m : GoMap α β) : total m (fun _ => 1) = m.entries.length := by
  simp [total]

theorem length_insert (h : m.lookup a = some b) :
    (m.insert a b').entries.length = m.entries.length := by
  rw [← total_one, ← total_one]
  exact total_insert_of_lookup h rfl

theorem length_erase (h : m.lookup a = some b) :
    (m.erase a).entries.length + 1 = m.entries.length := by
  rw [← total_one, ← total_one, total_of_lookup h, Nat.add_comm]

end

variable {α β : Type} [DecidableEq α] {m : GoMap α β} {a : α} {b : β}

def values (m : GoMap α β) : List β :=
  m.entries.map Sigma.snd

end GoMap

namespace Loop

variable {ι σ : Type} {body : σ → ι → Option σ} {s s' : σ} {i : ι} {is : List ι}

theorem foldlM_cons_eq_some (h : (i :: is).foldlM body s = some s') :
    ∃ t, body s i = some t ∧ is.foldlM body t = some s' := by
  exact Option.bind_eq_some_iff.mp h

theorem foldlM_keep {I : σ → Prop} (hb : ∀ {s s' i}, I s → body s i = some s' → I s') (hs : I s)
    (h : is.foldlM body s = some s') : I s' := by
  induction is generalizing s
  case nil => simp_all
  case cons i is hi =>
    obtain ⟨t, ht, h⟩ := foldlM_cons_eq_some h
    exact hi (hb hs ht) h

end Loop

-- A loop that works at one index of its state at a time. `I` is what the whole loop keeps, and
-- `f` says what the body does at its index; `none` is a panic.
structure Loop.Local {ι σ ρ : Type} (I : σ → Prop) (get : σ → ι → ρ) (body : σ → ι → Option σ)
    (f : ι → ρ → Option ρ) : Prop where
  keep  : ∀ {s s' i}, I s → body s i = some s' → I s'
  here  : ∀ {s i}, I s → (body s i).map (get · i) = f i (get s i)
  other : ∀ {s s' i j}, I s → body s i = some s' → j ≠ i → get s' j = get s j

namespace Loop.Local

variable {ι σ ρ : Type} {I : σ → Prop} {get : σ → ι → ρ} {body : σ → ι → Option σ}
variable {f : ι → ρ → Option ρ} {s s' : σ} {is : List ι}

variable (hl : Local I get body f)
include hl

theorem foldlM_other (hs : I s) (h : is.foldlM body s = some s') {j : ι}
    (hj : j ∉ is) : get s' j = get s j := by
  induction is generalizing s
  case nil => simp_all
  case cons i is hi =>
    obtain ⟨t, ht, h⟩ := foldlM_cons_eq_some h
    obtain ⟨hji, hj⟩ := List.ne_and_not_mem_of_not_mem_cons hj
    rw [hi (hl.keep hs ht) h hj, hl.other hs ht hji]

theorem foldlM_here (hn : is.Nodup) (hs : I s)
    (h : is.foldlM body s = some s') {i : ι} (hi : i ∈ is) : f i (get s i) = some (get s' i) := by
  induction is generalizing s
  case nil => cases hi
  case cons k is ih =>
    obtain ⟨t, ht, h'⟩ := foldlM_cons_eq_some h
    obtain ⟨hk, hn⟩ := List.nodup_cons.mp hn
    cases hi
    case head =>
      rw [← hl.here hs, ht, foldlM_other hl (hl.keep hs ht) h' hk, Option.map_some]
    case tail hi =>
      have hik : i ≠ k := fun he => hk (he ▸ hi)
      rw [← hl.other hs ht hik]
      exact ih hn (hl.keep hs ht) h' hi

theorem foldlM_done {Q : ι → ρ → σ → Prop}
    (hq : ∀ {s s' i}, I s → body s i = some s' → Q i (get s i) s')
    (hk : ∀ {s s' i j r}, I s → body s j = some s' → Q i r s → Q i r s') (hn : is.Nodup) (hs : I s)
    (h : is.foldlM body s = some s') {i : ι} (hi : i ∈ is) : Q i (get s i) s' := by
  induction is generalizing s
  case nil => cases hi
  case cons k is ih =>
    obtain ⟨t, ht, h'⟩ := foldlM_cons_eq_some h
    obtain ⟨hk', hn⟩ := List.nodup_cons.mp hn
    cases hi
    case head =>
      exact (foldlM_keep (I := fun t => I t ∧ Q i (get s i) t)
        (fun hi hb => ⟨hl.keep hi.left hb, hk hi.left hb hi.right⟩)
        ⟨hl.keep hs ht, hq hs ht⟩ h').right
    case tail hi =>
      have hik : i ≠ k := fun he => hk' (he ▸ hi)
      rw [← hl.other hs ht hik]
      exact ih hn (hl.keep hs ht) h' hi

-- The loop panics if and only if its body does at some index.
theorem foldlM_isSome_iff (hn : is.Nodup) (hs : I s) :
    (is.foldlM body s).isSome ↔ ∀ i ∈ is, (f i (get s i)).isSome := by
  induction is generalizing s
  case nil => simp
  case cons k is ih =>
    obtain ⟨hk, hn⟩ := List.nodup_cons.mp hn
    have hh := hl.here hs (i := k)
    rw [List.foldlM_cons, List.forall_mem_cons, ← hh]
    cases ht : body s k
    case none => simp
    case some t =>
      simp only [Option.bind_eq_bind, Option.bind_some, Option.map_some, Option.isSome_some,
        true_and, ih hn (hl.keep hs ht)]
      refine forall₂_congr fun i hi => ?_
      rw [hl.other hs ht fun he => hk (he ▸ hi)]

end Loop.Local
