import Mathlib.Tactic

-- Path compressed trees over an arbitrary alphabet, for partial maps from words to values. The
-- stored words are expected to lie in a prefix free set.

namespace Patricia

inductive Tree (α V : Type)
  | nil
  | value (v : V)
  | short (key : List α) (val : Tree α V)
  | full  (children : α → Tree α V)

def prefixLen {α : Type} [DecidableEq α] : List α → List α → Nat
  | a :: as, b :: bs => if a = b then prefixLen as bs + 1 else 0
  | _,       _       => 0

section

variable {α : Type} [DecidableEq α]

@[simp]
theorem prefixLen_append_left (key l : List α) : prefixLen (key ++ l) key = key.length := by
  induction key
  case nil       => cases l <;> simp [prefixLen]
  case cons _ hi => simp [prefixLen, hi]

theorem prefixLen_branch {b c : α} (h : c ≠ b) (p bs l : List α) :
    prefixLen (p ++ c :: l) (p ++ b :: bs) = p.length := by
  induction p
  case nil       => simp [prefixLen, h]
  case cons _ hi => simp [prefixLen, hi]

-- Two words, split where they first differ.
theorem append_or_branch (k key : List α) :
    (∃ l, k = key ++ l) ∨ (∃ b bs, key = k ++ b :: bs) ∨
    (∃ p b bs c l, key = p ++ b :: bs ∧ k = p ++ c :: l ∧ c ≠ b) := by
  induction key generalizing k
  case nil => exact .inl ⟨k, rfl⟩
  case cons b bs hi =>
    cases k
    case nil => exact .inr <| .inl ⟨b, bs, rfl⟩
    case cons c k =>
      by_cases h : c = b
      case neg => exact .inr <| .inr ⟨[], b, bs, c, k, rfl, rfl, h⟩
      case pos =>
        subst h
        rcases hi k with ⟨l, rfl⟩ | ⟨d, ds, rfl⟩ | ⟨p, d, ds, e, l, rfl, rfl, h⟩
        · exact .inl ⟨l, rfl⟩
        · exact .inr <| .inl ⟨d, ds, rfl⟩
        · exact .inr <| .inr ⟨c :: p, d, ds, e, l, rfl, rfl, h⟩

end

def PrefixFree {α : Type} (P : Set (List α)) : Prop :=
  ∀ k ∈ P, ∀ l ∈ P, k <+: l → k = l

-- What may follow the word `p` in `P`.
def suffixes {α : Type} (P : Set (List α)) (p : List α) : Set (List α) :=
  { k | p ++ k ∈ P }

variable {α : Type}

theorem suffixes_suffixes (P : Set (List α)) (p q : List α) :
    suffixes (suffixes P p) q = suffixes P (p ++ q) := by
  simp [suffixes]

theorem PrefixFree.suffixes {P : Set (List α)} (h : PrefixFree P) (p : List α) :
    PrefixFree (suffixes P p) := by
  intro k hk l hl hp
  exact List.append_cancel_left (h _ hk _ hl <| List.prefix_append_right_inj p |>.mpr hp)

theorem PrefixFree.eq_nil {P : Set (List α)} {k : List α}
    (h : PrefixFree P) (hn : [] ∈ P) (hk : k ∈ P) : k = [] :=
  (h _ hn _ hk (List.nil_prefix)).symm

namespace Tree

variable {α V : Type}

def isShort : Tree α V → Bool
  | short .. => true
  | _        => false

def isNode : Tree α V → Bool
  | short .. => true
  | full _   => true
  | _        => false

def isNil : Tree α V → Bool
  | nil => true
  | _   => false

-- The minimal form: a short node has a nonempty key and leads to a value or a full node, and a
-- full node has at least two children.
def Reduced : Tree α V → Prop
  | nil         => True
  | value _     => True
  | short key t => key ≠ [] ∧ t ≠ nil ∧ t.isShort = false ∧ t.Reduced
  | full cs     => (∀ a, (cs a).Reduced) ∧ ∃ a b, a ≠ b ∧ cs a ≠ nil ∧ cs b ≠ nil

variable [DecidableEq α]

def lookup : Tree α V → List α → Option V
  | nil,         _      => none
  | value v,     k      => if k = [] then some v else none
  | short key t, k      => if key <+: k then t.lookup (k.drop key.length) else none
  | full _,      []     => none
  | full cs,     a :: k => (cs a).lookup k

@[simp]
theorem lookup_nil (k : List α) : (nil : Tree α V).lookup k = none := by
  simp [lookup]

theorem lookup_short_append (key : List α) (t : Tree α V) (k : List α) :
    (short key t).lookup (key ++ k) = t.lookup k := by
  simp [lookup]

theorem lookup_short_eq_none {key k : List α} (t : Tree α V) (h : ¬key <+: k) :
    (short key t).lookup k = none := by
  simp [lookup, h]

@[simp]
theorem lookup_full_cons (cs : α → Tree α V) (a : α) (k : List α) :
    (full cs).lookup (a :: k) = (cs a).lookup k := by
  simp [lookup]

@[simp]
theorem lookup_full_nil (cs : α → Tree α V) : (full cs).lookup [] = none := by
  simp [lookup]

variable {t : Tree α V}

theorem lookup_short_eq_some {key k : List α} {v : V}
    (h : (short key t).lookup k = some v) : ∃ l, k = key ++ l ∧ t.lookup l = some v := by
  by_cases hp : key <+: k
  case pos =>
    obtain ⟨l, rfl⟩ := hp
    exact ⟨l, rfl, lookup_short_append key t l ▸ h⟩
  case neg => simp [lookup_short_eq_none t hp] at h

theorem Reduced.exists_lookup (h : t.Reduced) (hn : t ≠ nil) :
    ∃ k v, t.lookup k = some v := by
  induction t
  case nil         => contradiction
  case value v     => exact ⟨[], v, by simp [lookup]⟩
  case short key t hi =>
    obtain ⟨k, v, hk⟩ := hi h.right.right.right h.right.left
    exact ⟨key ++ k, v, by rw [lookup_short_append, hk]⟩
  case full cs hi =>
    obtain ⟨a, _, _, ha, _⟩ := h.right
    obtain ⟨k, v, hk⟩ := hi a (h.left a) ha
    exact ⟨a :: k, v, by rw [lookup_full_cons, hk]⟩

-- Below a short node of a reduced tree the words have no further letter in common.
theorem Reduced.eq_nil_of_common {p : List α} (h : t.Reduced) (hn : t ≠ nil)
    (hs : t.isShort = false) (hp : ∀ k v, t.lookup k = some v → p <+: k) : p = [] := by
  cases t
  case nil         => contradiction
  case short       => simp [isShort] at hs
  case value v     => exact List.prefix_nil.mp <| hp [] v (by simp [lookup])
  case full cs =>
    obtain ⟨a, b, hab, ha, hb⟩ := h.right
    obtain ⟨k, v, hk⟩ := (h.left a).exists_lookup ha
    obtain ⟨l, w, hl⟩ := (h.left b).exists_lookup hb
    have h₁ := hp (a :: k) v (by simpa using hk)
    have h₂ := hp (b :: l) w (by simpa using hl)
    cases p
    case nil => rfl
    case cons c p =>
      rw [List.cons_prefix_cons] at h₁ h₂
      exact absurd (h₁.left.symm.trans h₂.left) hab

theorem Reduced.short_key_le {key₁ key₂ : List α} {t₁ t₂ : Tree α V}
    (h₁ : (short key₁ t₁).Reduced) (h : (short key₁ t₁).lookup = (short key₂ t₂).lookup) :
    key₂ <+: key₁ := by
  obtain ⟨_, hn, hs, hr⟩ := h₁
  obtain ⟨k, v, hk⟩ := hr.exists_lookup hn
  have hp : ∀ k v, t₁.lookup k = some v → key₂ <+: key₁ ++ k := by
    intro k v hk
    rw [← lookup_short_append key₁, h] at hk
    obtain ⟨l, hl, _⟩ := lookup_short_eq_some hk
    exact ⟨l, hl.symm⟩
  rcases List.prefix_or_prefix_of_prefix (hp k v hk) (List.prefix_append key₁ k) with h | h
  · exact h
  · obtain ⟨r, rfl⟩ := h
    have hr := hr.eq_nil_of_common hn hs (fun k v hk => List.prefix_append_right_inj _ |>.mp (hp k v hk))
    simp [hr]

theorem Reduced.ext {s t : Tree α V} (hs : s.Reduced) (ht : t.Reduced) (h : s.lookup = t.lookup) :
    s = t := by
  induction s generalizing t
  case nil =>
    by_contra hn
    obtain ⟨k, v, hk⟩ := ht.exists_lookup (Ne.symm hn)
    simp [← h] at hk
  case value v =>
    have hv := congrFun h []
    cases t <;> simp [lookup] at hv
    case value => simp [hv]
    case short => exact absurd hv.left ht.left
  case short key s hi =>
    have hk  := hs.left
    have hsr := hs.right.right.right
    cases t
    case nil =>
      obtain ⟨k, v, hk⟩ := hs.exists_lookup (by simp)
      simp [h] at hk
    case value v =>
      have hv := congrFun h []
      simp [lookup, hk] at hv
    case short key' t =>
      have he := (ht.short_key_le h.symm).eq_of_length_le (hs.short_key_le h).length_le
      subst he
      simp only [short.injEq, true_and]
      apply hi hsr ht.right.right.right
      funext k
      rw [← lookup_short_append key s, ← lookup_short_append key t, h]
    case full cs =>
      refine absurd (ht.eq_nil_of_common (by simp) rfl ?_) hk
      intro k v hk
      obtain ⟨l, hl, _⟩ := lookup_short_eq_some (h ▸ hk)
      exact ⟨l, hl.symm⟩
  case full cs hi =>
    have hp : ∀ key t, (short key t).Reduced → (full cs).lookup = (short key t).lookup → False := by
      intro key t ht h
      refine absurd (hs.eq_nil_of_common (by simp) rfl ?_) ht.left
      intro k v hk
      obtain ⟨l, hl, _⟩ := lookup_short_eq_some (h ▸ hk)
      exact ⟨l, hl.symm⟩
    cases t
    case nil =>
      obtain ⟨k, v, hk⟩ := hs.exists_lookup (by simp)
      simp [h] at hk
    case value v =>
      have hv := congrFun h []
      simp [lookup] at hv
    case short key t => exact (hp key t ht h).elim
    case full cs' =>
      congr 1
      funext a
      apply hi a (hs.left a) (ht.left a)
      funext k
      rw [← lookup_full_cons cs, ← lookup_full_cons cs', h]

end Tree
end Patricia
