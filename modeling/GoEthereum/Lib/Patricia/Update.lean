import GoEthereum.Lib.Patricia

-- Insertion into and deletion from a path compressed tree, as map updates on reduced trees.

namespace Patricia.Tree

variable {α V : Type}

def graft (k : List α) (t : Tree α V) : Tree α V :=
  if k.isEmpty then t else short k t

-- The tree `t` below the nonempty word `k`, where two short nodes are joined into one.
def prepend (k : List α) : Tree α V → Tree α V
  | short k' t => short (k ++ k') t
  | t          => short k t

variable [DecidableEq α]

def fork (a : α) (t : Tree α V) (b : α) (u : Tree α V) : Tree α V :=
  full fun c => if c = b then u else if c = a then t else nil

def insert : Tree α V → List α → V → Tree α V
  | _,           [],     v => value v
  | nil,         a :: k, v => short (a :: k) (value v)
  | value w,     _ :: _, _ => value w
  | short key t, a :: k, v =>
    let m := prefixLen (a :: k) key
    match key.drop m, (a :: k).drop m with
    | [],      l      => short key (insert t l v)
    | b :: bs, c :: l => graft ((a :: k).take m) (fork b (graft bs t) c (graft l (value v)))
    | _ :: _,  []     => short key t
  | full cs,     a :: k, v => full (Function.update cs a (insert (cs a) k v))

open Classical in
-- A full node in minimal form: one that has a single child is replaced by a short node.
noncomputable def collapse (cs : α → Tree α V) : Tree α V :=
  if h : ∃ a, ∀ b, cs b ≠ nil ↔ b = a then prepend [h.choose] (cs h.choose) else full cs

noncomputable def delete : Tree α V → List α → Tree α V
  | nil,         _      => nil
  | value _,     _      => nil
  | short key t, k      =>
    if key <+: k then
      if k.length = key.length then nil else prepend key (delete t (k.drop key.length))
    else
      short key t
  | full cs,     []     => full cs
  | full cs,     a :: k => collapse (Function.update cs a (delete (cs a) k))

def Within (P : Set (List α)) (t : Tree α V) : Prop :=
  ∀ k v, t.lookup k = some v → k ∈ P

section

variable {P : Set (List α)} {t : Tree α V}

theorem Within.short {key : List α} (h : Within P (short key t)) : Within (suffixes P key) t := by
  intro k v hk
  exact h (key ++ k) v (by rw [lookup_short_append, hk])

theorem Within.full {cs : α → Tree α V} (h : Within P (full cs)) (a : α) :
    Within (suffixes P [a]) (cs a) := by
  intro k v hk
  exact h (a :: k) v (by rw [lookup_full_cons, hk])

theorem Within.value {v : V} (h : Within P (value v)) : [] ∈ P :=
  h [] v (by simp [lookup])

end

theorem lookup_graft (k : List α) (t : Tree α V) (l : List α) :
    (graft k t).lookup l = (short k t).lookup l := by
  cases k <;> simp [graft, lookup]

theorem lookup_prepend (k : List α) (t : Tree α V) (l : List α) :
    (prepend k t).lookup l = (short k t).lookup l := by
  cases t <;> simp only [prepend]
  case short key t =>
    by_cases hk : k <+: l
    case pos =>
      obtain ⟨r, rfl⟩ := hk
      rw [lookup_short_append]
      by_cases hr : key <+: r
      case pos =>
        obtain ⟨r, rfl⟩ := hr
        rw [← List.append_assoc, lookup_short_append, lookup_short_append]
      case neg =>
        rw [lookup_short_eq_none _ hr, lookup_short_eq_none]
        rwa [List.prefix_append_right_inj]
    case neg =>
      rw [lookup_short_eq_none _ hk, lookup_short_eq_none]
      exact mt (List.prefix_append k key).trans hk

theorem lookup_collapse (cs : α → Tree α V) (l : List α) :
    (collapse cs).lookup l = (full cs).lookup l := by
  unfold collapse
  split_ifs with h
  case neg => rfl
  case pos =>
    have hc := h.choose_spec
    rw [lookup_prepend]
    cases l
    case nil => simp [lookup]
    case cons b l =>
      by_cases hb : b = h.choose
      case pos => rw [← hb]; exact lookup_short_append [b] (cs b) l
      case neg =>
        have hn := not_not.mp <| mt (hc b).mp hb
        rw [lookup_full_cons, hn, lookup_nil, lookup_short_eq_none]
        simp [List.cons_prefix_cons, Ne.symm hb]

theorem lookup_fork (a : α) (t : Tree α V) (b : α) (u : Tree α V) (c : α) (l : List α) :
    (fork a t b u).lookup (c :: l) =
      if c = b then u.lookup l else if c = a then t.lookup l else none := by
  simp only [fork, lookup_full_cons]
  split_ifs <;> simp

theorem lookup_branch {b c : α} {bs l : List α} (p : List α) (t : Tree α V) (v : V) (h : c ≠ b)
    (k : List α) :
    (short p (fork b (graft bs t) c (graft l (value v)))).lookup k =
      if k = p ++ c :: l then some v else (short (p ++ b :: bs) t).lookup k := by
  by_cases hp : p <+: k
  case neg =>
    rw [lookup_short_eq_none _ hp, if_neg (by rintro rfl; simp at hp),
      lookup_short_eq_none _ (mt (List.prefix_append p _).trans hp)]
  case pos =>
    obtain ⟨k, rfl⟩ := hp
    rw [lookup_short_append]
    cases k
    case nil =>
      rw [lookup_short_eq_none]
      · simp [fork]
      · intro hc
        simpa using hc.length_le
    case cons d k =>
      simp only [lookup_fork, lookup_graft, List.append_cancel_left_eq, List.cons.injEq]
      by_cases hd : d = c
      case pos =>
        subst hd
        rw [if_pos rfl, lookup_short_eq_none (k := p ++ d :: k) t]
        · by_cases hk : k = l
          · simp [hk, lookup]
          · rw [if_neg (by simp [hk])]
            by_cases hl : l <+: k
            · obtain ⟨r, rfl⟩ := hl
              simp_all [lookup]
            · exact lookup_short_eq_none _ hl
        · simp [List.cons_prefix_cons, Ne.symm h]
      case neg =>
        simp only [hd, false_and, if_false]
        by_cases hb : d = b
        case pos =>
          subst hb
          rw [if_pos rfl]
          by_cases hl : bs <+: k
          · obtain ⟨r, rfl⟩ := hl
            rw [lookup_short_append, ← List.cons_append, ← List.append_assoc, lookup_short_append]
          · rw [lookup_short_eq_none _ hl, lookup_short_eq_none]
            simpa [List.cons_prefix_cons] using hl
        case neg =>
          rw [if_neg hb, lookup_short_eq_none]
          simp [List.cons_prefix_cons, Ne.symm hb]

theorem insert_short_append {key : List α} (hk : key ≠ []) (t : Tree α V) (l : List α) (v : V) :
    (short key t).insert (key ++ l) v = short key (t.insert l v) := by
  obtain ⟨a, as, rfl⟩ := List.exists_cons_of_ne_nil hk
  have hm := prefixLen_append_left (a :: as) l
  simp only [List.cons_append] at hm
  simp [insert, hm]

theorem insert_short_branch {b c : α} (h : c ≠ b) (p bs l : List α) (t : Tree α V) (v : V) :
    (short (p ++ b :: bs) t).insert (p ++ c :: l) v =
      graft p (fork b (graft bs t) c (graft l (value v))) := by
  have hm := prefixLen_branch h p bs l
  cases p <;> simp only [List.cons_append, List.nil_append] at hm ⊢ <;> simp [insert, hm]

variable {P : Set (List α)} {t : Tree α V}

theorem Reduced.eq_value (h : t.Reduced) (hn : t ≠ nil)
    (hP : PrefixFree P) (ht : Within P t) (hnil : [] ∈ P) : ∃ v, t = value v := by
  obtain ⟨k, v, hk⟩ := h.exists_lookup hn
  have := hP.eq_nil hnil (ht k v hk)
  subst this
  cases t <;> simp [lookup] at hk
  case value => simp
  case short => exact absurd hk.left h.left

theorem Reduced.not_prefix_key {p : List α} {b : α} {bs : List α}
    (h : (short (p ++ b :: bs) t).Reduced) (hP : PrefixFree P) (ht : Within P (short (p ++ b :: bs) t)) :
    p ∉ P := by
  intro hp
  obtain ⟨k, v, hk⟩ := h.exists_lookup (by simp)
  obtain ⟨l, hl, _⟩ := lookup_short_eq_some hk
  have hpk := hP p hp k (ht k v hk) ⟨b :: bs ++ l, by simp [hl]⟩
  simpa [hl] using congrArg List.length hpk

theorem lookup_leaf (k : List α) (v : V) (l : List α) :
    (short k (value v)).lookup l = if l = k then some v else none := by
  by_cases hl : k <+: l
  · obtain ⟨r, rfl⟩ := hl
    simp [lookup]
  · rw [lookup_short_eq_none _ hl, if_neg (by rintro rfl; simp at hl)]

theorem lookup_insert {k : List α} {v : V} (hP : PrefixFree P)
    (hr : t.Reduced) (ht : Within P t) (hk : k ∈ P) (l : List α) :
    (t.insert k v).lookup l = if l = k then some v else t.lookup l := by
  induction t generalizing P k l
  case nil =>
    cases k
    case nil  => simp [insert, lookup]
    case cons => simp [insert, lookup_leaf]
  case value w =>
    have := hP.eq_nil ht.value hk
    subst this
    simp only [insert, lookup]
    split_ifs <;> rfl
  case short key t hi =>
    rcases append_or_branch k key with ⟨r, rfl⟩ | ⟨b, bs, rfl⟩ | ⟨p, b, bs, c, r, rfl, rfl, h⟩
    · rw [insert_short_append hr.left]
      by_cases hl : key <+: l
      · obtain ⟨s, rfl⟩ := hl
        rw [lookup_short_append, lookup_short_append,
          hi (hP.suffixes key) hr.right.right.right ht.short hk]
        simp
      · rw [lookup_short_eq_none _ hl, lookup_short_eq_none _ hl,
          if_neg (by rintro rfl; simp at hl)]
    · exact absurd hk (hr.not_prefix_key hP ht)
    · rw [insert_short_branch h, lookup_graft, lookup_branch p t v h]
  case full cs hi =>
    cases k
    case nil => simpa using hr.eq_value (by simp) hP ht hk
    case cons a k =>
      cases l
      case nil => simp [insert]
      case cons c l =>
        rw [insert, lookup_full_cons, lookup_full_cons]
        by_cases hc : c = a
        · subst hc
          rw [Function.update_self, hi c (hP.suffixes [c]) (hr.left c) (ht.full c) hk]
          simp
        · rw [Function.update_of_ne hc, if_neg (by simp [hc])]

theorem Within.insert {k : List α} {v : V} (hP : PrefixFree P)
    (hr : t.Reduced) (ht : Within P t) (hk : k ∈ P) : Within P (t.insert k v) := by
  intro l w hl
  rw [lookup_insert hP hr ht hk] at hl
  split_ifs at hl with h
  · exact h ▸ hk
  · exact ht l w hl

variable {t : Tree α V} {cs : α → Tree α V}

omit [DecidableEq α] in
theorem Reduced.graft (h : t.Reduced) (hn : t ≠ nil) (hs : t.isShort = false)
    (k : List α) : (graft k t).Reduced ∧ Tree.graft k t ≠ nil := by
  cases k
  case nil  => simpa [Tree.graft] using ⟨h, hn⟩
  case cons => simp [Tree.graft, Reduced, h, hn, hs]

theorem Reduced.fork {a b : α} {t u : Tree α V} (hab : b ≠ a) (ht : t.Reduced ∧ t ≠ nil)
    (hu : u.Reduced ∧ u ≠ nil) : (fork a t b u).Reduced := by
  refine ⟨fun c => ?_, a, b, Ne.symm hab, ?_, ?_⟩
  · dsimp only
    split_ifs
    exacts [hu.left, ht.left, trivial]
  · simpa [Ne.symm hab] using ht.right
  · simpa using hu.right

-- Inserting below a short node never puts another short node there.
theorem Reduced.insert {P : Set (List α)} {k : List α} {v : V} (hP : PrefixFree P)
    (hr : t.Reduced) (ht : Within P t) (hk : k ∈ P) :
    (t.insert k v).Reduced ∧ t.insert k v ≠ nil ∧
      (t ≠ nil → t.isShort = false → (t.insert k v).isShort = false) := by
  induction t generalizing P k
  case nil     => cases k <;> simp [Tree.insert, Reduced, isShort]
  case value w => cases k <;> simp [Tree.insert, Reduced, isShort]
  case short key t hi =>
    obtain ⟨hkey, hn, hs, hrt⟩ := id hr
    rcases append_or_branch k key with ⟨r, rfl⟩ | ⟨b, bs, rfl⟩ | ⟨p, b, bs, c, r, rfl, rfl, h⟩
    · obtain ⟨h₁, h₂, h₃⟩ := hi (hP.suffixes key) hrt ht.short hk
      rw [insert_short_append hkey]
      exact ⟨⟨hkey, h₂, h₃ hn hs, h₁⟩, by simp, by simp [isShort]⟩
    · exact absurd hk (hr.not_prefix_key hP ht)
    · have hf := Reduced.fork h (hrt.graft hn hs bs) (Reduced.graft (t := value v) trivial (by simp) rfl r)
      obtain ⟨h₁, h₂⟩ := hf.graft (by simp [Tree.fork]) (by simp [Tree.fork, isShort]) p
      rw [insert_short_branch h]
      exact ⟨h₁, h₂, by simp [isShort]⟩
  case full cs hi =>
    cases k
    case nil => simp [Tree.insert, Reduced, isShort]
    case cons a k =>
      obtain ⟨h₁, h₂, _⟩ := hi a (hP.suffixes [a]) (hr.left a) (ht.full a) hk
      rw [Tree.insert]
      refine ⟨⟨fun c => ?_, ?_⟩, by simp, by simp [isShort]⟩
      · rw [Function.update_apply]
        split_ifs
        exacts [h₁, hr.left c]
      · obtain ⟨b, c, hbc, hb, hc⟩ := hr.right
        refine ⟨b, c, hbc, ?_, ?_⟩ <;> rw [Function.update_apply] <;> split_ifs <;> assumption

omit [DecidableEq α] in
theorem Reduced.prepend {k : List α} (h : t.Reduced) (hn : t ≠ nil) (hk : k ≠ []) :
    (prepend k t).Reduced := by
  cases t <;> simp_all [Tree.prepend, Reduced, isShort]

omit [DecidableEq α] in
theorem prepend_ne_nil (t : Tree α V) (k : List α) : prepend k t ≠ nil := by
  cases t <;> simp [Tree.prepend]

omit [DecidableEq α] in
theorem Reduced.collapse (cs : α → Tree α V) {a : α} (h : ∀ a, (cs a).Reduced) (ha : cs a ≠ nil) :
    (collapse cs).Reduced ∧ Tree.collapse cs ≠ nil := by
  unfold Tree.collapse
  split_ifs with hc
  · have hn := (hc.choose_spec hc.choose).mpr rfl
    exact ⟨(h _).prepend hn (by simp), prepend_ne_nil _ _⟩
  · refine ⟨⟨h, ?_⟩, by simp⟩
    push Not at hc
    obtain ⟨b, hb⟩ := hc a
    rcases hb with ⟨hb, hne⟩ | ⟨hb, rfl⟩
    · exact ⟨a, b, Ne.symm hne, ha, hb⟩
    · contradiction

omit [DecidableEq α] in
theorem collapse_of_single {a : α} (h : ∀ b, cs b ≠ nil ↔ b = a) :
    collapse cs = prepend [a] (cs a) := by
  have hc : ∃ a, ∀ b, cs b ≠ nil ↔ b = a := ⟨a, h⟩
  have ha : hc.choose = a := (h _).mp <| (hc.choose_spec _).mpr rfl
  rw [Tree.collapse, dif_pos hc, ha]

omit [DecidableEq α] in
theorem collapse_of_not_single (h : ¬∃ a, ∀ b, cs b ≠ nil ↔ b = a) :
    collapse cs = full cs :=
  dif_neg h

omit [DecidableEq α] in
theorem Reduced.collapse_eq_full (h : (full cs).Reduced) :
    Tree.collapse cs = full cs := by
  apply collapse_of_not_single
  rintro ⟨a, ha⟩
  obtain ⟨b, c, hbc, hb, hc⟩ := h.right
  exact hbc <| (ha b |>.mp hb).trans (ha c |>.mp hc).symm

omit [DecidableEq α] in
theorem prepend_of_not_isShort (h : t.isShort = false) (k : List α) :
    prepend k t = short k t := by
  cases t <;> simp [isShort] at h <;> rfl

theorem delete_short_append {key : List α} (t : Tree α V) {l : List α} (hl : l ≠ []) :
    (short key t).delete (key ++ l) = prepend key (t.delete l) := by
  simp [delete, hl]

variable {k : List α} {P : Set (List α)}

theorem delete_eq_nil (h : t.delete k = nil) :
    t = nil ∨ (∃ v, t = value v) ∨ ∃ t', t = short k t' := by
  cases t
  case nil     => exact .inl rfl
  case value v => exact .inr <| .inl ⟨v, rfl⟩
  case short key t =>
    rw [delete] at h
    split_ifs at h with hp hl
    · exact .inr <| .inr ⟨t, by rw [hp.eq_of_length hl.symm]⟩
    · exact absurd h (prepend_ne_nil _ _)
  case full cs =>
    cases k
    case nil => simp [delete] at h
    case cons a k =>
      rw [delete, collapse] at h
      split_ifs at h
      exact absurd h (prepend_ne_nil _ _)

theorem lookup_delete (hP : PrefixFree P)
    (hr : t.Reduced) (ht : Within P t) (hk : k ∈ P) (l : List α) :
    (t.delete k).lookup l = if l = k then none else t.lookup l := by
  induction t generalizing P k l
  case nil => simp [delete]
  case value w =>
    have := hP.eq_nil ht.value hk
    subst this
    simp only [delete, lookup]
    split_ifs <;> rfl
  case short key t hi =>
    by_cases hp : key <+: k
    case neg =>
      rw [delete]
      split_ifs with hl
      · rw [hl, lookup_short_eq_none _ hp]
      · rfl
    case pos =>
      obtain ⟨r, rfl⟩ := hp
      by_cases hl : key <+: l
      case neg =>
        rw [if_neg (by rintro rfl; simp at hl), lookup_short_eq_none _ hl]
        by_cases he : r = []
        · simp [delete, he]
        · rw [delete_short_append t he, lookup_prepend, lookup_short_eq_none _ hl]
      case pos =>
        obtain ⟨s, rfl⟩ := hl
        by_cases he : r = []
        · -- The whole key matches: below it there is nothing but its value.
          subst he
          obtain ⟨v, hv⟩ := hr.right.right.right.eq_value hr.right.left (hP.suffixes key) ht.short hk
          rw [hv]
          simp [delete, lookup]
        · rw [delete_short_append t he, lookup_prepend, lookup_short_append, lookup_short_append,
            hi (hP.suffixes key) hr.right.right.right ht.short hk]
          simp
  case full cs hi =>
    cases k
    case nil => simpa using hr.eq_value (by simp) hP ht hk
    case cons a k =>
      rw [delete, lookup_collapse]
      cases l
      case nil => simp
      case cons c l =>
        rw [lookup_full_cons, lookup_full_cons]
        by_cases hc : c = a
        · subst hc
          rw [Function.update_self, hi c (hP.suffixes [c]) (hr.left c) (ht.full c) hk]
          simp
        · rw [Function.update_of_ne hc, if_neg (by simp [hc])]

theorem Within.delete (hP : PrefixFree P)
    (hr : t.Reduced) (ht : Within P t) (hk : k ∈ P) : Within P (t.delete k) := by
  intro l w hl
  rw [lookup_delete hP hr ht hk] at hl
  split_ifs at hl with h
  exact ht l w hl

theorem Reduced.exists_update_ne_nil {cs : α → Tree α V} (h : (full cs).Reduced) (a : α)
    (t : Tree α V) : ∃ b, Function.update cs a t b ≠ nil := by
  obtain ⟨b, c, hbc, hb, hc⟩ := h.right
  by_cases hba : b = a
  · exact ⟨c, by rwa [Function.update_of_ne (hba ▸ Ne.symm hbc)]⟩
  · exact ⟨b, by rwa [Function.update_of_ne hba]⟩

theorem Reduced.delete (hP : PrefixFree P) (hr : t.Reduced) (ht : Within P t) (hk : k ∈ P) :
    (t.delete k).Reduced ∧ ((∃ cs, t = full cs) → t.delete k ≠ nil) := by
  induction t generalizing P k
  case nil     => simp [Tree.delete, Reduced]
  case value w => simp [Tree.delete, Reduced]
  case short key t hi =>
    refine ⟨?_, by simp⟩
    by_cases hp : key <+: k
    case neg => rwa [Tree.delete, if_neg hp]
    case pos =>
      obtain ⟨r, rfl⟩ := hp
      obtain ⟨hkey, hn, hs, hrt⟩ := hr
      by_cases he : r = []
      · simp [Tree.delete, he, Reduced]
      · obtain ⟨h₁, h₂⟩ := hi (hP.suffixes key) hrt ht.short hk
        rw [delete_short_append t he]
        refine h₁.prepend (h₂ ?_) hkey
        cases t <;> simp [isShort] at hs hn ⊢
        exact he (hP.suffixes key |>.eq_nil ht.short.value hk)
  case full cs hi =>
    cases k
    case nil => exact ⟨hr, by simp [Tree.delete]⟩
    case cons a k =>
      obtain ⟨h₁, _⟩ := hi a (hP.suffixes [a]) (hr.left a) (ht.full a) hk
      obtain ⟨b, hb⟩ := hr.exists_update_ne_nil a ((cs a).delete k)
      obtain ⟨h₂, h₃⟩ := Reduced.collapse (Function.update cs a ((cs a).delete k)) (a := b)
        (fun c => by rw [Function.update_apply]; split_ifs; exacts [h₁, hr.left c]) hb
      exact ⟨h₂, fun _ => h₃⟩

end Patricia.Tree
