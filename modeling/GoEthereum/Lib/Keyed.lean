import GoEthereum.Lib.GoMap

-- Lists that a key sorts strictly, and maps that hold each element of such a list under its key.

section

variable {α κ : Type} [LinearOrder κ] {key : α → κ} {l l' : List α} {x : α} {t : κ}

def SortedBy (key : α → κ) (l : List α) : Prop :=
  l.Pairwise fun a b => key a < key b

namespace SortedBy

section

variable (h : SortedBy key l)
include h

theorem sublist (hs : l'.Sublist l) : SortedBy key l' :=
  List.Pairwise.sublist hs h

theorem filter (p : α → Bool) : SortedBy key (l.filter p) :=
  h.sublist List.filter_sublist

theorem nodup : l.Nodup :=
  h.imp fun hlt he => hlt.ne (congrArg key he)

theorem nodup_keys : (l.map key).Nodup :=
  List.pairwise_map.mpr (h.imp ne_of_lt)

theorem eq_of_key_eq {y : α} (hx : x ∈ l) (hy : y ∈ l) (he : key x = key y) :
    x = y :=
  List.inj_on_of_nodup_map h.nodup_keys hx hy he

theorem eq_of_perm (h' : SortedBy key l') (hp : l.Perm l') : l = l' :=
  hp.eq_of_pairwise (fun _ _ _ _ hab hba => absurd hba hab.asymm) h h'

theorem filter_append_filter (t : κ) :
    l.filter (key · < t) ++ l.filter (t ≤ key ·) = l := by
  induction l
  case nil => rfl
  case cons x l hi =>
    obtain ⟨hx, hl⟩ := List.pairwise_cons.mp h
    by_cases hlt : key x < t
    · simp [hlt, hlt.not_ge, hi hl]
    · have hle := not_lt.mp hlt
      have h₁ : l.filter (key · < t) = [] := by
        rw [List.filter_eq_nil_iff]
        intro y hy
        simpa using hle.trans (hx y hy).le
      have h₂ : l.filter (t ≤ key ·) = l := by
        rw [List.filter_eq_self]
        intro y hy
        simpa using hle.trans (hx y hy).le
      simp [hlt, hle, h₁, h₂]

end

theorem filter_ne_head (h : SortedBy key (x :: l)) : (x :: l).filter (key · ≠ key x) = l := by
  rw [List.filter_cons_of_neg (by simp), List.filter_eq_self]
  intro y hy
  simpa using ((List.pairwise_cons.mp h).1 y hy).ne'

theorem filter_ne_last (h : SortedBy key (l ++ [x])) : (l ++ [x]).filter (key · ≠ key x) = l := by
  have hl : ∀ y ∈ l, key y ≠ key x := fun y hy =>
    ((List.pairwise_append.mp h).2.2 y hy x (List.mem_singleton_self x)).ne
  simpa using hl

theorem perm_cons_filter (h : SortedBy key l) (hx : x ∈ l) :
    l.Perm (x :: l.filter (key · ≠ key x)) := by
  obtain ⟨a, b, rfl⟩ := List.append_of_mem hx
  obtain ⟨-, hb, hab⟩ := List.pairwise_append.mp h
  have ha : ∀ y ∈ a, key y ≠ key x := fun y hy => (hab y hy x (List.mem_cons_self ..)).ne
  have he : (a ++ x :: b).filter (key · ≠ key x) = a ++ b := by
    rw [List.filter_append, filter_ne_head hb]
    simpa using ha
  rw [he]
  exact List.perm_middle

theorem insertionSort_eq (h : SortedBy key l) (hp : l'.Perm l) :
    l'.insertionSort (fun a b => key a ≤ key b) = l := by
  have hs := List.pairwise_insertionSort (fun a b => key a ≤ key b) l'
  have hp' := (List.perm_insertionSort (fun a b => key a ≤ key b) l').trans hp
  have hn : (l'.insertionSort fun a b => key a ≤ key b).Pairwise (key · ≠ key ·) :=
    List.pairwise_map.mp ((hp'.map key).nodup_iff.mpr h.nodup_keys)
  exact SortedBy.eq_of_perm (hs.imp₂ (fun _ _ hle hne => lt_of_le_of_ne hle hne) hn) h hp'

end SortedBy

-- Puts an element in its place, instead of the one with the same key if there is one.
def insertBy (key : α → κ) (x : α) (l : List α) : List α :=
  l.filter (key · < key x) ++ x :: l.filter (key x < key ·)

theorem SortedBy.insertBy (h : SortedBy key l) (x : α) : SortedBy key (insertBy key x l) := by
  refine List.pairwise_append.mpr ⟨h.filter _, List.pairwise_cons.mpr ⟨?_, h.filter _⟩, ?_⟩
  · intro y hy
    simpa using (List.mem_filter.mp hy).2
  · intro y hy z hz
    have hlt : key y < key x := by simpa using (List.mem_filter.mp hy).2
    obtain rfl | hz := List.mem_cons.mp hz
    · exact hlt
    · have hlt' : key x < key z := by simpa using (List.mem_filter.mp hz).2
      exact hlt.trans hlt'

theorem insertBy_perm (key : α → κ) (x : α) (l : List α) :
    (insertBy key x l).Perm (x :: l.filter (key · ≠ key x)) := by
  refine List.perm_middle.trans (List.Perm.cons x ?_)
  induction l
  case nil => exact List.Perm.refl _
  case cons y l hi =>
    obtain hlt | heq | hgt := lt_trichotomy (key y) (key x)
    · have hne : key y ≠ key x := hlt.ne
      simp only [List.filter_cons, hlt, hlt.asymm, hne, decide_true, decide_false, if_true,
        List.cons_append, ne_eq, not_false_eq_true]
      exact hi.cons y
    · simp only [List.filter_cons, heq, lt_irrefl, decide_false, ne_eq, not_true_eq_false]
      exact hi
    · have hne : key y ≠ key x := hgt.ne'
      simp only [List.filter_cons, hgt, hgt.asymm, hne, decide_true, decide_false, if_true, ne_eq,
        not_false_eq_true]
      exact List.perm_middle.trans (hi.cons y)

theorem mem_insertBy {y : α} : y ∈ insertBy key x l ↔ y = x ∨ y ∈ l ∧ key y ≠ key x := by
  rw [(insertBy_perm key x l).mem_iff]
  simp

end

namespace GoMap

variable {α κ : Type} [DecidableEq κ] {key : α → κ} {m : GoMap κ α} {l : List α} {x : α} {k : κ}

def Holds (key : α → κ) (m : GoMap κ α) (l : List α) : Prop :=
  m.entries.Perm (l.map fun x => ⟨key x, x⟩)

namespace Holds

omit [DecidableEq κ] in
theorem empty : Holds key ∅ [] :=
  List.Perm.refl _

variable (h : Holds key m l)
include h

omit [DecidableEq κ] in
omit [DecidableEq κ] in
theorem length : m.entries.length = l.length := by
  rw [List.Perm.length_eq h, List.length_map]

omit [DecidableEq κ] in
theorem perm {l' : List α} (hp : l.Perm l') : Holds key m l' :=
  List.Perm.trans h (hp.map _)

theorem lookup_iff : m.lookup k = some x ↔ x ∈ l ∧ key x = k := by
  rw [← Option.mem_def, AList.mem_lookup_iff, List.Perm.mem_iff h, List.mem_map]
  constructor
  · rintro ⟨y, hy, he⟩
    cases he
    exact ⟨hy, rfl⟩
  · rintro ⟨hx, rfl⟩
    exact ⟨x, hx, rfl⟩

theorem lookup_of_mem (hx : x ∈ l) : m.lookup (key x) = some x :=
  h.lookup_iff.mpr ⟨hx, rfl⟩

theorem lookup_eq_none_iff : m.lookup k = none ↔ ∀ x ∈ l, key x ≠ k := by
  rw [Option.eq_none_iff_forall_ne_some]
  constructor
  · intro hn x hx he
    exact hn x (h.lookup_iff.mpr ⟨hx, he⟩)
  · intro hn x hx
    obtain ⟨hm, he⟩ := h.lookup_iff.mp hx
    exact hn x hm he

end Holds

theorem kerase_eq_filter {s : List (Sigma fun _ : κ => α)} (h : s.NodupKeys) (k : κ) :
    s.kerase k = s.filter (·.fst ≠ k) := by
  induction s
  case nil => rfl
  case cons e s hi =>
    obtain ⟨hn, hs⟩ := List.nodupKeys_cons.mp h
    by_cases hk : k = e.fst
    · rw [List.kerase_cons_eq hk, List.filter_cons_of_neg (by simp [hk]), List.filter_eq_self.mpr]
      intro e' he'
      simpa [hk] using (List.ne_key.mp hn e' he').symm
    · rw [List.kerase_cons_ne hk, List.filter_cons_of_pos (by simpa using Ne.symm hk), hi hs]

namespace Holds

theorem erase (h : Holds key m l) (k : κ) : Holds key (m.erase k) (l.filter (key · ≠ k)) := by
  have hk : (m.erase k).entries = m.entries.filter (·.fst ≠ k) := kerase_eq_filter m.nodupKeys k
  have hp := List.Perm.filter (fun e => decide (e.fst ≠ k)) h
  rw [List.filter_map] at hp
  rw [Holds, hk]
  exact hp

theorem insert (h : Holds key m l) (x : α) :
    Holds key (m.insert (key x) x) (x :: l.filter (key · ≠ key x)) := by
  exact List.Perm.cons _ (h.erase (key x))

theorem foldl_erase {s : List (κ × α)} (h : Holds key m l) :
    Holds key (s.foldl (fun m e => m.erase e.fst) m) (l.filter fun x => key x ∉ s.map Prod.fst) := by
  induction s generalizing m l
  case nil => simpa using h
  case cons e s hi =>
    have hs := hi (h.erase e.fst)
    rw [List.filter_filter] at hs
    simpa only [List.foldl_cons, List.map_cons, List.mem_cons, not_or, Bool.decide_and, ne_eq,
      Bool.and_comm] using hs

end Holds

-- The order in which loops range over maps, which the language leaves open.
structure RangeOrder (κ α : Type) where
  list : GoMap κ α → List (κ × α)
  perm : ∀ m, (list m).Perm (m.entries.map fun e => (e.fst, e.snd))

theorem RangeOrder.mem_list (ω : RangeOrder κ α) : (k, x) ∈ ω.list m ↔ m.lookup k = some x := by
  rw [(ω.perm m).mem_iff, List.mem_map, ← Option.mem_def, AList.mem_lookup_iff]
  constructor
  · rintro ⟨e, he, heq⟩
    cases heq
    exact he
  · intro h
    exact ⟨_, h, rfl⟩

omit [DecidableEq κ] in
theorem RangeOrder.nodup_fst (ω : RangeOrder κ α) (m : GoMap κ α) :
    ((ω.list m).map Prod.fst).Nodup := by
  have hp := (ω.perm m).map Prod.fst
  rw [List.map_map] at hp
  exact hp.nodup_iff.mpr m.nodupKeys

omit [DecidableEq κ] in
theorem Holds.range (h : Holds key m l) (ω : RangeOrder κ α) :
    (ω.list m).Perm (l.map fun x => (key x, x)) := by
  have hp := List.Perm.map (fun e => (e.fst, e.snd)) h
  rw [List.map_map] at hp
  exact (ω.perm m).trans hp

omit [DecidableEq κ] in
theorem Holds.range_fst (h : Holds key m l) (ω : RangeOrder κ α) :
    ((ω.list m).map Prod.fst).Perm (l.map key) := by
  have hp := (h.range ω).map Prod.fst
  rwa [List.map_map] at hp

omit [DecidableEq κ] in
theorem Holds.range_snd (h : Holds key m l) (ω : RangeOrder κ α) :
    ((ω.list m).map Prod.snd).Perm l := by
  have hp := (h.range ω).map Prod.snd
  rw [List.map_map] at hp
  exact hp.trans (List.Perm.of_eq (List.map_id l))

end GoMap
