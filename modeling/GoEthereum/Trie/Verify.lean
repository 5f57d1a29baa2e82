import GoEthereum.Trie.Proof

-- What `VerifyProof` accepts.

namespace Trie

open Common Merkle

section

variable {keccak : Bytes → Hash} {S : Set Bytes} {p k : Key} {t : Tree} {gen : UInt16}
variable {n : Node Key} {ε : Type}

def EndsAtFork : Tree → Key → Prop
  | .nil,       _       => False
  | .value _,   _       => False
  | .short k t, key     => k <+: key ∧ EndsAtFork t (key.drop k.length)
  | .full _,    []      => False
  | .full cs,   a :: as => (as = [] ∧ cs a = .nil) ∨ EndsAtFork (cs a) as

theorem endsAtFork_short_append {l : Key} : EndsAtFork (.short k t) (k ++ l) ↔ EndsAtFork t l := by
  simp [EndsAtFork]

-- What `get` finds below a node, if `rest` are the proof elements below it.
inductive Found (keccak : Bytes → Hash) (t : Tree) (k : Key) (rest : List Bytes) :
    Go ε (Key × Node Key) → Prop
  | nil {l : Key} : t.lookup k = none → ¬EndsAtFork t k → rest = [] →
    Found keccak t k rest (.ok (l, .nil))
  | value {l : Key} {v : Value} : t.lookup k = some v → ¬EndsAtFork t k → rest = [] →
    Found keccak t k rest (.ok (l, .value v.val))
  | hash {p' k' : Key} {t' : Tree} : Wf p' t' → t'.isNode = true → p' ++ k' ∈ hexKeys →
    t.lookup k = t'.lookup k' → (EndsAtFork t k ↔ EndsAtFork t' k') →
    rest = enc keccak t' :: elements keccak (path t' k').tail →
    (∀ A : Bytes → Prop, (t.isNode → 32 ≤ (enc keccak t).length → A (enc keccak t)) →
      Under keccak A t → Whole keccak A t') →
    Found keccak t k rest (.ok (k', .hash (keccak (enc keccak t'))))
  | panic : EndsAtFork t k → rest = [] → Found keccak t k rest Go.panics

theorem Found.up {s : Tree} {l : Key} {rest : List Bytes} {res : Go ε (Key × Node Key)}
    (h : Found keccak t k rest res) (hl : s.lookup l = t.lookup k)
    (hf : EndsAtFork s l ↔ EndsAtFork t k)
    (hu : ∀ A : Bytes → Prop, Under keccak A s →
      (t.isNode → 32 ≤ (enc keccak t).length → A (enc keccak t)) ∧ Under keccak A t) :
    Found keccak s l rest res := by
  cases h
  case nil h₁ h₂ h₃   => exact .nil (hl.trans h₁) (hf.not.mpr h₂) h₃
  case value h₁ h₂ h₃ => exact .value (hl.trans h₁) (hf.not.mpr h₂) h₃
  case panic h₁ h₂    => exact .panic (hf.mpr h₁) h₂
  case hash h₁ h₂ h₃ h₄ h₅ h₆ h₇ =>
    exact .hash h₁ h₂ h₃ (hl.trans h₄) (hf.trans h₅) h₆ fun A _ h => h₇ A (hu A h).left (hu A h).right

theorem elements_path_of_lt (hn : t.isNode = true) (hk : k ≠ []) (hl : (enc keccak t).length < 32) :
    elements keccak (path t k) = elements keccak (path t k).tail := by
  conv_lhs => rw [path_eq_cons hn hk]
  simp [elements, hl]

theorem elements_path_of_le (hn : t.isNode = true) (hk : k ≠ []) (hl : 32 ≤ (enc keccak t).length) :
    elements keccak (path t k) = enc keccak t :: elements keccak (path t k).tail := by
  conv_lhs => rw [path_eq_cons hn hk]
  simp [elements, hl]

theorem get_short {c : Node Key} {flags : NodeFlag} (ht : Wf p (.short k t))
    (hi : ∀ {l : Key}, p ++ k ++ l ∈ hexKeys →
      Found keccak t l (elements keccak (path t l)) (get c l : Go ε _)) {key : Key}
    (hk : p ++ key ∈ hexKeys) :
    Found keccak (.short k t) key (elements keccak (path (.short k t) key).tail)
      (get (.short k c flags) key : Go ε _) := by
  have hne := ne_nil_of_isNode ht rfl hk
  obtain ⟨a, as, rfl⟩ := List.exists_cons_of_ne_nil hne
  by_cases hp : k <+: a :: as
  case neg =>
    have hcond : (a :: as).length < k.length ∨ k ≠ (a :: as).take k.length := by
      by_contra hcon
      push Not at hcon
      exact hp <| List.prefix_iff_eq_take.mpr hcon.right
    rw [path_short_of_not_isPrefix (by simp) hp]
    simp only [get]
    rw [if_pos hcond]
    exact .nil (Patricia.Tree.lookup_short_eq_none _ hp) (fun h => hp h.left) rfl
  case pos =>
    obtain ⟨l, hl⟩ := hp
    have hcond : ¬((a :: as).length < k.length ∨ k ≠ (a :: as).take k.length) := by
      rw [← hl]
      simp
    have hget : (get (.short k c flags) (a :: as) : Go ε _) = get c l := by
      simp only [get]
      rw [if_neg hcond, ← hl, List.drop_left]
    rw [hget, ← hl, path_short_append ht.reduced.left]
    exact (hi (by rwa [List.append_assoc, hl])).up (Patricia.Tree.lookup_short_append ..)
      endsAtFork_short_append fun _ h => h

theorem get_full {cs : Nibble → Node Key} {ts : Nibble → Tree} {flags : NodeFlag}
    (ht : Wf p (.full ts))
    (hi : ∀ {i : Nibble} {l : Key}, p ++ [i] ++ l ∈ hexKeys → (l = [] → ts i ≠ .nil) →
      Found keccak (ts i) l (elements keccak (path (ts i) l)) (get (cs i) l : Go ε _))
    (hnil : ∀ i, ts i = .nil → cs i = .nil) {key : Key} (hk : p ++ key ∈ hexKeys) :
    Found keccak (.full ts) key (elements keccak (path (.full ts) key).tail)
      (get (.full cs flags) key : Go ε _) := by
  have hne := ne_nil_of_isNode ht rfl hk
  obtain ⟨a, as, rfl⟩ := List.exists_cons_of_ne_nil hne
  by_cases hf : as = [] ∧ ts a = .nil
  case pos =>
    obtain ⟨rfl, hts⟩ := hf
    have hget : (get (.full cs flags) [a] : Go ε _) = Go.panics := by
      simp [get, hnil a hts]
    rw [hget]
    exact .panic (.inl ⟨rfl, hts⟩) (by simp [path, elements])
  case neg =>
    have hget : (get (.full cs flags) (a :: as) : Go ε _) = get (cs a) as := by
      simp only [get]
    exact (hi (by simpa using hk) fun h₁ h₂ => hf ⟨h₁, h₂⟩).up (Patricia.Tree.lookup_full_cons ..)
      (by simp [EndsAtFork, hf]) fun _ h => h a

theorem Child.eq_nil (h : Child keccak gen n .nil) : n = .nil := by
  cases h
  case nil       => rfl
  case hash hn _ => simp [Patricia.Tree.isNode] at hn

theorem get_child (ht : Wf p t) (h : Child keccak gen n t) (hk : p ++ k ∈ hexKeys)
    (hnil : k = [] → t ≠ .nil) :
    Found keccak t k (elements keccak (path t k)) (get n k : Go ε _) := by
  induction h generalizing p k
  case nil =>
    obtain ⟨a, as, rfl⟩ := List.exists_cons_of_ne_nil fun h => hnil h rfl
    exact .nil (by simp) (by simp [EndsAtFork]) (by simp [path, elements])
  case value v =>
    obtain rfl := eq_nil_of_mem ht.value hk
    exact .value (by simp [Patricia.Tree.lookup]) (by simp [EndsAtFork]) (by simp [elements])
  case hash t hn hl =>
    have hne := ne_nil_of_isNode ht hn hk
    have hget : (get (.hash (keccak (enc keccak t))) k : Go ε _) =
        .ok (k, .hash (keccak (enc keccak t))) := by
      obtain ⟨a, as, rfl⟩ := List.exists_cons_of_ne_nil hne
      rfl
    rw [hget]
    exact .hash ht hn hk rfl .rfl (elements_path_of_le hn hne hl) fun A h₁ h₂ => ⟨h₁ hn hl, h₂⟩
  case short hl _ hi =>
    rw [elements_path_of_lt rfl (ne_nil_of_isNode ht rfl hk) hl]
    exact get_short ht (fun hk => hi ht.of_short hk fun _ => ht.reduced.right.left) hk
  case full hl hc hi =>
    rw [elements_path_of_lt rfl (ne_nil_of_isNode ht rfl hk) hl]
    exact get_full ht (fun hk hn => hi _ (ht.of_full _) hk hn)
      (fun i hn => (hn ▸ hc i).eq_nil) hk

theorem get_decoded {hash : Option Hash} (ht : Wf p t) (h : Decoded keccak gen hash n t)
    (hk : p ++ k ∈ hexKeys) :
    Found keccak t k (elements keccak (path t k).tail) (get n k : Go ε _) := by
  cases h
  case short h =>
    exact get_short ht (fun hk => get_child ht.of_short h hk fun _ => ht.reduced.right.left) hk
  case full h =>
    exact get_full ht (fun hk hn => get_child (ht.of_full _) (h _) hk hn)
      (fun i hn => (hn ▸ h i).eq_nil) hk

end

section

variable {keccak : Bytes → Hash} {S : Set Bytes} {p k : Key} {t : Tree} {gen : UInt16}

-- A proof that `Prove` made is accepted, unless the key ends at a full node with no value.
variable (keccak) in
theorem verifyFrom_prove (ht : Wf p t) (hn : t.isNode = true) (hk : p ++ k ∈ hexKeys) (i : Nat) :
    let res := verifyFrom keccak i (keccak (enc keccak t)) k
      (enc keccak t :: elements keccak (path t k).tail)
    (¬EndsAtFork t k → res = .ok ((t.lookup k).map (·.val))) ∧ (EndsAtFork t k → res = Go.panics) := by
  generalize hrest : elements keccak (path t k).tail = rest
  obtain ⟨n, hd, hdec⟩ := decodeNode_enc keccak 0 (some (keccak (enc keccak t))) ht hn
  induction rest generalizing p t k i n
  all_goals
    have hf := get_decoded (ε := ProofError) ht hdec hk
    generalize hres : get n k = res at hf
    simp only [verifyFrom, hd, hres, ne_eq, not_true_eq_false, if_false]
  case nil =>
    cases hf
    case nil h₁ h₂ _    => simp [h₁, h₂, bind, Except.bind, pure, Except.pure]
    case value h₁ h₂ _  => simp [h₁, h₂, bind, Except.bind, pure, Except.pure]
    case panic h₁ _     => simp [h₁, bind, Except.bind, Go.panics]
    case hash h₁ _      => simp [hrest] at h₁
  case cons e rest hi =>
    cases hf
    case nil h₁         => simp [hrest] at h₁
    case value h₁       => simp [hrest] at h₁
    case panic h₁       => simp [hrest] at h₁
    case hash p' k' t' h₁ h₂ h₃ h₄ h₅ h₆ h₇ =>
      rw [hrest] at h₆
      obtain ⟨rfl, rfl⟩ := List.cons.inj h₆
      obtain ⟨n, hd, hdec⟩ := decodeNode_enc keccak 0 (some (keccak (enc keccak t'))) h₁ h₂
      rw [h₄, h₅]
      exact hi h₁ h₂ h₃ (i + 1) rfl n hd hdec

theorem verifyFrom_sound (hinj : Set.InjOn keccak S) (ht : Wf p t) (hn : t.isNode = true)
    (hw : Whole keccak (· ∈ S) t) (hk : p ++ k ∈ hexKeys) {i : Nat} {proof : List Bytes}
    (hp : ∀ e ∈ proof, e ∈ S) {v : Option Bytes}
    (h : verifyFrom keccak i (keccak (enc keccak t)) k proof = .ok v) :
    v = (t.lookup k).map (·.val) := by
  induction proof generalizing p t k i
  case nil => simp [verifyFrom, Go.fail] at h
  case cons buf proof hi =>
    by_cases hb : keccak buf = keccak (enc keccak t)
    case neg => simp [verifyFrom, hb, Go.fail] at h
    case pos =>
      obtain rfl := hinj (hp buf (by simp)) hw.self hb
      obtain ⟨n, hd, hdec⟩ := decodeNode_enc keccak 0 (some (keccak (enc keccak t))) ht hn
      have hf := get_decoded (ε := ProofError) ht hdec hk
      generalize hres : get n k = res at hf
      simp only [verifyFrom, hd, hres, ne_eq, not_true_eq_false, if_false] at h
      cases hf
      case panic => simp [bind, Except.bind, Go.panics] at h
      case nil h₁ _ _ =>
        simp only [bind, Except.bind] at h
        split_ifs at h
        · simpa [h₁, pure, Except.pure, eq_comm] using h
        · simp [Go.fail] at h
      case value h₁ _ _ =>
        simp only [bind, Except.bind] at h
        split_ifs at h
        · simpa [h₁, pure, Except.pure, eq_comm] using h
        · simp [Go.fail] at h
      case hash h₁ h₂ h₃ h₄ h₅ h₆ h₇ =>
        rw [h₄]
        exact hi h₁ h₂ (h₇ _ (fun _ _ => hw.self) hw.under) h₃ (fun e he => hp e (by simp [he])) h

theorem verifyFrom_empty (hcf : CollisionFree keccak S) {i : Nat} {proof : List Bytes}
    (hp : ∀ e ∈ proof, e ∈ S) {v : Option Bytes} : verifyFrom keccak i emptyRoot k proof ≠ .ok v := by
  cases proof
  case nil => simp [verifyFrom, Go.fail]
  case cons buf proof =>
    by_cases hb : keccak buf = emptyRoot
    case neg => simp [verifyFrom, hb, Go.fail]
    case pos =>
      obtain rfl := hcf.injOn (hp buf (by simp)) hcf.empty (hb.trans hcf.root.symm)
      have hd : decodeNode (some emptyRoot) [0x80] 0 = Go.fail ⟨.decode .expectedList, []⟩ := rfl
      simp only [verifyFrom, hb, ne_eq, not_true_eq_false, if_false, hd]
      simp [Go.fail]

end

section

variable {p q : Key} {t : Tree} {c : Nibble}

-- Two keys in the tree part after `q`.
def Parts (t : Tree) (q : Key) : Prop :=
  ∃ a b l₁ l₂, a ≠ b ∧ t.lookup (q ++ a :: l₁) ≠ none ∧ t.lookup (q ++ b :: l₂) ≠ none

theorem parts_short_append {k : Key} : Parts (.short k t) (k ++ q) ↔ Parts t q := by
  simp only [Parts, List.append_assoc, Patricia.Tree.lookup_short_append]

theorem parts_full_cons {ts : Nibble → Tree} {i : Nibble} : Parts (.full ts) (i :: q) ↔ Parts (ts i) q := by
  simp only [Parts, List.cons_append, Patricia.Tree.lookup_full_cons]

theorem Parts.isPrefix {k : Key} (h : Parts (.short k t) q) : k <+: q := by
  obtain ⟨a, b, l₁, l₂, hab, h₁, h₂⟩ := h
  have hle : k.length ≤ q.length := by
    by_contra hlt
    obtain ⟨v₁, h₁⟩ := Option.ne_none_iff_exists'.mp h₁
    obtain ⟨v₂, h₂⟩ := Option.ne_none_iff_exists'.mp h₂
    obtain ⟨r₁, hr₁, -⟩ := Patricia.Tree.lookup_short_eq_some h₁
    obtain ⟨r₂, hr₂, -⟩ := Patricia.Tree.lookup_short_eq_some h₂
    -- The key of the short node has both nibbles at the same place.
    have hat {a : Nibble} {l r : Key} (h : q ++ a :: l = k ++ r) : k[q.length]? = some a := by
      have := congrArg (·[q.length]?) h
      rw [List.getElem?_append_right (Nat.le_refl _), List.getElem?_append_left (by omega)] at this
      simpa using this.symm
    exact hab <| Option.some.inj <| (hat hr₁).symm.trans (hat hr₂)
  obtain ⟨v₁, h₁⟩ := Option.ne_none_iff_exists'.mp h₁
  obtain ⟨r₁, hr₁, -⟩ := Patricia.Tree.lookup_short_eq_some h₁
  exact List.prefix_of_prefix_length_le ⟨r₁, hr₁.symm⟩ (List.prefix_append ..) hle

theorem not_endsAtFork_nil (ht : t.Reduced) : ¬EndsAtFork t [] := by
  cases t <;> simp [EndsAtFork]
  case short k t => exact fun hk => absurd hk ht.left

theorem endsAtFork_iff (ht : Wf p t) (hq : p ++ (q ++ [c]) ∈ hexKeys) :
    EndsAtFork t (q ++ [c]) ↔ t.lookup (q ++ [c]) = none ∧ Parts t q := by
  induction t generalizing p q
  case nil   => simp [EndsAtFork, Parts]
  case value => simp [EndsAtFork, Parts, Patricia.Tree.lookup]
  case short k t hi =>
    by_cases hp : k <+: q
    case pos =>
      obtain ⟨l, rfl⟩ := hp
      rw [List.append_assoc, endsAtFork_short_append, Patricia.Tree.lookup_short_append,
        parts_short_append]
      exact hi ht.of_short (by simpa using hq)
    case neg =>
      refine ⟨fun h => ?_, fun h => absurd h.right.isPrefix hp⟩
      obtain ⟨hk, h⟩ := h
      obtain rfl := (List.prefix_concat_iff.mp hk).resolve_right hp
      rw [List.drop_length] at h
      exact absurd h (not_endsAtFork_nil ht.reduced.right.right.right)
  case full ts hi =>
    cases q
    case cons i q =>
      rw [List.cons_append, Patricia.Tree.lookup_full_cons, parts_full_cons,
        ← hi i (ht.of_full i) (by simpa using hq)]
      simp [EndsAtFork]
    case nil =>
      have hparts : Parts (.full ts) [] := by
        obtain ⟨hr, a, b, hab, ha, hb⟩ := ht.reduced
        obtain ⟨l₁, v₁, h₁⟩ := (hr a).exists_lookup ha
        obtain ⟨l₂, v₂, h₂⟩ := (hr b).exists_lookup hb
        exact ⟨a, b, l₁, l₂, hab, by simp [h₁], by simp [h₂]⟩
      have hc : p ++ [c] ∈ hexKeys := hq
      simp only [List.nil_append, EndsAtFork, true_and, Patricia.Tree.lookup_full_cons, hparts, and_true,
        not_endsAtFork_nil (ht.reduced.left c), or_false]
      constructor
      · intro h
        simp [h]
      · intro h
        by_contra hn
        obtain ⟨v, hv⟩ := (ht.of_full c).eq_value hc hn
        simp [hv, Patricia.Tree.lookup] at h

-- The key is not in the map, but two keys are that go on after it with different nibbles.
def Forks (m : Contents) (k : ByteKey) : Prop :=
  m k = none ∧ ∃ (l₁ l₂ : ByteKey) (a b : Nibble), m l₁ ≠ none ∧ m l₂ ≠ none ∧ a ≠ b ∧
    nibbles k.val ++ [a] <+: nibbles l₁.val ∧ nibbles k.val ++ [b] <+: nibbles l₂.val

theorem forks_iff (ht : Wf [] t) (k : ByteKey) :
    Forks (contents t) k ↔ EndsAtFork t (compactHexDecode k.val) := by
  rw [compactHexDecode, endsAtFork_iff ht (mem_hexKeys k), Forks, contents,
    Option.map_eq_none_iff]
  refine and_congr_right fun hk => ⟨?_, ?_⟩
  · rintro ⟨l₁, l₂, a, b, h₁, h₂, hab, ⟨r₁, hr₁⟩, ⟨r₂, hr₂⟩⟩
    refine ⟨a, b, r₁ ++ [terminator], r₂ ++ [terminator], hab, ?_, ?_⟩
    · simpa [contents, compactHexDecode, ← hr₁] using h₁
    · simpa [contents, compactHexDecode, ← hr₂] using h₂
  · rintro ⟨a, b, l₁, l₂, hab, h₁, h₂⟩
    -- A key that parts from `k` goes on with a nibble.
    have hkey {a : Nibble} {l : Key} (h : t.lookup (nibbles k.val ++ a :: l) ≠ none) :
        ∃ l' : ByteKey, contents t l' ≠ none ∧ nibbles k.val ++ [a] <+: nibbles l'.val := by
      obtain ⟨v, hv⟩ := Option.ne_none_iff_exists'.mp h
      obtain ⟨b, hb, hl⟩ := ht.within _ v hv
      rw [List.nil_append] at hl
      refine ⟨⟨b, hb⟩, by simp [contents, ← hl, hv], ?_⟩
      cases l using List.reverseRecOn
      case nil =>
        have := (List.append_inj' hl rfl).right
        rw [this] at hv
        simp [compactHexDecode, hv] at hk
      case append_singleton l _ _ =>
        rw [← List.cons_append, ← List.append_assoc] at hl
        exact ⟨l, by rw [← (List.append_inj' hl rfl).left]; simp⟩
    obtain ⟨l₁, h₁, hp₁⟩ := hkey h₁
    obtain ⟨l₂, h₂, hp₂⟩ := hkey h₂
    exact ⟨l₁, l₂, a, b, h₁, h₂, hab, hp₁, hp₂⟩

end

variable {keccak : Bytes → Hash}

-- A proof that `Prove` makes is accepted by `VerifyProof` with the value in the trie, if and only if
-- the key does not end where two stored keys fork. There `VerifyProof` panics.
theorem verifyProof_prove_iff (db : Database) (ops : List Op) (k : ByteKey)
    (hcf : CollisionFree keccak ({[0x80]} ∪ hashedIn keccak db (ops ++ [Op.hash])))
    (hz : ∀ i, Op.reopen i ∈ ops → NoZero keccak (hashedIn keccak db (ops ++ [Op.hash])))
    (hne : ∃ l, (Spec.start.run ops).cur l ≠ none) :
    ∃ s outs h proof,
      (Session.start db).run keccak (ops ++ [Op.hash]) = .ok (s, outs ++ [Output.root h]) ∧
      s.trie.prove s.db keccak k.val = .ok proof ∧
      (verifyProof keccak h k.val proof = .ok ((Spec.start.run ops).cur k) ↔
        ¬Forks (Spec.start.run ops).cur k) ∧
      (Forks (Spec.start.run ops).cur k → verifyProof keccak h k.val proof = Go.panics) := by
  obtain ⟨s, outs, t, hrun, ht, hc, _, hr⟩ := run_hash hcf (fun i h => (hz i h).union hcf)
    Set.subset_union_right
  have hn : t.isNode = true := by
    apply ht.isNode_of_ne_nil
    rintro rfl
    obtain ⟨l, hl⟩ := hne
    exact hl (by rw [← hc, contents_nil])
  have hroot : rootHash keccak t = keccak (enc keccak t) := by simp [rootHash, hn]
  obtain ⟨hok, hpanic⟩ := verifyFrom_prove keccak (k := compactHexDecode k.val) ht hn (mem_hexKeys k) 0
  refine ⟨s, outs, _, _, hrun, prove_spec s.trie ht hn hr, ?_⟩
  rw [← hc, hroot, verifyProof, forks_iff ht]
  refine ⟨⟨fun h hf => ?_, hok⟩, hpanic⟩
  rw [hpanic hf] at h
  simp [Go.panics] at h

def sampleLeaves : List Op :=
  sampleOps.take 2

theorem sampleLeaves_hashed :
    hashedIn sampleKeccak (fun _ => none) (sampleLeaves ++ [Op.hash]) ⊆ {sampleEnc} :=
  hashedIn_subset sampleKeccak (by decide +kernel)

theorem sampleLeaves_reopen (i : Nat) : Op.reopen i ∉ sampleLeaves := by
  simp [sampleLeaves, sampleOps]

theorem verifyProof_prove_sample :
    ∃ s outs h proof,
      (Session.start fun _ => none).run sampleKeccak (sampleLeaves ++ [Op.hash]) =
        .ok (s, outs ++ [Output.root h]) ∧
      s.trie.prove s.db sampleKeccak [0x11] = .ok proof ∧
      verifyProof sampleKeccak h [0x11] proof = .ok (some [0x03]) := by
  let k : ByteKey := ⟨[0x11], by decide⟩
  have hval : (Spec.start.run sampleLeaves).cur k = some [0x03] := by decide +kernel
  obtain ⟨s, outs, h, proof, hrun, hprove, hverify, _⟩ := verifyProof_prove_iff (fun _ => none)
    sampleLeaves k (sampleKeccak_collisionFree sampleLeaves_hashed)
    (fun i hi => absurd hi (sampleLeaves_reopen i)) ⟨k, by simp [hval]⟩
  refine ⟨s, outs, h, proof, hrun, hprove, ?_⟩
  exact hverify.mpr fun hf => by simp [Forks, hval] at hf

theorem verifyProof_panics_at_fork :
    ∃ s, (Session.start fun _ => none).run sampleKeccak (sampleLeaves ++ [Op.hash]) =
        .ok (s, [.none, .none, .root (sampleKeccak sampleEnc)]) ∧
      (Spec.start.run sampleLeaves).cur ⟨[], by decide⟩ = none ∧
      s.trie.prove s.db sampleKeccak [] = .ok [sampleEnc] ∧
      verifyProof sampleKeccak (sampleKeccak sampleEnc) [] [sampleEnc] = Go.panics := by
  refine ⟨_, rfl, rfl, rfl, ?_⟩
  decide +kernel

-- Whatever `VerifyProof` accepts as a proof is the value in the trie, or its absence.
theorem verifyProof_sound (db : Database) (ops : List Op) (k : ByteKey) (proof : List Bytes)
    (hcf : CollisionFree keccak
      ({[0x80]} ∪ (hashedIn keccak db (ops ++ [Op.hash]) ∪ { e | e ∈ proof })))
    (hz : ∀ i, Op.reopen i ∈ ops → NoZero keccak (hashedIn keccak db (ops ++ [Op.hash]))) :
    ∃ s outs h,
      (Session.start db).run keccak (ops ++ [Op.hash]) = .ok (s, outs ++ [Output.root h]) ∧
      ∀ v, verifyProof keccak h k.val proof = .ok v → v = (Spec.start.run ops).cur k := by
  have hcf' : CollisionFree keccak ({[0x80]} ∪ hashedIn keccak db (ops ++ [Op.hash])) :=
    ⟨hcf.injOn.mono (Set.union_subset_union_right _ Set.subset_union_left), by simp, hcf.root⟩
  obtain ⟨s, outs, t, hrun, ht, hc, hw, _⟩ := run_hash hcf' (fun i h => (hz i h).union hcf)
    Set.subset_union_right
  refine ⟨s, outs, _, hrun, fun v hv => ?_⟩
  rw [← hc]
  by_cases hn : t.isNode
  case pos =>
    rw [rootHash, if_pos hn] at hv
    refine verifyFrom_sound hcf.injOn ht hn (Whole.mono ?_ (hw hn)) (mem_hexKeys k) (fun e he => ?_) hv
    · rintro e (he | he)
      exacts [.inl he, .inr (.inl he)]
    · exact .inr (.inr he)
  case neg =>
    rw [rootHash, if_neg hn] at hv
    exact absurd hv (verifyFrom_empty hcf fun e he => .inr (.inr he))

theorem verifyProof_sound_sample :
    verifyProof sampleKeccak (sampleKeccak sampleEnc) [0x11] [sampleEnc] = .ok (some [0x03]) ∧
      (Spec.start.run sampleLeaves).cur ⟨[0x11], by decide⟩ = some [0x03] := by
  let k : ByteKey := ⟨[0x11], by decide⟩
  have hverify : verifyProof sampleKeccak (sampleKeccak sampleEnc) k.val [sampleEnc] =
      .ok (some [0x03]) := by
    decide +kernel
  have hsub : hashedIn sampleKeccak (fun _ => none) (sampleLeaves ++ [Op.hash]) ∪
      { e | e ∈ [sampleEnc] } ⊆ {sampleEnc} :=
    Set.union_subset sampleLeaves_hashed (by simp)
  obtain ⟨s, outs, h, hrun, hsound⟩ := verifyProof_sound (fun _ => none) sampleLeaves k [sampleEnc]
    (sampleKeccak_collisionFree hsub) fun i hi => absurd hi (sampleLeaves_reopen i)
  have hroot : (Session.start fun _ => none).run sampleKeccak (sampleLeaves ++ [Op.hash]) =
      .ok (_, [.none, .none] ++ [.root (sampleKeccak sampleEnc)]) := rfl
  rw [hroot] at hrun
  have hh := (List.append_inj' (congrArg Prod.snd (Except.ok.inj hrun)) rfl).right
  obtain rfl : sampleKeccak sampleEnc = h := by simpa using hh
  exact ⟨hverify, (hsound _ hverify).symm⟩

theorem verifyFrom_unique {S : Set Bytes} (hinj : Set.InjOn keccak S) {i : Nat} {root : Hash}
    {k : Key} {proof proof' : List Bytes} (hp : ∀ e ∈ proof, e ∈ S) (hp' : ∀ e ∈ proof', e ∈ S)
    {v v' : Option Bytes} (h : verifyFrom keccak i root k proof = .ok v)
    (h' : verifyFrom keccak i root k proof' = .ok v') : proof = proof' ∧ v = v' := by
  induction proof generalizing i root k proof'
  case nil => simp [verifyFrom, Go.fail] at h
  case cons buf proof hi =>
    cases proof'
    case nil => simp [verifyFrom, Go.fail] at h'
    case cons buf' proof' =>
      rw [List.forall_mem_cons] at hp hp'
      have hk {buf proof v} (h : verifyFrom keccak i root k (buf :: proof) = .ok v) :
          keccak buf = root := by
        by_contra hn
        simp [verifyFrom, hn, Go.fail] at h
      -- Both walks read the same bytes, and go on with the same hash.
      obtain rfl := hinj hp.left hp'.left ((hk h).trans (hk h').symm)
      simp only [verifyFrom, hk h, ne_eq, not_true_eq_false, if_false] at h h'
      split at h
      case h_1 => cases h
      case h_2 => cases h
      case h_3 n hd =>
        simp only [hd] at h'
        obtain ⟨⟨rest, m⟩, hg, h⟩ := Go.bind_eq_ok.mp h
        rw [hg, Go.ok_bind] at h'
        cases m
        case nil | value =>
          simp only at h h'
          split_ifs at h h' <;> cases h <;> cases h'
          simp_all
        all_goals
          obtain ⟨rfl, hv⟩ := hi hp.right hp'.right h h'
          exact ⟨rfl, hv⟩

-- For one root and one key there is at most one proof that is accepted, also where no trie has this
-- root.
theorem verifyProof_unique {root : Hash} {key : Bytes} {proof proof' : List Bytes}
    {v v' : Option Bytes} (hinj : Set.InjOn keccak { e | e ∈ proof ∨ e ∈ proof' })
    (h : verifyProof keccak root key proof = .ok v)
    (h' : verifyProof keccak root key proof' = .ok v') : proof = proof' ∧ v = v' :=
  verifyFrom_unique hinj (fun _ => .inl) (fun _ => .inr) h h'

-- Nothing can be added to an accepted proof.
theorem verifyProof_unique_sample :
    verifyProof sampleKeccak (sampleKeccak sampleEnc) [0x11] [sampleEnc, sampleEnc] ≠
      .ok (some [0x03]) := by
  have h : verifyProof sampleKeccak (sampleKeccak sampleEnc) [0x11] [sampleEnc] =
      .ok (some [0x03]) := by
    decide +kernel
  intro h'
  have hu := (verifyProof_unique (by simp [Set.InjOn]) h h').left
  exact absurd (congrArg List.length hu) (by decide)

end Trie
