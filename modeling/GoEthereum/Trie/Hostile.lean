import GoEthereum.Trie.Proof
import GoEthereum.Trie.Sync

-- What a node that comes from another peer can do to its decoder, to a sync and to a proof.

namespace Trie

open Common Rlp

section

-- A full node without a value, which is the node itself or embedded in it.
def Node.Bare : Node Key → Prop
  | .full cs _   => cs terminator = .nil ∨ ∃ i, i ≠ terminator ∧ (cs i).Bare
  | .short _ n _ => n.Bare
  | _            => False

def Walked (key : Key) : Prop :=
  ∃ nibs : Key, (∀ n ∈ nibs, n ≠ terminator) ∧ key = nibs ++ [terminator]

variable {gen : UInt16} {hash : Option Hash} {elems kbuf v : Bytes} {key k : Key} {n : Node Key}

theorem KeyOf.dropLast (h : KeyOf kbuf k) : ∀ n ∈ k.dropLast, n ≠ terminator := by
  cases hn : nibbles kbuf
  case nil =>
    have hd := h.left
    simp [compactDecode, compactHexDecode, hn] at hd
  case cons f hex =>
    -- The key is the end of the nibbles, with or without a terminator behind them.
    have hd := compactDecode_of_nibbles (decide (f ≥ 2)) hn (by simp)
    rw [h.left, ← hn] at hd
    intro n hmem
    rw [Option.some.inj hd, List.dropLast_drop_eq_drop_dropLast] at hmem
    replace hmem := List.mem_of_mem_drop hmem
    split_ifs at hmem
    · rw [List.dropLast_concat] at hmem
      exact nibbles_ne_terminator hmem
    · rw [List.append_nil] at hmem
      exact nibbles_ne_terminator (List.dropLast_subset _ hmem)

theorem KeyOf.leaf (h : KeyOf kbuf k) (ht : k.getLast? = some terminator) : Walked k := by
  obtain ⟨nibs, rfl⟩ := List.getLast?_eq_some_iff.mp ht
  have hl := h.dropLast
  rw [List.dropLast_concat] at hl
  exact ⟨nibs, hl, rfl⟩

theorem KeyOf.extension (h : KeyOf kbuf k) (ht : k.getLast? ≠ some terminator) :
    ∀ n ∈ k, n ≠ terminator := by
  obtain ⟨nibs, a, rfl⟩ := (List.eq_nil_or_concat' k).resolve_left h.right
  have hl := h.dropLast
  rw [List.dropLast_concat] at hl
  intro n hn
  obtain hn | hn := List.mem_append.mp hn
  · exact hl n hn
  · obtain rfl := List.mem_singleton.mp hn
    rintro rfl
    exact ht (by simp)

variable {l : Key}

theorem Walked.eq_nil (hk : Walked k) (h : Walked (k ++ l)) : l = [] := by
  obtain ⟨nibs, -, rfl⟩ := hk
  obtain ⟨nibs', hn, he⟩ := h
  obtain rfl | ⟨l, a, rfl⟩ := List.eq_nil_or_concat' l
  · rfl
  · rw [← List.append_assoc] at he
    have hmem : terminator ∈ nibs' := by
      rw [← (List.append_inj' he rfl).left]
      simp
    exact absurd rfl (hn terminator hmem)

theorem Walked.of_append (hk : ∀ n ∈ k, n ≠ terminator) (h : Walked (k ++ l)) : Walked l := by
  obtain ⟨nibs, hn, he⟩ := h
  obtain rfl | ⟨l, a, rfl⟩ := List.eq_nil_or_concat' l
  · rw [List.append_nil] at he
    exact absurd rfl (hk terminator (by rw [he]; simp))
  · rw [← List.append_assoc] at he
    obtain ⟨rfl, ha⟩ := List.append_inj' he rfl
    obtain rfl : a = terminator := by simpa using ha
    exact ⟨l, fun n h => hn n (by simp [h]), rfl⟩

theorem get_short_append {ε : Type} {flags : NodeFlag} (hk : k ≠ []) :
    (get (.short k n flags) (k ++ l) : Go ε _) = get n l := by
  obtain ⟨a, as, rfl⟩ := List.exists_cons_of_ne_nil hk
  rw [List.cons_append, get, if_neg]
  · rw [← List.cons_append, List.drop_left]
  · simp

theorem get_short_ne_panics {ε : Type} {flags : NodeFlag} (hk : k ≠ []) (hkey : key ≠ [])
    (h : ∀ l, key = k ++ l → (get n l : Go ε _) ≠ Go.panics) :
    (get (.short k n flags) key : Go ε _) ≠ Go.panics := by
  by_cases hp : k <+: key
  · obtain ⟨l, rfl⟩ := hp
    rw [get_short_append hk]
    exact h l rfl
  · obtain ⟨a, as, rfl⟩ := List.exists_cons_of_ne_nil hkey
    rw [get, if_pos]
    · simp [pure, Except.pure, Go.panics]
    · exact .inr fun he => hp (List.prefix_iff_eq_take.mpr he)

theorem Walked.ne_nil (h : Walked key) : key ≠ [] := by
  obtain ⟨nibs, -, rfl⟩ := h
  simp

mutual

theorem Parses.get_ne_panics {ε : Type} : ∀ {hash : Option Hash} {elems : Bytes} {n : Node Key},
    Parses gen hash elems n → ¬n.Bare → ∀ {key : Key}, Walked key → (get n key : Go ε _) ≠ Go.panics
  | _, _, _, .leaf hf hk hkey ht hf' hk', _, key, hw => by
    refine get_short_ne_panics hkey.right hw.ne_nil fun l hl => ?_
    subst hl
    rw [(hkey.leaf ht).eq_nil hw, get]
    simp [pure, Except.pure, Go.panics]
  | _, _, _, .extension hf hk hkey ht hp, hb, key, hw => by
    refine get_short_ne_panics hkey.right hw.ne_nil fun l hl => ?_
    subst hl
    exact hp.get_ne_panics hb (hw.of_append (hkey.extension ht))
  | _, _, _, .branch hp hf hk ht, hb, key, hw => by
    obtain ⟨nibs, hn, rfl⟩ := hw
    obtain ⟨hval, hcs⟩ := not_or.mp hb
    cases nibs
    case nil =>
      rw [List.nil_append, get, ht]
      rw [ht] at hval
      unfold valueSlot at hval ⊢
      split_ifs at hval ⊢
      · simp [get, pure, Except.pure, Go.panics]
      · exact absurd rfl hval
    case cons a as =>
      have ha := hn a (by simp)
      have hw : Walked (as ++ [terminator]) := ⟨as, fun n h => hn n (by simp [h]), rfl⟩
      obtain ⟨i, rfl⟩ := Fin.exists_castSucc_eq.mpr ha
      rw [List.cons_append, get]
      exact (hp i).get_ne_panics (fun h => hcs ⟨_, ha, h⟩) hw

theorem ParsesRef.get_ne_panics {ε : Type} : ∀ {v : Bytes} {n : Node Key},
    ParsesRef gen v n → ¬n.Bare → ∀ {key : Key}, Walked key → (get n key : Go ε _) ≠ Go.panics
  | _, _, .nil, _, key, hw => by
    obtain ⟨a, as, rfl⟩ := List.exists_cons_of_ne_nil hw.ne_nil
    simp [get, pure, Except.pure, Go.panics]
  | _, _, .hash h, _, key, hw => by
    obtain ⟨a, as, rfl⟩ := List.exists_cons_of_ne_nil hw.ne_nil
    simp [get, pure, Except.pure, Go.panics]
  | _, _, .embedded hf hl hp, hb, key, hw => Parses.get_ne_panics hp hb hw

end

mutual

theorem Parses.exists_get_panics {ε : Type} : ∀ {hash : Option Hash} {elems : Bytes} {n : Node Key},
    Parses gen hash elems n → n.Bare → ∃ key, Walked key ∧ (get n key : Go ε _) = Go.panics
  | _, _, _, .leaf _ _ _ _ _ _, hb => hb.elim
  | _, _, _, .extension hf hk hkey ht hp, hb => by
    obtain ⟨l, ⟨nibs, hn, rfl⟩, hl⟩ := hp.exists_get_panics hb
    refine ⟨_ ++ (nibs ++ [terminator]), ⟨_ ++ nibs, ?_, (List.append_assoc _ _ _).symm⟩,
      by rw [get_short_append hkey.right, hl]⟩
    exact List.forall_mem_append.mpr ⟨hkey.extension ht, hn⟩
  | _, _, _, .branch hp hf hk ht, hb => by
    obtain hval | ⟨a, ha, hb⟩ := hb
    · exact ⟨[terminator], ⟨[], by simp, rfl⟩, by rw [get, hval]; rfl⟩
    · obtain ⟨i, rfl⟩ := Fin.exists_castSucc_eq.mpr ha
      obtain ⟨l, ⟨nibs, hn, rfl⟩, hl⟩ := (hp i).exists_get_panics hb
      exact ⟨i.castSucc :: (nibs ++ [terminator]),
        ⟨i.castSucc :: nibs, List.forall_mem_cons.mpr ⟨ha, hn⟩, rfl⟩, by rw [get, hl]⟩

theorem ParsesRef.exists_get_panics {ε : Type} : ∀ {v : Bytes} {n : Node Key},
    ParsesRef gen v n → n.Bare → ∃ key, Walked key ∧ (get n key : Go ε _) = Go.panics
  | _, _, .nil, hb               => hb.elim
  | _, _, .hash _, hb            => hb.elim
  | _, _, .embedded _ _ hp, hb   => Parses.exists_get_panics hp hb

end

end

section

open TrieSync

variable {ε α β : Type} (req : Request)

-- The request is pending, and nothing that the database has under a hash makes the decoder panic.
structure Served (s : TrieSync) : Prop where
  known : (s.requests.lookup req.hash).isSome = true
  blobs : ∀ h : Hash, ¬Breaking 0 ((s.database h.bytes).getD [])

-- The action does not panic while the request is served, and leaves it so.
def Calm (x : Act TrieSync ε α) : Prop :=
  ∀ ⦃s : TrieSync⦄, Served req s → (x s).fst ≠ Go.panics ∧ Served req (x s).snd

variable {req}

theorem Calm.bind {x : Act TrieSync ε α} {f : α → Act TrieSync ε β} (hx : Calm req x)
    (hf : ∀ a, Calm req (f a)) : Calm req (x >>= f) := by
  intro s hs
  obtain ⟨hne, ht⟩ := hx hs
  obtain ⟨r, t, hr⟩ : ∃ r t, x s = (r, t) := ⟨_, _, rfl⟩
  rw [hr] at hne ht
  cases r
  case ok a =>
    rw [Act.bind_ok hr]
    exact hf a ht
  case error e =>
    rw [Act.bind_error hr]
    refine ⟨fun h => hne ?_, ht⟩
    cases h
    rfl

theorem calm_resolves (h : Hash) : Calm req (resolves h : Act TrieSync ε Bool) := by
  intro s hs
  have hb := mt (decodeNode_eq_panics_iff (some h)).mp (hs.blobs h)
  unfold resolves
  split
  case h_1 => exact ⟨by simp [Go.panics], hs⟩
  case h_2 => exact ⟨by simp [Go.panics], hs⟩
  case h_3 hp => exact absurd hp hb

variable {s : TrieSync}

theorem Served.insert (hs : Served req s) (h : Hash) (r : Request) :
    Served req { s with requests := s.requests.insert h r } where
  known := by
    rw [GoMap.lookup_insert_eq_ite]
    split
    · rfl
    · exact hs.known
  blobs := hs.blobs

theorem Served.schedule (hs : Served req s) (r : Request) : Served req (s.schedule r) := by
  unfold TrieSync.schedule
  split
  · exact hs.insert _ _
  · exact ⟨(hs.insert r.hash r).known, hs.blobs⟩

theorem calm_link : Calm req (TrieSync.link req.hash : Act TrieSync ε (List Hash)) := by
  intro s hs
  obtain ⟨ancestor, ha⟩ := Option.isSome_iff_exists.mp hs.known
  unfold TrieSync.link
  rw [ha]
  split
  · exact ⟨by simp [Go.panics], hs⟩
  · exact ⟨by simp [Go.panics], hs.insert _ _⟩

theorem calm_composes : Composes req.hash fun {α} (x : Act TrieSync ε α) => Calm req x where
  pure a s hs  := ⟨by simp [Go.panics], hs⟩
  bind         := Calm.bind
  get s hs     := ⟨by simp [Act.get, Go.panics], hs⟩
  resolves     := calm_resolves
  addRequest _ := calm_link.bind fun _ _ hs => ⟨by simp [Act.modify, Go.panics], hs.schedule _⟩

theorem Parses.calm_children {callback : Bytes → Go ε (List Entry)}
    (hc : ∀ leaf, callback leaf ≠ Go.panics) {gen : UInt16} {hash : Option Hash} {elems : Bytes}
    {n : Node Key} (h : Parses gen hash elems n) : Calm req (children callback req n) := by
  have hcalm (leaf : Bytes) (e : Fault ε) (he : callback leaf = .error e) :
      Calm req (fun s => (.error e, s) : Act TrieSync ε Unit) := by
    refine fun s hs => ⟨fun h => hc leaf ?_, hs⟩
    rw [he]
    cases h
    rfl
  cases h <;> exact calm_composes.requestChildren hcalm _

end

-- A list with fields that stand for a node in which a full node has no value.
def Hollow (gen : UInt16) (buf : Bytes) : Prop :=
  ∃ hash head elems rest n, Framed .list head elems ∧ buf = head ++ elems ++ rest ∧
    Parses gen hash elems n ∧ n.Bare

-- The decoder does not panic on `buf`, and what it returns can be synced and walked through.
structure Harmless (hash : Option Hash) (buf : Bytes) (gen : UInt16) : Prop where
  decode : decodeNode hash buf gen ≠ Go.panics
  children {n : Node Key} : decodeNode hash buf gen = .ok n →
    ∀ {ε : Type} {callback : Bytes → Go ε (List Entry)}, (∀ leaf, callback leaf ≠ Go.panics) →
    ∀ {req : Request} {s : TrieSync}, Served req s →
      (TrieSync.children callback req n s).fst ≠ Go.panics
  walk {n : Node Key} : decodeNode hash buf gen = .ok n →
    ∀ {key : Key}, Walked key → (get n key : Go ProofError _) ≠ Go.panics

variable {gen : UInt16} {hash : Option Hash} {buf elems : Bytes} {n : Node Key}

theorem Parses.rehash (h : Parses gen hash elems n) (hash' : Option Hash) :
    ∃ n', Parses gen hash' elems n' ∧ (n'.Bare ↔ n.Bare) := by
  cases h
  case leaf hf hk hkey ht hf' hk' => exact ⟨_, .leaf hf hk hkey ht hf' hk', Iff.rfl⟩
  case extension hf hk hkey ht hp => exact ⟨_, .extension hf hk hkey ht hp, Iff.rfl⟩
  case branch hp hf hk ht         => exact ⟨_, .branch hp hf hk ht, Iff.rfl⟩

theorem hollow_iff (hash : Option Hash) :
    Hollow gen buf ↔ ∃ n, decodeNode hash buf gen = .ok n ∧ n.Bare := by
  constructor
  case mp =>
    rintro ⟨hash', head, elems, rest, n, hf, rfl, hp, hb⟩
    obtain ⟨n', hp', hb'⟩ := hp.rehash hash
    exact ⟨n', decodeNode_eq_ok_iff.mpr ⟨head, elems, rest, hf, rfl, hp'⟩, hb'.mpr hb⟩
  case mpr =>
    rintro ⟨n, hd, hb⟩
    obtain ⟨head, elems, rest, hf, hbuf, hp⟩ := decodeNode_eq_ok_iff.mp hd
    exact ⟨hash, head, elems, rest, n, hf, hbuf, hp, hb⟩

theorem get_ne_panics_of_not_hollow (h : ¬Hollow gen buf) (hd : decodeNode hash buf gen = .ok n)
    {key : Key} (hw : Walked key) : (get n key : Go ProofError _) ≠ Go.panics := by
  obtain ⟨head, elems, rest, -, -, hp⟩ := decodeNode_eq_ok_iff.mp hd
  exact hp.get_ne_panics (fun hb => h ((hollow_iff hash).mpr ⟨n, hd, hb⟩)) hw

theorem decodeNode_harmless_iff (hash : Option Hash) (buf : Bytes) (gen : UInt16) :
    Harmless hash buf gen ↔ ¬Breaking gen buf ∧ ¬Hollow gen buf := by
  constructor
  case mp =>
    intro h
    refine ⟨mt (decodeNode_eq_panics_iff hash).mpr h.decode, fun hh => ?_⟩
    obtain ⟨n, hd, hb⟩ := (hollow_iff hash).mp hh
    obtain ⟨head, elems, rest, -, -, hp⟩ := decodeNode_eq_ok_iff.mp hd
    obtain ⟨key, hw, hg⟩ := hp.exists_get_panics hb
    exact h.walk hd hw hg
  case mpr =>
    rintro ⟨hb, hh⟩
    constructor
    case decode => exact mt (decodeNode_eq_panics_iff hash).mp hb
    case children =>
      intro n hd ε callback hc req s hs
      obtain ⟨head, elems, rest, -, -, hp⟩ := decodeNode_eq_ok_iff.mp hd
      exact (hp.calm_children hc hs).left
    case walk => exact fun hd _ hw => get_ne_panics_of_not_hollow hh hd hw

-- A byte that announces another one, alone and in a list; a short node without a key; a branch
-- without a value, at the end of the key.
theorem decodeNode_harmful :
    decodeNode none [0x81] 0 = Go.panics ∧ decodeNode none [0xC1, 0x81] 0 = Go.panics ∧
      decodeNode none [0xC2, 0x80, 0x80] 0 = Go.panics ∧
      ∀ keccak : Bytes → Hash,
        verifyProof keccak (keccak (0xD1 :: List.replicate 17 0x80)) []
          [0xD1 :: List.replicate 17 0x80] = Go.panics := by
  have hlist : Breaking 0 [0xC1, 0x81] :=
    .inr ⟨_, [0x81], [], .list (by decide), rfl, @Breaks.tail 0 [] (by simp)⟩
  have hkey : Breaking 0 [0xC2, 0x80, 0x80] :=
    .inr ⟨_, [0x80, 0x80], [], .list (by decide), rfl,
      .key framed_empty (by decide) (.inl rfl) ⟨_, _, _, framed_empty, rfl⟩⟩
  refine ⟨rfl, (decodeNode_eq_panics_iff _).mpr hlist, (decodeNode_eq_panics_iff _).mpr hkey,
    fun keccak => ?_⟩
  have hp : Parses 0 (some (keccak (0xD1 :: List.replicate 17 0x80))) (List.replicate 17 0x80)
      (.full (fun _ => .nil) ⟨_, 0, false⟩) :=
    @Parses.branch 0 _ _ (fun _ => [0x80]) _ _ _ (fun _ => .nil) framed_empty (by decide) rfl
  have hf : Framed .list [0xD1] (List.replicate 17 0x80) :=
    @Framed.list (List.replicate 17 0x80) (by decide)
  have hd := decodeNode_eq_ok_iff.mpr ⟨_, _, [], hf, rfl, hp⟩
  rw [List.append_nil, List.singleton_append] at hd
  rw [verifyProof, verifyFrom, if_neg (by simp)]
  rfl

end Trie
