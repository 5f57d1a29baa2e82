import GoEthereum.Trie.Session

-- A run of calls on a trie behaves like the map it stands for.

namespace Trie

open Common Merkle

-- No two of the strings in `S`, among them the encoding of the empty trie, have the same hash.
structure CollisionFree (keccak : Bytes → Hash) (S : Set Bytes) : Prop where
  injOn : Set.InjOn keccak S
  empty : [0x80] ∈ S
  root  : keccak [0x80] = emptyRoot

-- None of the strings in `S` has the zero hash, by which `New` is asked for an empty trie.
def NoZero (keccak : Bytes → Hash) (S : Set Bytes) : Prop :=
  ∀ e ∈ S, keccak e ≠ Hash.zero

theorem NoZero.union {keccak : Bytes → Hash} {S T : Set Bytes} (hz : NoZero keccak S)
    (hcf : CollisionFree keccak T) : NoZero keccak ({[0x80]} ∪ S) := by
  rintro e (rfl | he)
  · rw [hcf.root]
    decide
  · exact hz e he

section

variable {keccak : Bytes → Hash} {D : Database} {S : Set Bytes} {t : Tree}

theorem nil_not_mem_hexKeys : ([] : Key) ∉ hexKeys := by
  rintro ⟨b, -, hb⟩
  simp [compactHexDecode] at hb

theorem Merkle.Wf.isNode_of_ne_nil (ht : Wf [] t) (hn : t ≠ .nil) : t.isNode = true := by
  cases t <;> simp [Patricia.Tree.isNode] at hn ⊢
  case value v => exact nil_not_mem_hexKeys ht.value

def rootHash (keccak : Bytes → Hash) (t : Tree) : Hash :=
  if t.isNode then keccak (enc keccak t) else emptyRoot

theorem enc_ne_empty (ht : Wf [] t) (hn : t.isNode = true) : enc keccak t ≠ [0x80] := by
  intro h
  obtain ⟨xs, hx⟩ := exists_item_eq_list keccak hn
  have he : Rlp.encode (.str []) = [0x80] := rfl
  have := Rlp.encode_inj (content_item_lt keccak ht) (by simp [Rlp.Item.content]) (h.trans he.symm)
  simp [hx] at this

theorem Database.write_spec (db : Database) {es : List Event} (hi : Set.InjOn keccak S)
    (hk : Keyed keccak S es) :
    Written (Database.write db es) es ∧
      ∀ e, Has keccak db S e → Has keccak (Database.write db es) S e := by
  induction es generalizing db
  case nil => exact ⟨by simp [Written], fun _ h => h⟩
  case cons ev es hes =>
    have hk' : Keyed keccak S es := fun h e he => hk h e (by simp [he])
    cases ev
    case sha e =>
      obtain ⟨h₁, h₂⟩ := hes db hk'
      exact ⟨fun g e he => h₁ g e (by simpa using he), h₂⟩
    case put g e =>
      obtain ⟨h₁, h₂⟩ := hes (db.put g.bytes e) hk'
      obtain ⟨rfl, heS⟩ := hk g e (by simp)
      have hput : ∀ e', Has keccak db S e' → Has keccak (db.put (keccak e).bytes e) S e' := by
        rintro e' ⟨hS, hdb⟩
        refine ⟨hS, ?_⟩
        by_cases hee : e' = e
        · simp [Database.put, hee]
        · have hne : (keccak e').bytes ≠ (keccak e).bytes := fun h =>
            hee <| hi hS heS <| Hash.bytes_injective h
          simpa [Database.put, hne] using hdb
      refine ⟨fun g' e' he => ?_, fun e' h => h₂ e' (hput e' h)⟩
      rcases List.mem_cons.mp he with he | he
      · obtain ⟨rfl, rfl⟩ := Event.put.inj he
        exact (h₂ e' ⟨heS, by simp [Database.put]⟩).right
      · exact h₁ g' e' he

end

section

variable {keccak : Bytes → Hash} {D : Database} {S : Set Bytes} {t : Tree} {tr : Trie} {k : ByteKey}

theorem need_le_levels (n : Node Key) (k : Key) : need n k ≤ levels k := by
  unfold need levels
  split_ifs <;> omega

theorem tryGet_spec (ht : Wf [] t) (hr : Rep keccak D S true tr.root t) :
    ∃ tr', tr.tryGet D k.val = .ok (contents t k, tr') ∧ Rep keccak D S true tr'.root t := by
  obtain ⟨n', b, hget, hr'⟩ := tryGetNode_spec tr (q := []) (k := compactHexDecode k.val) ht hr (mem_hexKeys k)
    (need_le_levels tr.root _)
  simp only [List.nil_append, List.length_nil] at hget
  simp only [Trie.tryGet, hget, bind, Except.bind]
  cases b
  case false => exact ⟨tr, rfl, hr⟩
  case true  => exact ⟨{ tr with root := n' }, rfl, hr'⟩

theorem tryDelete_spec (ht : Wf [] t) (hr : Rep keccak D S true tr.root t) :
    ∃ tr', tr.tryDelete D k.val = .ok tr' ∧
      Rep keccak D S true tr'.root (t.delete (compactHexDecode k.val)) := by
  obtain ⟨b, n', hdel, hr', _⟩ := delete_spec tr (k := compactHexDecode k.val) ht hr (mem_hexKeys k)
    (need_le_levels tr.root _) []
  exact ⟨{ tr with root := n' }, by simp only [Trie.tryDelete, hdel, bind, Except.bind]; rfl, hr'⟩

theorem tryUpdate_empty (v : Bytes) (hv : v = []) : tr.tryUpdate D k.val v = tr.tryDelete D k.val := by
  simp [Trie.tryUpdate, Trie.tryDelete, hv]

theorem tryUpdate_spec (ht : Wf [] t) (hr : Rep keccak D S true tr.root t) (v : Value) :
    ∃ tr', tr.tryUpdate D k.val v.val = .ok tr' ∧
      Rep keccak D S true tr'.root (t.insert (compactHexDecode k.val) v) := by
  obtain ⟨b, n', hins, hr', _⟩ := insert_spec tr (k := compactHexDecode k.val) ht hr (mem_hexKeys k)
    (need_le_levels tr.root _) [] v
  have hv : v.val.length ≠ 0 := by simpa using v.property.left
  refine ⟨{ tr with root := n' }, ?_, hr'⟩
  simp only [Trie.tryUpdate, hv, ne_eq, not_false_eq_true, if_true, hins, bind, Except.bind]
  rfl

theorem hash_force {h : Hasher} {db : Bool} {n : Node Key} (hn : n.isNil = false) :
    ∃ g, (h.hash keccak db n true).hashed = .hash g := by
  have hstore {m : Node Bytes} (hm : m.isNil = false) :
      ∃ g, (Hasher.store keccak db m true).fst = .hash g := by
    cases m <;> simp [Node.isNil] at hm <;> simp [Hasher.store]
  have hfresh (c : Node Bytes × Node Key × List Event) (hc : c.fst.isNil = false) :
      ∃ g, (Hasher.storeCollapsed keccak db true c).hashed = .hash g := hstore hc
  have hcache {n : Node Key} {res : Hashed} (hu : h.useCache db n = some res) :
      ∃ g, res.hashed = .hash g := by
    unfold Hasher.useCache at hu
    split at hu
    case h_1 => simp at hu
    case h_2 => split_ifs at hu <;> obtain rfl := Option.some.inj hu <;> exact ⟨_, rfl⟩
  cases n
  case nil   => simp [Node.isNil] at hn
  case hash  => exact hfresh _ rfl
  case value => exact hfresh _ rfl
  case short k c flags =>
    rw [Hasher.hash]
    cases hu : h.useCache db (.short k c flags)
    case some res => exact hcache hu
    case none     => exact hfresh _ (by cases c <;> rfl)
  case full cs flags =>
    rw [Hasher.hash]
    cases hu : h.useCache db (.full cs flags)
    case some res => exact hcache hu
    case none     => rw [Option.getD_none]; exact hfresh _ rfl

variable (keccak) in
theorem hashRoot_hashed (tr : Trie) (db : Bool) : ∃ g, (tr.hashRoot keccak db).hashed = .hash g := by
  unfold Trie.hashRoot
  split
  case h_1     => exact ⟨_, rfl⟩
  case h_2 hne => exact hash_force (by cases h : tr.root <;> simp_all [Node.isNil])

structure HashRootSpec (keccak : Bytes → Hash) (D : Database) (S : Set Bytes) (db : Bool) (t : Tree)
    (res : Hashed) : Prop where
  hashed : res.hashed = .hash (rootHash keccak t)
  keyed  : Keyed keccak S res.events
  quiet  : db = false → ∀ g e, Event.put g e ∉ res.events
  known  : t.isNode = true → Whole keccak (· ∈ S) t
  cached : Written D res.events → Rep keccak D S true res.cached t
  stored : db = true → Written D res.events → t.isNode = true → Whole keccak (Has keccak D S) t

theorem hashRoot_spec {db : Bool} (ht : Wf [] t) (hr : Rep keccak D S true tr.root t)
    (hl : Logged S (tr.hashRoot keccak db).events) :
    HashRootSpec keccak D S db t (tr.hashRoot keccak db) := by
  by_cases hn : t = .nil
  · subst hn
    have := hr.eq_nil
    simp only [Trie.hashRoot, this]
    exact {
      hashed     := by simp [rootHash, Patricia.Tree.isNode]
      keyed      := by simp [Keyed]
      quiet _    := by simp
      known h    := by simp [Patricia.Tree.isNode] at h
      cached _   := .nil
      stored _ _ := fun h => by simp [Patricia.Tree.isNode] at h }
  · have hnode := ht.isNode_of_ne_nil hn
    have heq : tr.hashRoot keccak db = Hasher.hash keccak ⟨tr.cachegen, tr.cachelimit⟩ db tr.root true := by
      unfold Trie.hashRoot
      split
      case h_1 h => exact absurd (hr.isNil_iff.mp (by rw [h]; rfl)) hn
      case h_2   => rfl
    rw [heq] at hl ⊢
    have hs := hash_spec ht hnode hr hl
    exact {
      hashed         := by simp [rootHash, hnode, hs.hash (.inl rfl)]
      keyed          := hs.keyed
      quiet          := hs.quiet
      known _        := ⟨hs.self (.inl rfl), hs.under⟩
      cached         := hs.cached
      stored hd hw _ := ⟨(hs.stored hd hw).right (.inl rfl), (hs.stored hd hw).left⟩ }

theorem new_spec (hcf : CollisionFree keccak S) (hz : NoZero keccak S) (ht : Wf [] t)
    (hw : t.isNode = true → Whole keccak (Has keccak D S) t) :
    ∃ tr, Trie.new (rootHash keccak t) D = .ok tr ∧ Rep keccak D S true tr.root t := by
  by_cases hn : t = .nil
  · subst hn
    exact ⟨_, rfl, .nil⟩
  · have hnode := ht.isNode_of_ne_nil hn
    have hw := hw hnode
    have hroot : rootHash keccak t = keccak (enc keccak t) := by simp [rootHash, hnode]
    have hne : keccak (enc keccak t) ≠ Hash.zero ∧ keccak (enc keccak t) ≠ emptyRoot := by
      refine ⟨hz _ hw.self.left, fun h => ?_⟩
      rw [← hcf.root] at h
      exact enc_ne_empty ht hnode (hcf.injOn hw.self.left hcf.empty h)
    rw [hroot, Trie.new, if_pos hne]
    obtain ⟨n, hres, hr, _⟩ := resolveHash_spec
      { root := .nil, originalRoot := keccak (enc keccak t), cachegen := 0, cachelimit := 0 } ht
      (.hash (r := true) hnode ⟨rfl, by simp⟩ hw) [] []
    simp only [hres, bind, Except.bind]
    exact ⟨_, rfl, hr⟩

end

variable {keccak : Bytes → Hash} {S : Set Bytes} {s : Session} {m : Spec}

-- A root that `Commit` returned, and the contents it can be reopened with.
def Committed (keccak : Bytes → Hash) (D : Database) (S : Set Bytes) (h : Hash) (c : Contents) : Prop :=
  ∃ t, Wf [] t ∧ (t.isNode = true → Whole keccak (Has keccak D S) t) ∧ h = rootHash keccak t ∧
    contents t = c

structure Sim (keccak : Bytes → Hash) (S : Set Bytes) (s : Session) (m : Spec) : Prop where
  cur     : ∃ t, Wf [] t ∧ Rep keccak s.db S true s.trie.root t ∧ contents t = m.cur
  commits : List.Forall₂ (Committed keccak s.db S) s.commits m.commits

theorem Sim.start (db : Database) : Sim keccak S (Session.start db) Spec.start where
  cur     := ⟨.nil, .nil, .nil, contents_nil⟩
  commits := .nil

theorem Committed.mono {D D' : Database} {h : Hash} {c : Contents}
    (hD : ∀ e, Has keccak D S e → Has keccak D' S e) (hc : Committed keccak D S h c) :
    Committed keccak D' S h c :=
  have ⟨t, ht, hw, hh, hc⟩ := hc
  ⟨t, ht, fun hn => Whole.mono hD (hw hn), hh, hc⟩

theorem logged_of_shas {es : List Event} (h : ∀ e ∈ Event.shas es, e ∈ S) : Logged S es := by
  intro e he
  apply h
  simp only [Event.shas, List.mem_filterMap]
  exact ⟨.sha e, he, rfl⟩

theorem Sim.hash (hs : Sim keccak S s m)
    (hl : ∀ e ∈ Event.shas (s.trie.hashRoot keccak false).events, e ∈ S) :
    ∃ s' t, s.step keccak .hash = .ok (s', .root (rootHash keccak t)) ∧ Sim keccak S s' m ∧
      Wf [] t ∧ contents t = m.cur ∧ (t.isNode = true → Whole keccak (· ∈ S) t) := by
  obtain ⟨t, ht, hr, hc⟩ := hs.cur
  have hsp := hashRoot_spec ht hr (logged_of_shas hl)
  have hw : Written s.db (s.trie.hashRoot keccak false).events := fun g e he =>
    absurd he (hsp.quiet rfl g e)
  refine ⟨_, t, by simp only [Session.step, Trie.hash, hsp.hashed]; rfl, ?_, ht, hc, hsp.known⟩
  exact { hs with cur := ⟨t, ht, hsp.cached hw, hc⟩ }

theorem Sim.commit (hcf : CollisionFree keccak S) (hs : Sim keccak S s m)
    (hl : ∀ e ∈ Event.shas (s.trie.hashRoot keccak true).events, e ∈ S) :
    ∃ s' out, s.step keccak .commit = .ok (s', out) ∧ Sim keccak S s' (m.step .commit) := by
  obtain ⟨t, ht, hr, hc⟩ := hs.cur
  obtain ⟨hw, hD⟩ := Database.write_spec s.db hcf.injOn
    (hashRoot_spec ht hr (logged_of_shas hl)).keyed
  -- The specification of the hasher at the database after its writes.
  have hsp := hashRoot_spec ht (Rep.mono subset_rfl hD hr) (logged_of_shas hl)
  refine ⟨_, _, by simp only [Session.step, Trie.commitTo, hsp.hashed]; rfl, ?_⟩
  exact {
    cur     := ⟨t, ht, hsp.cached hw, hc⟩
    commits := .cons ⟨t, ht, hsp.stored rfl hw, rfl, hc⟩ <| hs.commits.imp fun _ _ => Committed.mono hD }

theorem Sim.step (hcf : CollisionFree keccak S) (hs : Sim keccak S s m) (op : Op)
    (hz : ∀ i, op = .reopen i → NoZero keccak S)
    (hl : ∀ s' out, s.step keccak op = .ok (s', out) → ∀ e ∈ s'.hashed, e ∈ S) :
    ∃ s' out, s.step keccak op = .ok (s', out) ∧ Sim keccak S s' (m.step op) ∧
      ∀ k, op = .tryGet k → out = .value (m.cur k) := by
  obtain ⟨t, ht, hr, hc⟩ := hs.cur
  cases op
  case tryGet k =>
    obtain ⟨tr, hget, hr'⟩ := tryGet_spec (k := k) ht hr
    refine ⟨_, _, by simp only [Session.step, hget, bind, Except.bind]; rfl, ?_, ?_⟩
    · exact { hs with cur := ⟨t, ht, hr', hc⟩ }
    · simp [hc]
  case tryDelete k =>
    obtain ⟨tr, hdel, hr'⟩ := tryDelete_spec (k := k) ht hr
    refine ⟨_, _, by simp only [Session.step, hdel, bind, Except.bind]; rfl, ?_, by simp⟩
    exact { hs with cur := ⟨_, ht.delete (k := compactHexDecode k.val) (mem_hexKeys k), hr', by rw [contents_delete ht, hc]; rfl⟩ }
  case tryUpdate k v =>
    by_cases hv : v.val = []
    case pos =>
      obtain ⟨tr, hdel, hr'⟩ := tryDelete_spec (k := k) ht hr
      refine ⟨_, _, by
        simp only [Session.step, tryUpdate_empty _ hv, hdel, bind, Except.bind]; rfl, ?_, by simp⟩
      exact { hs with
        cur := ⟨_, ht.delete (k := compactHexDecode k.val) (mem_hexKeys k), hr', by
          rw [contents_delete ht, hc]; simp [Spec.step, hv]⟩ }
    case neg =>
      obtain ⟨tr, hins, hr'⟩ := tryUpdate_spec (k := k) ht hr ⟨v.val, hv, v.property⟩
      refine ⟨_, _, by simp only [Session.step, hins, bind, Except.bind]; rfl, ?_, by simp⟩
      exact { hs with
        cur := ⟨_, ht.insert (k := compactHexDecode k.val) (mem_hexKeys k) _, hr', by
          rw [contents_insert ht, hc]; simp [Spec.step, hv]⟩ }
  case hash =>
    obtain ⟨g, hg⟩ := hashRoot_hashed keccak s.trie false
    have hl := hl _ _ (by simp only [Session.step, Trie.hash, hg]; rfl)
    obtain ⟨s', t, hstep, hs', _⟩ := hs.hash fun e he => hl e (by simp [he])
    exact ⟨s', _, hstep, hs', by simp⟩
  case commit =>
    obtain ⟨g, hg⟩ := hashRoot_hashed keccak s.trie true
    have hl := hl _ _ (by simp only [Session.step, Trie.commitTo, hg]; rfl)
    obtain ⟨s', out, hstep, hs'⟩ := hs.commit hcf fun e he => hl e (by simp [he])
    exact ⟨s', out, hstep, hs', by simp⟩
  case setCacheLimit l =>
    exact ⟨_, _, rfl, { hs with cur := ⟨t, ht, hr, hc⟩ }, by simp⟩
  case reopen i =>
    have hlen := hs.commits.length_eq
    by_cases hi : i < s.commits.length
    case neg =>
      have h₁ : s.commits[i]? = none := by simpa using hi
      have h₂ : m.commits[i]? = none := by simpa [← hlen] using hi
      refine ⟨s, .none, by simp only [Session.step, h₁]; rfl, ?_, by simp⟩
      simpa [Spec.step, h₂] using hs
    case pos =>
      obtain ⟨t, ht, hw, hh, hc⟩ := hs.commits.get hi (hlen ▸ hi)
      obtain ⟨tr, hnew, hr⟩ := new_spec hcf (hz i rfl) ht hw
      have h₁ : s.commits[i]? = some (rootHash keccak t) := by simpa [hi] using hh
      have h₂ : m.commits[i]? = some (contents t) := by
        rw [List.getElem?_eq_getElem (hlen ▸ hi)]
        simpa using hc.symm
      refine ⟨_, _, by simp only [Session.step, h₁, hnew, bind, Except.bind]; rfl, ?_, by simp⟩
      exact { hs with cur := ⟨t, ht, hr, by simp [Spec.step, h₂]⟩ }

theorem Sim.run (hcf : CollisionFree keccak S) (ops : List Op) (hs : Sim keccak S s m)
    (hz : ∀ i, Op.reopen i ∈ ops → NoZero keccak S)
    (hl : ∀ pre s' outs, pre <+: ops → s.run keccak pre = .ok (s', outs) → ∀ e ∈ s'.hashed, e ∈ S) :
    ∃ s' outs, s.run keccak ops = .ok (s', outs) ∧ Sim keccak S s' (m.run ops) ∧
      ∀ (i : Nat) (k : ByteKey), ops[i]? = some (Op.tryGet k) →
        outs[i]? = some (Output.value ((m.run (ops.take i)).cur k)) := by
  induction ops generalizing s m
  case nil => exact ⟨s, [], rfl, hs, by simp⟩
  case cons op ops hi =>
    obtain ⟨s₁, out, hstep, hs₁, hget⟩ := hs.step hcf op (fun i h => hz i (by simp [h]))
      fun s' out h => hl [op] s' [out] (by simp) (by simp only [Session.run, h, bind, Except.bind]; rfl)
    obtain ⟨s₂, outs, hrun, hs₂, hgets⟩ := hi hs₁ (fun i h => hz i (by simp [h]))
      fun pre s' outs hp h => hl (op :: pre) s' (out :: outs) (by simpa using hp)
        (by simp only [Session.run, hstep, h, bind, Except.bind]; rfl)
    refine ⟨s₂, out :: outs, by simp only [Session.run, hstep, hrun, bind, Except.bind]; rfl, hs₂, ?_⟩
    intro i k hik
    cases i
    case zero   => simpa [Spec.run] using hget k (by simpa using hik)
    case succ i => simpa [Spec.run] using hgets i k (by simpa using hik)

theorem hashed_of_run {db : Database} {ops : List Op}
    (h : hashedIn keccak db ops ⊆ S) (pre : List Op) (s : Session) (outs : List Output)
    (hp : pre <+: ops) (hr : (Session.start db).run keccak pre = .ok (s, outs)) :
    ∀ e ∈ s.hashed, e ∈ S :=
  fun _ he => h ⟨pre, s, outs, hp, hr, he⟩

-- Every `TryGet` returns the value most recently written, whatever was hashed, committed, unloaded
-- and reopened in between.
theorem tryGet_returns_last_written (db : Database) (ops : List Op)
    (hcf : CollisionFree keccak ({[0x80]} ∪ hashedIn keccak db ops))
    (hz : NoZero keccak (hashedIn keccak db ops)) :
    ∃ s outs, (Session.start db).run keccak ops = .ok (s, outs) ∧
      ∀ (i : Nat) (k : ByteKey), ops[i]? = some (Op.tryGet k) →
        outs[i]? = some (Output.value ((Spec.start.run (ops.take i)).cur k)) := by
  obtain ⟨s, outs, hrun, _, hget⟩ := (Sim.start db).run hcf ops (fun _ _ => hz.union hcf)
    (hashed_of_run Set.subset_union_right)
  exact ⟨s, outs, hrun, hget⟩

-- Two leaves under a full root, and a hash function that is right on their encoding.

def sampleEnc : Bytes :=
  [0xd5, 0xc2, 0x31, 0x02, 0xc2, 0x31, 0x03] ++ List.replicate 15 0x80

def sampleKeccak (e : Bytes) : Hash :=
  if e = sampleEnc then
    ⟨[0xea, 0xfc, 0x84, 0x5a, 0xc8, 0xb7, 0xdc, 0xed, 0x26, 0x46, 0x16, 0xe0, 0x69, 0x2a, 0x7e, 0xf4,
      0xee, 0x90, 0x0f, 0xf4, 0x7e, 0xdf, 0xf7, 0xe7, 0xa9, 0xf2, 0x9e, 0x60, 0xe7, 0x65, 0xf3, 0x3a],
      rfl⟩
  else
    emptyRoot

theorem sampleKeccak_collisionFree (h : S ⊆ {sampleEnc}) :
    CollisionFree sampleKeccak ({[0x80]} ∪ S) where
  injOn := by
    have hne : sampleKeccak [0x80] ≠ sampleKeccak sampleEnc := by decide
    rintro a (rfl | ha) b (rfl | hb) he
    · rfl
    · obtain rfl := h hb
      exact absurd he hne
    · obtain rfl := h ha
      exact absurd he.symm hne
    · rw [h ha, h hb]
  empty := by simp
  root  := by decide

def sampleOps : List Op :=
  [.tryUpdate ⟨[0x01], by decide⟩ ⟨[0x02], by decide⟩,
   .tryUpdate ⟨[0x11], by decide⟩ ⟨[0x03], by decide⟩,
   .commit, .reopen 0, .tryGet ⟨[0x11], by decide⟩]

theorem tryGet_returns_last_written_sample :
    ∃ s outs, (Session.start fun _ => none).run sampleKeccak sampleOps = .ok (s, outs) ∧
      outs[4]? = some (Output.value (some [0x03])) := by
  have hsub : hashedIn sampleKeccak (fun _ => none) sampleOps ⊆ {sampleEnc} :=
    hashedIn_subset sampleKeccak (by decide +kernel)
  obtain ⟨s, outs, hrun, hget⟩ := tryGet_returns_last_written (fun _ => none) sampleOps
    (sampleKeccak_collisionFree hsub) fun e he => by
      obtain rfl := hsub he
      decide
  have hval : (Spec.start.run (sampleOps.take 4)).cur ⟨[0x11], by decide⟩ = some [0x03] := by
    decide +kernel
  refine ⟨s, outs, hrun, ?_⟩
  rw [hget 4 ⟨[0x11], by decide⟩ rfl, hval]

-- The tree that a run ends with, with the root hash that `Hash` returns for it.
theorem run_hash {db : Database} {ops : List Op} (hcf : CollisionFree keccak S)
    (hz : ∀ i, Op.reopen i ∈ ops → NoZero keccak S)
    (hS : hashedIn keccak db (ops ++ [Op.hash]) ⊆ S) :
    ∃ s outs t, (Session.start db).run keccak (ops ++ [Op.hash]) =
        .ok (s, outs ++ [Output.root (rootHash keccak t)]) ∧
      Wf [] t ∧ contents t = (Spec.start.run ops).cur ∧
      (t.isNode = true → Whole keccak (· ∈ S) t) ∧ Rep keccak s.db S true s.trie.root t := by
  obtain ⟨s, outs, hrun, hs, _⟩ := (Sim.start db).run hcf ops hz
    fun pre s outs hp => hashed_of_run hS pre s outs (hp.trans (List.prefix_append ..))
  obtain ⟨g, hg⟩ := hashRoot_hashed keccak s.trie false
  have hstep := Session.run_concat keccak (Session.start db) ops .hash
  simp only [hrun, bind, Except.bind, Session.step, Trie.hash, hg, pure, Except.pure] at hstep
  have hl := hashed_of_run hS _ _ _ List.prefix_rfl hstep
  obtain ⟨s', t, hhash, hs', ht, hc, hk⟩ := hs.hash fun e he => hl e (by simp [he])
  obtain ⟨t', ht', hr, hc'⟩ := hs'.cur
  obtain rfl := eq_of_contents_eq ht' ht (hc'.trans hc.symm)
  refine ⟨s', outs, t', ?_, ht, hc, hk, hr⟩
  rw [Session.run_concat, hrun]
  simp only [bind, Except.bind, hhash]
  rfl

theorem rootHash_inj {s t : Tree} (hcf : CollisionFree keccak S) (hs : Wf [] s)
    (ht : Wf [] t) (hks : s.isNode = true → Whole keccak (· ∈ S) s)
    (hkt : t.isNode = true → Whole keccak (· ∈ S) t) (h : rootHash keccak s = rootHash keccak t) :
    s = t := by
  have hempty {t} (ht : Wf [] t) (hn : t.isNode = true) (hk : Whole keccak (· ∈ S) t) :
      keccak (enc keccak t) ≠ emptyRoot := by
    rw [← hcf.root]
    exact fun h => enc_ne_empty ht hn (hcf.injOn hk.self hcf.empty h)
  unfold rootHash at h
  split_ifs at h with h₁ h₂ h₂
  · have he := enc_inj hs ht (hcf.injOn (hks h₁).self (hkt h₂).self h)
    exact item_inj hcf.injOn hs ht (hks h₁).under (hkt h₂).under he
  · exact absurd h (hempty hs h₁ (hks h₁))
  · exact absurd h.symm (hempty ht h₂ (hkt h₂))
  · have hnil {t} (ht : Wf [] t) (hn : ¬t.isNode = true) : t = .nil := by
      by_contra hne
      exact hn (ht.isNode_of_ne_nil hne)
    rw [hnil hs h₁, hnil ht h₂]

-- The root hash is a function of the key to value map, and an injective one.
theorem hash_eq_iff_contents_eq (db₁ db₂ : Database) (ops₁ ops₂ : List Op)
    (h₁ : ∀ i, Op.reopen i ∉ ops₁) (h₂ : ∀ i, Op.reopen i ∉ ops₂)
    (hcf : CollisionFree keccak
      ({[0x80]} ∪ (hashedIn keccak db₁ (ops₁ ++ [Op.hash]) ∪ hashedIn keccak db₂ (ops₂ ++ [Op.hash])))) :
    ∃ s₁ s₂ outs₁ outs₂ g₁ g₂,
      (Session.start db₁).run keccak (ops₁ ++ [Op.hash]) = .ok (s₁, outs₁ ++ [Output.root g₁]) ∧
      (Session.start db₂).run keccak (ops₂ ++ [Op.hash]) = .ok (s₂, outs₂ ++ [Output.root g₂]) ∧
      (g₁ = g₂ ↔ (Spec.start.run ops₁).cur = (Spec.start.run ops₂).cur) := by
  obtain ⟨s₁, outs₁, t₁, hrun₁, ht₁, hc₁, hk₁, _⟩ := run_hash hcf (fun i h => absurd h (h₁ i))
    fun _ h => .inr (.inl h)
  obtain ⟨s₂, outs₂, t₂, hrun₂, ht₂, hc₂, hk₂, _⟩ := run_hash hcf (fun i h => absurd h (h₂ i))
    fun _ h => .inr (.inr h)
  refine ⟨s₁, s₂, outs₁, outs₂, _, _, hrun₁, hrun₂, ?_⟩
  rw [← hc₁, ← hc₂]
  constructor
  · intro h
    rw [rootHash_inj hcf ht₁ ht₂ hk₁ hk₂ h]
  · intro h
    rw [eq_of_contents_eq ht₁ ht₂ h]

def sampleUpdates₁ : List Op :=
  [.tryUpdate ⟨[0x01], by decide⟩ ⟨[0x02], by decide⟩,
   .tryUpdate ⟨[0x11], by decide⟩ ⟨[0x03], by decide⟩]

def sampleUpdates₂ : List Op :=
  [.tryUpdate ⟨[0x11], by decide⟩ ⟨[0x03], by decide⟩,
   .tryUpdate ⟨[0x01], by decide⟩ ⟨[0x02], by decide⟩, .commit]

theorem hash_eq_iff_contents_eq_sample :
    ∃ s₁ s₂ outs₁ outs₂ g,
      (Session.start fun _ => none).run sampleKeccak (sampleUpdates₁ ++ [Op.hash]) =
        .ok (s₁, outs₁ ++ [Output.root g]) ∧
      (Session.start fun _ => none).run sampleKeccak (sampleUpdates₂ ++ [Op.hash]) =
        .ok (s₂, outs₂ ++ [Output.root g]) := by
  have hsub₁ : hashedIn sampleKeccak (fun _ => none) (sampleUpdates₁ ++ [Op.hash]) ⊆ {sampleEnc} :=
    hashedIn_subset sampleKeccak (by decide +kernel)
  have hsub₂ : hashedIn sampleKeccak (fun _ => none) (sampleUpdates₂ ++ [Op.hash]) ⊆ {sampleEnc} :=
    hashedIn_subset sampleKeccak (by decide +kernel)
  obtain ⟨s₁, s₂, outs₁, outs₂, g₁, g₂, hrun₁, hrun₂, hiff⟩ :=
    hash_eq_iff_contents_eq (fun _ => none) (fun _ => none) sampleUpdates₁ sampleUpdates₂
      (by simp [sampleUpdates₁]) (by simp [sampleUpdates₂])
      (sampleKeccak_collisionFree (Set.union_subset hsub₁ hsub₂))
  have hc : (Spec.start.run sampleUpdates₁).cur = (Spec.start.run sampleUpdates₂).cur := by
    funext k
    simp only [Spec.run, sampleUpdates₁, sampleUpdates₂, List.foldl_cons, List.foldl_nil, Spec.step,
      Spec.start, Function.update_apply]
    split_ifs <;> simp_all
  obtain rfl := hiff.mpr hc
  exact ⟨s₁, s₂, outs₁, outs₂, g₁, hrun₁, hrun₂⟩

end Trie
