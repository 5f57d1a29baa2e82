import GoEthereum.Trie.Refine

-- The hasher computes the hash of the tree that a node represents and, in commit mode, writes all
-- of it to the database.

namespace Trie

open Common Merkle

variable {keccak : Bytes → Hash} {D : Database} {S : Set Bytes} {p k : Key} {t : Tree} {r : Bool}
variable {n : Node Key} {h : Hasher} {db : Bool}

def Logged (S : Set Bytes) (es : List Event) : Prop :=
  ∀ e, Event.sha e ∈ es → e ∈ S

def Written (D : Database) (es : List Event) : Prop :=
  ∀ h e, Event.put h e ∈ es → D h.bytes = some e

def Keyed (keccak : Bytes → Hash) (S : Set Bytes) (es : List Event) : Prop :=
  ∀ h e, Event.put h e ∈ es → h = keccak e ∧ e ∈ S

structure HashSpec (keccak : Bytes → Hash) (D : Database) (S : Set Bytes) (r db : Bool) (t : Tree)
    (res : Hashed) : Prop where
  hash   : Big keccak r t → res.hashed = .hash (keccak (enc keccak t))
  item   : r = false → res.hashed.item = ref keccak t ∧ res.hashed.isNil = false
  keyed  : Keyed keccak S res.events
  quiet  : db = false → ∀ g e, Event.put g e ∉ res.events
  under  : Under keccak (· ∈ S) t
  self   : Big keccak r t → enc keccak t ∈ S
  cached : Written D res.events → Rep keccak D S r res.cached t
  stored : db = true → Written D res.events → Stored keccak D S r t

namespace HashSpec

variable {res : Hashed}

theorem known (hs : HashSpec keccak D S r db t res) :
    (t.isNode → 32 ≤ (enc keccak t).length → enc keccak t ∈ S) ∧ Under keccak (· ∈ S) t :=
  ⟨fun _ hl => hs.self (.inr hl), hs.under⟩

theorem has (hs : HashSpec keccak D S r db t res) (hd : db = true) (hw : Written D res.events) :
    (t.isNode → 32 ≤ (enc keccak t).length → Has keccak D S (enc keccak t)) ∧
      Under keccak (Has keccak D S) t :=
  have ⟨h₁, h₂⟩ := hs.stored hd hw
  ⟨fun _ hl => h₂ (.inr hl), h₁⟩

end HashSpec

theorem ref_of_big (hn : t.isNode = true) (hb : Big keccak false t) :
    ref keccak t = .str (keccak (enc keccak t)).bytes :=
  if_pos ⟨hn, by simpa [Big, enc] using hb⟩

theorem ref_of_not_big (hb : ¬Big keccak r t) : ref keccak t = item keccak t :=
  if_neg fun h => hb (.inr h.right)

theorem HashSpec.of_hash {cached : Node Key} {g : Hash} (hn : t.isNode = true)
    (hh : HashOf keccak r g t) (hk : Whole keccak (· ∈ S) t) (hr : Rep keccak D S r cached t)
    (hs : db = true → Whole keccak (Has keccak D S) t) :
    HashSpec keccak D S r db t ⟨.hash g, cached, []⟩ where
  hash _       := by rw [hh.eq]
  item hr      := by
    subst hr
    rw [ref_of_big hn (.inr (hh.size rfl)), hh.eq]
    exact ⟨rfl, rfl⟩
  keyed        := by simp [Keyed]
  quiet _      := by simp
  under        := hk.under
  self _       := hk.self
  cached _     := hr
  stored hd _  := ⟨(hs hd).under, fun _ => (hs hd).self⟩

theorem Cached.whole {flags : NodeFlag} {g : Hash} (hc : Cached keccak D S r flags t)
    (hg : flags.hash = some g) (hd : flags.dirty = false) : Whole keccak (Has keccak D S) t :=
  have ⟨h₁, h₂⟩ := hc.stored hd
  ⟨h₂ (hc.hash hg).big, h₁⟩

theorem useCache_spec {flags : NodeFlag} {res : Hashed} (hn : t.isNode = true)
    (hr : Rep keccak D S r n t) (hc : Cached keccak D S r flags t)
    (hcache : n.cache = (flags.hash, flags.dirty))
    (hunload : n.canUnload h.cachegen h.cachelimit = flags.canUnload h.cachegen h.cachelimit)
    (hu : h.useCache db n = some res) : HashSpec keccak D S r db t res := by
  unfold Hasher.useCache at hu
  rw [hcache, hunload] at hu
  cases hfh : flags.hash
  case none => simp [hfh] at hu
  case some g =>
    simp only [hfh] at hu
    split_ifs at hu with h₁ h₂ h₃ <;> obtain rfl := Option.some.inj hu
    · exact .of_hash hn (hc.hash hfh) (hc.known hfh) hr (by simp [h₁])
    · have hclean : flags.dirty = false := by
        simp [NodeFlag.canUnload] at h₂
        exact h₂.left
      have hst := hc.whole hfh hclean
      exact .of_hash hn (hc.hash hfh) (hc.known hfh) (.hash hn (hc.hash hfh) hst) fun _ => hst
    · exact .of_hash hn (hc.hash hfh) (hc.known hfh) hr fun _ => hc.whole hfh h₃

section

variable {m : Node Bytes} {flags : NodeFlag}

theorem store_some {g : Hash} (hnil : m.isNil = false) (hnh : m.isHash = false)
    (hc : m.cache.fst = some g) :
    Hasher.store keccak db m r =
      if (Rlp.encode m.item).length < 32 ∧ r = false then (m, [])
      else (.hash g, if db then [Event.put g (Rlp.encode m.item)] else []) := by
  cases m <;> simp [Node.isNil, Node.isHash] at hnil hnh <;> simp [Hasher.store, hc]

theorem store_none (hnil : m.isNil = false) (hnh : m.isHash = false) (hc : m.cache.fst = none) :
    Hasher.store keccak db m r =
      if (Rlp.encode m.item).length < 32 ∧ r = false then (m, [])
      else (.hash (keccak (Rlp.encode m.item)), Event.sha (Rlp.encode m.item) ::
        if db then [Event.put (keccak (Rlp.encode m.item)) (Rlp.encode m.item)] else []) := by
  cases m <;> simp [Node.isNil, Node.isHash] at hnil hnh <;> simp [Hasher.store, hc]

-- A collapsed node with the encoding of `t` is left alone if it is small, and is otherwise
-- replaced by the hash of `t`.
theorem store_spec (hnil : m.isNil = false) (hnh : m.isHash = false) (hi : m.item = item keccak t)
    (hc : Cached keccak D S r flags t) (hcache : m.cache.fst = flags.hash)
    (hl : Logged S (Hasher.store keccak db m r).snd) :
    (¬Big keccak r t ∧ Hasher.store keccak db m r = (m, [])) ∨
    (Big keccak r t ∧ enc keccak t ∈ S ∧ ∃ sha, Hasher.store keccak db m r =
      (.hash (keccak (enc keccak t)), sha ++ if db then [Event.put (keccak (enc keccak t)) (enc keccak t)] else []) ∧
      ∀ h e, Event.put h e ∉ sha) := by
  have hcond : (Rlp.encode m.item).length < 32 ∧ r = false ↔ ¬Big keccak r t := by
    simp [Big, hi, enc, and_comm]
  have he : Rlp.encode m.item = enc keccak t := by rw [hi, enc]
  by_cases hb : Big keccak r t
  case neg =>
    left
    refine ⟨hb, ?_⟩
    cases hg : m.cache.fst
    case none   => rw [store_none hnil hnh hg, if_pos (hcond.mpr hb)]
    case some g => rw [store_some hnil hnh hg, if_pos (hcond.mpr hb)]
  case pos =>
    right
    have hneg := hcond.not.mpr (not_not.mpr hb)
    cases hg : m.cache.fst
    case none =>
      rw [store_none hnil hnh hg, if_neg hneg, he] at hl ⊢
      exact ⟨hb, hl _ (by simp), [.sha (enc keccak t)], rfl, by simp⟩
    case some g =>
      rw [store_some hnil hnh hg, if_neg hneg, he]
      rw [hcache] at hg
      rw [(hc.hash hg).eq]
      exact ⟨hb, (hc.known hg).self, [], rfl, by simp⟩

theorem Cached.setHash {hash : Option Hash} (hc : Cached keccak D S r flags t)
    (hh : ∀ g, hash = some g → Big keccak r t ∧ g = keccak (enc keccak t) ∧ enc keccak t ∈ S)
    (hu : Under keccak (· ∈ S) t) (hs : db = true → Stored keccak D S r t) :
    Cached keccak D S r { flags with hash := hash, dirty := !db && flags.dirty } t where
  hash hg   := ⟨(hh _ hg).right.left, fun hr => (hh _ hg).left.resolve_left (by simp [hr])⟩
  known hg  := ⟨(hh _ hg).right.right, hu⟩
  stored hd := by
    cases db
    case true  => exact hs rfl
    case false => exact hc.stored (by simpa using hd)

variable (flags) in
theorem storeCollapsed_spec {cached : Node Key} {es : List Event} (hn : t.isNode = true)
    (hnil : m.isNil = false) (hnh : m.isHash = false) (hi : m.item = item keccak t)
    (hc : Cached keccak D S r flags t) (hcache : m.cache.fst = flags.hash)
    (hrep : Written D es → ∀ hash,
      Cached keccak D S r { flags with hash := hash, dirty := !db && flags.dirty } t →
      Rep keccak D S r (Hasher.setHash db hash cached) t)
    (hkeyed : Keyed keccak S es) (hquiet : db = false → ∀ g e, Event.put g e ∉ es)
    (hu : Under keccak (· ∈ S) t)
    (hst : db = true → Written D es → Under keccak (Has keccak D S) t)
    (hl : Logged S (Hasher.storeCollapsed keccak db r (m, cached, es)).events) :
    HashSpec keccak D S r db t (Hasher.storeCollapsed keccak db r (m, cached, es)) := by
  have hl' : Logged S (Hasher.store keccak db m r).snd := fun e he => hl e (by
    simp [Hasher.storeCollapsed, he])
  rcases store_spec hnil hnh hi hc hcache hl' with ⟨hb, hstore⟩ | ⟨hb, hS, sha, hstore, hsha⟩
  · -- The node is small and stays embedded.
    have heq : Hasher.storeCollapsed keccak db r (m, cached, es) =
        ⟨m, Hasher.setHash db none cached, es⟩ := by
      simp only [Hasher.storeCollapsed, hstore, List.append_nil]
      cases m <;> simp [Node.isHash] at hnh <;> rfl
    have hstored (hd : db = true) (hw : Written D es) : Stored keccak D S r t :=
      ⟨hst hd hw, fun h => absurd h hb⟩
    rw [heq]
    exact {
      hash h       := absurd h hb
      item _       := ⟨by rw [hi, ref_of_not_big hb], hnil⟩
      keyed        := hkeyed
      quiet        := hquiet
      under        := hu
      self h       := absurd h hb
      cached hw    := hrep hw none <| hc.setHash (by simp) hu fun hd => hstored hd hw
      stored hd hw := hstored hd hw }
  · let put := if db then [Event.put (keccak (enc keccak t)) (enc keccak t)] else []
    have heq : Hasher.storeCollapsed keccak db r (m, cached, es) =
        ⟨.hash (keccak (enc keccak t)), Hasher.setHash db (some (keccak (enc keccak t))) cached,
          es ++ (sha ++ put)⟩ := by
      simp only [Hasher.storeCollapsed, hstore, put]
    have hput {g e} (h : Event.put g e ∈ put) : g = keccak e ∧ e = enc keccak t := by
      simp only [put] at h
      split_ifs at h <;> simp_all
    have hes (hw : Written D (es ++ (sha ++ put))) : Written D es := fun g e h => hw g e (by simp [h])
    have hstored (hd : db = true) (hw : Written D (es ++ (sha ++ put))) :
        Stored keccak D S r t :=
      ⟨hst hd (hes hw), fun _ => ⟨hS, hw _ _ (by simp [put, hd])⟩⟩
    rw [heq]
    exact {
      hash _       := rfl
      item hr      := by subst hr; rw [ref_of_big hn hb]; exact ⟨rfl, rfl⟩
      keyed g e he := by
        simp only [List.mem_append] at he
        rcases he with he | he | he
        · exact hkeyed g e he
        · exact absurd he (hsha g e)
        · obtain ⟨h₁, h₂⟩ := hput he
          exact ⟨h₁, h₂ ▸ hS⟩
      quiet hd g e := by simp [hquiet hd g e, hsha g e, put, hd]
      under        := hu
      self _       := hS
      cached hw    := hrep (hes hw) _ <| hc.setHash
        (by simpa using ⟨hb, hS⟩) hu fun hd => hstored hd hw
      stored hd hw := hstored hd hw }

end

theorem Node.orEmpty_of_not_isNil {κ : Type} {n : Node κ} (h : n.isNil = false) : n.orEmpty = n := by
  cases n <;> simp [Node.isNil] at h <;> rfl

variable {c : Node Key} {cs : Nibble → Node Key} {ts : Nibble → Tree}

theorem hashShortChildren_of_isNode {t : Tree} {r : Bool} (hr : Rep keccak D S r c t)
    (hn : t.isNode = true) (k : Key) (flags : NodeFlag) (res : Hashed) :
    Hasher.hashShortChildren k c flags res =
      (.short (compactEncode k) res.hashed.orEmpty flags, .short k res.cached flags, res.events) := by
  cases hr <;> first | rfl | simp [Patricia.Tree.isNode] at hn

theorem hashShortChildren_item {r : Bool} (ht : Wf p (.short k t))
    (hr : Rep keccak D S r c t) (flags : NodeFlag) (res : Hashed)
    (hi : t.isNode = true → res.hashed.item = ref keccak t ∧ res.hashed.isNil = false) :
    (Hasher.hashShortChildren k c flags res).fst.item = item keccak (.short k t) := by
  cases hn : t.isNode
  case false =>
    obtain ⟨v, rfl⟩ := ht.short_value_iff.mp <| by
      by_contra hk
      simp [ht.short_isNode hk] at hn
    obtain rfl := hr.eq_value
    simp [Hasher.hashShortChildren, Node.item, item, refItem_of_not_isNode keccak hn]
  case true =>
    obtain ⟨hitem, hnil⟩ := hi hn
    rw [hashShortChildren_of_isNode hr hn]
    simp [Node.item, item, Node.orEmpty_of_not_isNil hnil, hitem, ref]

theorem walked_eq_isNode (ht : Wf p (.full ts))
    (hrs : ∀ i, Rep keccak D S false (cs i) (ts i)) (i : Nibble) :
    decide (i ≠ terminator ∧ (cs i).isNil = false) = (ts i).isNode := by
  have hnil : (cs i).isNil = false ↔ ts i ≠ .nil := by
    rw [← Bool.not_eq_true, (hrs i).isNil_iff]
  rw [Bool.eq_iff_iff, decide_eq_true_iff, hnil]
  constructor
  · exact fun ⟨hi, hn⟩ => ht.full_isNode hi hn
  · intro hn
    have hne : ts i ≠ .nil := by rintro h; simp [h, Patricia.Tree.isNode] at hn
    refine ⟨fun hi => ?_, hne⟩
    obtain ⟨v, hv⟩ := (ht.full_value_iff hne).mp hi
    simp [hv, Patricia.Tree.isNode] at hn

theorem hashFullChildren_item (ht : Wf p (.full ts))
    (hrs : ∀ i, Rep keccak D S false (cs i) (ts i)) (flags : NodeFlag) {rs : Nibble → Hashed}
    (hi : ∀ i, (ts i).isNode = true → (rs i).hashed.item = ref keccak (ts i)) :
    (Hasher.hashFullChildren cs flags rs).fst.item = item keccak (.full ts) := by
  simp only [Hasher.hashFullChildren, walked_eq_isNode ht hrs, Node.item, item,
    Rlp.Item.list.injEq, List.map_inj_left]
  intro i _
  cases hn : (ts i).isNode
  case true => simpa [ref] using hi i hn
  case false =>
    have hri := hrs i
    generalize cs i = c, ts i = t at hri hn
    cases t <;> simp [Patricia.Tree.isNode] at hn
    case nil     => obtain rfl := hri.eq_nil; rfl
    case value v => obtain rfl := hri.eq_value; rfl

theorem Under.of_not_isNode {A : Bytes → Prop} (hn : t.isNode = false) :
    (t.isNode → 32 ≤ (enc keccak t).length → A (enc keccak t)) ∧ Under keccak A t := by
  refine ⟨fun h => by simp [hn] at h, ?_⟩
  cases t <;> simp [Patricia.Tree.isNode] at hn <;> trivial

theorem hashShort_spec {flags : NodeFlag} (ht : Wf p (.short k t))
    (hr : Rep keccak D S false c t) (hc : Cached keccak D S r flags (.short k t))
    (hi : t.isNode = true → Logged S (h.hash keccak db c false).events →
      HashSpec keccak D S false db t (h.hash keccak db c false))
    (hl : Logged S (Hasher.storeCollapsed keccak db r
      (Hasher.hashShortChildren k c flags (h.hash keccak db c false))).events) :
    HashSpec keccak D S r db (.short k t) (Hasher.storeCollapsed keccak db r
      (Hasher.hashShortChildren k c flags (h.hash keccak db c false))) := by
  cases hn : t.isNode
  case false =>
    obtain ⟨v, rfl⟩ := ht.short_value_iff.mp <| by
      by_contra hk
      simp [ht.short_isNode hk] at hn
    obtain rfl := hr.eq_value
    exact storeCollapsed_spec flags rfl rfl rfl
      (hashShortChildren_item ht hr flags (h.hash keccak db (.value v.val) false)
        fun h => by simp [hn] at h) hc rfl
      (fun _ _ h => .short hr h) (by simp [Keyed]) (by simp) (Under.of_not_isNode hn)
      (fun _ _ => Under.of_not_isNode hn) hl
  case true =>
    rw [hashShortChildren_of_isNode hr hn] at hl ⊢
    have hs := hi hn fun e he => hl e (by simp [Hasher.storeCollapsed, he])
    have hitem := hashShortChildren_item ht hr flags _ fun _ => hs.item rfl
    rw [hashShortChildren_of_isNode hr hn] at hitem
    exact storeCollapsed_spec flags rfl rfl rfl hitem hc rfl
      (fun hw _ h => .short (hs.cached hw) h) hs.keyed hs.quiet hs.known (fun hd hw => hs.has hd hw) hl

theorem hashFull_spec {flags : NodeFlag}
    (ht : Wf p (.full ts)) (hrs : ∀ i, Rep keccak D S false (cs i) (ts i))
    (hc : Cached keccak D S r flags (.full ts))
    (hi : ∀ i, (ts i).isNode = true → Logged S (h.hash keccak db (cs i) false).events →
      HashSpec keccak D S false db (ts i) (h.hash keccak db (cs i) false))
    (hl : Logged S (Hasher.storeCollapsed keccak db r
      (Hasher.hashFullChildren cs flags fun i => h.hash keccak db (cs i) false)).events) :
    HashSpec keccak D S r db (.full ts) (Hasher.storeCollapsed keccak db r
      (Hasher.hashFullChildren cs flags fun i => h.hash keccak db (cs i) false)) := by
  simp only [Hasher.hashFullChildren, walked_eq_isNode ht hrs] at hl ⊢
  have hs (i) (hn : (ts i).isNode = true) : HashSpec keccak D S false db (ts i)
      (h.hash keccak db (cs i) false) := hi i hn fun e he => hl e (by
    simp only [Hasher.storeCollapsed, List.mem_append, List.mem_flatMap]
    exact .inl ⟨i, by simp, by simpa [hn] using he⟩)
  have hwritten {i} (hn : (ts i).isNode = true) (hw : Written D ((List.finRange 17).flatMap fun i =>
      if (ts i).isNode then (h.hash keccak db (cs i) false).events else [])) :
      Written D (h.hash keccak db (cs i) false).events := fun g e he => hw g e (by
    simp only [List.mem_flatMap]
    exact ⟨i, by simp, by simpa [hn] using he⟩)
  have hitem := hashFullChildren_item ht hrs flags fun i hn => ((hs i hn).item rfl).left
  simp only [Hasher.hashFullChildren, walked_eq_isNode ht hrs] at hitem
  refine storeCollapsed_spec flags rfl rfl rfl hitem hc rfl
    (fun hw _ hc => .full (fun i => ?_) hc) ?_ (fun hd g e he => ?_) (fun i => ?_) (fun hd hw i => ?_) hl
  · cases hn : (ts i).isNode
    case true  => simpa using (hs i hn).cached (hwritten hn hw)
    case false => simpa using hrs i
  · intro g e he
    simp only [List.mem_flatMap] at he
    obtain ⟨i, -, he⟩ := he
    split_ifs at he with hn
    · exact (hs i hn).keyed g e he
    · simp at he
  · simp only [List.mem_flatMap] at he
    obtain ⟨i, -, he⟩ := he
    split_ifs at he with hn
    · exact (hs i hn).quiet hd g e he
    · simp at he
  · by_cases hn : (ts i).isNode
    case pos => exact (hs i hn).known
    case neg => exact Under.of_not_isNode (by simpa using hn)
  · by_cases hn : (ts i).isNode
    case pos => exact (hs i hn).has hd (hwritten hn hw)
    case neg => exact Under.of_not_isNode (by simpa using hn)

theorem hash_spec (ht : Wf p t) (hn : t.isNode = true) (hr : Rep keccak D S r n t)
    (hl : Logged S (h.hash keccak db n r).events) :
    HashSpec keccak D S r db t (h.hash keccak db n r) := by
  induction n generalizing p t r
  case nil =>
    cases hr
    simp [Patricia.Tree.isNode] at hn
  case value v =>
    cases hr
    simp [Patricia.Tree.isNode] at hn
  case hash g =>
    have hrep := hr
    cases hr
    case hash _ hw hh =>
      exact .of_hash hn hh (Whole.mono (fun _ h => h.left) hw) hrep fun _ => hw
  case short k c flags hi =>
    have hrep := hr
    cases hr
    case short t hr hc =>
      rw [Hasher.hash] at hl ⊢
      cases hu : h.useCache db (.short k c flags)
      case some res => exact useCache_spec hn hrep hc rfl rfl hu
      case none =>
        rw [hu] at hl
        exact hashShort_spec ht hr hc (fun hn hl => hi ht.of_short hn hr hl) hl
  case full cs flags hi =>
    have hrep := hr
    cases hr
    case full ts hrs hc =>
      rw [Hasher.hash] at hl ⊢
      cases hu : h.useCache db (.full cs flags)
      case some res => exact useCache_spec hn hrep hc rfl rfl hu
      case none =>
        rw [hu] at hl
        exact hashFull_spec ht hrs hc (fun i hn hl => hi i (ht.of_full i) hn (hrs i) hl) hl

end Trie
