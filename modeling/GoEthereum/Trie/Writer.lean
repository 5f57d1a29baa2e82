import GoEthereum.Trie.Simulation

-- `CommitTo` with a writer whose `Put` may fail.

namespace Trie

open Common Merkle

abbrev Put := Hash × Bytes

-- A `DatabaseWriter`: the error of the next `Put`, if it fails, after those that did not.
abbrev Writer (ε : Type) := List Put → Put → Option ε

namespace Writer

variable {ε : Type}

def working : Writer ε :=
  fun _ _ => none

-- Puts one after another until one of them fails, with those that did not and the error.
def run (W : Writer ε) : List Put → List Put → List Put × Option ε
  | done, []      => (done, none)
  | done, p :: ps =>
    match W done p with
    | some e => (done, some e)
    | none   => run W (done ++ [p]) ps

-- `db.Put`
def put (W : Writer ε) (hash : Hash) (enc : Bytes) : Act (List Put) ε Unit := fun done =>
  match W done (hash, enc) with
  | some e => (Go.fail e, done)
  | none   => (.ok (), done ++ [(hash, enc)])

end Writer

namespace Hasher

variable {ε : Type} (keccak : Bytes → Hash) (h : Hasher) (W : Writer ε)

def storeTo (n : Node Bytes) (force : Bool) : Act (List Put) ε (Node Bytes) :=
  match n with
  -- Don't store hashes or empty nodes.
  | .nil    => pure .nil
  | .hash h => pure (.hash h)
  | n       =>
    let enc := Rlp.encode n.item
    if enc.length < 32 ∧ force = false then
      pure n -- Nodes smaller than 32 bytes are stored inside their parent
    else do
      let hash := n.cache.fst.getD (keccak enc)
      W.put hash enc
      pure (.hash hash)

-- The child of a short node with what `hash` does for it. A value is left as it is.
def hashVal (val : Node Key) (hash : Act (List Put) ε (Node Bytes × Node Key)) :
    Act (List Put) ε (Node Bytes × Node Key) :=
  match val with
  | .value v => pure (.value v, .value v)
  | _        => hash

-- The loop of `hashChildren` over the children of a full node. It is left with the first error, and
-- the copies made so far are dropped.
def hashLoop (cs : Nibble → Node Key) (hash : Nibble → Act (List Put) ε (Node Bytes × Node Key)) :
    List Nibble → (Nibble → Node Bytes) → (Nibble → Node Key) →
      Act (List Put) ε ((Nibble → Node Bytes) × (Nibble → Node Key))
  | [],      collapsed, cached => pure (collapsed, cached)
  | i :: is, collapsed, cached =>
    if (cs i).isNil then
      hashLoop cs hash is (Function.update collapsed i (.value [])) cached
    else do
      let r ← hash i
      hashLoop cs hash is (Function.update collapsed i r.fst) (Function.update cached i r.snd)

-- The part of `hash` after `hashChildren`.
def storeCollapsedTo (force : Bool) (collapsed : Node Bytes) (cached : Node Key) :
    Act (List Put) ε (Node Bytes × Node Key) := do
  let hashed ← storeTo keccak W collapsed force
  let cachedHash := match hashed with
    | .hash h => some h
    | _       => none
  pure (hashed, setHash true cachedHash cached)

-- The rest of `hash` for the two kinds of node that have children, with what it does for these.

def hashShortTo (force : Bool) (key : Key) (val : Node Key) (flags : NodeFlag)
    (hash : Act (List Put) ε (Node Bytes × Node Key)) : Act (List Put) ε (Node Bytes × Node Key) := do
  let r ← hashVal val hash
  storeCollapsedTo keccak W force (.short (compactEncode key) r.fst.orEmpty flags) (.short key r.snd flags)

def hashFullTo (force : Bool) (cs : Nibble → Node Key) (flags : NodeFlag)
    (hash : Nibble → Act (List Put) ε (Node Bytes × Node Key)) :
    Act (List Put) ε (Node Bytes × Node Key) := do
  let r ← hashLoop cs hash ((List.finRange 16).map Fin.castSucc)
    (fun i => (cs i).map (·.map Nibble.byte)) cs
  let collapsed := Function.update r.fst terminator (r.fst terminator).orEmpty
  storeCollapsedTo keccak W force (.full collapsed flags) (.full r.snd flags)

def hashTo : Node Key → Bool → Act (List Put) ε (Node Bytes × Node Key)
  | .nil, force => storeCollapsedTo keccak W force .nil .nil
  | .hash n, force => storeCollapsedTo keccak W force (.hash n) (.hash n)
  | .value v, force => storeCollapsedTo keccak W force (.value v) (.value v)
  | .short key val flags, force =>
    match useCache h true (.short key val flags) with
    | some r => pure (r.hashed, r.cached)
    | none   => hashShortTo keccak W force key val flags (hashTo val false)
  | .full cs flags, force =>
    match useCache h true (.full cs flags) with
    | some r => pure (r.hashed, r.cached)
    | none   => hashFullTo keccak W force cs flags fun i => hashTo (cs i) false

end Hasher

-- What a call of `CommitTo` returns, the trie after it, and what it has put.
structure Commit (ε : Type) where
  result : Go ε Hash
  trie   : Trie
  puts   : List Put

section

variable {ε : Type} (keccak : Bytes → Hash) (W : Writer ε) (t : Trie)

def hashRootTo : Act (List Put) ε (Node Bytes × Node Key) :=
  match t.root with
  | .nil => pure (.hash emptyRoot, .nil)
  | root => Hasher.hashTo keccak ⟨t.cachegen, t.cachelimit⟩ W root true

-- `CommitTo`. The root and the cache generation are only set if nothing failed.
def commitToWriter : Commit ε :=
  match t.hashRootTo keccak W [] with
  | (.error e, done)               => ⟨.error e, t, done⟩
  | (.ok (.hash hash, cached), done) =>
    ⟨.ok hash, { t with root := cached, cachegen := t.cachegen + 1 }, done⟩
  | (.ok _, done)                  => ⟨Go.panics, t, done⟩

end

def Event.puts (es : List Event) : List Put :=
  es.filterMap fun
    | .sha _   => none
    | .put h e => some (h, e)

theorem Event.puts_append (es es' : List Event) : puts (es ++ es') = puts es ++ puts es' :=
  List.filterMap_append

section

variable {ε α β : Type} {W : Writer ε}

-- Makes the given puts and returns the value if none of them fails.
def replay (W : Writer ε) (ps : List Put) (a : α) : Act (List Put) ε α := fun done =>
  match W.run done ps with
  | (done, some e) => (Go.fail e, done)
  | (done, none)   => (.ok a, done)

theorem pure_eq_replay (a : α) : (pure a : Act (List Put) ε α) = replay W [] a :=
  rfl

theorem put_eq_replay (hash : Hash) (enc : Bytes) : W.put hash enc = replay W [(hash, enc)] () := by
  funext done
  simp only [Writer.put, replay, Writer.run]
  cases W done (hash, enc) <;> rfl

theorem run_append (done ps qs : List Put) : W.run done (ps ++ qs) =
    match W.run done ps with
    | (done, some e) => (done, some e)
    | (done, none)   => W.run done qs := by
  induction ps generalizing done
  case nil => rfl
  case cons p ps ih =>
    simp only [List.cons_append, Writer.run]
    cases W done p
    case none => exact ih (done ++ [p])
    case some => rfl

theorem replay_bind (ps : List Put) (a : α) (f : α → Act (List Put) ε β) :
    (replay W ps a >>= f) = (replay W ps () >>= fun _ => f a) := by
  funext done
  simp only [bind, replay]
  rcases W.run done ps with ⟨done', _ | e⟩ <;> rfl

theorem replay_seq (ps qs : List Put) (b : β) :
    (replay W ps () >>= fun _ => replay W qs b) = replay W (ps ++ qs) b := by
  funext done
  simp only [bind, replay, run_append]
  rcases W.run done ps with ⟨done', _ | e⟩ <;> rfl

theorem replay_bind_pure (ps : List Put) (a : α) (f : α → β) :
    (replay W ps a >>= fun a => pure (f a)) = replay W ps (f a) := by
  rw [replay_bind, pure_eq_replay (W := W), replay_seq, List.append_nil]

end

namespace Hasher

variable {ε : Type} {keccak : Bytes → Hash} {h : Hasher} {W : Writer ε}

theorem storeTo_eq (n : Node Bytes) (force : Bool) : storeTo keccak W n force =
    replay W (Event.puts (store keccak true n force).snd) (store keccak true n force).fst := by
  cases n
  case nil => rfl
  case hash => rfl
  all_goals
    simp only [storeTo, store]
    split_ifs with hl
    case pos => rfl
    case neg =>
      rw [put_eq_replay, replay_bind_pure]
      rcases Node.cache _ with ⟨_ | g, _⟩ <;> rfl

variable (force : Bool) (collapsed : Node Bytes) (cached : Node Key)

theorem storeCollapsedTo_eq (es : List Event) : storeCollapsedTo keccak W force collapsed cached =
      replay W (Event.puts (store keccak true collapsed force).snd)
        ((storeCollapsed keccak true force (collapsed, cached, es)).hashed,
          (storeCollapsed keccak true force (collapsed, cached, es)).cached) := by
  rw [storeCollapsedTo, storeTo_eq, replay_bind_pure]
  rfl

theorem replay_storeCollapsedTo (es : List Event) :
    (replay W (Event.puts es) () >>= fun _ => storeCollapsedTo keccak W force collapsed cached) =
      replay W (Event.puts (storeCollapsed keccak true force (collapsed, cached, es)).events)
        ((storeCollapsed keccak true force (collapsed, cached, es)).hashed,
          (storeCollapsed keccak true force (collapsed, cached, es)).cached) := by
  rw [storeCollapsedTo_eq force collapsed cached es, replay_seq, ← Event.puts_append]
  rfl

theorem storeCollapsedTo_nil :
    storeCollapsedTo keccak W force collapsed cached =
      replay W (Event.puts (storeCollapsed keccak true force (collapsed, cached, [])).events)
        ((storeCollapsed keccak true force (collapsed, cached, [])).hashed,
          (storeCollapsed keccak true force (collapsed, cached, [])).cached) :=
  storeCollapsedTo_eq force collapsed cached []

theorem hashLoop_eq {cs : Nibble → Node Key} {ps : Nibble → List Put}
    {r : Nibble → Node Bytes × Node Key} (is : List Nibble) (collapsed : Nibble → Node Bytes)
    (cached : Nibble → Node Key) :
    hashLoop cs (fun i => replay W (ps i) (r i)) is collapsed cached =
      replay W (is.flatMap fun i => if (cs i).isNil then [] else ps i)
        (fun i => if i ∈ is then if (cs i).isNil then .value [] else (r i).fst else collapsed i,
          fun i => if i ∈ is ∧ (cs i).isNil = false then (r i).snd else cached i) := by
  induction is generalizing collapsed cached
  case nil => simp [hashLoop, pure_eq_replay (W := W)]
  case cons j is ih =>
    rw [hashLoop]
    split_ifs with hj
    case pos =>
      rw [ih]
      congr 1
      · simp [hj]
      · refine Prod.ext (funext fun i => ?_) (funext fun i => ?_) <;>
          by_cases hi : i = j <;> simp [hi, hj]
    case neg =>
      rw [replay_bind, ih, replay_seq]
      congr 1
      · simp [hj]
      · refine Prod.ext (funext fun i => ?_) (funext fun i => ?_) <;>
          by_cases hi : i = j <;> simp [hi, hj]

section

variable (cs : Nibble → Node Key) (rs : Nibble → Hashed)

theorem mem_loop_iff (i : Nibble) : i ∈ (List.finRange 16).map Fin.castSucc ↔ i ≠ terminator := by
  revert i
  decide

theorem finRange_nibble : List.finRange 17 = (List.finRange 16).map Fin.castSucc ++ [terminator] := by
  decide

theorem loop_collapsed :
    let r (i : Nibble) := if i ∈ (List.finRange 16).map Fin.castSucc then
      if (cs i).isNil then .value [] else (rs i).hashed else (cs i).map (·.map Nibble.byte)
    Function.update r terminator (r terminator).orEmpty = fun i =>
      if decide (i ≠ terminator ∧ (cs i).isNil = false) then (rs i).hashed
      else ((cs i).map (·.map Nibble.byte)).orEmpty := by
  intro r
  funext i
  by_cases hi : i = terminator
  case pos =>
    subst hi
    have hr : r terminator = (cs terminator).map (·.map Nibble.byte) := by simp [r, mem_loop_iff]
    simp [hr]
  case neg =>
    rw [Function.update_of_ne hi]
    simp only [r, mem_loop_iff, ne_eq, hi, not_false_eq_true, if_true, true_and]
    cases hc : cs i <;> simp [Node.isNil, Node.map, Node.orEmpty]

theorem loop_cached : (fun i => if i ∈ (List.finRange 16).map Fin.castSucc ∧ (cs i).isNil = false then
      (rs i).cached else cs i) =
    fun i => if decide (i ≠ terminator ∧ (cs i).isNil = false) then (rs i).cached else cs i := by
  simp [mem_loop_iff]

theorem loop_puts : ((List.finRange 16).map Fin.castSucc).flatMap (fun i : Nibble =>
      if (cs i).isNil then [] else Event.puts (rs i).events) =
    Event.puts ((List.finRange 17).flatMap fun i =>
      if decide (i ≠ terminator ∧ (cs i).isNil = false) then (rs i).events else []) := by
  rw [finRange_nibble, List.flatMap_append, Event.puts_append, Event.puts, List.filterMap_flatMap]
  simp only [List.flatMap_singleton, ne_eq, not_true, false_and, decide_false, Bool.false_eq_true,
    if_false, Event.puts, List.filterMap_nil, List.append_nil]
  refine List.flatMap_congr fun i hi => ?_
  have := (mem_loop_iff i).mp hi
  cases hc : (cs i).isNil <;> simp [this]

theorem hashShortTo_eq (force : Bool) (key : Key) (val : Node Key) (flags : NodeFlag) (r : Hashed) :
    hashShortTo keccak W force key val flags (replay W (Event.puts r.events) (r.hashed, r.cached)) =
    replay W (Event.puts (storeCollapsed keccak true force (hashShortChildren key val flags r)).events)
      ((storeCollapsed keccak true force (hashShortChildren key val flags r)).hashed,
        (storeCollapsed keccak true force (hashShortChildren key val flags r)).cached) := by
  rw [hashShortTo]
  cases val
  case value v =>
    simp only [hashVal, hashShortChildren]
    exact replay_storeCollapsedTo force _ _ []
  all_goals
    simp only [hashVal, hashShortChildren]
    rw [replay_bind]
    exact replay_storeCollapsedTo force _ _ r.events

theorem hashFullTo_eq (force : Bool) (flags : NodeFlag) :
    hashFullTo keccak W force cs flags
      (fun i => replay W (Event.puts (rs i).events) ((rs i).hashed, (rs i).cached)) =
    replay W (Event.puts (storeCollapsed keccak true force (hashFullChildren cs flags rs)).events)
      ((storeCollapsed keccak true force (hashFullChildren cs flags rs)).hashed,
        (storeCollapsed keccak true force (hashFullChildren cs flags rs)).cached) := by
  rw [hashFullTo, hashLoop_eq, replay_bind, loop_puts]
  rw [loop_collapsed, loop_cached]
  exact replay_storeCollapsedTo ..

end

theorem useCache_events {n : Node Key} {r : Hashed} (hu : useCache h true n = some r) :
    r.events = [] := by
  rw [useCache] at hu
  split at hu
  case h_1 => contradiction
  case h_2 =>
    split_ifs at hu
    all_goals
      cases hu
      rfl

-- The hasher with a writer makes the puts that the hasher lists, and then returns what that one returns.
theorem hashTo_eq (n : Node Key) (force : Bool) : hashTo keccak h W n force =
    replay W (Event.puts (hash keccak h true n force).events)
      ((hash keccak h true n force).hashed, (hash keccak h true n force).cached) := by
  induction n generalizing force
  case nil =>
    exact storeCollapsedTo_nil force .nil .nil
  case hash g =>
    exact storeCollapsedTo_nil force (.hash g) (.hash g)
  case value v =>
    exact storeCollapsedTo_nil force (.value v) (.value v)
  case short key val flags ih =>
    rw [hashTo, hash]
    cases hu : useCache h true (.short key val flags)
    case some r =>
      rw [Option.getD_some, useCache_events hu]
      exact pure_eq_replay _
    case none =>
      rw [ih]
      exact hashShortTo_eq force key val flags _
  case full cs flags ih =>
    rw [hashTo, hash]
    cases hu : useCache h true (.full cs flags)
    case some r =>
      rw [Option.getD_some, useCache_events hu]
      exact pure_eq_replay _
    case none =>
      simp only [ih, Option.getD_none]
      exact hashFullTo_eq cs _ force flags

end Hasher

variable {ε : Type} {keccak : Bytes → Hash} {D : Database} {S : Set Bytes} {W : Writer ε} {t : Trie}

theorem hashRootTo_eq (W : Writer ε) (t : Trie) : t.hashRootTo keccak W =
    replay W (Event.puts (t.hashRoot keccak true).events)
      ((t.hashRoot keccak true).hashed, (t.hashRoot keccak true).cached) := by
  unfold hashRootTo hashRoot
  cases t.root
  case nil => exact pure_eq_replay _
  all_goals exact Hasher.hashTo_eq ..

def committed (keccak : Bytes → Hash) (t : Trie) : Trie :=
  { t with root := (t.hashRoot keccak true).cached, cachegen := t.cachegen + 1 }

theorem commitToWriter_eq {g : Hash} (W : Writer ε) (hg : (t.hashRoot keccak true).hashed = .hash g) :
    t.commitToWriter keccak W =
      match W.run [] (Event.puts (t.hashRoot keccak true).events) with
      | (done, some e) => ⟨Go.fail e, t, done⟩
      | (done, none)   => ⟨.ok g, t.committed keccak, done⟩ := by
  rw [commitToWriter, hashRootTo_eq, hg, replay]
  rcases W.run [] (Event.puts (t.hashRoot keccak true).events) with ⟨done, _ | e⟩ <;> rfl

theorem Writer.run_working (done ps : List Put) : (working : Writer ε).run done ps = (done ++ ps, none) := by
  induction ps generalizing done
  case nil          => simp [run]
  case cons p ps ih =>
    change (working : Writer ε).run (done ++ [p]) ps = _
    rw [ih, List.append_assoc, List.singleton_append]

theorem commitToWriter_working {g : Hash} (hg : (t.hashRoot keccak true).hashed = .hash g) :
    t.commitToWriter keccak (Writer.working : Writer ε) =
      ⟨.ok g, t.committed keccak, Event.puts (t.hashRoot keccak true).events⟩ := by
  rw [commitToWriter_eq _ hg, Writer.run_working]
  rfl

-- Of the given puts the writer takes those of `done`, and fails for the next one.
def Writer.FailsAfter (W : Writer ε) (ps done : List Put) (e : ε) : Prop :=
  (∀ pre p, pre ++ [p] <+: done → W pre p = none) ∧ ∃ p, done ++ [p] <+: ps ∧ W done p = some e

theorem Writer.run_of_taken {pre done : List Put} (ps : List Put)
    (h : ∀ qs p, pre ++ qs ++ [p] <+: pre ++ done → W (pre ++ qs) p = none) :
    W.run pre (done ++ ps) = W.run (pre ++ done) ps := by
  induction done generalizing pre
  case nil => simp
  case cons p done ih =>
    have hp : W pre p = none := by simpa using h [] p
    simp only [List.cons_append, run, hp]
    rw [ih fun qs q hq => by simpa using h (p :: qs) q (by simpa using hq)]
    simp

theorem Writer.FailsAfter.run_eq {ps done : List Put} {e : ε} (h : W.FailsAfter ps done e) :
    W.run [] ps = (done, some e) := by
  obtain ⟨ht, p, ⟨qs, rfl⟩, he⟩ := h
  rw [List.append_assoc, run_of_taken _ (by simpa using ht)]
  simp [run, he]

def Database.written (db : Database) (ps : List Put) : Database :=
  Database.write db (ps.map fun p => .put p.fst p.snd)

theorem Keyed.of_puts {es : List Event} {ps : List Put} (hk : Keyed keccak S es)
    (hp : ps <+: Event.puts es) : Keyed keccak S (ps.map fun p => .put p.fst p.snd) := by
  intro h e he
  obtain ⟨p, hp', hpe⟩ := List.mem_map.mp he
  obtain ⟨rfl, rfl⟩ := Event.put.inj hpe
  obtain ⟨ev, hev, heq⟩ := List.mem_filterMap.mp (hp.subset hp')
  cases ev
  case sha     => contradiction
  case put h e =>
    cases heq
    exact hk h e hev

theorem Written.of_puts {es : List Event} (hw : Written D ((Event.puts es).map fun p => .put p.fst p.snd)) :
    Written D es := by
  intro h e he
  exact hw h e (List.mem_map.mpr ⟨(h, e), List.mem_filterMap.mpr ⟨_, he, rfl⟩, rfl⟩)

-- If a put fails, the commit returns its error and the trie is the one before, so that a later
-- commit to a writer that works does what it would have done in the first place. At any time the
-- nodes marked clean are in the database.
theorem commitToWriter_failed {T : Tree} {done : List Put} {e : ε} (ht : Wf [] T)
    (hr : Rep keccak D S true t.root T) (hi : Set.InjOn keccak S)
    (hl : Logged S (t.hashRoot keccak true).events)
    (hf : W.FailsAfter (t.commitToWriter keccak (Writer.working : Writer ε)).puts done e) :
    let c     := t.commitToWriter keccak W
    let later := c.trie.commitToWriter keccak (Writer.working : Writer ε)
    let D₁    := D.written c.puts
    let D₂    := D₁.written later.puts
    c = ⟨Go.fail e, t, done⟩ ∧ Rep keccak D₁ S true c.trie.root T ∧
    later = t.commitToWriter keccak Writer.working ∧ later.result = .ok (rootHash keccak T) ∧
    Rep keccak D₂ S true later.trie.root T ∧ (T.isNode = true → Whole keccak (Has keccak D₂ S) T) := by
  have hsp := hashRoot_spec ht hr hl
  have hwork := commitToWriter_working (ε := ε) hsp.hashed
  rw [hwork] at hf
  have hc : t.commitToWriter keccak W = ⟨Go.fail e, t, done⟩ := by
    rw [commitToWriter_eq W hsp.hashed, hf.run_eq]
  intro c later D₁ D₂
  have hpre : done <+: Event.puts (t.hashRoot keccak true).events := by
    obtain ⟨-, p, hp, -⟩ := hf
    exact (List.prefix_append _ _).trans hp
  have h₁ := (Database.write_spec D hi (hsp.keyed.of_puts hpre)).right
  obtain ⟨hw, h₂⟩ := Database.write_spec (D.written done) hi (hsp.keyed.of_puts List.prefix_rfl)
  have hr₁ : Rep keccak (D.written done) S true t.root T := Rep.mono subset_rfl h₁ hr
  have hlater : later = t.commitToWriter keccak Writer.working := by
    simp only [later, c, hc]
  have hsp₂ := hashRoot_spec ht (Rep.mono subset_rfl h₂ hr₁) hl
  have hD₁ : D₁ = D.written done := by simp only [D₁, c, hc]
  have hD₂ : D₂ = (D.written done).written (Event.puts (t.hashRoot keccak true).events) := by
    simp only [D₂, hD₁, hlater, hwork]
  rw [hD₂, hD₁, hlater, hwork]
  refine ⟨hc, ?_, rfl, rfl, hsp₂.cached hw.of_puts, hsp₂.stored rfl hw.of_puts⟩
  simpa only [c, hc] using hr₁

def sampleLeaf : Trie where
  root         := .short (compactHexDecode [0x01]) (.value [0x02]) ⟨none, 0, true⟩
  originalRoot := Hash.zero
  cachegen     := 0
  cachelimit   := 0

def sampleLeafTree : Tree :=
  .short (compactHexDecode [0x01]) (.value ⟨[0x02], by decide⟩)

theorem sampleLeafTree_wf : Wf [] sampleLeafTree :=
  Wf.nil.insert (k := compactHexDecode [0x01]) ⟨[0x01], by decide, rfl⟩ ⟨[0x02], by decide⟩

theorem commitToWriter_failed_sample :
    let c     := sampleLeaf.commitToWriter (fun _ => Hash.zero) fun _ _ => some ()
    let later := c.trie.commitToWriter (fun _ => Hash.zero) (Writer.working : Writer Unit)
    c = ⟨Go.fail (), sampleLeaf, []⟩ ∧ later.result = .ok Hash.zero ∧
      later.puts = [(Hash.zero, [0xc4, 0x82, 0x20, 0x01, 0x02])] := by
  have hev : (sampleLeaf.hashRoot (fun _ => Hash.zero) true).events =
      [.sha [0xc4, 0x82, 0x20, 0x01, 0x02], .put Hash.zero [0xc4, 0x82, 0x20, 0x01, 0x02]] := by
    decide +kernel
  have hputs : (sampleLeaf.commitToWriter (fun _ => Hash.zero) (Writer.working : Writer Unit)).puts =
      [(Hash.zero, [0xc4, 0x82, 0x20, 0x01, 0x02])] := by
    rfl
  have hrep : Rep (fun _ => Hash.zero) (fun _ => none) {[0xc4, 0x82, 0x20, 0x01, 0x02]} true
      sampleLeaf.root sampleLeafTree :=
    .short (.value ⟨[0x02], by decide⟩) (Cached.newFlag ⟨.nil, Hash.zero, 0, 0⟩)
  have hfail : Writer.FailsAfter (fun _ _ => some ()) (sampleLeaf.commitToWriter (fun _ => Hash.zero)
      (Writer.working : Writer Unit)).puts [] () :=
    ⟨by simp, _, by exact List.prefix_rfl, rfl⟩
  obtain ⟨hc, -, hl, hres, -⟩ := commitToWriter_failed sampleLeafTree_wf hrep (Set.injOn_singleton _ _)
    (by simp [Logged, hev]) hfail
  exact ⟨hc, hres, by rw [hl, hputs]⟩

end Trie
