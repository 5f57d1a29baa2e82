import GoEthereum.Trie.Simulation

-- Merkle proofs.

namespace Trie

open Common Merkle

-- `hashChildren` replaces the children of a node with their hashes if the encoded size of the child
-- is larger than a hash.
def Hasher.hashChildren (keccak : Bytes → Hash) (h : Hasher) (db : Bool) :
    Node Key → Node Bytes × Node Key × List Event
  | .short key val flags => hashShortChildren key val flags (h.hash keccak db val false)
  | .full cs flags       => hashFullChildren cs flags fun i => h.hash keccak db (cs i) false
  | n                    => (n.map (·.map Nibble.byte), n, [])

section

variable (t : Trie) (db : Database)

-- The loop of `Prove` that collects all nodes on the path to key.
def pathNodes : Nat → Node Key → Key → Go MissingNodeError (List (Node Key))
  | 0, _, _ => Go.panics
  | _ + 1, _, [] => pure []
  | fuel + 1, tn, key@(a :: as) =>
    match tn with
    | .nil => pure []
    | .short k val flags =>
      if key.length < k.length ∨ k ≠ key.take k.length then
        pure [.short k val flags] -- The trie doesn't contain the key.
      else do
        let nodes ← pathNodes fuel val (key.drop k.length)
        pure (.short k val flags :: nodes)
    | .full cs flags => do
      let nodes ← pathNodes fuel (cs a) as
      pure (.full cs flags :: nodes)
    | .hash h => do
      let n ← t.resolveHash db h [] []
      pathNodes fuel n key
    | .value _ => Go.panics

-- The proof element of a node, if it has one: the node's database encoding is a hash, or it is the
-- root node.
def proofElement (keccak : Bytes → Hash) (root : Bool) (n : Node Key) : Option Bytes :=
  let (collapsed, _, _) := Hasher.hashChildren keccak ⟨0, 0⟩ false n
  let (hn, _) := Hasher.store keccak false collapsed false
  if hn.isHash || root then some (Rlp.encode collapsed.item) else none

-- Constructs a merkle proof for key. The error of a missing node is logged, and the proof is nil.
def prove (keccak : Bytes → Hash) (key : Bytes) : Go MissingNodeError (List Bytes) :=
  let key := compactHexDecode key
  match t.pathNodes db (levels key) t.root key with
  | .error .panic     => Go.panics
  | .error (.error _) => pure []
  | .ok []            => pure []
  | .ok (n :: nodes)  =>
    pure ((proofElement keccak true n).toList ++ nodes.filterMap (proofElement keccak false))

end

inductive ProofError
  | hashMismatch (i : Nat)
  | badNode (i : Nat) (e : DecodeError)
  | keyMismatch (i : Nat)
  | additionalNodes
  | unexpectedEnd
  deriving DecidableEq

-- Walks down from a decoded node. The type assertion at the end of the key is a panic.
def get {ε : Type} : Node Key → Key → Go ε (Key × Node Key)
  | .value v, [] => pure ([], .value v)
  | _, [] => Go.panics
  | .short k val _, key@(_ :: _) =>
    if key.length < k.length ∨ k ≠ key.take k.length then
      pure ([], .nil)
    else
      get val (key.drop k.length)
  | .full cs _, a :: as => get (cs a) as
  | .hash h, key => pure (key, .hash h)
  | .nil, key => pure (key, .nil)
  | .value _, _ :: _ => Go.panics

-- The iterations of `VerifyProof` from the `i`-th on.
def verifyFrom (keccak : Bytes → Hash) : Nat → Hash → Key → List Bytes → Go ProofError (Option Bytes)
  | _, _,        _,   []           => Go.fail .unexpectedEnd
  | i, wantHash, key, buf :: proof =>
    if keccak buf ≠ wantHash then
      Go.fail (.hashMismatch i)
    else
      match decodeNode (some wantHash) buf 0 with
      | .error .panic     => Go.panics
      | .error (.error e) => Go.fail (.badNode i e)
      | .ok n             => do
        match ← get n key with
        | (_, .nil)         => if proof ≠ [] then Go.fail (.keyMismatch i) else pure none
        | (keyrest, .hash h) => verifyFrom keccak (i + 1) h keyrest proof
        | (_, .value v)     => if proof ≠ [] then Go.fail .additionalNodes else pure (some v)
        -- The switch has no other case, and goes on with the next node.
        | _                 => verifyFrom keccak (i + 1) wantHash key proof

-- Checks a merkle proof. The given proof must contain the value for key in a trie with the given
-- root hash.
def verifyProof (keccak : Bytes → Hash) (rootHash : Hash) (key : Bytes) (proof : List Bytes) :
    Go ProofError (Option Bytes) :=
  verifyFrom keccak 0 rootHash (compactHexDecode key) proof

variable {keccak : Bytes → Hash} {D : Database} {S : Set Bytes} {p k : Key} {t : Tree} {r : Bool}
variable {n : Node Key}

def path : Tree → Key → List Tree
  | _,          []      => []
  | .nil,       _ :: _  => []
  | .value _,   _ :: _  => []
  | .short k t, a :: as => .short k t :: if k <+: a :: as then path t ((a :: as).drop k.length) else []
  | .full cs,   a :: as => .full cs :: path (cs a) as

@[simp]
theorem path_nil (t : Tree) : path t [] = [] := by
  cases t <;> rfl

theorem path_short_append {l : Key} (hk : k ≠ []) :
    path (.short k t) (k ++ l) = .short k t :: path t l := by
  cases k
  case nil       => exact absurd rfl hk
  case cons a as => simp [path]

theorem path_short_of_not_isPrefix (hk : k ≠ []) {k₀ : Key} (hp : ¬k₀ <+: k) :
    path (.short k₀ t) k = [.short k₀ t] := by
  cases k
  case nil       => exact absurd rfl hk
  case cons a as => simp [path, hp]

theorem path_eq_cons (hn : t.isNode = true) (hk : k ≠ []) : path t k = t :: (path t k).tail := by
  cases k
  case nil       => exact absurd rfl hk
  case cons a as => cases t <;> first | rfl | simp [Patricia.Tree.isNode] at hn

theorem ne_nil_of_isNode (ht : Wf p t) (hn : t.isNode = true) (hk : p ++ k ∈ hexKeys) : k ≠ [] := by
  rintro rfl
  simp [ht.isNode_of_mem (by simpa using hk)] at hn

def elements (keccak : Bytes → Hash) (ts : List Tree) : List Bytes :=
  (ts.filter fun t => 32 ≤ (enc keccak t).length).map (enc keccak)

structure OnPath (keccak : Bytes → Hash) (D : Database) (S : Set Bytes) (n : Node Key) (t : Tree) :
    Prop where
  wf     : ∃ p, Wf p t
  rep    : ∃ r, Rep keccak D S r n t
  isHash : n.isHash = false
  isNode : t.isNode = true

variable (tr : Trie)

theorem pathNodes_spec {fuel : Nat} (ht : Wf p t) (hr : Rep keccak D S r n t)
    (hk : p ++ k ∈ hexKeys) (hf : need n k ≤ fuel) :
    ∃ ns, tr.pathNodes D fuel n k = .ok ns ∧ List.Forall₂ (OnPath keccak D S) ns (path t k) := by
  induction fuel generalizing p t r n k
  case zero => exact absurd hf need_ne_zero
  case succ fuel hi =>
    cases k
    case nil => exact ⟨[], by rfl, by simp⟩
    case cons a as =>
      cases hr
      case nil => exact ⟨[], by rfl, .nil⟩
      case value v => simpa using eq_nil_of_mem ht.value hk
      case short k₀ c flags t hr hc =>
        have hon : OnPath keccak D S (.short k₀ c flags) (.short k₀ t) :=
          ⟨⟨p, ht⟩, ⟨r, .short hr hc⟩, rfl, rfl⟩
        by_cases hp : k₀ <+: a :: as
        case neg =>
          have hcond : (a :: as).length < k₀.length ∨ k₀ ≠ (a :: as).take k₀.length := by
            by_contra hcon
            push Not at hcon
            exact hp <| List.prefix_iff_eq_take.mpr hcon.right
          refine ⟨[.short k₀ c flags], ?_, ?_⟩
          · simp only [pathNodes]
            rw [if_pos hcond]
            rfl
          · rw [path_short_of_not_isPrefix (by simp) hp]
            exact .cons hon .nil
        case pos =>
          obtain ⟨l, hl⟩ := hp
          have hlen := List.length_pos_iff.mpr ht.reduced.left
          have hlen' := congrArg List.length hl
          simp only [List.length_append, List.length_cons] at hlen'
          obtain ⟨ns, hns, hall⟩ := hi (k := l) ht.of_short hr (by rwa [List.append_assoc, hl])
            (need_child hf (by simp; omega))
          have hcond : ¬((a :: as).length < k₀.length ∨ k₀ ≠ (a :: as).take k₀.length) := by
            rw [← hl]
            simp
          refine ⟨.short k₀ c flags :: ns, ?_, ?_⟩
          · simp only [pathNodes]
            rw [if_neg hcond, show (a :: as).drop k₀.length = l by rw [← hl]; simp, hns]
            rfl
          · rw [← hl, path_short_append ht.reduced.left]
            exact .cons hon hall
      case full cs flags ts hrs hc =>
        obtain ⟨ns, hns, hall⟩ := hi (k := as) (ht.of_full a) (hrs a) (by simpa using hk)
          (need_child hf (by simp))
        refine ⟨.full cs flags :: ns, by simp only [pathNodes, hns]; rfl, .cons ?_ hall⟩
        exact ⟨⟨p, ht⟩, ⟨r, .full hrs hc⟩, rfl, rfl⟩
      case hash h hn hw hh =>
        obtain ⟨c, hres, hr, hnh⟩ := resolveHash_spec tr ht (.hash hn hh hw) [] []
        obtain ⟨ns, hns, hall⟩ := hi ht hr hk (need_resolved hf hnh)
        exact ⟨ns, by simp only [pathNodes, hres, hns, bind, Except.bind], hall⟩

theorem proofElement_spec (root : Bool) (h : OnPath keccak D S n t) :
    proofElement keccak root n =
      if root = true ∨ 32 ≤ (enc keccak t).length then some (enc keccak t) else none := by
  obtain ⟨⟨p, ht⟩, ⟨r, hr⟩, hnh, hn⟩ := h
  -- What is hashed here does not matter.
  replace hr : Rep keccak D Set.univ r n t := hr.mono (by simp) fun _ h => ⟨trivial, h.right⟩
  have hitem : ∃ m : Node Bytes, (Hasher.hashChildren keccak ⟨0, 0⟩ false n).fst = m ∧
      m.item = item keccak t ∧ m.isNil = false ∧ m.isHash = false := by
    refine ⟨_, rfl, ?_⟩
    cases hr
    case nil   => simp [Patricia.Tree.isNode] at hn
    case value => simp [Patricia.Tree.isNode] at hn
    case hash  => simp [Node.isHash] at hnh
    case short k c flags t hr hc =>
      refine ⟨hashShortChildren_item ht hr flags _ fun hn => ?_, ?_⟩
      · exact (hash_spec ht.of_short hn hr (by simp [Logged])).item rfl
      · cases c <;> exact ⟨rfl, rfl⟩
    case full cs flags ts hrs hc =>
      refine ⟨hashFullChildren_item ht hrs flags fun i hn => ?_, rfl, rfl⟩
      exact ((hash_spec (ht.of_full i) hn (hrs i) (by simp [Logged])).item rfl).left
  obtain ⟨m, hm, hi, hnil, hmh⟩ := hitem
  have he : Rlp.encode m.item = enc keccak t := by rw [hi, enc]
  have hstore : (Hasher.store keccak false m false).fst.isHash =
      decide (32 ≤ (enc keccak t).length) := by
    cases hg : m.cache.fst
    case none =>
      rw [store_none hnil hmh hg]
      split_ifs with hl <;> simp_all [Node.isHash]
    case some g =>
      rw [store_some hnil hmh hg]
      split_ifs with hl <;> simp_all [Node.isHash]
  simp only [proofElement, hm, hstore, he, Bool.or_eq_true, decide_eq_true_eq, or_comm]

theorem filterMap_proofElement {ns : List (Node Key)} {ts : List Tree}
    (h : List.Forall₂ (OnPath keccak D S) ns ts) :
    ns.filterMap (proofElement keccak false) = elements keccak ts := by
  induction h
  case nil => rfl
  case cons n t ns ts hon _ hi =>
    rw [List.filterMap_cons, proofElement_spec false hon, hi]
    by_cases hl : 32 ≤ (enc keccak t).length <;> simp [elements, hl]

theorem prove_spec {k : ByteKey} (ht : Wf [] t) (hn : t.isNode = true)
    (hr : Rep keccak D S true tr.root t) :
    tr.prove D keccak k.val =
      .ok (enc keccak t :: elements keccak (path t (compactHexDecode k.val)).tail) := by
  obtain ⟨ns, hns, hall⟩ := pathNodes_spec tr (k := compactHexDecode k.val) ht hr (mem_hexKeys k)
    (need_le_levels tr.root _)
  rw [path_eq_cons (k := compactHexDecode k.val) hn (by simp [compactHexDecode])] at hall
  cases hall
  case cons n ns hon hall =>
    simp only [prove, hns, proofElement_spec true hon, filterMap_proofElement hall]
    rfl

end Trie
