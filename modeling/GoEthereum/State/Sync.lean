import GoEthereum.Rlp.Consume
import GoEthereum.Trie.SyncRun

-- The scheduler for the state: the account trie, the storage tries and the codes of its accounts.

namespace State

open Common Trie

namespace StateSync

-- The type of `obj`, which an account is decoded into.
def objType : Rlp.Ty :=
  .struct <|
    .cons "Nonce" .none (.uint .w64) <|
    .cons "Balance" .none .bigIntPtr <|
    .cons "Root" .none (.byteArray 32) <|
    .cons "CodeHash" .none .byteSlice .nil

-- The callback of `NewStateSync`.
def callback (leaf : Bytes) : Go Rlp.DecodeError (List Entry) := do
  let (_, _, root, codeHash, _) ← objType.decode leaf
  pure [.subTrie root 64, .raw (bytesToHash codeHash) 64]

theorem length_of_callback {leaf : Bytes} {entries : List Entry} (h : callback leaf = .ok entries) :
    32 ≤ leaf.length := by
  obtain ⟨v, h, _⟩ := Go.bind_eq_ok.mp h
  unfold Rlp.Ty.decode at h
  split at h
  case h_1 => cases h
  case h_2 =>
    split at h
    case h_1 => cases h
    case h_2 => cases h
    case h_3 v s hd =>
      have hd := Rlp.mapError_eq_ok.mp hd
      -- The list, the nonce and the balance only take from the input of the root.
      obtain ⟨_, s₁, hl, hd⟩ := Act.bind_eq_ok.mp hd
      obtain ⟨_, s₂, hf, _⟩ := Act.bind_eq_ok.mp hd
      obtain ⟨_, s₃, hn, hf⟩ := Act.bind_eq_ok.mp hf
      obtain ⟨_, s₄, hf, _⟩ := Act.bind_eq_ok.mp hf
      obtain ⟨_, s₅, hb, hf⟩ := Act.bind_eq_ok.mp hf
      obtain ⟨_, s₆, hf, _⟩ := Act.bind_eq_ok.mp hf
      obtain ⟨_, s₇, hr, _⟩ := Act.bind_eq_ok.mp hf
      have h₁ := Rlp.consumes_list.mapError.of_eq hl
      have h₂ := ((Rlp.consumes_decodeUint .w64).field _ _).of_eq hn
      have h₃ := (((Rlp.consumes_decodeBigInt .bigIntPtr).bind fun i => .pure (some i)).field _ _).of_eq hb
      have h₄ := Rlp.length_of_decodeByteArray (by decide) (Rlp.decodeField_eq_ok hr)
      exact h₄.trans (h₃.trans (h₂.trans h₁))

theorem entriesOf_short {leaf : Bytes} (h : leaf.length < 32) : entriesOf callback leaf = [] := by
  unfold entriesOf
  split
  case h_1 entries hc =>
    have := length_of_callback hc
    omega
  case h_2 => rfl

section

-- What a node refers to, also through the nodes that are embedded in it. A node of the account trie is
-- watched and a node of a storage trie is plain.
def nodeRefs (role : Role) (n : Node Key) : List (Role × Hash) :=
  n.hashes.map (role, ·) ++
    if role = .watched then
      n.leaves.flatMap fun leaf => (entriesOf callback leaf).map fun e => (e.role, e.hash)
    else []

-- What a state consists of: the nodes of the account trie, and of every account the nodes of the
-- storage trie and the code.
inductive Needed (contents : Hash → Option Bytes) (root : Hash) : Role → Hash → Prop
  | root (h : root ≠ emptyRoot) : Needed contents root .watched root
  | ref {role role' : Role} {h h' : Hash} {b : Bytes} {n : Node Key} (hw : Needed contents root role h)
      (hr : role ≠ .raw) (hb : contents h = some b) (hn : decodeNode (some h) b 0 = .ok n)
      (hm : (role', h') ∈ nodeRefs role n) : Needed contents root role' h'

variable {role role' : Role} {h : Hash} {n : Node Key}

theorem mem_nodeRefs : (role', h) ∈ nodeRefs role n ↔ role' = role ∧ h ∈ n.hashes ∨
    role = .watched ∧ ∃ leaf ∈ n.leaves, ∃ e ∈ entriesOf callback leaf, (e.role, e.hash) = (role', h) := by
  unfold nodeRefs
  rw [List.mem_append]
  refine or_congr ?_ ?_
  case refine_1 => aesop
  case refine_2 =>
    split
    case isTrue hr  => simp [hr, List.mem_flatMap]
    case isFalse hr => simp [hr]

theorem nodeRefs_small (hn : n.Small) : nodeRefs role n = [] := by
  rw [List.eq_nil_iff_forall_not_mem]
  rintro ⟨role', h⟩ hm
  cases mem_nodeRefs.mp hm
  case inl hm =>
    rw [hn.hashes] at hm
    cases hm.right
  case inr hm =>
    obtain ⟨_, leaf, hl, e, he, _⟩ := hm
    rw [entriesOf_short (hn.leaves leaf hl)] at he
    cases he

theorem nodeRefs_child (hn : (∃ v, n = .value v) ∨ n.Ref) : nodeRefs role n = childRefs callback role n := by
  rcases hn with ⟨v, rfl⟩ | rfl | ⟨h, rfl⟩ | ⟨hi, hs⟩
  case inl =>
    simp [nodeRefs, Node.hashes, Node.leaves, childRefs]
  case inr.inl => simp [nodeRefs, Node.hashes, Node.leaves, childRefs]
  case inr.inr.inl => simp [nodeRefs, Node.hashes, Node.leaves, childRefs]
  case inr.inr.inr =>
    rw [nodeRefs_small hs]
    cases n <;> first | rfl | cases hi

theorem mem_nodeRefs_full {cs : Nibble → Node Key} {flags : NodeFlag} :
    (role', h) ∈ nodeRefs role (.full cs flags) ↔ ∃ i, (role', h) ∈ nodeRefs role (cs i) := by
  simp only [mem_nodeRefs, Node.hashes, Node.leaves, List.mem_flatMap, List.mem_finRange, true_and]
  constructor
  case mp =>
    rintro (⟨hr, i, hm⟩ | ⟨hr, leaf, ⟨i, hl⟩, he⟩)
    case inl => exact ⟨i, .inl ⟨hr, hm⟩⟩
    case inr => exact ⟨i, .inr ⟨hr, leaf, hl, he⟩⟩
  case mpr =>
    rintro ⟨i, ⟨hr, hm⟩ | ⟨hr, leaf, hl, he⟩⟩
    case inl => exact .inl ⟨hr, i, hm⟩
    case inr => exact .inr ⟨hr, leaf, ⟨i, hl⟩, he⟩

theorem mem_nodeRefs_iff (hn : WellFormed n) :
    (role', h) ∈ nodeRefs role n ↔ (role', h) ∈ refs callback role n := by
  rw [mem_refs]
  cases hn
  case short key m flags hm =>
    simp only [TrieSync.childNodes, Option.getD_some, List.mem_singleton, exists_eq_left]
    rw [← nodeRefs_child hm]
    rfl
  case full cs flags hi ht =>
    have hc : ∀ i, (∃ v, cs i = .value v) ∨ (cs i).Ref := by
      intro i
      by_cases hit : i = terminator
      case neg => exact .inr (hi i hit)
      case pos =>
        rw [hit]
        exact ht.elim (fun h => .inr (.inl h)) .inl
    simp only [mem_nodeRefs_full, nodeRefs_child (hc _), TrieSync.childNodes, Option.getD_some,
      List.mem_map, List.mem_filter, List.mem_finRange, true_and]
    constructor
    case mp =>
      rintro ⟨i, hm⟩
      refine ⟨_, ⟨i, ?_, rfl⟩, hm⟩
      cases hcs : cs i
      case nil => rw [hcs] at hm; cases hm
      all_goals rfl
    case mpr =>
      rintro ⟨_, ⟨i, _, rfl⟩, hm⟩
      exact ⟨i, hm⟩

theorem wanted_iff_needed {contents : Hash → Option Bytes} {root : Hash} :
    Wanted callback contents root role h ↔ Needed contents root role h := by
  constructor
  case mp =>
    intro hw
    induction hw
    case root h => exact .root h
    case ref hr hb hn hm ih =>
      exact .ref ih hr hb hn ((mem_nodeRefs_iff (decodeNode_wellFormed hn)).mpr hm)
  case mpr =>
    intro hw
    induction hw
    case root h => exact .root h
    case ref hr hb hn hm ih =>
      exact .ref ih hr hb hn ((mem_nodeRefs_iff (decodeNode_wellFormed hn)).mp hm)

end

section

variable (contents : Hash → Option Bytes) (root : Hash)

def Authentic (db : Trie.Database) : Prop :=
  ∀ ⦃role h b⦄, Needed contents root role h → db h.bytes = some b → contents h = some b

-- Every stored node of the state has all that it refers to stored.
def Closed (db : Trie.Database) : Prop :=
  ∀ ⦃role h b n⦄, Needed contents root role h → role ≠ .raw → db h.bytes = some b →
    decodeNode (some h) b 0 = .ok n → ∀ ⦃role' h'⦄, (role', h') ∈ nodeRefs role n → db.Present role' h'

-- Every stored node of the state has the nodes that it refers to by their hashes stored.
def NodesClosed (db : Trie.Database) : Prop :=
  ∀ ⦃role h b n⦄, Needed contents root role h → role ≠ .raw → db h.bytes = some b →
    decodeNode (some h) b 0 = .ok n → ∀ ⦃h'⦄, h' ∈ n.hashes → db.Present .plain h'

def CodeApart : Prop :=
  ∀ ⦃role h⦄, Needed contents root role h → role ≠ .raw → ¬ Needed contents root .raw h

-- No hash is referenced as a node of the account trie and as a node of a storage trie.
def StorageApart : Prop :=
  ∀ ⦃h⦄, Needed contents root .watched h → ¬ Needed contents root .plain h

-- No hash is the zero hash, which stands for a parent that is not there.
def Nonzero : Prop :=
  ∀ ⦃role⦄, ¬ Needed contents root role Hash.zero

variable {contents root} {db : Trie.Database} {s : TrieSync} {log : List Request}

theorem separate {full : Bool} (hc : CodeApart contents root) (hz : Nonzero contents root)
    (hs : full = true → StorageApart contents root) : Separate callback contents root full where
  raw hw hr hw'    := hc (wanted_iff_needed.mp hw) hr (wanted_iff_needed.mp hw')
  nodes hf _ hw hw' := hs hf (wanted_iff_needed.mp hw) (wanted_iff_needed.mp hw')
  nonzero hw       := hz (wanted_iff_needed.mp hw)

theorem Closed.database (ha : Authentic contents root db) (hc : Closed contents root db) :
    db.Closed callback contents root true where
  agree hw hb := ha (wanted_iff_needed.mp hw) hb
  closed hw hr hb hn _ _ hm :=
    hc (wanted_iff_needed.mp hw) hr hb hn ((mem_nodeRefs_iff (decodeNode_wellFormed hn)).mpr hm)

theorem NodesClosed.database (ha : Authentic contents root db) (hc : NodesClosed contents root db) :
    db.Closed callback contents root false where
  agree hw hb := ha (wanted_iff_needed.mp hw) hb
  closed hw hr hb hn _ _ hm := by
    have hm := (mem_nodeRefs_iff (decodeNode_wellFormed hn)).mpr hm
    cases mem_nodeRefs.mp hm
    case inl h => exact h.left ▸ hc (wanted_iff_needed.mp hw) hr hb hn h.right
    case inr h => cases h.left

end

def hashOf (n : Nat) : Hash :=
  bytesToHash (bigEndian 32 n)

-- The encoding of a leaf of the account trie with a key that ends at it.
def accountLeaf (root codeHash : Hash) : Bytes :=
  Rlp.encode (.list [.str [0x20], .str (Rlp.encode (.list [.str [], .str [], .str root.bytes, .str codeHash.bytes]))])

-- The encoding of an extension node, and of a branch with two children.
def extension (child : Hash) : Bytes :=
  Rlp.encode (.list [.str [0x00, 0x12], .str child.bytes])

def branch (child child' : Hash) : Bytes :=
  Rlp.encode (.list (.str child.bytes :: .str child'.bytes :: List.replicate 15 (.str [])))

def contentsOf (items : List SyncResult) (h : Hash) : Option Bytes :=
  (items.find? (·.hash = h)).map SyncResult.data

def refsOf (contents : Hash → Option Bytes) (x : Role × Hash) : List (Role × Hash) :=
  match contents x.snd with
  | none   => []
  | some b =>
    match decodeNode (some x.snd) b 0 with
    | .ok n    => nodeRefs x.fst n
    | .error _ => []

variable {contents : Hash → Option Bytes} {root : Hash}

theorem mem_of_needed {l : List (Role × Hash)}
    (hl : (.watched, root) ∈ l) (hs : ∀ x ∈ l, x.fst ≠ .raw → ∀ y ∈ refsOf contents x, y ∈ l) {role : Role}
    {h : Hash} (hn : Needed contents root role h) : (role, h) ∈ l := by
  induction hn
  case root => exact hl
  case ref hr hb hn hm ih =>
    refine hs _ ih hr _ ?_
    simpa only [refsOf, hb, hn] using hm

theorem needed_of_mem {x y : Role × Hash}
    (hx : Needed contents root x.fst x.snd) (hr : x.fst ≠ .raw) (hy : y ∈ refsOf contents x) :
    Needed contents root y.fst y.snd := by
  unfold refsOf at hy
  split at hy
  case h_1 => cases hy
  case h_2 b hb =>
    split at hy
    case h_1 n hn => exact .ref hx hr hb hn hy
    case h_2 => cases hy

-- An account leaf `confusedLeaf` that is also the root of the storage trie of another account.
def confusedLeaf : Hash :=
  hashOf 0x42adbf588f38a47489b9981a62295c3335b7a3f552f7188be97262250c9cd39a

def confusedStorage : Hash :=
  hashOf 0x2222222222222222222222222222222222222222222222222222222222222222

def confusedExtension : Hash :=
  hashOf 0xbcf15c1a681d08499e67b7c66ac23b5495055c83b949baafd1231f7dac869e06

def confusedAccount : Hash :=
  hashOf 0x1b46661d1cf5505bf01f34d50fd5ba3209346bda3857f0379cf322727dc6ae60

def confusedRoot : Hash :=
  hashOf 0xbf54e10a6a0b5484d711e9205fd2233ce4f0981ac5d13e0535ee9894b8e55ccd

def confusedItems : List SyncResult := [
  ⟨confusedRoot,      branch confusedAccount confusedExtension⟩,
  ⟨confusedAccount,   accountLeaf confusedLeaf emptyState⟩,
  ⟨confusedExtension, extension confusedLeaf⟩,
  ⟨confusedLeaf,      accountLeaf confusedStorage emptyState⟩]

-- The state in which all items have been delivered to an empty database, and what was committed.
def delivered (root : Hash) (items : List SyncResult) :
    (List Request × Option (Nat × Fault (ProcessError Rlp.DecodeError))) × TrieSync :=
  TrieSync.process callback 0 items (TrieSync.new root (fun _ => none) : Go Rlp.DecodeError _ × _).snd

theorem run_delivered {items : List SyncResult}
    (hn : (TrieSync.new root (fun _ => none) : Go Rlp.DecodeError _ × _).fst.toBool = true)
    (hc : ∀ item ∈ items, contentsOf items item.hash = some item.data)
    (he : (delivered root items).fst.snd.isNone) :
    Run callback (contentsOf items) root (fun _ => none) (delivered root items).snd
      (delivered root items).fst.fst := by
  have hn' : (TrieSync.new root (fun _ => none) : Go Rlp.DecodeError _ × _) =
      (.ok (), (TrieSync.new root (fun _ => none) : Go Rlp.DecodeError _ × _).snd) := by
    cases h : (TrieSync.new root (fun _ => none) : Go Rlp.DecodeError _ × _)
    case mk r t =>
    cases r
    case error e => rw [h] at hn; cases hn
    case ok u    => rfl
  refine Run.process (.new hn') hc rfl fun i h => ?_
  change (delivered root items).fst.snd = _ at h
  rw [h] at he
  cases he

-- A node `sharedNode` that is the code of one account and the root of the storage trie of another.
def sharedChild : Hash :=
  hashOf 0x3333333333333333333333333333333333333333333333333333333333333333

def sharedNode : Hash :=
  hashOf 0x4d467058820b3da7c3c2c33c0b9a22da1f1fcdf4c5740884baeb7122bfe79325

def sharedCode : Hash :=
  hashOf 0x6817774e13c44fa0abb1ee56a4a7dfec2b62f0ac722b90892b0fa3e4e5a06f00

def sharedStorage : Hash :=
  hashOf 0xd4fd69994061b292295e1649fd8fe0222d3d8f8d1c5996ca342788813fccd339

def sharedRoot : Hash :=
  hashOf 0xa8f7d39c85d1e39e4888aa875ac212bdb12cceaa804a45cbd94b880bf5e95f10

def sharedItems : List SyncResult := [
  ⟨sharedRoot,    branch sharedCode sharedStorage⟩,
  ⟨sharedCode,    accountLeaf emptyRoot sharedNode⟩,
  ⟨sharedStorage, accountLeaf sharedNode emptyState⟩,
  ⟨sharedNode,    extension sharedChild⟩]

def loneRoot : Hash :=
  hashOf 0x5911f24d96912350de50f297c2d34d5d10e136757bf4cfff5fa41bfca219554a

def loneItems : List SyncResult := [⟨loneRoot, accountLeaf emptyRoot emptyState⟩]

theorem needed_lone {role : Role} {h : Hash} (hn : Needed (contentsOf loneItems) loneRoot role h) :
    role = .watched ∧ h = loneRoot := by
  have hm := mem_of_needed (l := [(.watched, loneRoot)]) (by simp) (by decide +kernel) hn
  simpa using hm

end StateSync

end State
