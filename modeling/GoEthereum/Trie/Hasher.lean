import GoEthereum.Trie.Node

namespace Trie

open Common

namespace Node

def map {κ κ' : Type} (f : κ → κ') : Node κ → Node κ'
  | nil               => nil
  | full cs flags     => full (fun i => (cs i).map f) flags
  | short key n flags => short (f key) (n.map f) flags
  | hash h            => hash h
  | value v           => value v

def orEmpty {κ : Type} : Node κ → Node κ
  | nil => value []
  | n   => n

end Node

structure Hasher where
  cachegen   : UInt16
  cachelimit : UInt16

-- What a call of the hasher does: it hashes byte strings and writes to the database.
inductive Event
  | sha (enc : Bytes)
  | put (hash : Hash) (enc : Bytes)
  deriving DecidableEq

structure Hashed where
  hashed : Node Bytes
  cached : Node Key
  events : List Event

namespace Hasher

-- The hash function, the hasher, and whether it is given a database to write to.
variable (keccak : Bytes → Hash) (h : Hasher) (db : Bool)

def store (n : Node Bytes) (force : Bool) : Node Bytes × List Event :=
  match n with
  -- Don't store hashes or empty nodes.
  | .nil    => (.nil, [])
  | .hash h => (.hash h, [])
  | n       =>
    let enc := Rlp.encode n.item
    if enc.length < 32 ∧ force = false then
      (n, []) -- Nodes smaller than 32 bytes are stored inside their parent
    else
      -- Larger nodes are replaced by their hash and stored in the database.
      let (hash, sha) := match n.cache.fst with
        | some hash => (hash, [])
        | none      => (keccak enc, [Event.sha enc])
      (.hash hash, sha ++ if db then [Event.put hash enc] else [])

-- The two cases of `hashChildren` that have children: the collapsed node and its replacement.

def hashShortChildren (key : Key) (val : Node Key) (flags : NodeFlag) (r : Hashed) :
    Node Bytes × Node Key × List Event :=
  match val with
  | .value v => (.short (compactEncode key) (.value v) flags, .short key (.value v) flags, [])
  | _        => (.short (compactEncode key) r.hashed.orEmpty flags, .short key r.cached flags, r.events)

def hashFullChildren (cs : Nibble → Node Key) (flags : NodeFlag) (rs : Nibble → Hashed) :
    Node Bytes × Node Key × List Event :=
  let walked (i : Nibble) : Bool := i ≠ terminator ∧ (cs i).isNil = false
  -- The last child is not walked, and its key, if it had one, not compacted.
  let collapsed (i : Nibble) := if walked i then (rs i).hashed else ((cs i).map (·.map Nibble.byte)).orEmpty
  let cached (i : Nibble) := if walked i then (rs i).cached else cs i
  (.full collapsed flags, .full cached flags,
    (List.finRange 17).flatMap fun i => if walked i then (rs i).events else [])

-- Caches the hash of the node for later reuse and removes the dirty flag in commit mode.
def setHash (hash : Option Hash) : Node Key → Node Key
  | .short key val flags => .short key val { flags with hash := hash, dirty := !db && flags.dirty }
  | .full cs flags       => .full cs { flags with hash := hash, dirty := !db && flags.dirty }
  | n                    => n

-- If we're not storing the node, just hashing, use available cached data.
def useCache (n : Node Key) : Option Hashed :=
  match n.cache with
  | (none, _) => none
  | (some hash, dirty) =>
    if db = false then
      some ⟨.hash hash, n, []⟩
    else if n.canUnload h.cachegen h.cachelimit then
      -- Unload the node from cache.
      some ⟨.hash hash, .hash hash, []⟩
    else if dirty = false then
      some ⟨.hash hash, n, []⟩
    else
      none

-- The part of `hash` after `hashChildren`.
def storeCollapsed (force : Bool) (c : Node Bytes × Node Key × List Event) : Hashed :=
  let (collapsed, cached, events) := c
  let (hashed, stored) := store keccak db collapsed force
  let cachedHash := match hashed with
    | .hash h => some h
    | _       => none
  ⟨hashed, setHash db cachedHash cached, events ++ stored⟩

-- Collapses a node down into a hash node, also returning a copy to replace the original one. The
-- code never calls it on a nil node.
def hash : Node Key → Bool → Hashed
  | .nil, force => storeCollapsed keccak db force (.nil, .nil, [])
  | .hash n, force => storeCollapsed keccak db force (.hash n, .hash n, [])
  | .value v, force => storeCollapsed keccak db force (.value v, .value v, [])
  | .short key val flags, force =>
    (useCache h db (.short key val flags)).getD <|
      storeCollapsed keccak db force (hashShortChildren key val flags (hash val false))
  | .full cs flags, force =>
    (useCache h db (.full cs flags)).getD <|
      storeCollapsed keccak db force (hashFullChildren cs flags fun i => hash (cs i) false)

end Hasher

end Trie
