import GoEthereum.Rlp.Raw
import GoEthereum.Trie.Encoding

namespace Trie

open Common

-- Caching-related metadata about a node.
structure NodeFlag where
  hash  : Option Hash
  gen   : UInt16
  dirty : Bool
  deriving DecidableEq

def NodeFlag.canUnload (n : NodeFlag) (cachegen cachelimit : UInt16) : Bool :=
  !n.dirty && cachegen - n.gen ≥ cachelimit

-- `fullNode`, `shortNode`, `hashNode` and `valueNode`, and the nil interface. A short node's key
-- is hex encoded in the trie and compact encoded in the nodes that the hasher collapses.
inductive Node (κ : Type)
  | nil
  | full  (children : Nibble → Node κ) (flags : NodeFlag)
  | short (key : κ) (val : Node κ) (flags : NodeFlag)
  | hash  (h : Hash)
  | value (v : Bytes)

namespace Node

variable {κ : Type}

def isNil : Node κ → Bool
  | nil => true
  | _   => false

def isHash : Node κ → Bool
  | hash _ => true
  | _      => false

def cache : Node κ → Option Hash × Bool
  | full _ flags    => (flags.hash, flags.dirty)
  | short _ _ flags => (flags.hash, flags.dirty)
  | _               => (none, true)

def canUnload : Node κ → UInt16 → UInt16 → Bool
  | full _ flags,    gen, limit => flags.canUnload gen limit
  | short _ _ flags, gen, limit => flags.canUnload gen limit
  | _,               _,   _     => false

-- What the encoder writes for a collapsed node. A nil interface is written as an empty list.
def item : Node Bytes → Rlp.Item
  | nil           => .list []
  | value v       => .str v
  | hash h        => .str h.bytes
  | short key n _ => .list [.str key, n.item]
  | full cs _     => .list ((List.finRange 17).map fun i => (cs i).item)

end Node

inductive DecodeError.What
  | unexpectedEOF
  | decode (e : Rlp.Error)
  | elements (c : Nat)
  | rlp (e : Rlp.Error)
  | valueNode (e : Rlp.Error)
  | oversized (size : Nat)
  | stringSize (size : Nat)
  deriving DecidableEq, Repr

-- The errors of `decodeNode`. One that `wrapError` has not seen yet has an empty stack.
structure DecodeError where
  what  : DecodeError.What
  stack : List String
  deriving DecidableEq, Repr

def wrapError {α : Type} (x : Go DecodeError α) (ctx : String) : Go DecodeError α :=
  match x with
  | .error (.error e) => Go.fail { e with stack := e.stack ++ [ctx] }
  | x                 => x

-- An error of the `rlp` package, as the decoder passes it on.
def liftRlp {α : Type} (what : Rlp.Error → DecodeError.What) : Go Rlp.Error α → Go DecodeError α
  | .ok a             => .ok a
  | .error (.error e) => Go.fail ⟨what e, []⟩
  | .error .panic     => Go.panics

@[simp]
theorem wrapError_ok {α : Type} (a : α) (ctx : String) : wrapError (.ok a) ctx = .ok a :=
  rfl

@[simp]
theorem liftRlp_ok {α : Type} (what : Rlp.Error → DecodeError.What) (a : α) :
    liftRlp what (.ok a) = .ok a :=
  rfl

section

-- `decodeNode` on an embedded node, one level down.
variable (decode : Bytes → Go DecodeError (Node Key))

def decodeRef (buf : Bytes) : Go DecodeError (Node Key × Bytes) := do
  let (kind, val, rest) ← liftRlp .rlp (Rlp.split buf)
  if kind = .list then
    -- 'embedded' node reference. The encoding must be smaller than a hash in order to be valid.
    let size := buf.length - rest.length
    if size > hashLength then
      Go.fail ⟨.oversized size, []⟩
    else
      let n ← decode buf
      pure (n, rest)
  else if kind = .string ∧ val.length = 0 then
    pure (.nil, rest)
  else if h : kind = .string ∧ val.length = 32 then
    pure (.hash ⟨val, h.right⟩, rest)
  else
    Go.fail ⟨.stringSize val.length, []⟩

def decodeShort (hash : Option Hash) (elems : Bytes) (cachegen : UInt16) :
    Go DecodeError (Node Key) := do
  let (kbuf, rest) ← liftRlp .rlp (Rlp.splitString elems)
  let flag : NodeFlag := { hash := hash, gen := cachegen, dirty := false }
  match compactDecode kbuf with
  | none     => Go.panics
  | some key =>
    match key.getLast? with
    -- The last element of an empty key is read unguarded.
    | none   => Go.panics
    | some l =>
      if l = terminator then
        let (val, _) ← liftRlp .valueNode (Rlp.splitString rest)
        pure (.short key (.value val) flag)
      else
        let (r, _) ← wrapError (decodeRef decode rest) "val"
        pure (.short key r flag)

-- The first sixteen children of a full node from the `i`-th on, and what follows them.
def decodeChildren : Nat → Nat → Bytes → Go DecodeError (List (Node Key) × Bytes)
  | 0,     _, elems => pure ([], elems)
  | n + 1, i, elems => do
    let (cld, rest) ← wrapError (decodeRef decode elems) s!"[{i}]"
    let (clds, rest) ← decodeChildren n (i + 1) rest
    pure (cld :: clds, rest)

def decodeFull (hash : Option Hash) (elems : Bytes) (cachegen : UInt16) :
    Go DecodeError (Node Key) := do
  let flag : NodeFlag := { hash := hash, gen := cachegen, dirty := false }
  let (clds, elems) ← decodeChildren decode 16 0 elems
  let (val, _) ← liftRlp .rlp (Rlp.splitString elems)
  let last := if val.length > 0 then .value val else .nil
  pure (.full (fun i => (clds ++ [last]).getD i .nil) flag)

end

-- An embedded node is decoded from fewer bytes than the node around it, so that `buf.length`
-- levels are enough.
def decodeNode (hash : Option Hash) (buf : Bytes) (cachegen : UInt16) :
    Go DecodeError (Node Key) :=
  go buf.length hash buf
where
  go : Nat → Option Hash → Bytes → Go DecodeError (Node Key)
    | 0,        _,    _   => Go.fail ⟨.unexpectedEOF, []⟩
    | fuel + 1, hash, buf =>
      if buf.length = 0 then
        Go.fail ⟨.unexpectedEOF, []⟩
      else do
        let (elems, _) ← liftRlp .decode (Rlp.splitList buf)
        -- The error of `CountValues` is dropped, with the count it comes with, which is zero.
        let c ← match Rlp.countValues elems with
          | .ok c             => pure c
          | .error (.error _) => pure 0
          | .error .panic     => Go.panics
        if c = 2 then
          wrapError (decodeShort (go fuel none) hash elems cachegen) "short"
        else if c = 17 then
          wrapError (decodeFull (go fuel none) hash elems cachegen) "full"
        else
          Go.fail ⟨.elements c, []⟩

def mustDecodeNode {ε : Type} (hash : Hash) (buf : Bytes) (cachegen : UInt16) : Go ε (Node Key) :=
  match decodeNode (some hash) buf cachegen with
  | .ok n    => pure n
  | .error _ => Go.panics

end Trie
