import GoEthereum.Trie.Hasher

namespace Trie

open Common

-- This is the known root hash of an empty trie.
def emptyRoot : Hash :=
  ⟨[0x56, 0xe8, 0x1f, 0x17, 0x1b, 0xcc, 0x55, 0xa6, 0xff, 0x83, 0x45, 0xe6, 0x92, 0xc0, 0xf8, 0x6e,
    0x5b, 0x48, 0xe0, 0x1b, 0x99, 0x6c, 0xad, 0xc0, 0x01, 0x62, 0x2f, 0xb5, 0xe3, 0x63, 0xb4, 0x21],
    rfl⟩

-- A database whose calls do not fail. `none` is the nil value of a key that is not there.
abbrev Database := Bytes → Option Bytes

def Database.put (db : Database) (key value : Bytes) : Database :=
  Function.update db key (some value)

structure MissingNodeError where
  rootHash  : Hash
  nodeHash  : Hash
  key       : Bytes
  prefixLen : Nat
  suffixLen : Nat
  deriving DecidableEq

end Trie

structure Trie where
  root         : Trie.Node Trie.Key
  originalRoot : Common.Hash
  cachegen     : UInt16
  cachelimit   : UInt16

namespace Trie

open Common

def setCacheLimit (t : Trie) (l : UInt16) : Trie :=
  { t with cachelimit := l }

def newFlag (t : Trie) : NodeFlag :=
  { hash := none, gen := t.cachegen, dirty := true }

section

-- The receiver of the methods below and the database it is attached to.
variable (t : Trie) (db : Database)

def resolveHash (n : Hash) (pre suffix : Key) : Go MissingNodeError (Node Key) :=
  match db n.bytes with
  | some enc => mustDecodeNode n enc t.cachegen
  | none     =>
    match compactHexEncode (pre ++ suffix) with
    | none     => Go.panics
    | some key => Go.fail {
        rootHash  := t.originalRoot
        nodeHash  := n
        key       := key
        prefixLen := pre.length
        suffixLen := suffix.length }

def resolve (n : Node Key) (pre suffix : Key) : Go MissingNodeError (Node Key) :=
  match n with
  | .hash h => t.resolveHash db h pre suffix
  | n       => pure n

-- The recursions below meet at most one hash node at each position of the key.
def levels (key : Key) : Nat :=
  2 * key.length + 2

def tryGetNode (key : Key) : Nat → Node Key → Nat → Go MissingNodeError (Option Bytes × Node Key × Bool)
  | 0, _, _ => Go.panics
  | fuel + 1, origNode, pos =>
    match origNode with
    | .nil => pure (none, .nil, false)
    | .value v => pure (some v, .value v, false)
    | .short k val flags =>
      if key.length - pos < k.length ∨ k ≠ (key.drop pos).take k.length then
        pure (none, .short k val flags, false) -- key not found in trie
      else do
        let (value, newnode, didResolve) ← tryGetNode key fuel val (pos + k.length)
        if didResolve then
          pure (value, .short k newnode { flags with gen := t.cachegen }, true)
        else
          pure (value, .short k val flags, false)
    | .full cs flags =>
      match key[pos]? with
      | none   => Go.panics
      | some i => do
        let (value, newnode, didResolve) ← tryGetNode key fuel (cs i) (pos + 1)
        if didResolve then
          pure (value, .full (Function.update cs i newnode) { flags with gen := t.cachegen }, true)
        else
          pure (value, .full cs flags, false)
    | .hash n => do
      let child ← t.resolveHash db n (key.take pos) (key.drop pos)
      let (value, newnode, _) ← tryGetNode key fuel child pos
      pure (value, newnode, true)

def insert : Nat → Node Key → Key → Key → Node Key → Go MissingNodeError (Bool × Node Key)
  | 0, _, _, _, _ => Go.panics
  | _ + 1, n, _, [], value =>
    match n, value with
    | .value v, .value w => pure (v ≠ w, .value w)
    | .value _, _        => Go.panics
    | _,        value    => pure (true, value)
  | fuel + 1, n, pre, key@(a :: as), value =>
    match n with
    | .short k val flags =>
      let matchlen := prefixLen key k
      -- If the whole key matches, keep this short node as is and only update the value.
      if matchlen = k.length then do
        let (dirty, nn) ← insert fuel val (pre ++ key.take matchlen) (key.drop matchlen) value
        if dirty then
          pure (true, .short k nn t.newFlag)
        else
          pure (false, .short k val flags)
      else
        -- Otherwise branch out at the index where they differ.
        match k.drop matchlen, key.drop matchlen with
        | b :: bs, c :: cs => do
          let (_, x) ← insert fuel .nil (pre ++ k.take (matchlen + 1)) bs val
          let (_, y) ← insert fuel .nil (pre ++ key.take (matchlen + 1)) cs value
          let children := Function.update (Function.update (fun _ => .nil) b x) c y
          let branch := .full children t.newFlag
          -- Replace this shortNode with the branch if it occurs at index 0.
          if matchlen = 0 then
            pure (true, branch)
          -- Otherwise, replace it with a short node leading up to the branch.
          else
            pure (true, .short (key.take matchlen) branch t.newFlag)
        | _, _ => Go.panics
    | .full cs flags => do
      let (dirty, nn) ← insert fuel (cs a) (pre ++ [a]) as value
      if dirty then
        pure (true, .full (Function.update cs a nn) t.newFlag)
      else
        pure (false, .full cs flags)
    | .nil => pure (true, .short key value t.newFlag)
    | .hash h => do
      -- We've hit a part of the trie that isn't loaded yet. Load the node and insert into it.
      let rn ← t.resolveHash db h pre key
      let (dirty, nn) ← insert fuel rn pre key value
      if dirty then pure (true, nn) else pure (false, rn)
    | .value _ => Go.panics

def singleChild (cs : Nibble → Node Key) : Option Nibble :=
  match (List.finRange 17).filter fun i => !(cs i).isNil with
  | [i] => some i
  | _   => none

def reduceFull (cs : Nibble → Node Key) (pre : Key) : Go MissingNodeError (Node Key) :=
  match singleChild cs with
  | none     => pure (.full cs t.newFlag)
  | some pos =>
    if pos ≠ terminator then do
      -- If the remaining entry is a short node, it replaces n. Since the entry might not be loaded
      -- yet, resolve it for this check.
      match ← t.resolve db (cs pos) pre [pos] with
      | .short k val _ => pure (.short (pos :: k) val t.newFlag)
      | _              => pure (.short [pos] (cs pos) t.newFlag)
    else
      pure (.short [pos] (cs pos) t.newFlag)

def delete : Nat → Node Key → Key → Key → Go MissingNodeError (Bool × Node Key)
  | 0, _, _, _ => Go.panics
  | fuel + 1, n, pre, key =>
    match n with
    | .short k val flags =>
      let matchlen := prefixLen key k
      if matchlen < k.length then
        pure (false, .short k val flags) -- don't replace n on mismatch
      else if matchlen = key.length then
        pure (true, .nil) -- remove n entirely for whole matches
      else do
        -- The key is longer than n.Key. Remove the remaining suffix from the subtrie.
        let (dirty, child) ← delete fuel val (pre ++ key.take k.length) (key.drop k.length)
        if dirty then
          match child with
          -- Deleting from the subtrie reduced it to another short node. Merge the nodes.
          | .short k' val' _ => pure (true, .short (k ++ k') val' t.newFlag)
          | child            => pure (true, .short k child t.newFlag)
        else
          pure (false, .short k val flags)
    | .full cs flags =>
      match key with
      | []      => Go.panics
      | a :: as => do
        let (dirty, nn) ← delete fuel (cs a) (pre ++ [a]) as
        if dirty then do
          let n ← t.reduceFull db (Function.update cs a nn) pre
          pure (true, n)
        else
          pure (false, .full cs flags)
    | .value _ => pure (true, .nil)
    | .nil => pure (false, .nil)
    | .hash h => do
      -- We've hit a part of the trie that isn't loaded yet. Load the node and delete from it.
      let rn ← t.resolveHash db h pre key
      let (dirty, nn) ← delete fuel rn pre key
      if dirty then pure (true, nn) else pure (false, rn)

end

def new (root : Hash) (db : Database) : Go MissingNodeError Trie :=
  let trie : Trie := { root := .nil, originalRoot := root, cachegen := 0, cachelimit := 0 }
  if root ≠ Hash.zero ∧ root ≠ emptyRoot then do
    let rootnode ← trie.resolveHash db root [] []
    pure { trie with root := rootnode }
  else
    pure trie

def tryGet (t : Trie) (db : Database) (key : Bytes) : Go MissingNodeError (Option Bytes × Trie) := do
  let k := compactHexDecode key
  let (value, newroot, didResolve) ← t.tryGetNode db k (levels k) t.root 0
  pure (value, if didResolve then { t with root := newroot } else t)

def tryDelete (t : Trie) (db : Database) (key : Bytes) : Go MissingNodeError Trie := do
  let k := compactHexDecode key
  let (_, n) ← t.delete db (levels k) t.root [] k
  pure { t with root := n }

def tryUpdate (t : Trie) (db : Database) (key value : Bytes) : Go MissingNodeError Trie :=
  let k := compactHexDecode key
  if value.length ≠ 0 then do
    let (_, n) ← t.insert db (levels k) t.root [] k (.value value)
    pure { t with root := n }
  else do
    let (_, n) ← t.delete db (levels k) t.root [] k
    pure { t with root := n }

section

variable (keccak : Bytes → Hash)

def hashRoot (t : Trie) (db : Bool) : Hashed :=
  match t.root with
  | .nil => ⟨.hash emptyRoot, .nil, []⟩
  | root => Hasher.hash keccak ⟨t.cachegen, t.cachelimit⟩ db root true

-- The root hash of the trie. The type assertion on the hashed root is the panic.
def hash {ε : Type} (t : Trie) : Go ε (Hash × Trie × List Event) :=
  let r := t.hashRoot keccak false
  match r.hashed with
  | .hash h => pure (h, { t with root := r.cached }, r.events)
  | _       => Go.panics

def commitTo {ε : Type} (t : Trie) : Go ε (Hash × Trie × List Event) :=
  let r := t.hashRoot keccak true
  match r.hashed with
  | .hash h => pure (h, { t with root := r.cached, cachegen := t.cachegen + 1 }, r.events)
  | _       => Go.panics

end

def Database.write (db : Database) : List Event → Database
  | []             => db
  | .sha _ :: es   => Database.write db es
  | .put h e :: es => Database.write (db.put h.bytes e) es

end Trie
