import GoEthereum.Lib.GoMap
import GoEthereum.Trie.Trie

-- Accounts, and the objects that stand for them while they are modified.

namespace State

open Common

-- The contents of a storage trie. A key that is not there has the zero value.
abbrev StorageTrie := Hash → Hash

structure Account where
  nonce    : UInt64
  balance  : Int
  root     : Hash
  codeHash : Hash
  deriving DecidableEq

-- An account as the account trie holds it. A negative balance has no encoding.
abbrev StoredAccount := { a : Account // 0 ≤ a.balance }

abbrev AccountTrie := Address → Option StoredAccount

def StorageTrie.empty : StorageTrie :=
  fun _ => Hash.zero

def AccountTrie.empty : AccountTrie :=
  fun _ => none

-- A trie enters through the map that it holds, and its root hash is a function of that map.
structure Hashing where
  keccak      : Bytes → Hash
  storageRoot : StorageTrie → Hash
  accountRoot : AccountTrie → Hash

def Hashing.emptyCodeHash (H : Hashing) : Hash :=
  H.keccak []

-- What the database holds: tries by their roots and code by its hash.
structure Database where
  accounts : Hash → Option AccountTrie
  storages : Hash → Option StorageTrie
  codes    : Hash → Option Bytes

-- `trie.NewSecure`
def openTrie {α : Type} (tries : Hash → Option α) (empty : α) (root : Hash) : Option α :=
  if root = Hash.zero ∨ root = Trie.emptyRoot then some empty else tries root

structure StateObject where
  address       : Address
  data          : Account
  dbErr         : Bool
  -- Storage trie, which becomes non-nil on first access.
  trie          : Option StorageTrie
  -- Contract bytecode, which gets set when code is loaded.
  code          : Option Bytes
  -- Storage entry cache to avoid duplicate reads.
  cachedStorage : GoMap Hash Hash
  -- Storage entries that need to be flushed to disk.
  dirtyStorage  : GoMap Hash Hash
  dirtyCode     : Bool
  suicided      : Bool
  touched       : Bool
  deleted       : Bool
  -- Whether the callback that marks the object newly dirty is still there.
  onDirty       : Bool

namespace StateObject

-- `newObject(db, address, data, db.MarkStateObjectDirty)`
def newObject (address : Address) (data : Account) : StateObject where
  address       := address
  data          := data
  dbErr         := false
  trie          := none
  code          := none
  cachedStorage := ∅
  dirtyStorage  := ∅
  dirtyCode     := false
  suicided      := false
  touched       := false
  deleted       := false
  onDirty       := true

section

variable (H : Hashing)

-- `Account{}`, as `newObject` completes it.
def newAccount : Account :=
  { nonce := 0, balance := 0, root := Hash.zero, codeHash := H.emptyCodeHash }

def empty (o : StateObject) : Bool :=
  o.data.nonce = 0 && o.data.balance = 0 && o.data.codeHash = H.emptyCodeHash

end

variable (H : Hashing) (db : Database) (o : StateObject)

def getTrie : StorageTrie × StateObject :=
  match o.trie with
  | some t => (t, o)
  | none   =>
    match openTrie db.storages StorageTrie.empty o.data.root with
    | some t => (t, { o with trie := some t })
    | none   => (StorageTrie.empty, { o with trie := some StorageTrie.empty, dbErr := true })

def getState (key : Hash) : Hash × StateObject :=
  match o.cachedStorage.lookup key with
  | some value => (value, o)
  | none       =>
    -- Load from DB in case it is missing.
    let (t, o) := o.getTrie db
    let value := t key
    if value = Hash.zero then
      (value, o)
    else
      (value, { o with cachedStorage := o.cachedStorage.insert key value })

-- Writes cached storage modifications into the object's storage trie. Writing the zero value
-- deletes the key.
def updateTrie : StateObject :=
  let (t, o) := o.getTrie db
  { o with trie := some (o.dirtyStorage.foldl Function.update t), dirtyStorage := ∅ }

-- Sets the trie root to the current root hash of the storage trie.
def updateRoot : StateObject :=
  let o := o.updateTrie db
  { o with data := { o.data with root := H.storageRoot (o.trie.getD StorageTrie.empty) } }

-- `StateObject.Code`, the contract code associated with this object, if any.
def getCode : Option Bytes × StateObject :=
  match o.code with
  | some code => (some code, o)
  | none      =>
    if o.data.codeHash = H.emptyCodeHash then
      (none, o)
    else
      match db.codes o.data.codeHash with
      | some code => (some code, { o with code := some code })
      | none      => (none, { o with dbErr := true })

end StateObject

end State
