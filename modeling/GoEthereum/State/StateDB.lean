import GoEthereum.State.Object

-- The state database: live objects over the account trie, and the journal of their changes.

namespace State

open Common

structure Log where
  address     : Address
  topics      : List Hash
  data        : Bytes
  blockNumber : UInt64
  txHash      : Hash
  txIndex     : UInt64
  blockHash   : Hash
  index       : UInt64
  deriving DecidableEq

inductive JournalEntry
  -- Changes to the account trie.
  | createObject (account : Address)
  | resetObject (prev : StateObject)
  | suicide (account : Address) (prev : Bool) (prevbalance : Int)
  -- Changes to individual accounts.
  | balance (account : Address) (prev : Int)
  | nonce (account : Address) (prev : UInt64)
  | storage (account : Address) (key prevalue : Hash)
  | code (account : Address) (prevcode : Option Bytes) (prevhash : Hash)
  -- Changes to other state values.
  | refund (prev : Int)
  | addLog (txhash : Hash)
  | touch (account : Address) (prev : Bool)

structure Revision where
  id           : Nat
  journalIndex : Nat
  deriving DecidableEq

structure StateDB where
  db                : Database
  trie              : AccountTrie
  codeSizeCache     : GoMap Hash Nat
  -- This map holds 'live' objects, which will get modified while processing a state transition.
  stateObjects      : GoMap Address StateObject
  stateObjectsDirty : GoMap Address Unit
  -- The refund counter, also used by state transitioning.
  refund            : Int
  thash             : Hash
  bhash             : Hash
  txIndex           : UInt64
  logs              : GoMap Hash (List Log)
  logSize           : UInt64
  -- Journal of state modifications. This is the backbone of Snapshot and RevertToSnapshot.
  journal           : List JournalEntry
  validRevisions    : List Revision
  nextRevisionId    : Nat

namespace StateDB

def ofTrie (db : Database) (trie : AccountTrie) : StateDB where
  db                := db
  trie              := trie
  codeSizeCache     := ∅
  stateObjects      := ∅
  stateObjectsDirty := ∅
  refund            := 0
  thash             := Hash.zero
  bhash             := Hash.zero
  txIndex           := 0
  logs              := ∅
  logSize           := 0
  journal           := []
  validRevisions    := []
  nextRevisionId    := 0

-- Creates a new state from a given trie. `none` is the error of a missing root.
def new (root : Hash) (db : Database) : Option StateDB :=
  (openTrie db.accounts AccountTrie.empty root).map (ofTrie db)

section

variable (s : StateDB)

def setStateObject (o : StateObject) : StateDB :=
  { s with stateObjects := s.stateObjects.insert o.address o }

-- `delete(s.stateObjects, a)` and `delete(s.stateObjectsDirty, a)`
def deleteLive (a : Address) : StateDB :=
  { s with
    stateObjects      := s.stateObjects.erase a
    stateObjectsDirty := s.stateObjectsDirty.erase a }

def markStateObjectDirty (a : Address) : StateDB :=
  { s with stateObjectsDirty := s.stateObjectsDirty.insert a () }

def append (e : JournalEntry) : StateDB :=
  { s with journal := s.journal ++ [e] }

-- The end of each modification of an object: it runs the callback, if it still has one.
def modified (o : StateObject) : StateDB :=
  if o.onDirty then
    (s.markStateObjectDirty o.address).setStateObject { o with onDirty := false }
  else
    s.setStateObject o

-- Retrieves a state object given by the address. Returns nil if not found.
def getStateObject (a : Address) : Option StateObject × StateDB :=
  -- Prefer 'live' objects.
  match s.stateObjects.lookup a with
  | some o => if o.deleted then (none, s) else (some o, s)
  | none   =>
    match s.trie a with
    | none      => (none, s)
    | some data =>
      let o := StateObject.newObject a data.val
      (some o, s.setStateObject o)

variable (o : StateObject)

-- `StateObject.setBalance`
def objectSetBalance (amount : Int) : StateDB :=
  s.modified { o with data := { o.data with balance := amount } }

-- `StateObject.setNonce`
def objectSetNonce (nonce : UInt64) : StateDB :=
  s.modified { o with data := { o.data with nonce := nonce } }

-- `StateObject.setCode`
def objectSetCode (codeHash : Hash) (code : Option Bytes) : StateDB :=
  s.modified { o with code := code, data := { o.data with codeHash := codeHash }, dirtyCode := true }

-- `StateObject.setState`
def objectSetState (key value : Hash) : StateDB :=
  s.modified { o with
    cachedStorage := o.cachedStorage.insert key value
    dirtyStorage  := o.dirtyStorage.insert key value }

-- `StateObject.touch`
def objectTouch : StateDB :=
  (s.append (.touch o.address o.touched)).modified { o with touched := true }

-- `StateObject.SetBalance`
def objectChangeBalance (amount : Int) : StateDB :=
  (s.append (.balance o.address o.data.balance)).objectSetBalance o amount

end

section

variable (H : Hashing) (s : StateDB) (a : Address)

-- Creates a new state object. An existing account with the address is overwritten and returned,
-- too.
def createObject : StateObject × Option StateObject × StateDB :=
  let (prev, s) := s.getStateObject a
  -- `newobj.setNonce(0)` sets the object to dirty.
  let newobj := { StateObject.newObject a (StateObject.newAccount H) with onDirty := false }
  let s := s.markStateObjectDirty a
  let s := match prev with
    | none   => s.append (.createObject a)
    | some p => s.append (.resetObject p)
  (newobj, prev, s.setStateObject newobj)

def getOrNewStateObject : StateObject × StateDB :=
  match s.getStateObject a with
  | (some o, s) => (o, s)
  | (none, s)   =>
    let (o, _, s) := s.createObject H a
    (o, s)

def addBalance (amount : Int) : StateDB :=
  let (o, s) := s.getOrNewStateObject H a
  if amount = 0 then
    -- EIP158: We must check emptiness for the objects such that the account clearing (0,0,0
    -- objects) can take effect.
    if o.empty H then s.objectTouch o else s
  else
    s.objectChangeBalance o (o.data.balance + amount)

def subBalance (amount : Int) : StateDB :=
  let (o, s) := s.getOrNewStateObject H a
  if amount = 0 then s else s.objectChangeBalance o (o.data.balance - amount)

def setBalance (amount : Int) : StateDB :=
  let (o, s) := s.getOrNewStateObject H a
  s.objectChangeBalance o amount

def setNonce (nonce : UInt64) : StateDB :=
  let (o, s) := s.getOrNewStateObject H a
  (s.append (.nonce o.address o.data.nonce)).objectSetNonce o nonce

def setCode (code : Option Bytes) : StateDB :=
  let (o, s) := s.getOrNewStateObject H a
  let (prevcode, o) := o.getCode H s.db
  (s.append (.code o.address prevcode o.data.codeHash)).objectSetCode o (H.keccak (code.getD [])) code

def setState (key value : Hash) : StateDB :=
  let (o, s) := s.getOrNewStateObject H a
  let (prevalue, o) := o.getState s.db key
  (s.append (.storage o.address key prevalue)).objectSetState o key value

-- Marks the given account as suicided. This clears the account balance.
def suicide : Bool × StateDB :=
  match s.getStateObject a with
  | (none, s)   => (false, s)
  | (some o, s) =>
    let s := s.append (.suicide a o.suicided o.data.balance)
    (true, s.modified { o with suicided := true, data := { o.data with balance := 0 } })

-- Explicitly creates a state object. The balance of an existing one is carried over.
def createAccount : StateDB :=
  match s.createObject H a with
  | (_, none, s)   => s
  | (o, some p, s) => s.objectSetBalance o p.data.balance

def addRefund (gas : Int) : StateDB :=
  { s.append (.refund s.refund) with refund := s.refund + gas }

def startRecord (thash bhash : Hash) (ti : UInt64) : StateDB :=
  { s with thash := thash, bhash := bhash, txIndex := ti }

def addLog (log : Log) : StateDB :=
  let log := { log with
    txHash := s.thash, blockHash := s.bhash, txIndex := s.txIndex, index := s.logSize }
  { s.append (.addLog s.thash) with
    logs    := s.logs.insert s.thash ((s.logs.lookup s.thash).getD [] ++ [log])
    logSize := s.logSize + 1 }

-- Reports whether the given account address exists in the state. Notably this also returns true
-- for suicided accounts.
def exist : Bool × StateDB :=
  let (o, s) := s.getStateObject a
  (o.isSome, s)

-- Returns whether the state object is either non-existent or empty.
def empty : Bool × StateDB :=
  let (o, s) := s.getStateObject a
  (o.all (·.empty H), s)

def hasSuicided : Bool × StateDB :=
  let (o, s) := s.getStateObject a
  (o.any (·.suicided), s)

def getBalance : Int × StateDB :=
  let (o, s) := s.getStateObject a
  (o.elim 0 (·.data.balance), s)

def getNonce : UInt64 × StateDB :=
  let (o, s) := s.getStateObject a
  (o.elim 0 (·.data.nonce), s)

def getCodeHash : Hash × StateDB :=
  let (o, s) := s.getStateObject a
  (o.elim Hash.zero (·.data.codeHash), s)

-- No code and empty code are the same to a caller.
def getCode : Bytes × StateDB :=
  match s.getStateObject a with
  | (none, s)   => ([], s)
  | (some o, s) =>
    let (code, o) := o.getCode H s.db
    let code := code.getD []
    let s := s.setStateObject o
    (code, { s with codeSizeCache := s.codeSizeCache.insert o.data.codeHash code.length })

def getCodeSize : Nat × StateDB :=
  match s.getStateObject a with
  | (none, s)   => (0, s)
  | (some o, s) =>
    match s.codeSizeCache.lookup o.data.codeHash with
    | some size => (size, s)
    | none      =>
      let (code, o) := o.getCode H s.db
      let size := (code.getD []).length
      let s := s.setStateObject o
      if o.dbErr then
        (size, s)
      else
        (size, { s with codeSizeCache := s.codeSizeCache.insert o.data.codeHash size })

def getState (key : Hash) : Hash × StateDB :=
  match s.getStateObject a with
  | (none, s)   => (Hash.zero, s)
  | (some o, s) =>
    let (value, o) := o.getState s.db key
    (value, s.setStateObject o)

end

def ripemd : Address :=
  ⟨List.replicate 19 0 ++ [3], rfl⟩

-- Undoes a change. `none` is a panic.
def undo (e : JournalEntry) (s : StateDB) : Option StateDB :=
  match e with
  | .createObject a => some (s.deleteLive a)
  | .resetObject prev => some (s.setStateObject prev)
  | .suicide a prev prevbalance =>
    match s.getStateObject a with
    | (none, s)   => some s
    | (some o, s) => some (s.objectSetBalance { o with suicided := prev } prevbalance)
  | .touch a prev => some (if !prev && a ≠ ripemd then s.deleteLive a else s)
  | .balance a prev =>
    match s.getStateObject a with
    | (none, _)   => none
    | (some o, s) => some (s.objectSetBalance o prev)
  | .nonce a prev =>
    match s.getStateObject a with
    | (none, _)   => none
    | (some o, s) => some (s.objectSetNonce o prev)
  | .code a prevcode prevhash =>
    match s.getStateObject a with
    | (none, _)   => none
    | (some o, s) => some (s.objectSetCode o prevhash prevcode)
  | .storage a key prevalue =>
    match s.getStateObject a with
    | (none, _)   => none
    | (some o, s) => some (s.objectSetState o key prevalue)
  | .refund prev => some { s with refund := prev }
  | .addLog txhash =>
    match (s.logs.lookup txhash).getD [] with
    | []     => none
    | [_]    => some { s with logs := s.logs.erase txhash }
    | l :: ls => some { s with logs := s.logs.insert txhash (l :: ls).dropLast }

def snapshot (s : StateDB) : Nat × StateDB :=
  (s.nextRevisionId, { s with
    nextRevisionId := s.nextRevisionId + 1
    validRevisions := s.validRevisions ++ [⟨s.nextRevisionId, s.journal.length⟩] })

def undoAll (es : List JournalEntry) (s : StateDB) : Option StateDB :=
  es.foldrM undo s

-- Reverts all state changes made since the given revision. The binary search for `revid` finds the
-- first that is not below it.
def revertToSnapshot (s : StateDB) (revid : Nat) : Option StateDB :=
  let idx := s.validRevisions.findIdx (·.id ≥ revid)
  match s.validRevisions[idx]? with
  | none     => none
  | some rev =>
    if rev.id = revid then do
      let s' ← undoAll (s.journal.drop rev.journalIndex) s
      some { s' with
        journal        := s.journal.take rev.journalIndex
        validRevisions := s.validRevisions.take idx }
    else
      none

def clearJournalAndRefund (s : StateDB) : StateDB :=
  { s with journal := [], validRevisions := [], refund := 0 }

end StateDB

end State
