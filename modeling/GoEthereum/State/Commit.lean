import GoEthereum.State.StateDB

-- Writing the live objects to the tries, and sequences of calls on a state database.

namespace State

open Common

-- Writes to the database that are collected before they are executed.
structure Batch where
  accounts : List (Hash × AccountTrie)
  storages : List (Hash × StorageTrie)
  codes    : List (Hash × Bytes)

def Batch.empty : Batch :=
  { accounts := [], storages := [], codes := [] }

def putAll {α : Type} (puts : List (Hash × α)) (m : Hash → Option α) : Hash → Option α :=
  puts.foldl (fun m p => Function.update m p.fst (some p.snd)) m

def Database.write (db : Database) (batch : Batch) : Database where
  accounts := putAll batch.accounts db.accounts
  storages := putAll batch.storages db.storages
  codes    := putAll batch.codes db.codes

namespace StateDB

section

variable (s : StateDB) (o : StateObject)

-- Writes the given object to the trie. An object that has no encoding is a panic.
def updateStateObject : Option StateDB :=
  if h : 0 ≤ o.data.balance then
    some { s with trie := Function.update s.trie o.address (some ⟨o.data, h⟩) }
  else
    none

def deleteStateObject : StateDB :=
  { s.setStateObject { o with deleted := true } with trie := Function.update s.trie o.address none }

end

variable (H : Hashing) (deleteEmptyObjects : Bool)

-- One iteration of the loop of `IntermediateRoot`. An address without an object is a nil
-- dereference.
def rootObject (s : StateDB) (addr : Address) : Option StateDB :=
  match s.stateObjects.lookup addr with
  | none   => none
  | some o =>
    if o.suicided || (deleteEmptyObjects && o.empty H) then
      some (s.deleteStateObject o)
    else
      let o := o.updateRoot H s.db
      (s.setStateObject o).updateStateObject o

-- Computes the current root hash of the state trie, which goes into transaction receipts.
def intermediateRoot (s : StateDB) : Option (Hash × StateDB) := do
  let s ← s.stateObjectsDirty.keys.foldlM (rootObject H deleteEmptyObjects) s
  let s := s.clearJournalAndRefund
  some (H.accountRoot s.trie, s)

def deleteSuicide (s : StateDB) (addr : Address) : Option StateDB :=
  match s.stateObjects.lookup addr with
  | none   => none
  | some o =>
    let s := if o.suicided then s.setStateObject { o with deleted := true } else s
    some { s with stateObjectsDirty := s.stateObjectsDirty.erase addr }

-- Flags the suicided objects for deletion so that they won't be referenced again.
def deleteSuicides (s : StateDB) : Option StateDB :=
  s.stateObjectsDirty.keys.foldlM deleteSuicide s.clearJournalAndRefund

-- The variables of the loop of `commit`. After an error the loop is left.
structure Committing where
  state  : StateDB
  batch  : Batch
  failed : Bool

-- `CommitTrie`, after the code was written.
def commitObject (c : Committing) (o : StateObject) : Option Committing :=
  let o := o.updateTrie c.state.db
  if o.dbErr then
    some { c with state := c.state.setStateObject o, failed := true }
  else
    let trie := o.trie.getD StorageTrie.empty
    let root := H.storageRoot trie
    let o := { o with data := { o.data with root := root } }
    (updateStateObject (c.state.setStateObject o) o).map fun s => { c with
      state := { s with stateObjectsDirty := s.stateObjectsDirty.erase o.address }
      batch := { c.batch with storages := c.batch.storages ++ [(root, trie)] } }

-- One iteration of the loop of `commit` over the live objects.
def commitAddress (c : Committing) (addr : Address) : Option Committing :=
  if c.failed then
    some c
  else
    match c.state.stateObjects.lookup addr with
    | none   => some c
    | some o =>
      let isDirty := (c.state.stateObjectsDirty.lookup addr).isSome
      if o.suicided || (isDirty && deleteEmptyObjects && o.empty H) then
        let s := c.state.deleteStateObject o
        some { c with state := { s with stateObjectsDirty := s.stateObjectsDirty.erase addr } }
      else if isDirty then
        match o.code, o.dirtyCode with
        | some code, true =>
          let batch := { c.batch with codes := c.batch.codes ++ [(o.data.codeHash, code)] }
          commitObject H { c with batch := batch } { o with dirtyCode := false }
        | _, _ => commitObject H c o
      else
        some c

-- Commits all state changes to a write batch. The error of the loop is dropped, and the root is the
-- zero hash then.
def commitBatch (s : StateDB) : Option (Hash × Batch × StateDB) := do
  let c ← s.stateObjects.keys.foldlM (commitAddress H deleteEmptyObjects)
    { state := s, batch := Batch.empty, failed := false }
  if c.failed then
    some (Hash.zero, c.batch, c.state.clearJournalAndRefund)
  else
    let root := H.accountRoot c.state.trie
    some (root, { c.batch with accounts := c.batch.accounts ++ [(root, c.state.trie)] },
      c.state.clearJournalAndRefund)

def commit (s : StateDB) : Option (Hash × StateDB) := do
  let (root, batch, s) ← s.commitBatch H deleteEmptyObjects
  some (root, { s with db := s.db.write batch })

-- Clears out all ephemeral state objects from the state db. `none` is the error of a missing root,
-- which leaves the state as it is.
def reset (s : StateDB) (root : Hash) : Option StateDB :=
  (openTrie s.db.accounts AccountTrie.empty root).map fun tr => { s with
    trie              := tr
    stateObjects      := ∅
    stateObjectsDirty := ∅
    thash             := Hash.zero
    bhash             := Hash.zero
    txIndex           := 0
    logs              := ∅
    logSize           := 0
    refund            := 0
    journal           := []
    validRevisions    := [] }

end StateDB

inductive AccountOp
  | addBalance (amount : Int)
  | subBalance (amount : Int)
  | setBalance (amount : Int)
  | setNonce (nonce : UInt64)
  | setCode (code : Option Bytes)
  | setState (key value : Hash)
  | suicide
  | createAccount

inductive Op
  | account (a : Address) (op : AccountOp)
  | addRefund (gas : Int)
  | addLog (log : Log)
  | startRecord (thash bhash : Hash) (ti : UInt64)
  | snapshot
  | revertToSnapshot (revid : Nat)
  | intermediateRoot (deleteEmptyObjects : Bool)
  | deleteSuicides
  | commit (deleteEmptyObjects : Bool)
  | reset (root : Hash)

-- The calls that only fill caches. The accessors of balance, nonce, code hash and flags change the
-- state as `Exist` does.
inductive Read
  | exist (a : Address)
  | getCode (a : Address)
  | getCodeSize (a : Address)
  | getState (a : Address) (key : Hash)

namespace StateDB

variable (H : Hashing)

def call (s : StateDB) (a : Address) : AccountOp → StateDB
  | .addBalance amount  => s.addBalance H a amount
  | .subBalance amount  => s.subBalance H a amount
  | .setBalance amount  => s.setBalance H a amount
  | .setNonce nonce     => s.setNonce H a nonce
  | .setCode code       => s.setCode H a code
  | .setState key value => s.setState H a key value
  | .suicide            => (s.suicide a).snd
  | .createAccount      => s.createAccount H a

-- `none` is a panic.
def step (s : StateDB) : Op → Option StateDB
  | .account a op               => s.call H a op
  | .addRefund gas              => s.addRefund gas
  | .addLog log                 => s.addLog log
  | .startRecord thash bhash ti => s.startRecord thash bhash ti
  | .snapshot                   => s.snapshot.snd
  | .revertToSnapshot revid     => s.revertToSnapshot revid
  | .intermediateRoot d         => (s.intermediateRoot H d).map Prod.snd
  | .deleteSuicides             => s.deleteSuicides
  | .commit d                   => (s.commit H d).map Prod.snd
  | .reset root                 => (s.reset root).getD s

def run (s : StateDB) (ops : List Op) : Option StateDB :=
  ops.foldlM (step H) s

def read (s : StateDB) : Read → StateDB
  | .exist a        => (s.exist a).snd
  | .getCode a      => (s.getCode H a).snd
  | .getCodeSize a  => (s.getCodeSize H a).snd
  | .getState a key => (s.getState a key).snd

inductive Reachable : StateDB → Prop
  | new {root db s} : new root db = some s → Reachable s
  | step {s s' op}  : Reachable s → s.step H op = some s' → Reachable s'
  | read {s} (r)    : Reachable s → Reachable (s.read H r)

end StateDB

end State
