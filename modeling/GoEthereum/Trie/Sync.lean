import GoEthereum.Lib.GoMap
import GoEthereum.Trie.Trie

-- The scheduler that retrieves the nodes of a trie that are missing in the database.

namespace Trie

open Common

-- The hash of no bytes, the code hash of an account without code.
def emptyState : Hash :=
  bytesToHash [0xc5, 0xd2, 0x46, 0x01, 0x86, 0xf7, 0x23, 0x3c, 0x92, 0x7e, 0x7d, 0xb2, 0xdc, 0xc7, 0x03, 0xc0,
    0xe5, 0x00, 0xb6, 0x53, 0xca, 0x82, 0x27, 0x3b, 0x7b, 0xfa, 0xd8, 0x04, 0x5d, 0x85, 0xa4, 0x70]

-- A scheduled or already in-flight state retrieval request. Its parents are given by their hashes:
-- a request stays in the map under its hash as long as another one points to it.
structure Request where
  hash     : Hash
  -- Data content of the node, cached until all subtrees complete
  data     : Bytes
  -- Whether this is a raw entry (code) or a trie node
  raw      : Bool
  parents  : List Hash
  depth    : Nat
  -- Number of dependencies before allowed to commit this node
  deps     : Int
  -- Whether there is a callback to invoke if a leaf node is reached on this branch
  callback : Bool
  deriving DecidableEq

-- A request whose content is not there yet and that has no parents.
def Request.new (hash : Hash) (raw : Bool) (depth : Nat) (callback : Bool) : Request where
  hash     := hash
  data     := []
  raw      := raw
  parents  := []
  depth    := depth
  deps     := 0
  callback := callback

structure SyncResult where
  hash : Hash
  data : Bytes

-- What a callback adds to the scheduler for a leaf.
inductive Entry
  -- `AddSubTrie` without a callback
  | subTrie (root : Hash) (depth : Nat)
  -- `AddRawEntry`
  | raw (hash : Hash) (depth : Nat)

inductive ProcessError (ε : Type)
  | notRequested
  | decode   (e : DecodeError)
  | callback (e : ε)

structure TrieSync where
  database : Database
  requests : GoMap Hash Request
  -- The hashes that `Missing` has not returned yet, with their priorities.
  queue    : List (Hash × Nat)

namespace TrieSync

variable {ε : Type}

-- Whether what the database has under the hash decodes to a node.
def resolves (h : Hash) : Act TrieSync ε Bool := fun s =>
  match decodeNode (some h) ((s.database h.bytes).getD []) 0 with
  | .ok _             => (.ok true, s)
  | .error (.error _) => (.ok false, s)
  | .error .panic     => (Go.panics, s)

-- A new request for a pending node is discarded and only a parent reference added to the old one.
def schedule (s : TrieSync) (req : Request) : TrieSync :=
  match s.requests.lookup req.hash with
  | some old =>
    { s with requests := s.requests.insert req.hash { old with parents := old.parents ++ req.parents } }
  | none =>
    { s with requests := s.requests.insert req.hash req, queue := s.queue ++ [(req.hash, req.depth)] }

-- Counts a new request as a dependency of its designated parent, if it has one, and returns what
-- the request has as its parents.
def link (parent : Hash) : Act TrieSync ε (List Hash) := fun s =>
  if parent = Hash.zero then
    (.ok [], s)
  else
    match s.requests.lookup parent with
    | none          => (Go.panics, s)
    | some ancestor =>
      (.ok [parent],
        { s with requests := s.requests.insert parent { ancestor with deps := ancestor.deps + 1 } })

-- Links a new request to its designated parent and schedules it.
def addRequest (req : Request) (parent : Hash) : Act TrieSync ε Unit := do
  let parents ← link parent
  Act.modify (schedule · { req with parents := parents })

def addSubTrie (root : Hash) (depth : Nat) (parent : Hash) (callback : Bool) :
    Act TrieSync ε Unit := do
  -- Short circuit if the trie is empty or already known
  if root = emptyRoot then pure () else do
  if ← resolves root then pure () else
  addRequest (Request.new root false depth callback) parent

def addRawEntry (hash : Hash) (depth : Nat) (parent : Hash) : Act TrieSync ε Unit := do
  -- Short circuit if the entry is empty or already known
  if hash = emptyState then pure () else do
  let s ← Act.get
  if (s.database hash.bytes).isSome then pure () else
  addRequest (Request.new hash true depth false) parent

def addEntry (parent : Hash) : Entry → Act TrieSync ε Unit
  | .subTrie root depth => addSubTrie root depth parent false
  | .raw hash depth     => addRawEntry hash depth parent

def addEntries (parent : Hash) : List Entry → Act TrieSync ε Unit
  | []           => pure ()
  | entry :: rest => do
    addEntry parent entry
    addEntries parent rest

-- `NewTrieSync`. It panics if what the database has under the root makes the decoder panic.
def new (root : Hash) (database : Database) : Go ε Unit × TrieSync :=
  addSubTrie root 0 Hash.zero true { database := database, requests := ∅, queue := [] }

-- `PopItem`: the item with the highest priority, and of several such the first.
def popItem : List (Hash × Nat) → Option (Hash × List (Hash × Nat))
  | []            => none
  | (h, p) :: rest =>
    match popItem rest with
    | none            => some (h, [])
    | some (h', rest') =>
      if rest.all fun e => e.snd ≤ p then some (h, rest) else some (h', (h, p) :: rest')

def popItems : Nat → List (Hash × Nat) → List Hash × List (Hash × Nat)
  | 0,     queue => ([], queue)
  | n + 1, queue =>
    match popItem queue with
    | none            => ([], queue)
    | some (h, queue) => (h :: (popItems n queue).fst, (popItems n queue).snd)

-- Retrieves the known missing nodes from the trie for retrieval, all of them for a `max` of zero.
def missing (s : TrieSync) (max : Nat) : List Hash × TrieSync :=
  let n := if max = 0 then s.queue.length else max
  ((popItems n s.queue).fst, { s with queue := (popItems n s.queue).snd })

-- The children of a node, with their depths, irrelevant whether known or not.
def childNodes (depth : Nat) : Node Key → Option (List (Node Key × Nat))
  | .short key val _ => some [(val, depth + key.length)]
  | .full cs _       =>
    some (((List.finRange 17).filter fun i => !(cs i).isNil).map fun i => (cs i, depth + 1))
  | _                => none

section

-- The callback decodes a leaf and adds what it refers to. It does not touch the scheduler if it
-- returns an error.
variable (callback : Bytes → Go ε (List Entry))

-- Notify any external watcher of a new key/value node
def notify (req : Request) (child : Node Key) : Act TrieSync ε Unit := fun s =>
  match req.callback, child with
  | true, .value leaf =>
    match callback leaf with
    | .error e    => (.error e, s)
    | .ok entries => addEntries req.hash entries s
  | _, _ => (.ok (), s)

-- If the child references another node, resolve or schedule
def resolve (req : Request) (child : Node Key) (depth : Nat) : Act TrieSync ε (List Request) :=
  match child with
  | .hash h => do
    if ← resolves h then pure [] else
    pure [{ Request.new h false depth req.callback with parents := [req.hash] }]
  | _ => pure []

def requestChildren (req : Request) : List (Node Key × Nat) → Act TrieSync ε (List Request)
  | []                     => pure []
  | (child, depth) :: rest => do
    notify callback req child
    let new ← resolve req child depth
    let more ← requestChildren req rest
    pure (new ++ more)

def children (req : Request) (object : Node Key) : Act TrieSync ε (List Request) :=
  match childNodes req.depth object with
  | none    => Act.panics
  | some cs => requestChildren callback req cs

end

-- What holds of the actions that `requestChildren` is made of, and is kept where they are composed.
structure Composes (parent : Hash) (P : ∀ {α : Type}, Act TrieSync ε α → Prop) : Prop where
  pure {α : Type} (a : α) : P (pure a : Act TrieSync ε α)
  bind {α β : Type} {x : Act TrieSync ε α} {f : α → Act TrieSync ε β} :
    P x → (∀ a, P (f a)) → P (x >>= f)
  get : P (Act.get : Act TrieSync ε TrieSync)
  resolves (h : Hash) : P (resolves h : Act TrieSync ε Bool)
  addRequest {req : Request} : req.deps = 0 → P (addRequest req parent : Act TrieSync ε Unit)

namespace Composes

variable {parent : Hash} {P : ∀ {α : Type}, Act TrieSync ε α → Prop} (h : Composes parent P)

include h

theorem addEntry (entry : Entry) : P (addEntry parent entry : Act TrieSync ε Unit) := by
  cases entry
  case subTrie root depth =>
    rw [TrieSync.addEntry, addSubTrie]
    split
    case isTrue => exact h.pure ()
    case isFalse =>
      refine h.bind (h.resolves root) fun known => ?_
      cases known
      case true  => exact h.pure ()
      case false => exact h.addRequest rfl
  case raw hash depth =>
    rw [TrieSync.addEntry, addRawEntry]
    split
    case isTrue => exact h.pure ()
    case isFalse =>
      refine h.bind h.get fun s => ?_
      split
      case isTrue  => exact h.pure ()
      case isFalse => exact h.addRequest rfl

theorem addEntries (entries : List Entry) :
    P (addEntries parent entries : Act TrieSync ε Unit) := by
  induction entries
  case nil                   => exact h.pure ()
  case cons entry entries ih => exact h.bind (h.addEntry entry) fun _ => ih

theorem resolve {req : Request} (child : Node Key) (depth : Nat) :
    P (resolve req child depth : Act TrieSync ε (List Request)) := by
  cases child
  case hash g =>
    refine h.bind (h.resolves g) fun known => ?_
    cases known <;> exact h.pure _
  all_goals exact h.pure _

end Composes

section

variable {P : ∀ {α : Type}, Act TrieSync ε α → Prop} {req : Request} (h : Composes req.hash P)
variable {callback : Bytes → Go ε (List Entry)}
variable (hc : ∀ leaf e, callback leaf = .error e → P (fun s => (.error e, s) : Act TrieSync ε Unit))

include h hc

theorem Composes.notify (child : Node Key) : P (notify callback req child) := by
  unfold TrieSync.notify
  cases req.callback
  case false => exact h.pure ()
  case true =>
    cases child
    case value leaf =>
      simp only
      cases hl : callback leaf
      case error e    => exact hc leaf e hl
      case ok entries => exact h.addEntries entries
    all_goals exact h.pure ()

theorem Composes.requestChildren (cs : List (Node Key × Nat)) :
    P (requestChildren callback req cs) := by
  induction cs
  case nil => exact h.pure _
  case cons c cs ih =>
    exact h.bind (h.notify hc c.fst) fun _ => h.bind (h.resolve c.fst c.snd) fun _ =>
      h.bind ih fun _ => h.pure _

end

-- One parent of a committed request. `commit` finalizes it if this was its last dependency.
def commitParent (commit : Request → GoMap Hash Request → GoMap Hash Request × List Request) :
    GoMap Hash Request × List Request → Hash → GoMap Hash Request × List Request
  | (requests, batch), p =>
    match requests.lookup p with
    | none        => (requests, batch)
    | some parent =>
      let parent := { parent with deps := parent.deps - 1 }
      let requests := requests.insert p parent
      if parent.deps = 0 then
        ((commit parent requests).fst, batch ++ (commit parent requests).snd)
      else
        (requests, batch)

-- The requests that are left, and the committed ones in the order in which they are put into the
-- batch. Every call deletes a request, so that their number bounds the depth.
def commitLoop : Nat → Request → GoMap Hash Request → GoMap Hash Request × List Request
  | 0,        _,   requests => (requests, [])
  | fuel + 1, req, requests =>
    req.parents.foldl (commitParent (commitLoop fuel)) (requests.erase req.hash, [req])

end TrieSync

-- `batch.Write`
def Database.putAll (db : Database) (batch : List Request) : Database :=
  batch.foldl (fun db req => db.put req.hash.bytes req.data) db

namespace TrieSync

variable {ε : Type} (callback : Bytes → Go ε (List Entry))

def commit (req : Request) : Act TrieSync ε (List Request) := fun s =>
  let (requests, batch) := commitLoop s.requests.entries.length req s.requests
  (.ok batch, { s with database := s.database.putAll batch, requests := requests })

def setRequest (s : TrieSync) (req : Request) : TrieSync :=
  { s with requests := s.requests.insert req.hash req }

-- Handles one result, and returns the requests that are committed. None is if it fails.
def processRequest (item : SyncResult) (request : Request) :
    Act TrieSync (ProcessError ε) (List Request) := fun s =>
  -- If the item is a raw entry request, commit directly
  if request.raw then
    commit request (s.setRequest request)
  else
    match decodeNode (some item.hash) item.data 0 with
    | .error (.error e) => (Go.fail (.decode e), s)
    | .error .panic     => (Go.panics, s)
    | .ok node          =>
      match children callback request node (s.setRequest request) with
      | (.error (.error e), s) => (Go.fail (.callback e), s)
      | (.error .panic, s)     => (Go.panics, s)
      | (.ok requests, s)      =>
        match s.requests.lookup item.hash with
        -- The request is not deleted before it is committed.
        | none         => (Go.panics, s)
        | some request =>
          if requests = [] ∧ request.deps = 0 then
            commit request s
          else
            let request := { request with deps := request.deps + requests.length }
            (.ok [], requests.foldl schedule (s.setRequest request))

def processItem (item : SyncResult) : Act TrieSync (ProcessError ε) (List Request) := fun s =>
  match s.requests.lookup item.hash with
  | none         => (Go.fail .notRequested, s)
  | some request => processRequest callback item { request with data := item.data } s

-- `Process` from the `i`-th result on. Returns the requests that are committed, and the index and
-- the error if one of the results fails.
def process : Nat → List SyncResult → TrieSync →
    (List Request × Option (Nat × Fault (ProcessError ε))) × TrieSync
  | _, [],           s => (([], none), s)
  | i, item :: rest, s =>
    match processItem callback item s with
    | (.error e, s)   => (([], some (i, e)), s)
    | (.ok batch, s) =>
      let ((batch', err), s) := process (i + 1) rest s
      ((batch ++ batch', err), s)

def pending (s : TrieSync) : Nat :=
  s.requests.entries.length

end TrieSync

end Trie
