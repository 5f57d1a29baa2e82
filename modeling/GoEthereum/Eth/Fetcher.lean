import GoEthereum.Common
import GoEthereum.Lib.Keyed
import GoEthereum.Lib.Prque
import GoEthereum.Lib.SinglePrecision

-- The block fetcher: announced blocks are retrieved in two steps and imported in the order of
-- their numbers.

namespace Eth

open Common

-- In nanoseconds.
def arriveTimeout : Int := 500000000
def gatherSlack   : Int := 100000000
def fetchTimeout  : Int := 5000000000

def maxUncleDist : UInt64 := 7
def maxQueueDist : UInt64 := 32
def hashLimit    : Int := 256
def blockLimit   : Int := 64

-- What the loop looks at of a header. A block is given by its header.
structure Header where
  hash      : Hash
  number    : UInt64
  txHash    : Hash
  uncleHash : Hash
  deriving DecidableEq

structure Body where
  txHash    : Hash
  uncleHash : Hash

structure Announce where
  hash   : Hash
  number : UInt64
  header : Option Header
  time   : Int
  origin : String
  deriving DecidableEq

structure Inject where
  origin : String
  block  : Header
  deriving DecidableEq

def Inject.hash (op : Inject) : Hash :=
  op.block.hash

instance Inject.inhabited : Inhabited Inject :=
  ⟨⟨"", ⟨Hash.zero, 0, Hash.zero, Hash.zero⟩⟩⟩

structure Fetcher where
  announces  : GoMap String Int
  announced  : GoMap Hash (List Announce)
  fetching   : GoMap Hash Announce
  fetched    : GoMap Hash (List Announce)
  completing : GoMap Hash Announce
  queue      : Prque Inject
  queues     : GoMap String Int
  queued     : GoMap Hash Inject
  -- The imports that were started and have not reported.
  running    : List Inject

structure Env where
  now         : Int
  chainHeight : UInt64
  known       : Hash → Bool
  emptyTxs    : Hash
  emptyUncles : Hash
  rand        : Hash → Nat
  lists       : GoMap.RangeOrder Hash (List Announce)
  records     : GoMap.RangeOrder Hash Announce

namespace Fetcher

def new : Fetcher where
  announces  := ∅
  announced  := ∅
  fetching   := ∅
  fetched    := ∅
  completing := ∅
  queue      := Prque.new
  queues     := ∅
  queued     := ∅
  running    := []

def counter (m : GoMap String Int) (peer : String) : Int :=
  (m.lookup peer).getD 0

-- A counter that reaches zero is deleted.
def decrement (m : GoMap String Int) (peer : String) : GoMap String Int :=
  if counter m peer - 1 = 0 then m.erase peer else m.insert peer (counter m peer - 1)

def isTooFar (e : Env) (number : UInt64) : Prop :=
  (number - e.chainHeight).toInt64 < -maxUncleDist.toInt64 ∨
    maxQueueDist.toInt64 < (number - e.chainHeight).toInt64

instance isTooFar_decidable (e : Env) (number : UInt64) : Decidable (isTooFar e number) :=
  inferInstanceAs (Decidable (_ ∨ _))

-- The records of a block, in the order in which they are forgotten.
def recordsOf (f : Fetcher) (hash : Hash) : List Announce :=
  (f.announced.lookup hash).getD [] ++ (f.fetching.lookup hash).toList ++
    (f.fetched.lookup hash).getD [] ++ (f.completing.lookup hash).toList

def forgetHash (f : Fetcher) (hash : Hash) : Fetcher :=
  { f with
    announces  := (f.recordsOf hash).foldl (fun m a => decrement m a.origin) f.announces
    announced  := f.announced.erase hash
    fetching   := f.fetching.erase hash
    fetched    := f.fetched.erase hash
    completing := f.completing.erase hash }

def forgetBlock (f : Fetcher) (hash : Hash) : Fetcher :=
  match f.queued.lookup hash with
  | none    => f
  | some op => { f with queues := decrement f.queues op.origin, queued := f.queued.erase hash }

def push (q : Prque Inject) (op : Inject) : Prque Inject :=
  q.push op (-(SinglePrecision.round op.block.number.toNat))

def enqueue (e : Env) (f : Fetcher) (peer : String) (block : Header) : Fetcher :=
  if counter f.queues peer + 1 > blockLimit ∨ isTooFar e block.number then f.forgetHash block.hash
  else if (f.queued.lookup block.hash).isSome then f
  else
    { f with
      queues := f.queues.insert peer (counter f.queues peer + 1)
      queued := f.queued.insert block.hash ⟨peer, block⟩
      queue  := push f.queue ⟨peer, block⟩ }

-- Each turn takes a block out of the queue, so that its size bounds the turns.
def importQueued (e : Env) : Nat → Fetcher → Fetcher
  | 0,     f => f
  | n + 1, f =>
    match f.queue.pop with
    | none              => f
    | some (⟨op, _⟩, q) =>
      if op.block.number > e.chainHeight + 1 then { f with queue := push q op }
      else if op.block.number + maxUncleDist < e.chainHeight ∨ e.known op.hash then
        importQueued e n ({ f with queue := q }.forgetBlock op.hash)
      else importQueued e n { f with queue := q, running := op :: f.running }

def cleanUp (e : Env) (f : Fetcher) : Fetcher :=
  (e.records.list f.fetching).foldl
    (fun f r => if e.now - r.snd.time > fetchTimeout then f.forgetHash r.fst else f) f

def top (e : Env) (f : Fetcher) : Fetcher :=
  importQueued e (cleanUp e f).queue.values.length (cleanUp e f)

def notify (e : Env) (f : Fetcher) (a : Announce) : Fetcher :=
  if counter f.announces a.origin + 1 > hashLimit then f
  else if a.number > 0 ∧ isTooFar e a.number then f
  else if (f.fetching.lookup a.hash).isSome ∨ (f.completing.lookup a.hash).isSome then f
  else
    { f with
      announces := f.announces.insert a.origin (counter f.announces a.origin + 1)
      announced := f.announced.insert a.hash ((f.announced.lookup a.hash).getD [] ++ [a]) }

def done (f : Fetcher) (hash : Hash) : Fetcher :=
  (f.forgetHash hash).forgetBlock hash

def report (f : Fetcher) (i : Nat) : Fetcher :=
  match f.running[i]? with
  | none    => f
  | some op => { f with running := f.running.eraseIdx i }.done op.hash

def pick (e : Env) (hash : Hash) (l : List Announce) : Option Announce :=
  l[e.rand hash % l.length]?

def isDue (e : Env) (l : List Announce) : Prop :=
  ∃ a ∈ l.head?, e.now - a.time > arriveTimeout - gatherSlack

instance isDue_decidable (e : Env) (l : List Announce) : Decidable (isDue e l) :=
  inferInstanceAs (Decidable (∃ a ∈ l.head?, _))

def fetch (e : Env) (f : Fetcher) (r : Hash × List Announce) : Fetcher :=
  if isDue e r.snd then
    match e.known r.fst, pick e r.fst r.snd with
    | false, some a => { f.forgetHash r.fst with
        fetching := (f.forgetHash r.fst).fetching.insert r.fst a }
    | _,     _      => f.forgetHash r.fst
  else f

def fetchTimer (e : Env) (f : Fetcher) : Fetcher :=
  (e.lists.list f.announced).foldl (fetch e) f

def complete (e : Env) (f : Fetcher) (r : Hash × List Announce) : Fetcher :=
  match e.known r.fst, pick e r.fst r.snd with
  | false, some a => { f.forgetHash r.fst with
      completing := (f.forgetHash r.fst).completing.insert r.fst a }
  | _,     _      => f.forgetHash r.fst

def completeTimer (e : Env) (f : Fetcher) : Fetcher :=
  (e.lists.list f.fetched).foldl (complete e) f

structure Split where
  fetcher    : Fetcher
  unknown    : List Header
  incomplete : List Announce
  complete   : List Header

def splitHeader (e : Env) (time : Int) (s : Split) (header : Header) : Split :=
  let f := s.fetcher
  match f.fetching.lookup header.hash, f.fetched.lookup header.hash,
    f.completing.lookup header.hash, f.queued.lookup header.hash with
  | some a, none, none, none =>
    -- A wrong number also drops the peer.
    if header.number ≠ a.number ∨ e.known header.hash then
      { s with fetcher := f.forgetHash header.hash }
    else
      let a := { a with header := some header, time := time }
      let f := { f with fetching := f.fetching.insert header.hash a }
      if header.txHash = e.emptyTxs ∧ header.uncleHash = e.emptyUncles then
        { s with
          fetcher  := { f with completing := f.completing.insert header.hash a }
          complete := s.complete ++ [header] }
      else { s with fetcher := f, incomplete := s.incomplete ++ [a] }
  | _, _, _, _ => { s with unknown := s.unknown ++ [header] }

def schedule (f : Fetcher) (a : Announce) : Fetcher :=
  match a.header with
  | none        => f
  | some header =>
    if (f.completing.lookup header.hash).isSome then f
    else { f with fetched := f.fetched.insert header.hash
                    ((f.fetched.lookup header.hash).getD [] ++ [a]) }

def enqueueCompleted (e : Env) (f : Fetcher) (block : Header) : Fetcher :=
  match f.completing.lookup block.hash with
  | none   => f
  | some a => enqueue e f a.origin block

def filterHeaders (e : Env) (f : Fetcher) (headers : List Header) (time : Int) :
    Fetcher × List Header :=
  let s := headers.foldl (splitHeader e time) ⟨f, [], [], []⟩
  (s.complete.foldl (enqueueCompleted e) (s.incomplete.foldl schedule s.fetcher), s.unknown)

structure Match where
  fetcher : Fetcher
  rest    : List Body
  blocks  : List Header

def fits (body : Body) (a : Announce) : Option Header :=
  a.header.filter fun h => h.txHash = body.txHash ∧ h.uncleHash = body.uncleHash

def matchRecord (e : Env) (body : Body) (s : Fetcher × List Header × Bool) (r : Hash × Announce) :
    Fetcher × List Header × Bool :=
  match s.fst.queued.lookup r.fst, fits body r.snd with
  | none, some header =>
    if e.known r.fst then (s.fst.forgetHash r.fst, s.snd.fst, true)
    else (s.fst, s.snd.fst ++ [header], true)
  | _, _ => s

def matchBody (e : Env) (s : Match) (body : Body) : Match :=
  let t := (e.records.list s.fetcher.completing).foldl (matchRecord e body)
    (s.fetcher, s.blocks, false)
  ⟨t.fst, if t.snd.snd then s.rest else s.rest ++ [body], t.snd.fst⟩

def filterBodies (e : Env) (f : Fetcher) (bodies : List Body) : Fetcher × List Body :=
  let s := bodies.foldl (matchBody e) ⟨f, [], []⟩
  (s.blocks.foldl (enqueueCompleted e) s.fetcher, s.rest)

inductive Event
  | top
  | notify (a : Announce)
  | inject (op : Inject)
  | done (i : Nat)
  | fetchTimer
  | completeTimer
  | headers (l : List Header) (time : Int)
  | bodies (l : List Body)

def handle (f : Fetcher) (e : Env) : Event → Fetcher
  | .top            => top e f
  | .notify a       => notify e f a
  | .inject op      => enqueue e f op.origin op.block
  | .done i         => report f i
  | .fetchTimer     => fetchTimer e f
  | .completeTimer  => completeTimer e f
  | .headers l time => (filterHeaders e f l time).fst
  | .bodies l       => (filterBodies e f l).fst

-- The states of the loop when every event it handles meets a condition. The first part of the loop
-- counts as an event of its own.
inductive Reached (P : Fetcher → Env → Event → Prop) : Fetcher → Prop
  | new : Reached P new
  | handle {f : Fetcher} {e : Env} {event : Event} :
    Reached P f → P f e event → Reached P (f.handle e event)

end Fetcher

end Eth
