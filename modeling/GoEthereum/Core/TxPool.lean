import GoEthereum.Core.IntrinsicGas
import GoEthereum.Core.TxList
import GoEthereum.Lib.SinglePrecision

-- The transaction pool: executable transactions by account, queued ones, and an index by hash.

namespace Core

open Common

def minPendingPerAccount : Nat :=
  16

def maxPendingTotal : Nat :=
  4096

def maxQueuedPerAccount : Nat :=
  64

def maxQueuedInTotal : Nat :=
  1024

-- Three hours, in seconds.
def maxQueuedLifetime : Int :=
  3 * 60 * 60

structure Accounts where
  nonce   : Address → UInt64
  balance : Address → Int

-- A sorting of addresses by a key. The order of equal keys is open.
structure Sorting where
  list   : (Address → Int) → List Address → List Address
  perm   : ∀ key l, (list key l).Perm l
  sorted : ∀ key l, (list key l).Pairwise fun a b => key a ≤ key b

-- What a call finds around the pool, and the orders that it happens to take.
structure PoolEnv where
  hash     : Transaction → Hash
  -- `types.Sender` with the signer of the pool. `none` is an error.
  sender   : Transaction → Option Address
  -- `pool.currentState()`. `none` is an error.
  current  : Option Accounts
  gasLimit : Int
  now      : Int
  txRange  : TxRange
  range    : GoMap.RangeOrder Address TxList
  sorting  : Sorting

structure TxPool where
  -- The nonces of the managed state. A nonce that is set there stays until it is set again.
  pendingState : Address → UInt64
  minGasPrice  : Int
  localTx      : GoMap Hash Unit
  pending      : GoMap Address TxList
  queue        : GoMap Address TxList
  all          : GoMap Hash Transaction
  beats        : GoMap Address Int
  homestead    : Bool

inductive PoolError
  | known (hash : Hash)
  | currentState
  | invalidSender
  | nonce
  | cheap
  | insufficientFunds
  | intrinsicGas
  | gasLimit
  | negativeValue
  deriving DecidableEq

namespace TxPool

variable (E : PoolEnv) (pool : TxPool)

def isLocal (tx : Transaction) : Bool :=
  (pool.localTx.lookup (E.hash tx)).isSome

-- Checks whether a transaction is valid according to the consensus rules.
def validateTx (tx : Transaction) : Except PoolError Unit := do
  if !pool.isLocal E tx && pool.minGasPrice > tx.price then
    throw .cheap
  let some state := E.current | throw .currentState
  let some sender := E.sender tx | throw .invalidSender
  if state.nonce sender > tx.accountNonce then
    throw .nonce
  if E.gasLimit < tx.gasLimit then
    throw .gasLimit
  if tx.amount < 0 then
    throw .negativeValue
  if state.balance sender < tx.cost then
    throw .insufficientFunds
  if tx.gasLimit < Core.intrinsicGas tx.payload tx.recipient.isNone pool.homestead then
    throw .intrinsicGas

-- `from, _ := types.Sender(pool.signer, tx)`
def senderOf (tx : Transaction) : Address :=
  (E.sender tx).getD Address.zero

def deleteAll (txs : List Transaction) : TxPool :=
  { pool with all := txs.foldl (fun all tx => all.erase (E.hash tx)) pool.all }

-- Inserts a new transaction into the non-executable transaction queue.
def enqueueTx (tx : Transaction) : TxPool :=
  let sender := senderOf E tx
  match ((pool.queue.lookup sender).getD (TxList.new false)).add tx with
  | ((false, _), list) => { pool with queue := pool.queue.insert sender list }
  | ((true, old), list) =>
    { pool with
      queue := pool.queue.insert sender list
      all   := ((pool.deleteAll E old.toList).all).insert (E.hash tx) tx }

-- Adds a transaction to the pending (processable) list of transactions.
def promoteTx (addr : Address) (tx : Transaction) : TxPool :=
  match ((pool.pending.lookup addr).getD (TxList.new true)).add tx with
  | ((false, _), list) =>
    { pool.deleteAll E [tx] with pending := pool.pending.insert addr list }
  | ((true, old), list) =>
    { pool with
      pending      := pool.pending.insert addr list
      all          := ((pool.deleteAll E old.toList).all).insert (E.hash tx) tx
      beats        := pool.beats.insert addr E.now
      pendingState := Function.update pool.pendingState addr (tx.accountNonce + 1) }

-- Validates a transaction and inserts it into the non-executable queue for later pending promotion
-- and execution.
def add (tx : Transaction) : Except PoolError TxPool := do
  if (pool.all.lookup (E.hash tx)).isSome then
    throw (.known (E.hash tx))
  pool.validateTx E tx
  return pool.enqueueTx E tx

-- Removes the transaction from the pending lists and resets the account nonce.
def removePending (addr : Address) (tx : Transaction) : TxPool :=
  match pool.pending.lookup addr with
  | none      => pool
  | some list =>
    match list.remove E.txRange tx with
    | ((false, _), _)         => pool
    | ((true, invalids), list) =>
      let pool :=
        if list.empty then
          { pool with pending := pool.pending.erase addr, beats := pool.beats.erase addr }
        else
          invalids.foldl (enqueueTx E) { pool with pending := pool.pending.insert addr list }
      if pool.pendingState addr > tx.accountNonce then
        { pool with pendingState := Function.update pool.pendingState addr tx.accountNonce }
      else
        pool

def removeQueued (addr : Address) (tx : Transaction) : TxPool :=
  match pool.queue.lookup addr with
  | none      => pool
  | some list =>
    let list := (list.remove E.txRange tx).snd
    { pool with
      queue := if list.empty then pool.queue.erase addr else pool.queue.insert addr list }

-- Removes a single transaction from the queue, moving all subsequent transactions back to the
-- future queue.
def removeTx (hash : Hash) : TxPool :=
  match pool.all.lookup hash with
  | none    => pool
  | some tx =>
    let pool := { pool with all := pool.all.erase hash }
    let pool := pool.removePending E (senderOf E tx) tx
    pool.removeQueued E (senderOf E tx) tx

def removeTxs (txs : List Transaction) : TxPool :=
  txs.foldl (fun pool tx => pool.removeTx E (E.hash tx)) pool

-- One account of the loop over the queue. The first component counts the queued transactions.
def promoteAccount (state : Accounts) (p : Nat × TxPool) (addr : Address) : Calls (Nat × TxPool) :=
  match p.snd.queue.lookup addr with
  | none      => .ok p
  | some list => do
    let (old, list) ← list.forward (state.nonce addr)
    let ((drops, _), list) := list.filter E.txRange (state.balance addr)
    let pool := (p.snd.deleteAll E old).deleteAll E drops
    let (ready, list) ← list.ready (pool.pendingState addr)
    let pool := ready.foldl (promoteTx E · addr) pool
    let (capped, list) ← list.cap maxQueuedPerAccount
    let pool := pool.deleteAll E capped
    .ok (p.fst + list.len,
      { pool with
        queue := if list.empty then pool.queue.erase addr else pool.queue.insert addr list })

-- Iterates over all accounts and promotes any executable transactions.
def promoteQueue (pool : TxPool) (state : Accounts) : Calls (Nat × TxPool) :=
  ((E.range.list pool.queue).map Prod.fst).foldlM (promoteAccount E state) (0, pool)

-- `list.Cap(list.Len() - 1)`. The map of a nil list is read.
def cutOne (pending : GoMap Address TxList) (addr : Address) : Calls (GoMap Address TxList) :=
  match pending.lookup addr with
  | none      => Go.panics
  | some list => do
    let (_, list) ← list.cap (list.len - 1)
    .ok (pending.insert addr list)

def cutRound (offenders : List Address) (pending : GoMap Address TxList) :
    Calls (GoMap Address TxList) :=
  offenders.foldlM cutOne pending

def lenAt (pending : GoMap Address TxList) (addr : Address) : Nat :=
  (pending.lookup addr).elim 0 TxList.len

-- Reduces the offenders until below limit or until the account at `addr` is down to the threshold.
-- Every round shortens the list of that account.
def cutLoop (offenders : List Address) (addr : Address) (threshold : Nat) :
    Nat → Nat → GoMap Address TxList → Calls (Nat × GoMap Address TxList)
  | 0, count, pending          => .ok (count, pending)
  | rounds + 1, count, pending =>
    if count > maxPendingTotal ∧ lenAt pending addr > threshold then do
      let pending ← cutRound offenders pending
      cutLoop offenders addr threshold rounds (count - offenders.length) pending
    else
      .ok (count, pending)

-- Gradually drops transactions from offenders. The last offender is the first one of the list here.
def equalize : List Address → List Address → Nat → GoMap Address TxList →
    Calls (List Address × Nat × GoMap Address TxList)
  | [], offenders, count, pending                    => .ok (offenders, count, pending)
  | offender :: spammers, offenders, count, pending =>
    if count > maxPendingTotal then
      match offenders with
      | []        => equalize spammers [offender] count pending
      | last :: _ => do
        let (count, pending) ← cutLoop offenders.reverse last (lenAt pending offender)
          (lenAt pending last) count pending
        equalize spammers (offender :: offenders) count pending
    else
      .ok (offenders, count, pending)

-- Only high rollers are evicted from, and no local accounts. Checking one transaction for locality
-- is enough.
def isSpammer (txRange : TxRange) (isLocal : Transaction → Bool) (list : TxList) : Bool :=
  list.len > minPendingPerAccount &&
    match txRange.list list.txs.items with
    | []          => false
    | (_, tx) :: _ => !isLocal tx

def spammers (isLocal : Transaction → Bool) (pending : GoMap Address TxList) : List Address :=
  let found := (E.range.list pending).filter fun e => isSpammer E.txRange isLocal e.snd
  -- The queue pops the highest priority first, and a priority is a `float32`.
  E.sorting.list (fun addr => -(SinglePrecision.round (lenAt pending addr) : Int))
    (found.map Prod.fst)

-- If the pending limit is overflown, starts equalizing allowances.
def limitPending (isLocal : Transaction → Bool) (pending : GoMap Address TxList) :
    Calls (GoMap Address TxList) :=
  let count := GoMap.total pending TxList.len
  if count > maxPendingTotal then do
    let (offenders, count, pending) ← equalize (spammers E isLocal pending) [] count pending
    match offenders with
    | []        => .ok pending
    | last :: _ => do
      let (_, pending) ← cutLoop offenders.reverse last minPendingPerAccount (lenAt pending last)
        count pending
      .ok pending
  else
    .ok pending

-- Drops transactions until the total is below the limit. The last address is the first one here.
def dropLoop : Nat → List Address → TxPool → Calls TxPool
  | 0, _, pool                       => .ok pool
  | _ + 1, [], _                     => Go.panics
  | drop + 1, addr :: addresses, pool =>
    match pool.queue.lookup addr with
    | none      => Go.panics
    | some list =>
      let (txs, flat) := list.flatten E.txRange
      let pool := { pool with queue := pool.queue.insert addr flat }
      if list.len ≤ drop + 1 then
        dropLoop (drop + 1 - list.len) addresses (pool.removeTxs E txs)
      else
        .ok (pool.removeTxs E (txs.reverse.take (drop + 1)))

-- If we've queued more transactions than the hard limit, drops oldest ones.
def limitQueue (queued : Nat) (pool : TxPool) : Calls TxPool :=
  let addresses := E.sorting.list (fun addr => (pool.beats.lookup addr).getD 0)
    ((E.range.list pool.queue).map Prod.fst)
  dropLoop E (queued - maxQueuedInTotal) addresses.reverse pool

-- Moves processable transactions from the queue to the pending ones. Invalidated ones (low nonce,
-- low balance) are deleted.
def promoteExecutables (pool : TxPool) (state : Accounts) : Calls TxPool := do
  let (queued, pool) ← promoteQueue E pool state
  let pending ← limitPending E (pool.isLocal E) pool.pending
  limitQueue E queued { pool with pending := pending }

def demoteAccount (state : Accounts) (pool : TxPool) (addr : Address) : Calls TxPool :=
  match pool.pending.lookup addr with
  | none      => .ok pool
  | some list => do
    let (old, list) ← list.forward (state.nonce addr)
    let ((drops, invalids), list) := list.filter E.txRange (state.balance addr)
    let pool := invalids.foldl (enqueueTx E) ((pool.deleteAll E old).deleteAll E drops)
    .ok <|
      if list.empty then
        { pool with pending := pool.pending.erase addr, beats := pool.beats.erase addr }
      else
        { pool with pending := pool.pending.insert addr list }

-- Removes invalid and processed transactions from the pending ones. Those that become unexecutable
-- are moved back into the queue.
def demoteUnexecutables (pool : TxPool) (state : Accounts) : Calls TxPool :=
  ((E.range.list pool.pending).map Prod.fst).foldlM (demoteAccount E state) pool

def updateNonce (pool : TxPool) (addr : Address) : Calls TxPool :=
  match pool.pending.lookup addr with
  | none      => .ok pool
  | some list =>
    let (txs, list) := list.flatten E.txRange
    match txs.getLast? with
    | none    => Go.panics
    | some tx => .ok
      { pool with
        pending      := pool.pending.insert addr list
        pendingState := Function.update pool.pendingState addr (tx.accountNonce + 1) }

def resetState (pool : TxPool) : Calls TxPool :=
  match E.current with
  | none       => .ok pool
  | some state => do
    let pool ← demoteUnexecutables E { pool with pendingState := state.nonce } state
    let pool ← ((E.range.list pool.pending).map Prod.fst).foldlM (updateNonce E) pool
    promoteExecutables E pool state

-- `TxPool.Add`: queues a single transaction if it is valid. An error before that leaves the pool as
-- it is.
def addTx (tx : Transaction) : Go PoolError TxPool :=
  match pool.add E tx, E.current with
  | .error e, _          => Go.fail e
  | .ok _, none          => Go.fail .currentState
  | .ok pool, some state =>
    match promoteExecutables E pool state with
    | .ok pool => .ok pool
    | .error _ => Go.panics

def addBatch (txs : List Transaction) : Go PoolError TxPool :=
  let pool := txs.foldl (fun pool tx =>
    match pool.add E tx with
    | .ok pool => pool
    | .error _ => pool) pool
  match E.current with
  | none       => Go.fail .currentState
  | some state =>
    match promoteExecutables E pool state with
    | .ok pool => .ok pool
    | .error _ => Go.panics

-- `TxPool.Pending`, without the lists that it returns.
def refresh : Go PoolError TxPool :=
  match E.current with
  | none       => Go.fail .currentState
  | some state =>
    match promoteExecutables E pool state >>= (demoteUnexecutables E · state) with
    | .ok pool => .ok pool
    | .error _ => Go.panics

def expire : TxPool :=
  ((E.range.list pool.queue).map Prod.fst).foldl (fun pool addr =>
    if E.now - (pool.beats.lookup addr).getD 0 > maxQueuedLifetime then
      match pool.queue.lookup addr with
      | none      => pool
      | some list =>
        let (txs, flat) := list.flatten E.txRange
        { pool with queue := pool.queue.insert addr flat }.removeTxs E txs
    else
      pool) pool

end TxPool

end Core
