import GoEthereum.Core.Types
import GoEthereum.Lib.Heap
import GoEthereum.Lib.Keyed

-- The transactions of one account by their nonces: a map, a heap of its keys and a sorted cache.

instance uint64Order : LinearOrder UInt64 where
  le_refl          := UInt64.le_refl
  le_trans _ _ _   := UInt64.le_trans
  le_antisymm _ _  := UInt64.le_antisymm
  le_total         := UInt64.le_total
  lt_iff_le_not_ge a b := by
    rw [UInt64.not_le]
    exact ⟨fun h => ⟨UInt64.le_of_lt h, h⟩, And.right⟩
  toDecidableLE    := inferInstance
  toDecidableEq    := inferInstance
  toDecidableLT    := inferInstance

namespace Core

-- `Transaction.Cost`, the amount and the price of the gas.
def Transaction.cost (tx : Transaction) : Int :=
  tx.price * tx.gasLimit + tx.amount

-- The methods return no errors.
abbrev Calls (α : Type) := Go Empty α

section

variable {α : Type} (l : List α) (n : Int)

def sliceFrom : Calls (List α) :=
  if n < 0 ∨ l.length < n then Go.panics else .ok (l.drop n.toNat)

def sliceTo : Calls (List α) :=
  if n < 0 ∨ l.length < n then Go.panics else .ok (l.take n.toNat)

end

structure TxSortedMap where
  items : GoMap UInt64 Transaction
  index : List UInt64
  cache : Option (List Transaction)

abbrev TxRange := GoMap.RangeOrder UInt64 Transaction

namespace TxSortedMap

def new : TxSortedMap :=
  { items := ∅, index := [], cache := none }

-- `m.items[nonce]`, in a list that is returned. Who reads the list dereferences what it holds.
def fetch (items : GoMap UInt64 Transaction) (nonce : UInt64) : Calls Transaction :=
  match items.lookup nonce with
  | none    => Go.panics
  | some tx => .ok tx

variable (m : TxSortedMap)

def get (nonce : UInt64) : Option Transaction :=
  m.items.lookup nonce

-- Inserts a new transaction into the map, and overwrites one with the same nonce.
def put (tx : Transaction) : TxSortedMap where
  items := m.items.insert tx.accountNonce tx
  index :=
    if (m.items.lookup tx.accountNonce).isNone then
      Heap.push m.index tx.accountNonce
    else
      m.index
  cache := none

def forwardLoop (threshold : UInt64) : Nat → GoMap UInt64 Transaction → List UInt64 →
    Calls (List Transaction × GoMap UInt64 Transaction × List UInt64)
  | 0, items, index          => .ok ([], items, index)
  | rounds + 1, items, index =>
    if index ≠ [] ∧ Heap.slot index 0 < threshold then do
      let nonce := (Heap.pop index).fst
      let tx ← fetch items nonce
      let (removed, items, index) ←
        forwardLoop threshold rounds (items.erase nonce) (Heap.pop index).snd
      .ok (tx :: removed, items, index)
    else
      .ok ([], items, index)

-- Removes all transactions from the map with a nonce lower than the provided threshold.
def forward (threshold : UInt64) : Calls (List Transaction × TxSortedMap) := do
  let (removed, items, index) ← forwardLoop threshold m.index.length m.items m.index
  let cache ← m.cache.mapM (sliceFrom · removed.length)
  .ok (removed, { items, index, cache })

-- Iterates over the list of transactions and removes all of them for which the specified function
-- evaluates to true.
def filter (ω : TxRange) (p : Transaction → Bool) : List Transaction × TxSortedMap :=
  let removed := (ω.list m.items).filter fun e => p e.snd
  let items := removed.foldl (fun items e => items.erase e.fst) m.items
  let m :=
    if removed.isEmpty then
      { m with items := items }
    else
      { items := items, index := Heap.init ((ω.list items).map Prod.fst), cache := none }
  (removed.map Prod.snd, m)

def capLoop (threshold : Int) (index : List UInt64) : Nat → GoMap UInt64 Transaction →
    Calls (List Transaction × GoMap UInt64 Transaction)
  | 0, items        => if (0 : Int) > threshold then Go.panics else .ok ([], items)
  | size + 1, items =>
    if ((size + 1 : Nat) : Int) > threshold then
      match index[size]? with
      | none       => Go.panics
      | some nonce => do
        let tx ← fetch items nonce
        let (drops, items) ← capLoop threshold index size (items.erase nonce)
        .ok (tx :: drops, items)
    else
      .ok ([], items)

-- Places a hard limit on the number of items, returning all transactions exceeding that limit.
def cap (threshold : Int) : Calls (List Transaction × TxSortedMap) :=
  if (m.items.entries.length : Int) ≤ threshold then
    .ok ([], m)
  else do
    let index := m.index.insertionSort (· ≤ ·)
    let (drops, items) ← capLoop threshold index m.items.entries.length m.items
    let index ← sliceTo index threshold
    let cache ← m.cache.mapM fun c => sliceTo c (c.length - drops.length)
    .ok (drops, { items, index := Heap.init index, cache })

-- Deletes a transaction from the maintained map, returning whether the transaction was found.
def remove (nonce : UInt64) : Bool × TxSortedMap :=
  match m.items.lookup nonce with
  | none   => (false, m)
  | some _ =>
    (true,
      { items := m.items.erase nonce
        index :=
          match m.index.findIdx? (· == nonce) with
          | none   => m.index
          | some i => (Heap.remove m.index i).snd
        cache := none })

def readyLoop : Nat → UInt64 → GoMap UInt64 Transaction → List UInt64 →
    Calls (List Transaction × GoMap UInt64 Transaction × List UInt64)
  | 0, _, items, index             => .ok ([], items, index)
  | rounds + 1, next, items, index =>
    if index ≠ [] ∧ Heap.slot index 0 = next then do
      let tx ← fetch items next
      let (ready, items, index) ←
        readyLoop rounds (next + 1) (items.erase next) (Heap.pop index).snd
      .ok (tx :: ready, items, index)
    else
      .ok ([], items, index)

-- Retrieves a sequentially increasing list of transactions starting at the provided nonce that is
-- ready for processing.
def ready (start : UInt64) : Calls (List Transaction × TxSortedMap) :=
  if m.index = [] ∨ Heap.slot m.index 0 > start then
    .ok ([], m)
  else do
    let (ready, items, index) ←
      readyLoop m.index.length (Heap.slot m.index 0) m.items m.index
    .ok (ready, { items, index, cache := none })

def len : Nat :=
  m.items.entries.length

-- Creates a nonce-sorted slice of transactions. The result of the sorting is cached.
def flatten (ω : TxRange) : List Transaction × TxSortedMap :=
  let cache := m.cache.getD <|
    ((ω.list m.items).map Prod.snd).insertionSort fun a b => a.accountNonce ≤ b.accountNonce
  (cache, { m with cache := some cache })

end TxSortedMap

-- A list of transactions belonging to an account, sorted by account nonce.
structure TxList where
  strict  : Bool
  txs     : TxSortedMap
  -- Price of the highest costing transaction (reset only if exceeds balance).
  costcap : Int

namespace TxList

def new (strict : Bool) : TxList :=
  { strict, txs := TxSortedMap.new, costcap := 0 }

variable (l : TxList)

-- Tries to insert a new transaction. Returns whether it was accepted, and the one that it replaced.
def add (tx : Transaction) : (Bool × Option Transaction) × TxList :=
  let old := l.txs.get tx.accountNonce
  if old.any (·.price ≥ tx.price) then
    ((false, none), l)
  else
    ((true, old), { l with
      txs     := l.txs.put tx
      costcap := if l.costcap < tx.cost then tx.cost else l.costcap })

def forward (threshold : UInt64) : Calls (List Transaction × TxList) := do
  let (removed, txs) ← l.txs.forward threshold
  .ok (removed, { l with txs })

def lower (lowest : UInt64) (tx : Transaction) : UInt64 :=
  if lowest > tx.accountNonce then tx.accountNonce else lowest

-- `math.MaxUint64`, lowered to every nonce in turn.
def lowest (txs : List Transaction) : UInt64 :=
  txs.foldl lower (UInt64.ofNat (UInt64.size - 1))

-- Removes all transactions from the list with a cost higher than the provided threshold. Strict-mode
-- invalidated transactions are also returned.
def filter (ω : TxRange) (threshold : Int) : (List Transaction × List Transaction) × TxList :=
  if l.costcap ≤ threshold then
    (([], []), l)
  else
    let (removed, txs) := l.txs.filter ω fun tx => tx.cost > threshold
    if l.strict ∧ removed ≠ [] then
      let (invalids, txs) := txs.filter ω fun tx => tx.accountNonce > lowest removed
      ((removed, invalids), { l with txs, costcap := threshold })
    else
      ((removed, []), { l with txs, costcap := threshold })

def cap (threshold : Int) : Calls (List Transaction × TxList) := do
  let (drops, txs) ← l.txs.cap threshold
  .ok (drops, { l with txs })

-- Deletes a transaction. Returns whether it was found, and what is invalidated by that in strict
-- mode.
def remove (ω : TxRange) (tx : Transaction) : (Bool × List Transaction) × TxList :=
  match l.txs.remove tx.accountNonce with
  | (false, _)  => ((false, []), l)
  | (true, txs) =>
    if l.strict then
      let (invalids, txs) := txs.filter ω fun t => t.accountNonce > tx.accountNonce
      ((true, invalids), { l with txs })
    else
      ((true, []), { l with txs })

def ready (start : UInt64) : Calls (List Transaction × TxList) := do
  let (ready, txs) ← l.txs.ready start
  .ok (ready, { l with txs })

def len : Nat :=
  l.txs.len

def empty : Bool :=
  l.len = 0

def flatten (ω : TxRange) : List Transaction × TxList :=
  let (txs, m) := l.txs.flatten ω
  (txs, { l with txs := m })

end TxList

end Core
