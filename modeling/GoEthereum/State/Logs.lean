import GoEthereum.State.Revert

-- The logs of a block, and how they are numbered.

namespace State

open Common

inductive LogOp
  | startRecord (thash bhash : Hash) (ti : UInt64)
  | addLog (log : Log)
  | snapshot
  | revertToSnapshot (revid : Nat)

def LogOp.op : LogOp → Op
  | startRecord thash bhash ti => .startRecord thash bhash ti
  | addLog log                 => .addLog log
  | snapshot                   => .snapshot
  | revertToSnapshot revid     => .revertToSnapshot revid

-- What the calls are meant to do: the logs that are kept, numbered in their order, and those that
-- were kept at each snapshot.
structure LogBook where
  thash   : Hash
  bhash   : Hash
  txIndex : UInt64
  kept    : List Log
  marks   : List (Nat × List Log)
  next    : Nat

namespace LogBook

def empty : LogBook where
  thash   := Hash.zero
  bhash   := Hash.zero
  txIndex := 0
  kept    := []
  marks   := []
  next    := 0

def entry (b : LogBook) (log : Log) : Log :=
  { log with
    txHash := b.thash, blockHash := b.bhash, txIndex := b.txIndex, index := .ofNat b.kept.length }

-- `none` for a snapshot that is not there.
def step (b : LogBook) : LogOp → Option LogBook
  | .startRecord thash bhash ti => some { b with thash := thash, bhash := bhash, txIndex := ti }
  | .addLog log                 => some { b with kept := b.kept ++ [b.entry log] }
  | .snapshot                   => some { b with marks := b.marks ++ [(b.next, b.kept)], next := b.next + 1 }
  | .revertToSnapshot revid     => (b.marks.find? (·.fst = revid)).map fun m =>
    { b with kept := m.snd, marks := b.marks.takeWhile (·.fst ≠ revid) }

def run (b : LogBook) (ops : List LogOp) : Option LogBook :=
  ops.foldlM step b

def Numbered (logs : List Log) : Prop :=
  ∀ (i : Nat) (log : Log), logs[i]? = some log → log.index.toNat = i

theorem Numbered.concat {logs : List Log} {log : Log} (h : Numbered logs)
    (hn : log.index.toNat = logs.length) : Numbered (logs ++ [log]) := by
  intro i l hl
  by_cases hi : i < logs.length
  case pos => exact h i l (by rwa [List.getElem?_append_left hi] at hl)
  case neg =>
    obtain ⟨hlt, -⟩ := List.getElem?_eq_some_iff.mp hl
    have he : i = logs.length := by
      simp only [List.length_append, List.length_singleton] at hlt
      omega
    rw [he, List.getElem?_concat_length, Option.some.injEq] at hl
    rw [← hl, hn, he]

theorem Numbered.of_prefix {logs logs' : List Log} (h : Numbered logs') (hp : logs <+: logs') :
    Numbered logs := by
  intro i l hl
  obtain ⟨t, rfl⟩ := hp
  exact h i l (by rw [List.getElem?_append_left (List.getElem?_eq_some_iff.mp hl).choose, hl])

end LogBook

namespace StateDB

def getLogs (s : StateDB) (hash : Hash) : List Log :=
  (s.logs.lookup hash).getD []

-- `StateDB.Logs`
def allLogs (s : StateDB) : List Log :=
  s.logs.entries.flatMap (·.snd)

-- Logs are only added while the counter is the number of the logs that are kept.
def Counted (H : Hashing) (s : StateDB) : List LogOp → Prop
  | []        => True
  | op :: ops => (∀ log, op = .addLog log → s.logSize.toNat = s.allLogs.length) ∧
    ∀ s', s.step H op.op = some s' → Counted H s' ops

-- The same as a check that can be evaluated.
def checkCounted (H : Hashing) (s : StateDB) : List LogOp → Bool
  | []        => true
  | op :: ops =>
    (match op with
      | .addLog _ => s.logSize.toNat = s.allLogs.length
      | _         => true) && (s.step H op.op).all (checkCounted H · ops)

theorem counted_of_checkCounted {H : Hashing} {s : StateDB} {ops : List LogOp}
    (h : s.checkCounted H ops) : s.Counted H ops := by
  induction ops generalizing s
  case nil => trivial
  case cons op ops hi =>
    obtain ⟨hp, h⟩ := Bool.and_eq_true_iff.mp h
    refine ⟨fun log ho => by simpa [ho] using hp, fun s' hs' => hi ?_⟩
    rwa [hs'] at h

end StateDB

-- The map holds the logs, under the hashes of their transactions.
structure Filed (m : GoMap Hash (List Log)) (kept : List Log) : Prop where
  get   : ∀ h, (m.lookup h).getD [] = kept.filter (·.txHash = h)
  count : m.total List.length = kept.length

namespace Filed

variable {m : GoMap Hash (List Log)} {kept kept' : List Log} {log : Log} {s : StateDB}

theorem allLogs_length (h : Filed s.logs kept) : s.allLogs.length = kept.length := by
  rw [← h.count, StateDB.allLogs, List.length_flatMap]
  rfl

theorem total_eq (h : Filed m kept) (k : Hash) :
    (kept.filter (·.txHash = k)).length + GoMap.total (m.erase k) List.length = kept.length := by
  rw [← h.count, ← h.get k]
  cases hl : m.lookup k
  case none   => rw [GoMap.total_erase_of_lookup_none hl, Option.getD_none, List.length_nil, zero_add]
  case some l => rw [GoMap.total_of_lookup hl, Option.getD_some]

theorem filter_concat_self : (kept ++ [log]).filter (·.txHash = log.txHash) =
    kept.filter (·.txHash = log.txHash) ++ [log] := by
  simp

theorem filter_concat_of_ne {k : Hash} (h : k ≠ log.txHash) :
    (kept ++ [log]).filter (·.txHash = k) = kept.filter (·.txHash = k) := by
  simp [h.symm]

theorem add (h : Filed m kept) :
    Filed (m.insert log.txHash ((m.lookup log.txHash).getD [] ++ [log])) (kept ++ [log]) where
  get k := by
    rw [GoMap.lookup_insert_eq_ite]
    split
    case isTrue hk  => rw [hk, Option.getD_some, h.get, filter_concat_self]
    case isFalse hk => rw [h.get, filter_concat_of_ne hk]
  count := by
    have := h.total_eq log.txHash
    rw [GoMap.total_insert, h.get]
    simp only [List.length_append, List.length_singleton]
    omega

theorem undo (h : Filed s.logs (kept ++ [log])) :
    ∃ m, StateDB.undo (.addLog log.txHash) s = some { s with logs := m } ∧ Filed m kept := by
  have hget := h.get log.txHash
  have htotal := h.total_eq log.txHash
  rw [filter_concat_self] at hget htotal
  simp only [List.length_append, List.length_singleton] at htotal
  cases hf : kept.filter (·.txHash = log.txHash)
  case nil =>
    refine ⟨s.logs.erase log.txHash, ?_, fun k => ?_, ?_⟩
    case refine_1 => simp only [StateDB.undo, hget, hf, List.nil_append]
    case refine_2 =>
      rw [GoMap.lookup_erase_eq_ite]
      split
      case isTrue hk  => rw [hk, hf, Option.getD_none]
      case isFalse hk => rw [h.get, filter_concat_of_ne hk]
    case refine_3 =>
      rw [hf, List.length_nil] at htotal
      omega
  case cons l ls =>
    refine ⟨s.logs.insert log.txHash (l :: ls), ?_, fun k => ?_, ?_⟩
    case refine_1 =>
      rw [hf] at hget
      have hu : StateDB.undo (.addLog log.txHash) s = some { s with
          logs := s.logs.insert log.txHash (l :: ls ++ [log]).dropLast } := by
        cases ls <;> simp only [StateDB.undo, hget, List.cons_append, List.nil_append]
      rw [hu, List.dropLast_concat]
    case refine_2 =>
      rw [GoMap.lookup_insert_eq_ite]
      split
      case isTrue hk  => rw [hk, hf, Option.getD_some]
      case isFalse hk => rw [h.get, filter_concat_of_ne hk]
    case refine_3 =>
      rw [GoMap.total_insert]
      rw [hf] at htotal
      omega

theorem undoAll (h : Filed s.logs (kept ++ kept')) :
    ∃ m, StateDB.undoAll (kept'.map fun log => .addLog log.txHash) s = some { s with logs := m } ∧
      Filed m kept := by
  induction kept' using List.reverseRecOn generalizing s
  case nil => exact ⟨s.logs, rfl, by simpa using h⟩
  case append_singleton kept' log hi =>
    rw [← List.append_assoc] at h
    obtain ⟨m, hm, h⟩ := h.undo
    obtain ⟨m', hm', h'⟩ := hi (s := { s with logs := m }) h
    refine ⟨m', ?_, h'⟩
    rw [List.map_append, List.map_singleton, StateDB.undoAll_concat, hm]
    exact hm'

end Filed

-- The state is where the book is: it has the same logs, and its journal leads back through them.
structure Booked (s : StateDB) (b : LogBook) : Prop where
  thash     : s.thash = b.thash
  bhash     : s.bhash = b.bhash
  txIndex   : s.txIndex = b.txIndex
  journal   : s.journal = b.kept.map fun log => .addLog log.txHash
  filed     : Filed s.logs b.kept
  numbered  : LogBook.Numbered b.kept
  next      : s.nextRevisionId = b.next
  marks     : s.validRevisions = b.marks.map fun m => ⟨m.fst, m.snd.length⟩
  saved     : ∀ m ∈ b.marks, m.snd <+: b.kept
  revisions : StateDB.Revisions s.journal.length s.nextRevisionId s.validRevisions

namespace Booked

variable {H : Hashing} {s s' : StateDB} {b : LogBook}

theorem empty {root : Hash} {db : Database} (h : StateDB.new root db = some s) :
    Booked s LogBook.empty := by
  obtain ⟨t, -, rfl⟩ := Option.map_eq_some_iff.mp h
  exact ⟨rfl, rfl, rfl, rfl, ⟨fun _ => rfl, rfl⟩, by simp [LogBook.Numbered, LogBook.empty], rfl, rfl,
    by simp [LogBook.empty], .nil⟩

variable (hb : Booked s b)
include hb

theorem addLog (hn : s.logSize.toNat = s.allLogs.length) (log : Log) :
    Booked (s.addLog log) { b with kept := b.kept ++ [b.entry log] } := by
  have hsize : s.logSize = .ofNat b.kept.length := by
    rw [← hb.filed.allLogs_length, ← hn, UInt64.ofNat_toNat]
  have hlog : { log with
      txHash := s.thash, blockHash := s.bhash, txIndex := s.txIndex, index := s.logSize } =
        b.entry log := by
    rw [LogBook.entry, hb.thash, hb.bhash, hb.txIndex, hsize]
  have hth : s.thash = (b.entry log).txHash := hb.thash
  refine { hb with journal := ?_, filed := ?_, numbered := ?_, saved := ?_, revisions := ?_ }
  case refine_1 => simp [StateDB.addLog, StateDB.append, hb.journal, hth]
  case refine_2 =>
    simp only [StateDB.addLog, StateDB.append, hlog]
    rw [hth]
    exact hb.filed.add
  case refine_3 =>
    refine hb.numbered.concat ?_
    change (UInt64.ofNat b.kept.length).toNat = b.kept.length
    rw [← hsize, hn, hb.filed.allLogs_length]
  case refine_4 => exact fun m hm => (hb.saved m hm).trans (List.prefix_append _ _)
  case refine_5 => exact hb.revisions.mono (by simp [StateDB.addLog, StateDB.append])

theorem snapshot :
    Booked s.snapshot.snd { b with marks := b.marks ++ [(b.next, b.kept)], next := b.next + 1 } := by
  have hlen : s.journal.length = b.kept.length := by rw [hb.journal, List.length_map]
  refine { hb with next := ?_, marks := ?_, saved := ?_, revisions := hb.revisions.concat }
  case refine_1 => simp [StateDB.snapshot, hb.next]
  case refine_2 => simp [StateDB.snapshot, hb.marks, hb.next, hlen]
  case refine_3 =>
    intro m hm
    rcases List.mem_append.mp hm with hm | hm
    case inl => exact hb.saved m hm
    case inr =>
      rw [List.mem_singleton.mp hm]

theorem revertToSnapshot {revid : Nat} (hs : s.revertToSnapshot revid = some s') :
    ∃ b', b.step (.revertToSnapshot revid) = some b' ∧ Booked s' b' := by
  obtain ⟨rs, r, rs', hr, rfl⟩ := StateDB.revertToSnapshot_eq_some hs
  rw [StateDB.revertToSnapshot_of_mem hb.revisions hr] at hs
  obtain ⟨t, ht, rfl⟩ := Option.map_eq_some_iff.mp hs
  -- The mark of the snapshot in the book, and what was added since then.
  obtain ⟨ms, ms', hms, rfl, hms'⟩ := List.map_eq_append_iff.mp (hb.marks.symm.trans hr)
  obtain ⟨⟨id, saved⟩, ms', rfl, rfl, rfl⟩ := List.map_eq_cons_iff.mp hms'
  have hmem : (id, saved) ∈ b.marks := by simp [hms]
  obtain ⟨rest, hkept⟩ := hb.saved _ hmem
  have hj : s.journal = saved.map (fun log => .addLog log.txHash) ++
      rest.map fun log => .addLog log.txHash := by
    rw [hb.journal, ← hkept, List.map_append]
  have hlen : saved.length = (saved.map fun log => JournalEntry.addLog log.txHash).length := by simp
  obtain ⟨m, hm, hfiled⟩ := Filed.undoAll (hkept.symm ▸ hb.filed)
  rw [hj, hlen, List.drop_left, hm] at ht
  cases ht
  have hrev := hr ▸ hb.revisions
  have hids : ∀ q ∈ ms, q.fst < id := fun q hq =>
    (List.pairwise_append.mp hrev.ids).right.right _ (List.mem_map_of_mem hq) _ List.mem_cons_self
  refine ⟨{ b with kept := saved, marks := ms }, ?_, ?_⟩
  case refine_1 =>
    have hfind : ms.find? (·.fst = id) = none :=
      List.find?_eq_none.mpr fun q hq => by simpa using (hids q hq).ne
    simp only [LogBook.step, hms]
    rw [List.find?_append, hfind, List.takeWhile_append_of_pos fun q hq => by simpa using (hids q hq).ne]
    simp
  case refine_2 =>
    refine { hb with
      journal := ?_, filed := hfiled, numbered := ?_, marks := rfl, saved := ?_, revisions := ?_ }
    case refine_1 =>
      rw [hj, hlen, List.take_left]
    case refine_2 => exact hb.numbered.of_prefix (hb.saved _ hmem)
    case refine_3 =>
      intro q hq
      refine List.prefix_of_prefix_length_le (hb.saved q ?_) (hb.saved _ hmem) ?_
      case refine_1 => simp [hms, hq]
      case refine_2 => exact hrev.left.within _ (List.mem_map_of_mem hq)
    case refine_4 =>
      have hl : (s.journal.take saved.length).length = saved.length := by
        rw [hj, hlen, List.take_left]
      rw [hl]
      exact hrev.left

theorem step {op : LogOp} (hc : ∀ log, op = .addLog log → s.logSize.toNat = s.allLogs.length)
    (hs : s.step H op.op = some s') : ∃ b', b.step op = some b' ∧ Booked s' b' := by
  cases op <;> simp only [LogOp.op, StateDB.step] at hs
  case startRecord thash bhash ti =>
    cases hs
    exact ⟨_, rfl, { hb with thash := rfl, bhash := rfl, txIndex := rfl }⟩
  case addLog log =>
    cases hs
    exact ⟨_, rfl, hb.addLog (hc log rfl) log⟩
  case snapshot =>
    cases hs
    exact ⟨_, rfl, hb.snapshot⟩
  case revertToSnapshot => exact hb.revertToSnapshot hs

theorem run {ops : List LogOp} (hc : s.Counted H ops)
    (hs : s.run H (ops.map LogOp.op) = some s') : ∃ b', b.run ops = some b' ∧ Booked s' b' := by
  induction ops generalizing s b
  case nil =>
    cases hs
    exact ⟨b, rfl, hb⟩
  case cons op ops hi =>
    obtain ⟨t, ht, hs⟩ := Loop.foldlM_cons_eq_some hs
    obtain ⟨b₁, hb₁, hbooked⟩ := hb.step hc.left ht
    obtain ⟨b₂, hb₂, hbooked⟩ := hi hbooked (hc.right t ht) hs
    refine ⟨b₂, ?_, hbooked⟩
    rw [LogBook.run, List.foldlM_cons, hb₁]
    exact hb₂

end Booked

namespace StateDB

def sampleLog : Log where
  address     := Address.zero
  topics      := []
  data        := []
  blockNumber := 1
  txHash      := Hash.zero
  txIndex     := 0
  blockHash   := Hash.zero
  index       := 0

-- Two transactions with a log each, and a call in between that fails before it logs.
def sampleLogOps : List LogOp :=
  [.startRecord (bytesToHash [1]) Hash.zero 0, .addLog sampleLog, .snapshot, .revertToSnapshot 0,
   .startRecord (bytesToHash [2]) Hash.zero 1, .addLog sampleLog]

end StateDB

end State
