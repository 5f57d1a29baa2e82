import GoEthereum.State.Revert
import GoEthereum.State.Store

-- `Commit` when reads and writes of the database fail.

namespace State

open Common

inductive CommitError
  -- A database read failed and the object remembers it.
  | dbErr
  | storageTrie
  | code
  | accountTrie
  | write
  deriving DecidableEq

-- Which of the writes that a `Commit` makes fail: of the code and of the storage trie of an object,
-- of the account trie, and of the batch.
structure Faults where
  code    : Address → Bool
  storage : Address → Bool
  account : Bool
  write   : Bool

-- The variables of the loop of `commit`. After an error the loop is left.
structure Failing where
  state : StateDB
  batch : Batch
  err   : Option CommitError

namespace Faults

variable (f : Faults) (H : Hashing) (deleteEmptyObjects : Bool)

def commitObject (c : Failing) (o : StateObject) : Option Failing :=
  let o := o.updateTrie c.state.db
  if o.dbErr then
    some { c with state := c.state.setStateObject o, err := some .dbErr }
  else if f.storage o.address then
    some { c with state := c.state.setStateObject o, err := some .storageTrie }
  else
    let trie := o.trie.getD StorageTrie.empty
    let root := H.storageRoot trie
    let o := { o with data := { o.data with root := root } }
    (StateDB.updateStateObject (c.state.setStateObject o) o).map fun s => { c with
      state := { s with stateObjectsDirty := s.stateObjectsDirty.erase o.address }
      batch := { c.batch with storages := c.batch.storages ++ [(root, trie)] } }

def commitAddress (c : Failing) (addr : Address) : Option Failing :=
  if c.err.isSome then
    some c
  else
    match c.state.stateObjects.lookup addr with
    | none   => some c
    | some o =>
      let isDirty := (c.state.stateObjectsDirty.lookup addr).isSome
      if o.suicided || (isDirty && deleteEmptyObjects && o.empty H) then
        let s := c.state.deleteStateObject o
        some { c with state := { s with stateObjectsDirty := s.stateObjectsDirty.erase addr } }
      else if isDirty then
        match o.code, o.dirtyCode with
        | some code, true =>
          if f.code addr then
            some { c with err := some .code }
          else
            let batch := { c.batch with codes := c.batch.codes ++ [(o.data.codeHash, code)] }
            commitObject f H { c with batch := batch } { o with dirtyCode := false }
        | _, _ => commitObject f H c o
      else
        some c

-- `commit`, with the root and the error that it returns.
def commitState (s : StateDB) : Option (Hash × Option CommitError × Batch × StateDB) := do
  let c ← s.stateObjects.keys.foldlM (f.commitAddress H deleteEmptyObjects)
    { state := s, batch := Batch.empty, err := none }
  match c.err with
  | some e => some (Hash.zero, some e, c.batch, c.state.clearJournalAndRefund)
  | none   =>
    if f.account then
      some (Hash.zero, some .accountTrie, c.batch, c.state.clearJournalAndRefund)
    else
      let root := H.accountRoot c.state.trie
      some (root, none, { c.batch with accounts := c.batch.accounts ++ [(root, c.state.trie)] },
        c.state.clearJournalAndRefund)

-- The error is dropped.
def commitBatch (s : StateDB) : Option (Hash × Batch × StateDB) := do
  let (root, _, batch, s) ← f.commitState H deleteEmptyObjects s
  some (root, batch, s)

-- `Commit`, with the error of the write of the batch.
def commit (s : StateDB) : Option (Hash × Option CommitError × StateDB) := do
  let (root, batch, s) ← f.commitBatch H deleteEmptyObjects s
  if f.write then
    some (root, some .write, s)
  else
    some (root, none, { s with db := s.db.write batch })

end Faults

-- The storage trie of the object is loaded, or the database has it.
def StateObject.Opens (db : Database) (o : StateObject) : Prop :=
  o.trie.isSome ∨ (openTrie db.storages StorageTrie.empty o.data.root).isSome

theorem StateObject.updateTrie_dbErr_iff {db : Database} {o : StateObject} :
    (o.updateTrie db).dbErr = false ↔ o.dbErr = false ∧ o.Opens db := by
  cases ht : o.trie
  case some t => simp [StateObject.updateTrie, StateObject.getTrie, StateObject.Opens, ht]
  case none =>
    cases ho : openTrie db.storages StorageTrie.empty o.data.root
    case none => simp [StateObject.updateTrie, StateObject.getTrie, StateObject.Opens, ht, ho]
    case some => simp [StateObject.updateTrie, StateObject.getTrie, StateObject.Opens, ht, ho]

namespace StateDB

variable (f : Faults) (H : Hashing) (d : Bool) (s : StateDB)

-- The object is dirty and not removed.
def Writes (a : Address) (o : StateObject) : Prop :=
  s.stateObjects.lookup a = some o ∧ (s.stateObjectsDirty.lookup a).isSome ∧ removes H d o true = false

def FaultAt (a : Address) : Prop :=
  ∃ o, s.Writes H d a o ∧ (codePuts o ≠ [] ∧ f.code a = true ∨
    ¬(o.dbErr = false ∧ o.Opens s.db) ∨ f.storage a = true)

-- No live object remembers an error, and neither reading nor writing fails.
structure NoFault : Prop where
  dbErr   : ∀ {a o}, s.stateObjects.lookup a = some o → o.dbErr = false
  objects : ∀ {a}, ¬ s.FaultAt f H d a
  account : f.account = false

-- Something failed in the `Commit`: it was left with an error, or a live object remembers one.
def Failed : Prop :=
  ∃ root err batch t, f.commitState H d s = some (root, err, batch, t) ∧
    (err ≠ none ∨ ∃ a o, t.stateObjects.lookup a = some o ∧ o.dbErr = true)

structure Stored (root : Hash) (s' : StateDB) (batch : Batch) : Prop where
  db       : s'.db = s.db.write batch
  accounts : (root, s'.trie) ∈ batch.accounts
  objects  : ∀ {a o}, s.Writes H d a o →
    (puts H s.db o).storages ⊆ batch.storages ∧ (puts H s.db o).codes ⊆ batch.codes

variable {f H d s}

section

variable {c c' : Failing} {a : Address} {o : StateObject}

def ofCommitting (c : Committing) : Failing :=
  { state := c.state, batch := c.batch, err := none }

variable {s : StateDB}

theorem commitObject_of_not_fault {batch : Batch}
    (ho : o.dbErr = false ∧ o.Opens s.db) (hf : f.storage o.address = false) :
    f.commitObject H { state := s, batch := batch, err := none } o =
      (commitObject H { state := s, batch := batch, failed := false } o).map ofCommitting := by
  have herr := StateObject.updateTrie_dbErr_iff.mpr ho
  have haddr : (o.updateTrie s.db).address = o.address := o.getTrie_snd_address
  simp only [Faults.commitObject, commitObject, herr, haddr, hf, if_false, Bool.false_eq_true,
    Option.map_map]
  rfl

theorem commitAddress_of_not_fault {batch : Batch} (hw : s.Wf)
    (hn : ¬ s.FaultAt f H d a) : f.commitAddress H d { state := s, batch := batch, err := none } a =
      (commitAddress H d { state := s, batch := batch, failed := false } a).map ofCommitting := by
  rw [Faults.commitAddress, commitAddress]
  cases ho : s.stateObjects.lookup a
  case none => rfl
  case some o =>
    simp only
    by_cases hr : (o.suicided || ((s.stateObjectsDirty.lookup a).isSome && d && o.empty H)) = true
    case pos =>
      rw [if_pos hr, if_pos hr]
      rfl
    case neg =>
      rw [if_neg hr, if_neg hr]
      by_cases hd : (s.stateObjectsDirty.lookup a).isSome = true
      case neg =>
        rw [if_neg hd, if_neg hd]
        rfl
      case pos =>
        rw [if_pos hd, if_pos hd]
        have hwrites : s.Writes H d a o := by
          refine ⟨ho, hd, ?_⟩
          rw [hd] at hr
          simpa [removes] using hr
        have hn : ¬(codePuts o ≠ [] ∧ f.code a = true ∨
            ¬(o.dbErr = false ∧ o.Opens s.db) ∨ f.storage a = true) :=
          fun h => hn ⟨o, hwrites, h⟩
        rw [not_or, not_or, not_not] at hn
        obtain ⟨hcode, hopens, hstorage⟩ := hn
        have hstorage : f.storage o.address = false := by
          rw [hw.address ho]
          simpa using hstorage
        cases hc : o.code <;> cases hdc : o.dirtyCode
        case some.true code =>
          have hcode : f.code a = false := by
            by_contra hf
            exact hcode ⟨by simp [codePuts, hc, hdc], by simpa using hf⟩
          simp only [hcode, Bool.false_eq_true, if_false]
          exact commitObject_of_not_fault hopens hstorage
        all_goals exact commitObject_of_not_fault hopens hstorage

theorem commitAddress_of_fault (batch : Batch) (hw : s.Wf)
    (hn : s.FaultAt f H d a) : ∃ c, f.commitAddress H d { state := s, batch := batch, err := none } a =
      some c ∧ c.err ≠ none ∧ c.state.db = s.db := by
  obtain ⟨o, ⟨ho, hd, hr⟩, hn⟩ := hn
  have hobject : ∀ {b : Batch} {o' : StateObject}, o'.address = a →
      ((o'.dbErr = false ∧ o'.Opens s.db) ↔ (o.dbErr = false ∧ o.Opens s.db)) →
      (¬(o.dbErr = false ∧ o.Opens s.db) ∨ f.storage a = true) →
      ∃ c, f.commitObject H { state := s, batch := b, err := none } o' = some c ∧ c.err ≠ none ∧
        c.state.db = s.db := by
    intro b o' haddr hiff hn
    have haddr : (o'.updateTrie s.db).address = a := o'.getTrie_snd_address.trans haddr
    by_cases herr : (o'.updateTrie s.db).dbErr = true
    case pos =>
      simp only [Faults.commitObject, herr, if_true]
      exact ⟨_, rfl, by simp, rfl⟩
    case neg =>
      have herr' : (o'.updateTrie s.db).dbErr = false := by simpa using herr
      have hopens := hiff.mp (StateObject.updateTrie_dbErr_iff.mp herr')
      have hs : f.storage a = true := hn.resolve_left (not_not.mpr hopens)
      simp only [Faults.commitObject, herr', haddr, hs, if_true, Bool.false_eq_true, if_false]
      exact ⟨_, rfl, by simp, rfl⟩
  have hr : (o.suicided || (true && d && o.empty H)) = false := hr
  have haddr := hw.address ho
  rw [Faults.commitAddress]
  simp only [Option.isSome_none, Bool.false_eq_true, if_false, ho, hd, hr, if_true]
  split
  case h_1 code hc hdc =>
    by_cases hf : f.code a = true
    case pos =>
      rw [if_pos hf]
      exact ⟨_, rfl, by simp, rfl⟩
    case neg =>
      rw [if_neg hf]
      refine hobject haddr Iff.rfl ?_
      exact hn.resolve_left fun h => hf h.right
  case h_2 hne =>
    refine hobject haddr Iff.rfl (hn.resolve_left fun h => h.left ?_)
    unfold codePuts
    split
    case h_1 code hc hdc => exact absurd hdc (hne code hc)
    case h_2 => rfl

structure Done (H : Hashing) (d : Bool) (c c' : Committing) (a : Address) : Prop where
  db       : c'.state.db = c.state.db
  failed   : c'.failed = false
  accounts : c'.batch.accounts = c.batch.accounts
  storages : c.batch.storages ⊆ c'.batch.storages
  codes    : c.batch.codes ⊆ c'.batch.codes
  puts     : ∀ {o}, c.state.Writes H d a o → (puts H c.state.db o).storages ⊆ c'.batch.storages ∧
    (puts H c.state.db o).codes ⊆ c'.batch.codes
  other    : ∀ {b}, b ≠ a → c'.state.stateObjects.lookup b = c.state.stateObjects.lookup b ∧
    c'.state.stateObjectsDirty.lookup b = c.state.stateObjectsDirty.lookup b
  dbErr    : (c'.state.stateObjects.lookup a).map StateObject.dbErr =
    (c.state.stateObjects.lookup a).map StateObject.dbErr

theorem done_of_commitAddress {c c' : Committing} (hc : c.failed = false) (hw : c.state.Wf)
    (hn : ¬ c.state.FaultAt f H d a) (h : commitAddress H d c a = some c') : Done H d c c' a := by
  have hopens : ∀ {o}, c.state.Writes H d a o → o.dbErr = false ∧ o.Opens c.state.db := by
    intro o ho
    by_contra hno
    exact hn ⟨o, ho, .inr (.inl hno)⟩
  rw [commitAddress_eq hc hw fun ho hd hr =>
    StateObject.updateTrie_dbErr_iff.mpr (hopens ⟨ho, hd, hr⟩)] at h
  cases ho : c.state.stateObjects.lookup a
  case none =>
    rw [ho] at h
    cases h
    refine ⟨rfl, hc, rfl, List.Subset.refl _, List.Subset.refl _, ?_, fun _ => ⟨rfl, rfl⟩, rfl⟩
    intro o hwr
    rw [hwr.left] at ho
    cases ho
  case some o =>
    have hself : ∀ {o'}, c.state.stateObjects.lookup a = some o' → o' = o := by
      intro o' ho'
      rw [ho'] at ho
      exact Option.some.inj ho
    simp only [ho] at h
    -- What is the same for every object that is replaced.
    have hput : ∀ {x : StateObject × Option StoredAccount} {b : Batch}, x.fst.dbErr = o.dbErr →
        b.accounts = [] → (c.state.Writes H d a o → b = StateDB.puts H c.state.db o) →
        Done H d c (Committing.put c a x b) a := by
      intro x b hx hb hp
      refine ⟨rfl, hc, ?_, List.subset_append_left .., List.subset_append_left .., ?_, ?_, ?_⟩
      · simp [Committing.put, Batch.append, hb]
      · intro o' hwr
        obtain rfl := hself hwr.left
        rw [hp hwr]
        exact ⟨List.subset_append_right .., List.subset_append_right ..⟩
      · intro b' hb'
        exact ⟨AList.lookup_insert_ne hb', AList.lookup_erase_ne hb'⟩
      · change ((c.state.stateObjects.insert a x.fst).lookup a).map _ = _
        rw [AList.lookup_insert, ho, Option.map_some, Option.map_some, hx]
    split at h
    case isTrue hr =>
      cases h
      refine hput rfl rfl fun hwr => ?_
      rw [hwr.right.left, hwr.right.right] at hr
      cases hr
    case isFalse hr =>
      split at h
      case isFalse hd =>
        cases h
        refine ⟨rfl, hc, rfl, List.Subset.refl _, List.Subset.refl _, fun hwr => ?_,
          fun _ => ⟨rfl, rfl⟩, rfl⟩
        exact absurd hwr.right.left hd
      case isTrue hd =>
        rw [hd] at hr
        have hwr : c.state.Writes H d a o := ⟨ho, hd, by simpa using hr⟩
        split at h
        case isFalse => cases h
        case isTrue =>
          cases h
          refine hput ?_ rfl fun _ => rfl
          have herr := StateObject.updateTrie_dbErr_iff.mpr (hopens hwr)
          exact (codeWritten_updateTrie_dbErr.trans herr).trans (hopens hwr).left.symm

theorem FaultAt.congr {s s' : StateDB} (hdb : s'.db = s.db)
    (ho : s'.stateObjects.lookup a = s.stateObjects.lookup a)
    (hd : s'.stateObjectsDirty.lookup a = s.stateObjectsDirty.lookup a) :
    s'.FaultAt f H d a ↔ s.FaultAt f H d a := by
  simp only [FaultAt, Writes, hdb, ho, hd]

theorem foldlM_of_err {keys : List Address} (hc : c.err ≠ none)
    (h : keys.foldlM (f.commitAddress H d) c = some c') : c' = c := by
  have hs : c.err.isSome := Option.isSome_iff_ne_none.mpr hc
  induction keys
  case nil => simpa using h.symm
  case cons a keys ih =>
    obtain ⟨t, ht, h⟩ := Loop.foldlM_cons_eq_some h
    rw [Faults.commitAddress, if_pos hs] at ht
    cases ht
    exact ih h

structure DoneAll (H : Hashing) (d : Bool) (c c' : Failing) (keys : List Address) : Prop where
  accounts : c'.batch.accounts = c.batch.accounts
  storages : c.batch.storages ⊆ c'.batch.storages
  codes    : c.batch.codes ⊆ c'.batch.codes
  puts     : ∀ {a o}, a ∈ keys → c.state.Writes H d a o →
    (StateDB.puts H c.state.db o).storages ⊆ c'.batch.storages ∧
      (StateDB.puts H c.state.db o).codes ⊆ c'.batch.codes
  dbErr    : ∀ a, (c'.state.stateObjects.lookup a).map StateObject.dbErr =
    (c.state.stateObjects.lookup a).map StateObject.dbErr

theorem foldlM_commitAddress {keys : List Address} (hn : keys.Nodup) {b : Batch} (hw : s.Wf)
    (h : keys.foldlM (f.commitAddress H d) { state := s, batch := b, err := none } = some c') :
    c'.state.db = s.db ∧ (c'.err = none ↔ ∀ a ∈ keys, ¬ s.FaultAt f H d a) ∧
      (c'.err = none → DoneAll H d { state := s, batch := b, err := none } c' keys) := by
  induction keys generalizing s b
  case nil =>
    cases h
    refine ⟨rfl, by simp, fun _ => ⟨rfl, List.Subset.refl _, List.Subset.refl _, ?_, fun _ => rfl⟩⟩
    intro a o ha
    cases ha
  case cons a keys ih =>
    obtain ⟨ha, hn⟩ := List.nodup_cons.mp hn
    obtain ⟨t, ht, h⟩ := Loop.foldlM_cons_eq_some h
    by_cases hf : s.FaultAt f H d a
    case pos =>
      obtain ⟨t', ht', herr, hdb⟩ := commitAddress_of_fault b hw hf
      rw [ht'] at ht
      cases ht
      rw [foldlM_of_err herr h]
      exact ⟨hdb, iff_of_false herr fun hall => hall a List.mem_cons_self hf, fun he => absurd he herr⟩
    case neg =>
      rw [commitAddress_of_not_fault hw hf] at ht
      obtain ⟨c₁, hc₁, rfl⟩ := Option.map_eq_some_iff.mp ht
      have hdone := done_of_commitAddress rfl hw hf hc₁
      obtain ⟨hdb, hiff, hall⟩ := ih hn (WfAt.commitAddress ⟨hw, rfl⟩ hc₁).left h
      have hsame : ∀ b ∈ keys, c₁.state.FaultAt f H d b ↔ s.FaultAt f H d b := fun b hb =>
        FaultAt.congr hdone.db (hdone.other fun he => ha (he ▸ hb)).left
          (hdone.other fun he => ha (he ▸ hb)).right
      refine ⟨hdb.trans hdone.db, ?_, fun herr => ?_⟩
      case refine_1 =>
        rw [hiff, List.forall_mem_cons]
        exact ⟨fun h => ⟨hf, fun b hb => mt (hsame b hb).mpr (h b hb)⟩,
          fun h b hb => mt (hsame b hb).mp (h.right b hb)⟩
      case refine_2 =>
        have hrest := hall herr
        refine ⟨hrest.accounts.trans hdone.accounts,
          List.Subset.trans hdone.storages hrest.storages,
          List.Subset.trans hdone.codes hrest.codes, ?_, ?_⟩
        case refine_1 =>
          intro x o hx hwr
          obtain rfl | hx := List.mem_cons.mp hx
          case inl =>
            obtain ⟨hs, hc⟩ := hdone.puts hwr
            exact ⟨List.Subset.trans hs hrest.storages, List.Subset.trans hc hrest.codes⟩
          case inr =>
            have hne : x ≠ a := fun he => ha (he ▸ hx)
            have hwr' : c₁.state.Writes H d x o := by
              rw [Writes, (hdone.other hne).left, (hdone.other hne).right]
              exact hwr
            have hputs := hrest.puts hx hwr'
            rwa [hdone.db] at hputs
        case refine_2 =>
          intro x
          refine (hrest.dbErr x).trans ?_
          by_cases hx : x = a
          case pos => exact hx ▸ hdone.dbErr
          case neg => exact congrArg _ (hdone.other hx).left

end

-- What `commit` returns. Its error tells exactly whether something failed in it.
structure CommitSpec (f : Faults) (H : Hashing) (d : Bool) (s : StateDB) (root : Hash)
    (err : Option CommitError) (batch : Batch) (t : StateDB) : Prop where
  db       : t.db = s.db
  returned : err = none ↔ (∀ a, ¬ s.FaultAt f H d a) ∧ f.account = false
  accounts : err = none → (root, t.trie) ∈ batch.accounts
  puts     : err = none → ∀ {a o}, s.Writes H d a o →
    (puts H s.db o).storages ⊆ batch.storages ∧ (puts H s.db o).codes ⊆ batch.codes
  dbErr    : err = none → ∀ a, (t.stateObjects.lookup a).map StateObject.dbErr =
    (s.stateObjects.lookup a).map StateObject.dbErr

theorem commitState_spec {root : Hash} {err : Option CommitError} {batch : Batch} {t : StateDB}
    (hs : s.Wf) (h : f.commitState H d s = some (root, err, batch, t)) :
    CommitSpec f H d s root err batch t := by
  obtain ⟨c, hl, h⟩ := Option.bind_eq_some_iff.mp h
  obtain ⟨hdb, hiff, hall⟩ := foldlM_commitAddress s.stateObjects.keys_nodup hs hl
  have hkeys : (∀ a ∈ s.stateObjects.keys, ¬ s.FaultAt f H d a) ↔ ∀ a, ¬ s.FaultAt f H d a := by
    refine ⟨fun h a hf => ?_, fun h a _ => h a⟩
    obtain ⟨o, hwr, _⟩ := id hf
    exact h a (GoMap.mem_keys_of_lookup hwr.left) hf
  rw [hkeys] at hiff
  cases herr : c.err
  case some e =>
    rw [herr] at h hiff
    cases h
    refine ⟨hdb, iff_of_false (by simp) fun h => ?_, by simp, by simp, by simp⟩
    exact absurd (hiff.mpr h.left) (by simp)
  case none =>
    rw [herr] at h hiff
    have hnone := hiff.mp rfl
    have hdone := hall herr
    simp only at h
    split at h
    case isTrue ha =>
      cases h
      refine ⟨hdb, iff_of_false (by simp) fun h => ?_, by simp, by simp, by simp⟩
      rw [ha] at h
      exact Bool.noConfusion h.right
    case isFalse ha =>
      cases h
      refine ⟨hdb, iff_of_true rfl ⟨hnone, by simpa using ha⟩, fun _ => ?_, fun _ => ?_,
        fun _ => hdone.dbErr⟩
      · exact List.mem_append_right _ (List.mem_singleton_self _)
      · exact fun hwr => hdone.puts (GoMap.mem_keys_of_lookup hwr.left) hwr

-- `Commit` reports what failed in it and writes no batch then, and with a nil error it has stored
-- everything.
structure Reports (f : Faults) (H : Hashing) (d : Bool) (s : StateDB) (root : Hash)
    (err : Option CommitError) (s' : StateDB) : Prop where
  failed : s.Failed f H d → err ≠ none ∧ s'.db = s.db
  stored : err = none → ∃ batch, s.Stored H d root s' batch

def sampleFaults : Faults where
  code _    := false
  storage _ := false
  account   := false
  write     := false

-- The account trie has an account whose storage trie is not in the database.
def sampleBroken : Database :=
  let account : Account :=
    { nonce := 1, balance := 5, root := bytesToHash [2], codeHash := sampleHashing.emptyCodeHash }
  { sampleDatabase with
    accounts := fun h => if h = bytesToHash [1] then
        some (Function.update AccountTrie.empty (sampleAddress 0x11) (some ⟨account, by decide⟩))
      else
        none }

def sampleUnread : StateDB :=
  (ofTrie sampleBroken ((sampleBroken.accounts (bytesToHash [1])).getD AccountTrie.empty)).call
    sampleHashing (sampleAddress 0x11) (.setState Hash.zero (bytesToHash [3]))

theorem sampleUnread_reachable : sampleUnread.Reachable sampleHashing :=
  .step (.new (show StateDB.new (bytesToHash [1]) sampleBroken = _ from rfl))
    (show step _ _ (.account (sampleAddress 0x11) (.setState Hash.zero (bytesToHash [3]))) = _ from rfl)

end StateDB

end State
