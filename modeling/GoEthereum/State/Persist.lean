import GoEthereum.State.Durable
import GoEthereum.State.Revert

-- What a state that is opened at the root of a commit reports.

namespace State

open Common

namespace StateDB

section

variable {H : Hashing} {d : Bool} {s s' : StateDB} {a : Address} {o : StateObject} {root : Hash}
variable {b : Batch} {db db' : Database}

theorem committed_fields : (committed H db o).code = o.code ∧
    (committed H db o).cachedStorage = o.cachedStorage ∧
    (committed H db o).deleted = o.deleted := by
  simp only [committed, codeWritten, StateObject.updateRoot, StateObject.updateTrie, StateObject.getTrie]
  repeat' split
  all_goals exact ⟨rfl, rfl, rfl⟩

theorem committed_trie (ho : o.Coherent) :
    (committed H db o).trie = some (o.content H db).storage := by
  have ht : ((codeWritten o).updateTrie db).trie = some ((codeWritten o).content H db).storage :=
    updateTrie_trie_eq (codeWritten_coherent ho)
  rwa [codeWritten_content] at ht

theorem committed_data (ho : o.Coherent) : (committed H db o).data =
    { o.data with root := H.storageRoot (o.content H db).storage } := by
  have hd : (codeWritten o).data = o.data := by
    unfold codeWritten
    split <;> rfl
  rw [committed, updateRoot_data (codeWritten_coherent ho), codeWritten_content, hd]

theorem codeOf_committed (ho : o.Backed H db) (hx : Extends H db db')
    (hp : ∀ p ∈ codePuts o, codeOf H db' p.fst = some p.snd) :
    codeOf H db' o.data.codeHash = some (o.content H db).facts.code := by
  rw [o.facts_code]
  cases hc : o.code
  case none =>
    obtain ⟨c, hc⟩ := Option.isSome_iff_exists.mp (ho.code hc)
    rw [hx.codes hc, hc]
    rfl
  case some c =>
    cases hd : o.dirtyCode
    case false => exact hx.codes (ho.clean hd c hc)
    case true  => exact hp (o.data.codeHash, c) (by simp [codePuts, hc, hd])

theorem committed_facts (ho : o.Coherent)
    (hc : codeOf H db' o.data.codeHash = some (o.content H db).facts.code) :
    ((committed H db o).content H db').facts = (o.content H db).facts := by
  obtain ⟨hcode, hcached, _⟩ : (committed H db o).code = o.code ∧ _ := committed_fields
  have hd : (committed H db o).data = _ := committed_data ho
  refine Facts.ext ?_ ?_ ?_ ?_ (funext fun k => ?_)
  · simp [AccountView.facts, StateObject.content, hd]
  · simp [AccountView.facts, StateObject.content, hd]
  · simp [AccountView.facts, StateObject.content, hd]
  · rw [StateObject.facts_code, hcode, hd, hc, StateObject.facts_code]
    cases o.code <;> rfl
  · simp only [AccountView.facts, StateObject.content, StateObject.storedTrie, hcached, committed_trie ho]
    cases h : o.cachedStorage.lookup k
    case some => rfl
    case none => simp [h]

theorem newObject_committed_facts (ho : o.Coherent)
    (hc : codeOf H db' o.data.codeHash = some (o.content H db).facts.code)
    (ht : openTrie db'.storages StorageTrie.empty (H.storageRoot (o.content H db).storage) =
      some (o.content H db).storage) :
    ((StateObject.newObject a (committed H db o).data).content H db').facts =
      (o.content H db).facts := by
  rw [committed_data ho]
  refine Facts.ext rfl rfl rfl ?_ (funext fun k => ?_)
  · rw [StateObject.facts_code]
    simp [StateObject.newObject, hc]
  · change ((openTrie db'.storages StorageTrie.empty (H.storageRoot (o.content H db).storage)).getD
      StorageTrie.empty) k = (o.content H db).storage k
    rw [ht, Option.getD_some]

theorem newObject_committed_backed (ho : o.Coherent)
    (hc : codeOf H db' o.data.codeHash = some (o.content H db).facts.code)
    (ht : openTrie db'.storages StorageTrie.empty (H.storageRoot (o.content H db).storage) =
      some (o.content H db).storage) :
    (StateObject.newObject a (committed H db o).data).Backed H db' := by
  rw [committed_data ho]
  refine ⟨rfl, fun _ => ?_, fun _ => ?_, fun _ c h => by cases h⟩
  · simp only [StateObject.newObject, ht, Option.isSome_some]
  · simp only [StateObject.newObject, hc, Option.isSome_some]

theorem committed_backed (ho : o.Coherent) (hb : o.Backed H db)
    (hc : codeOf H db' o.data.codeHash = some (o.content H db).facts.code) :
    (committed H db o).Backed H db' where
  dbErr     := codeWritten_updateTrie_dbErr.trans hb.updateTrie.dbErr
  trie h    := by cases h
  code _    := by rw [committed_data ho, hc]; rfl
  clean _ c h := by
    rw [committed_fields.left] at h
    rw [committed_data ho, hc]
    simp [AccountView.facts, StateObject.content, codeAt, h]

def remains (H : Hashing) (d : Bool) (s : StateDB) (a : Address) : Option Facts :=
  ((s.account H a).filter fun v =>
    !(v.suicided || (a ∈ s.stateObjectsDirty && d && v.isEmpty H))).map AccountView.facts

theorem commitAt_cases {ox ox' : Option StateObject} {t t' : Option StoredAccount} {m m' : Bool}
    (h : commitAt H d db (ox, t, m) = some (ox', t', m')) :
    (ox = none ∧ ox' = none ∧ t' = t ∧ m' = m) ∨
    ∃ o, ox = some o ∧ (
      (removes H d o m ∧ ox' = some { o with deleted := true } ∧ t' = none ∧ m' = false) ∨
      (removes H d o m = false ∧ m = true ∧ m' = false ∧ ox' = some (committed H db o) ∧
        ∃ hb, t' = some ⟨(committed H db o).data, hb⟩) ∨
      (removes H d o m = false ∧ m = false ∧ ox' = some o ∧ t' = t ∧ m' = false)) := by
  cases ox
  case none => cases h; exact .inl ⟨rfl, rfl, rfl, rfl⟩
  case some o =>
    refine .inr ⟨o, rfl, ?_⟩
    simp only [commitAt] at h
    split at h
    case isTrue hr => cases h; exact .inl ⟨hr, rfl, rfl, rfl⟩
    case isFalse hr =>
      have hr := Bool.eq_false_iff.mpr hr
      split at h
      case isTrue hm =>
        split at h
        case isTrue hb => cases h; exact .inr (.inl ⟨hr, hm, rfl, rfl, hb, rfl⟩)
        case isFalse   => cases h
      case isFalse hm => cases h; exact .inr (.inr ⟨hr, by simpa using hm, rfl, rfl, by simpa using hm⟩)

structure Saved (H : Hashing) (d : Bool) (s s' : StateDB) (a : Address) : Prop where
  clean   : a ∉ s'.stateObjectsDirty
  backed  : ∀ {o}, s'.stateObjects.lookup a = some o → o.Backed H s'.db
  stored  : ∀ data, s'.trie a = some data → (StateObject.newObject a data.val).Backed H s'.db
  settled : (s'.account H a).map AccountView.facts = (s'.base H a).map AccountView.facts
  remains : (s'.base H a).map AccountView.facts = remains H d s a

theorem account_of_lookup (h : s.stateObjects.lookup a = some o) :
    s.account H a = o.view H s.db := by
  rw [account, h]

theorem account_of_lookup_none (h : s.stateObjects.lookup a = none) :
    s.account H a = s.base H a := by
  rw [account, h]

theorem base_of_trie {data : StoredAccount} (h : s.trie a = some data) :
    s.base H a = some ((StateObject.newObject a data.val).content H s.db) := by
  rw [base, h]
  rfl

theorem base_facts_extends (ht : s'.trie a = s.trie a) (hx : Extends H s.db s'.db)
    (hb : ∀ data, s.trie a = some data → (StateObject.newObject a data.val).Backed H s.db) :
    (s'.base H a).map AccountView.facts = (s.base H a).map AccountView.facts := by
  unfold base
  rw [ht]
  cases hd : s.trie a
  case none => rfl
  case some data => exact congrArg some ((hb data hd).facts_extends hx)

theorem remains_of_lookup {m : Bool} (hl : s.stateObjects.lookup a = some o)
    (hm : (s.stateObjectsDirty.lookup a).isSome = m) : remains H d s a =
    if o.deleted || removes H d o m then none else some (o.content H s.db).facts := by
  have hmem : decide (a ∈ s.stateObjectsDirty) = m := by
    rw [← hm, ← Bool.coe_iff_coe, decide_eq_true_iff, AList.lookup_isSome]
  have he : (o.content H s.db).isEmpty H = o.empty H := rfl
  rw [remains, account_of_lookup hl, StateObject.view]
  cases o.deleted
  case true  => rfl
  case false =>
    simp only [Bool.false_eq_true, if_false, Option.filter_some, hmem, he, Bool.false_or]
    rw [show (o.content H s.db).suicided = o.suicided from rfl, ← removes]
    cases removes H d o m <;> rfl

variable (hs : s.Durable H)
include hs

theorem Durable.saved_none (hx : Extends H s.db s'.db) (hl : s.stateObjects.lookup a = none)
    (hl' : s'.stateObjects.lookup a = none) (ht : s'.trie a = s.trie a)
    (hm : (s'.stateObjectsDirty.lookup a).isSome = (s.stateObjectsDirty.lookup a).isSome) :
    Saved H d s s' a := by
  have hd : a ∉ s.stateObjectsDirty := fun h => AList.lookup_eq_none.mp hl (hs.wf.live h)
  refine ⟨fun h => hd ?_, fun h => ?_, fun data h => ?_, ?_, ?_⟩
  · rwa [← AList.lookup_isSome, ← hm, AList.lookup_isSome]
  · rw [hl'] at h
    cases h
  · exact (hs.backed_of_trie hl (ht ▸ h)).mono hx
  · rw [account_of_lookup_none hl']
  · rw [base_facts_extends ht hx fun data => hs.backed_of_trie hl, remains, account_of_lookup_none hl]
    simp only [hd, decide_false, Bool.false_and, Bool.or_false]
    cases hb : s.base H a
    case none => rfl
    case some v =>
      obtain ⟨data, _, hv⟩ := Option.map_eq_some_iff.mp hb
      subst hv
      rfl

theorem Durable.saved_removed (hx : Extends H s.db s'.db) (hl : s.stateObjects.lookup a = some o)
    (hr : removes H d o (s.stateObjectsDirty.lookup a).isSome)
    (hl' : s'.stateObjects.lookup a = some { o with deleted := true }) (ht : s'.trie a = none)
    (hm : (s'.stateObjectsDirty.lookup a).isSome = false) : Saved H d s s' a := by
  have hb : s'.base H a = none := by rw [base, ht]; rfl
  refine ⟨fun h => ?_, fun h => ?_, fun data h => ?_, ?_, ?_⟩
  · rw [AList.lookup_isSome.mpr h] at hm
    cases hm
  · rw [hl'] at h
    cases h
    exact { (hs.backed hl).mono hx with }
  · rw [ht] at h
    cases h
  · rw [account_of_lookup hl', hb]
    rfl
  · rw [remains_of_lookup hl rfl, hr, Bool.or_true, hb]
    rfl

theorem Durable.saved_committed (h : Commits H d s root b s') (hb : b.Agrees H s.db)
    (hl : s.stateObjects.lookup a = some o) (hr : removes H d o true = false)
    (hdel : o.deleted = false) (hm : (s.stateObjectsDirty.lookup a).isSome)
    (hl' : s'.stateObjects.lookup a = some (committed H s.db o))
    {hbal : 0 ≤ (committed H s.db o).data.balance}
    (ht : s'.trie a = some ⟨(committed H s.db o).data, hbal⟩)
    (hm' : (s'.stateObjectsDirty.lookup a).isSome = false) : Saved H d s s' a := by
  have hx : Extends H s.db s'.db := h.db ▸ hb.write_extends
  have hco := hs.wf.coherent hl
  have hbo := hs.backed hl
  obtain ⟨hst, hcd⟩ := h.written hl hm hr
  have hcode : codeOf H s'.db o.data.codeHash = some (o.content H s.db).facts.code :=
    codeOf_committed hbo hx fun p hp => h.db ▸ hb.codeOf (hcd hp)
  have hopen : openTrie s'.db.storages StorageTrie.empty
      (H.storageRoot (o.content H s.db).storage) = some (o.content H s.db).storage :=
    h.db ▸ hb.openTrie_storages (hst List.mem_cons_self)
  have hbase : (s'.base H a).map AccountView.facts = some (o.content H s.db).facts := by
    rw [base_of_trie ht]
    exact congrArg some (newObject_committed_facts hco hcode hopen)
  refine ⟨fun h => ?_, fun h => ?_, fun data h => ?_, ?_, ?_⟩
  · rw [AList.lookup_isSome.mpr h] at hm'
    cases hm'
  · rw [hl'] at h
    cases h
    exact committed_backed hco hbo hcode
  · rw [ht] at h
    cases h
    exact newObject_committed_backed hco hcode hopen
  · rw [hbase, account_of_lookup hl', StateObject.view, committed_fields.right.right, hdel]
    exact congrArg some (committed_facts hco hcode)
  · rw [hbase, remains_of_lookup hl hm, hdel, hr]
    rfl

theorem Durable.saved_kept (hx : Extends H s.db s'.db)
    (hl : s.stateObjects.lookup a = some o) (hr : removes H d o false = false)
    (hm : (s.stateObjectsDirty.lookup a).isSome = false) (hl' : s'.stateObjects.lookup a = some o)
    (ht : s'.trie a = s.trie a) (hm' : (s'.stateObjectsDirty.lookup a).isSome = false) :
    Saved H d s s' a := by
  have hd : a ∉ s.stateObjectsDirty := fun h => by
    rw [AList.lookup_isSome.mpr h] at hm
    cases hm
  have hsu : o.suicided = false := by simpa [removes] using hr
  have hst : (s.account H a).map AccountView.facts = (s.base H a).map AccountView.facts ∧
      ∀ data, s.trie a = some data → (StateObject.newObject a data.val).Backed H s.db := by
    obtain ⟨o', ho', hs'⟩ | hst := hs.settled hd
    · cases hl.symm.trans ho'
      rw [hsu] at hs'
      cases hs'
    · exact hst
  have hacc : (s'.account H a).map AccountView.facts = (s.account H a).map AccountView.facts := by
    rw [account_of_lookup hl', account_of_lookup hl, StateObject.view, StateObject.view]
    split
    case isTrue  => rfl
    case isFalse => exact congrArg some ((hs.backed hl).facts_extends hx)
  have hbase := base_facts_extends ht hx hst.right
  refine ⟨fun h => ?_, fun h => ?_, fun data h => ?_, ?_, ?_⟩
  · rw [AList.lookup_isSome.mpr h] at hm'
    cases hm'
  · rw [hl'] at h
    cases h
    exact (hs.backed hl).mono hx
  · exact (hst.right data (ht ▸ h)).mono hx
  · rw [hacc, hbase, hst.left]
  · rw [hbase, ← hst.left, remains_of_lookup hl hm, hr, Bool.or_false, account_of_lookup hl,
      StateObject.view]
    split <;> rfl

theorem Durable.saved (hc : SafeStep H s (.commit d))
    (h : Commits H d s root b s') (hb : b.Agrees H s.db) (a : Address) : Saved H d s s' a := by
  have hx : Extends H s.db s'.db := h.db ▸ hb.write_extends
  obtain ⟨hl, hl', ht, hm⟩ | ⟨o, hl, ⟨hr, hl', ht, hm⟩ | ⟨hr, hm, hm', hl', hbal, ht⟩ |
    ⟨hr, hm, hl', ht, hm'⟩⟩ := commitAt_cases (h.each a)
  · exact hs.saved_none hx hl hl' ht hm
  · exact hs.saved_removed hx hl hr hl' ht hm
  · rw [hm] at hr
    have hdel : o.deleted = false := by
      by_contra hn
      have := hc.left a o (AList.lookup_isSome.mp hm) hl (by simpa using hn)
      rw [hr] at this
      cases this
    exact hs.saved_committed h hb hl hr hdel hm hl' ht hm'
  · rw [hm] at hr
    exact hs.saved_kept hx hl hr hm hl' ht hm'

theorem Durable.commit (hc : SafeStep H s (.commit d))
    (h : s.commit H d = some (root, s')) : s'.Durable H ∧ Extends H s.db s'.db ∧
      openTrie s'.db.accounts AccountTrie.empty root = some s'.trie ∧ ∀ a, Saved H d s s' a := by
  obtain ⟨b, t, hbatch, hcm⟩ := commits_of_commit hs.wf (fun h => (hs.backed h).updateTrie.dbErr) h
  have hb := hc.right root b t hbatch
  have hsaved := hs.saved hc hcm hb
  have hx : Extends H s.db s'.db := hcm.db ▸ hb.write_extends
  have hroot : openTrie s'.db.accounts AccountTrie.empty root = some s'.trie :=
    hcm.db ▸ hb.openTrie_accounts (by rw [hcm.accounts]; exact List.mem_cons_self)
  refine ⟨durable_of_journal_nil hcm.journal (hs.wf.commit h).left.left (fun h t ht a data hd => ?_)
    (fun {a o} h => (hsaved a).backed h) (fun {a} _ => .inr ⟨(hsaved a).settled, (hsaved a).stored⟩),
    hx, hroot, hsaved⟩
  -- A trie of the database is the one that was written, or it was there before.
  by_cases he : h = root
  · subst he
    cases ht.symm.trans hroot
    exact (hsaved a).stored data hd
  · refine (hs.complete h t ?_ a data hd).mono hx
    rw [hcm.db] at ht
    simpa [openTrie, Database.write, hcm.accounts, putAll, Function.update_of_ne he] using ht

theorem Durable.reset (root : Hash) : ((s.reset root).getD s).Durable H := by
  have hw : ((s.reset root).getD s).Wf := hs.wf.reset
  unfold StateDB.reset at hw ⊢
  cases ht : openTrie s.db.accounts AccountTrie.empty root
  case none => exact hs
  case some t =>
    rw [ht] at hw
    refine durable_of_journal_nil rfl hw hs.complete (fun h => by simp at h) fun {a} _ => ?_
    exact settled_of_account (hs.complete root t ht a) (account_of_lookup_none rfl)

end

-- Calls that all meet the condition, with accessors in between.
inductive SafeRun (H : Hashing) : StateDB → StateDB → Prop
  | refl (s : StateDB) : SafeRun H s s
  | step {s s' s'' op} : SafeRun H s s' → SafeStep H s' op → s'.step H op = some s'' → SafeRun H s s''
  | read {s s'} (r)    : SafeRun H s s' → SafeRun H s (s'.read H r)

section

variable {H : Hashing} {s s' s'' : StateDB} {a : Address} {op : AccountOp}

theorem call_db (hs : s.Wf) : (s.call H a op).db = s.db := by
  have happly (t : StateDB) (c : Option (JournalEntry × StateObject)) : (t.apply c).db = t.db := by
    cases c
    case none => rfl
    case some => exact (grows_modified_append ..).db
  match h : s.getStateObject a with
  | (some o, s₁) =>
    rw [call_of_some h (hs.object h).right.left, happly, (grows_of_getStateObject s a h).db]
  | (none, s₁) =>
    have hcr : (s.create H a).db = s.db := (grows_modified ..).db
    rw [call_of_none (by rw [h])]
    obtain hn | ⟨c, hn, _⟩ := callNew_cases H s a op <;> rw [hn]
    rw [happly, hcr]

theorem revertToSnapshot_db {revid : Nat} (hs : s.Wf) (h : s.revertToSnapshot revid = some s') :
    s'.db = s.db := by
  obtain ⟨rs, r, rs', hr, hid⟩ := revertToSnapshot_eq_some h
  subst hid
  rw [revertToSnapshot_of_mem hs.revisions hr] at h
  obtain ⟨t, ht, h⟩ := Option.map_eq_some_iff.mp h
  subst h
  exact (grows_undoAll ht).db

theorem intermediateRoot_db {d : Bool} {root : Hash} (hs : s.Wf)
    (h : s.intermediateRoot H d = some (root, s')) : s'.db = s.db := by
  obtain ⟨t, ht, h⟩ := Option.bind_eq_some_iff.mp h
  cases h
  exact (Loop.foldlM_keep rootObject_local.keep ⟨rfl, hs⟩ ht).left

theorem deleteSuicides_db (h : s.deleteSuicides = some s') : s'.db = s.db := by
  refine Loop.foldlM_keep (I := (·.db = s.db)) (fun {t t' a} hi ht => ?_) rfl h
  unfold deleteSuicide at ht
  split at ht <;> cases ht
  split <;> exact hi

section

variable (hs : s.Durable H)
include hs

theorem Durable.step {op : Op} (hc : SafeStep H s op)
    (h : s.step H op = some s') : s'.Durable H ∧ Extends H s.db s'.db := by
  have hw := hs.wf.step h
  have hsame {t : StateDB} (ht : t.Durable H) (hd : t.db = s.db) :
      t.Durable H ∧ Extends H s.db t.db := ⟨ht, hd ▸ .refl _⟩
  cases op <;> simp only [StateDB.step] at h
  case account a op => cases h; exact hsame (hs.call hc) (call_db hs.wf)
  case addRefund    =>
    cases h
    have ht := hs.append (e := .refund s.refund) (by rintro _ ⟨⟩) (by rintro _ ⟨⟩) (by rintro _ _ ⟨⟩)
    exact hsame { ht with wf := hw, settled := fun h => (ht.settled h).congr rfl rfl rfl } rfl
  case addLog       =>
    cases h
    have ht := hs.append (e := .addLog s.thash) (by rintro _ ⟨⟩) (by rintro _ ⟨⟩) (by rintro _ _ ⟨⟩)
    exact hsame { ht with wf := hw, settled := fun h => (ht.settled h).congr rfl rfl rfl } rfl
  case startRecord  =>
    cases h
    exact hsame { hs with wf := hw, settled := fun h => (hs.settled h).congr rfl rfl rfl } rfl
  case snapshot     =>
    cases h
    exact hsame { hs with wf := hw, settled := fun h => (hs.settled h).congr rfl rfl rfl } rfl
  case revertToSnapshot revid => exact hsame (hs.revertToSnapshot hc h) (revertToSnapshot_db hs.wf h)
  case intermediateRoot d =>
    obtain ⟨⟨root, t⟩, ht, h⟩ := Option.map_eq_some_iff.mp h
    exact h ▸ hsame (hs.intermediateRoot ht) (intermediateRoot_db hs.wf ht)
  case deleteSuicides => exact hsame (hs.deleteSuicides hc h) (deleteSuicides_db h)
  case commit d =>
    obtain ⟨⟨root, t⟩, ht, h⟩ := Option.map_eq_some_iff.mp h
    obtain ⟨hd, hx, _⟩ := hs.commit hc ht
    exact h ▸ ⟨hd, hx⟩
  case reset root =>
    cases h
    refine hsame (hs.reset root) ?_
    unfold StateDB.reset
    cases openTrie s.db.accounts AccountTrie.empty root <;> rfl

theorem Durable.refresh {o o' : StateObject} (hl : s.stateObjects.lookup a = some o)
    (ha : o'.address = a) (hc : o'.Coherent) (hb : o'.Backed H s.db) (hd : o'.deleted = o.deleted)
    (ho : o'.onDirty = o.onDirty) (hcon : o'.content H s.db = o.content H s.db) :
    (s.setStateObject o').Durable H := by
  subst ha
  refine hs.of_insert (hs.wf.setStateObject hc) rfl rfl rfl rfl (fun _ h => h) hb
    (fun e he hea => (hs.marked he hea).imp_right fun h => ho ▸ h o hl) fun hn => ?_
  have hacc : (s.setStateObject o').account H o'.address = s.account H o'.address := by
    rw [account_setStateObject, Function.update_self, account_of_lookup hl, StateObject.view,
      StateObject.view, hd, hcon]
  obtain ⟨o₁, ho₁, hsu⟩ | ⟨hst, hbk⟩ := hs.settled hn
  · cases hl.symm.trans ho₁
    exact .inl ⟨o', AList.lookup_insert _, (congrArg AccountView.suicided hcon).trans hsu⟩
  · exact .inr ⟨by rw [hacc, hst]; rfl, hbk⟩

theorem Durable.codeSizeCache (c : GoMap Hash Nat) :
    Durable H { s with codeSizeCache := c } :=
  { hs with
    wf      := { hs.wf with }
    settled := fun h => (hs.settled h).congr rfl rfl rfl }

theorem Durable.read (r : Read) :
    (s.read H r).Durable H ∧ (s.read H r).db = s.db := by
  have hget (a : Address) {r : Option StateObject} {s₁ : StateDB} (h : s.getStateObject a = (r, s₁)) :
      s₁.Durable H ∧ s₁.db = s.db := by
    have hd := hs.getStateObject a
    rw [h] at hd
    exact ⟨hd, (grows_of_getStateObject s a h).db⟩
  have hcode (a : Address) {o : StateObject} {s₁ : StateDB} (h : s.getStateObject a = (some o, s₁)) :
      (s₁.setStateObject (o.getCode H s₁.db).snd).Durable H := by
    obtain ⟨_, ha, hc⟩ := hs.wf.object h
    obtain ⟨hs₁, hb⟩ := hs.object h
    exact hs₁.refresh (lookup_of_getStateObject h).left (o.getCode_snd_address.trans ha) hc.getCode
      hb.getCode o.getCode_snd_flags.left o.getCode_snd_flags.right o.content_getCode
  cases r <;> simp only [StateDB.read]
  case exist a => exact hget a rfl
  case getCode a =>
    unfold StateDB.getCode
    split
    case h_1 h => exact hget a h
    case h_2 h => exact ⟨(hcode a h).codeSizeCache _, (hget a h).right⟩
  case getCodeSize a =>
    unfold StateDB.getCodeSize
    split
    case h_1 h => exact hget a h
    case h_2 h =>
      split
      case h_1 => exact hget a h
      case h_2 =>
        simp only
        split
        case isTrue  => exact ⟨hcode a h, (hget a h).right⟩
        case isFalse => exact ⟨(hcode a h).codeSizeCache _, (hget a h).right⟩
  case getState a k =>
    unfold StateDB.getState
    split
    case h_1 h => exact hget a h
    case h_2 o s₁ h =>
      obtain ⟨_, ha, hc⟩ := hs.wf.object h
      obtain ⟨hs₁, hb⟩ := hs.object h
      exact ⟨hs₁.refresh (lookup_of_getStateObject h).left (o.getState_snd_address.trans ha)
        (hc.getState k) (hb.getState k) o.getState_snd_flags.left o.getState_snd_flags.right
        (o.content_getState k), (hget a h).right⟩

theorem Durable.run (h : SafeRun H s s') : s'.Durable H ∧ Extends H s.db s'.db := by
  induction h
  case refl => exact ⟨hs, .refl _⟩
  case step hc h hi =>
    obtain ⟨hd, hx⟩ := hi
    obtain ⟨hd, hx'⟩ := hd.step hc h
    exact ⟨hd, hx.trans hx'⟩
  case read r _ hi =>
    obtain ⟨hd, hx⟩ := hi
    obtain ⟨hd, hdb⟩ := hd.read r
    exact ⟨hd, hdb ▸ hx⟩

end

theorem durable_of_new {root : Hash} {db : Database} (hdb : Complete H db) (h : new root db = some s) :
    s.Durable H := by
  obtain ⟨t, ht, h⟩ := Option.map_eq_some_iff.mp h
  subst h
  exact durable_of_journal_nil rfl (.blank rfl rfl rfl rfl) hdb (fun h => by simp [ofTrie] at h)
    fun {a} _ => settled_of_account (hdb root t ht a) (account_of_lookup_none rfl)

end

-- The account was suicided, or it is empty and was touched and such accounts are deleted.
def gone (H : Hashing) (d : Bool) (s : StateDB) (a : Address) : Bool :=
  (s.hasSuicided a).fst || (a ∈ s.stateObjectsDirty && d && (s.empty H a).fst)

end StateDB

-- What the accessors return on a state that is opened after the commit of another one.
structure Persisted (H : Hashing) (d : Bool) (s t : StateDB) : Prop where
  exist       : ∀ a, (t.exist a).fst = ((s.exist a).fst && !s.gone H d a)
  getBalance  : ∀ a, s.gone H d a = false → (t.getBalance a).fst = (s.getBalance a).fst
  getNonce    : ∀ a, s.gone H d a = false → (t.getNonce a).fst = (s.getNonce a).fst
  getCode     : ∀ a, s.gone H d a = false → (t.getCode H a).fst = (s.getCode H a).fst
  getCodeHash : ∀ a, s.gone H d a = false → (t.getCodeHash a).fst = (s.getCodeHash a).fst
  getState    : ∀ a k, s.gone H d a = false → (t.getState a k).fst = (s.getState a k).fst

namespace StateDB

variable {H : Hashing} {d : Bool} {s t : StateDB}

theorem remains_eq (a : Address) : remains H d s a =
    if s.gone H d a then none else (s.account H a).map AccountView.facts := by
  have he (v : AccountView) : v.isEmpty H =
    (v.nonce = 0 && v.balance = 0 && v.codeHash = H.emptyCodeHash) := rfl
  rw [remains, gone, hasSuicided_eq H, empty_eq]
  cases s.account H a
  case none   => simp
  case some v =>
    simp only [Option.filter_some, Option.any_some, Option.all_some, ← he]
    cases v.suicided || (decide (a ∈ s.stateObjectsDirty) && d && v.isEmpty H) <;> rfl

theorem persisted_of_remains (h : ∀ a, (t.account H a).map AccountView.facts = remains H d s a) :
    Persisted H d s t := by
  have hacc (a : Address) (hg : s.gone H d a = false) :
      (t.account H a).map AccountView.facts = (s.account H a).map AccountView.facts := by
    rw [h, remains_eq, hg, if_neg Bool.false_ne_true]
  have hfield {α : Type} (f : Facts → α) (x : α) (a : Address) (hg : s.gone H d a = false) :
      (t.account H a).elim x (fun v => f v.facts) = (s.account H a).elim x (fun v => f v.facts) := by
    have := congrArg (·.elim x f) (hacc a hg)
    simpa only [Option.elim_map, Function.comp_def] using this
  refine ⟨fun a => ?_, fun a hg => ?_, fun a hg => ?_, fun a hg => ?_, fun a hg => ?_, fun a k hg => ?_⟩
  · rw [exist_eq H, exist_eq H, ← Option.isSome_map (f := AccountView.facts), h, remains_eq]
    cases s.gone H d a
    case true  => simp
    case false => simp
  · rw [getBalance_eq H, getBalance_eq H]
    exact hfield Facts.balance 0 a hg
  · rw [getNonce_eq H, getNonce_eq H]
    exact hfield Facts.nonce 0 a hg
  · rw [getCode_eq, getCode_eq]
    exact hfield Facts.code [] a hg
  · rw [getCodeHash_eq H, getCodeHash_eq H]
    exact hfield Facts.codeHash Hash.zero a hg
  · rw [getState_eq H, getState_eq H]
    exact hfield (·.storage k) Hash.zero a hg

-- The roots of the tries that have one account, with a balance of 5 and of 7.
def sampleRoot5 : Hash :=
  ⟨[0x06, 0x1d, 0xa4, 0xef, 0x0f, 0x54, 0xc0, 0x25, 0x9f, 0x2b, 0x00, 0x41, 0xf8, 0x7c, 0xd0, 0x68,
    0x07, 0x62, 0x7b, 0x7f, 0xfd, 0x56, 0x1b, 0xaf, 0x08, 0x66, 0x02, 0x75, 0xa2, 0xa0, 0xe0, 0xe6],
    rfl⟩

def sampleRoot7 : Hash :=
  ⟨[0x82, 0x37, 0xfb, 0xa0, 0x7d, 0xd2, 0x45, 0x4f, 0x35, 0x0b, 0x96, 0x45, 0xfc, 0x04, 0xa9, 0x64,
    0x41, 0xdf, 0x97, 0x03, 0x3f, 0xaa, 0x1e, 0x45, 0xce, 0x2d, 0x39, 0x6d, 0xa9, 0x53, 0x7d, 0xe6],
    rfl⟩

def balanceHashing : Hashing :=
  { sampleHashing with
    accountRoot := fun t =>
      let balance := (t (sampleAddress 0x11)).map (·.val.balance)
      if balance = some 5 then sampleRoot5 else if balance = some 7 then sampleRoot7 else Trie.emptyRoot }

end StateDB

end State
