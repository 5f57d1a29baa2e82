import GoEthereum.State.View

-- Snapshots: what reverting to one of them restores.

namespace State

open Common

structure Observed (H : Hashing) (s s' : StateDB) : Prop where
  exist       : ∀ a, (s.exist a).fst = (s'.exist a).fst
  empty       : ∀ a, (s.empty H a).fst = (s'.empty H a).fst
  hasSuicided : ∀ a, (s.hasSuicided a).fst = (s'.hasSuicided a).fst
  getBalance  : ∀ a, (s.getBalance a).fst = (s'.getBalance a).fst
  getNonce    : ∀ a, (s.getNonce a).fst = (s'.getNonce a).fst
  getCode     : ∀ a, (s.getCode H a).fst = (s'.getCode H a).fst
  getCodeHash : ∀ a, (s.getCodeHash a).fst = (s'.getCodeHash a).fst
  getCodeSize : ∀ a, (s.getCodeSize H a).fst = (s'.getCodeSize H a).fst
  getState    : ∀ a k, (s.getState a k).fst = (s'.getState a k).fst
  getRefund   : s.refund = s'.refund

namespace StateDB

variable (H : Hashing) (s : StateDB) (a : Address)

theorem exist_eq : (s.exist a).fst = (s.account H a).isSome := by
  rw [account_eq_map_getStateObject, Option.isSome_map]
  rfl

theorem empty_eq : (s.empty H a).fst = (s.account H a).all fun v =>
    v.nonce = 0 && v.balance = 0 && v.codeHash = H.emptyCodeHash := by
  rw [account_eq_map_getStateObject, Option.all_map]
  rfl

theorem hasSuicided_eq : (s.hasSuicided a).fst = (s.account H a).any (·.suicided) := by
  rw [account_eq_map_getStateObject, Option.any_map]
  rfl

theorem getBalance_eq : (s.getBalance a).fst = (s.account H a).elim 0 (·.balance) := by
  rw [account_eq_map_getStateObject, Option.elim_map]
  rfl

theorem getNonce_eq : (s.getNonce a).fst = (s.account H a).elim 0 (·.nonce) := by
  rw [account_eq_map_getStateObject, Option.elim_map]
  rfl

theorem getCodeHash_eq : (s.getCodeHash a).fst = (s.account H a).elim Hash.zero (·.codeHash) := by
  rw [account_eq_map_getStateObject, Option.elim_map]
  rfl

theorem getCode_eq : (s.getCode H a).fst = (s.account H a).elim [] (·.code.getD []) := by
  rw [account_eq_map_getStateObject, getCode]
  match h : s.getStateObject a with
  | (none, s₁)   => rfl
  | (some o, s₁) =>
    have hg := grows_of_getStateObject s a h
    simp only [StateObject.getCode_fst, hg.db]
    rfl

theorem getState_eq (k : Hash) :
    (s.getState a k).fst = (s.account H a).elim Hash.zero (·.storage k) := by
  rw [account_eq_map_getStateObject, getState]
  match h : s.getStateObject a with
  | (none, s₁)   => rfl
  | (some o, s₁) =>
    have hg := grows_of_getStateObject s a h
    simp only [o.getState_fst_eq_content (H := H), hg.db]
    rfl

theorem getCodeSize_eq : (s.getCodeSize H a).fst = (s.account H a).elim 0 fun v =>
    (s.codeSizeCache.lookup v.codeHash).getD (v.code.getD []).length := by
  rw [account_eq_map_getStateObject, getCodeSize]
  match h : s.getStateObject a with
  | (none, s₁)   => rfl
  | (some o, s₁) =>
    have hg := grows_of_getStateObject s a h
    have hl : s₁.codeSizeCache.lookup o.data.codeHash = s.codeSizeCache.lookup (o.content H s.db).codeHash := by
      rw [hg.codeSizeCache]
      rfl
    simp only [Option.map_some, Option.elim_some, ← hl]
    cases s₁.codeSizeCache.lookup o.data.codeHash
    case some n => rfl
    case none =>
      simp only [StateObject.getCode_fst, hg.db, Option.getD_none]
      split <;> rfl

end StateDB

theorem Observed.of_view {H : Hashing} {s s' : StateDB} (hv : s.view H = s'.view H)
    (hc : s.codeSizeCache = s'.codeSizeCache) : Observed H s s' := by
  have ha (a) : s.account H a = s'.account H a := congrFun (congrArg View.accounts hv) a
  constructor
  case getRefund => exact congrArg View.refund hv
  all_goals
    intros
    simp only [StateDB.exist_eq H, StateDB.empty_eq, StateDB.hasSuicided_eq H, StateDB.getBalance_eq H,
      StateDB.getNonce_eq H, StateDB.getCode_eq, StateDB.getCodeHash_eq H, StateDB.getCodeSize_eq,
      StateDB.getState_eq H, ha, hc]

-- The entries end with the creation of an account, apart from entries of other accounts.
def Fresh (a : Address) (es : List JournalEntry) : Prop :=
  ∃ es₁ es₂, es = es₁ ++ .createObject a :: es₂ ∧ ∀ e ∈ es₂, e.account ≠ some a

section

variable {H : Hashing} {db : Database} {base : Address → Option AccountView} {V : View}
variable {a : Address} {e : JournalEntry} {es : List JournalEntry}

theorem Fresh.append_left (h : Fresh a es) (es' : List JournalEntry) : Fresh a (es' ++ es) := by
  obtain ⟨es₁, es₂, he, hn⟩ := h
  exact ⟨es' ++ es₁, es₂, by rw [he, List.append_assoc], hn⟩

theorem View.set_set (v w : Option AccountView) : (V.set a v).set a w = V.set a w := by
  simp [View.set]

theorem View.set_accounts_self (v : Option AccountView) : (V.set a v).accounts a = v := by
  simp [View.set]

theorem View.undo_of_account (h : e.account = some a) :
    V.undo H db base e = (e.back H db (base a) (V.accounts a)).map (V.set a) := by
  cases e <;> simp only [JournalEntry.account, Option.some.injEq, reduceCtorEq] at h
  all_goals
    subst h
    rfl

theorem JournalEntry.back_of_drops (h : e.drops) (b v : Option AccountView) :
    e.back H db b v = some b := by
  cases e <;> simp only [JournalEntry.drops, Bool.false_eq_true] at h
  case createObject => rfl
  case touch        => rw [JournalEntry.back, if_pos h]

theorem Fresh.undoAll_set (h : Fresh a es) (v : Option AccountView) :
    (V.set a v).undoAll H db base es = V.undoAll H db base es := by
  obtain ⟨es₁, es₂, rfl, hn⟩ := h
  induction es₂ using List.reverseRecOn generalizing V
  case nil =>
    rw [View.undoAll_concat, View.undoAll_concat, View.undo_of_account rfl, View.undo_of_account rfl,
      JournalEntry.back_of_drops rfl, JournalEntry.back_of_drops rfl, Option.map_some,
      Option.map_some, View.set_set]
  case append_singleton es₂ e hi =>
    have he : e.account ≠ some a := hn e (List.mem_append_right _ (List.mem_singleton_self e))
    rw [← List.cons_append, ← List.append_assoc, View.undoAll_concat, View.undoAll_concat,
      View.undo_set_of_ne v he]
    cases V.undo H db base e
    case none => rfl
    case some W =>
      exact hi fun e' he' => hn e' (List.mem_append_left _ he')

end

namespace StateDB

section

variable {H : Hashing} {s : StateDB} {a : Address} {o o' : StateObject} {e : JournalEntry}
variable {op : AccountOp}

theorem view_apply (h : s.account H a = some (o.content H s.db)) (ha : o.address = a)
    (hd : o.deleted = false) (hc : Undoable H s.db o e o') :
    ((s.apply (some (e, o'))).view H).undo H s.db (s.base H) e =
      some (if e.drops then (s.view H).set a (s.base H a) else s.view H) := by
  have hv : (s.apply (some (e, o'))).view H = (s.view H).set a (some (o'.content H s.db)) := by
    rw [apply, view_modified, hc.address, ha, StateObject.view, hc.deleted, hd]
    rfl
  have hs : (s.view H).accounts a = _ := h
  rw [hv, View.undo_of_account (hc.account.trans (congrArg some ha)), View.set_accounts_self]
  split
  case isTrue hdrop => rw [JournalEntry.back_of_drops hdrop, Option.map_some, View.set_set]
  case isFalse hdrop =>
    rw [hc.back (by simpa using hdrop), Option.map_some, View.set_set, ← hs, View.set_self]

theorem change_drops {db : Database} (h : change H db o op = some (e, o')) (hd : e.drops) :
    op = .addBalance 0 ∧ o.empty H ∧ o.touched = false ∧ o.address ≠ ripemd := by
  cases op <;> simp only [change] at h
  case addBalance n =>
    split at h
    case isFalse => cases h; cases hd
    case isTrue hn =>
      split at h
      case isFalse => cases h
      case isTrue he =>
        cases h
        simp only [JournalEntry.drops, Bool.and_eq_true, Bool.not_eq_true', decide_eq_true_eq] at hd
        exact ⟨by rw [hn], he, hd⟩
  case subBalance n =>
    split at h
    case isTrue  => cases h
    case isFalse => cases h; cases hd
  all_goals
    cases h
    cases hd

def sinceSnapshot (s : StateDB) : List JournalEntry :=
  s.journal.drop ((s.validRevisions.getLast?.map (·.journalIndex)).getD 0)

-- The condition under which a call can be taken back. An account is only created where the account
-- trie has none, and only touched for the first time if it is as the trie has it, or was created
-- since the last snapshot and not changed: undoing the touch drops the live object.
def SafeCall (H : Hashing) (s : StateDB) (a : Address) (op : AccountOp) : Prop :=
  match (s.getStateObject a).fst with
  | none   => op = .suicide ∨ s.trie a = none
  | some o =>
    op = .addBalance 0 → o.empty H → o.touched = false → a ≠ ripemd →
      s.account H a = s.base H a ∨ Fresh a s.sinceSnapshot

theorem view_create :
    (s.create H a).view H = (s.view H).set a (some ((freshObject H a).content H s.db)) := by
  rw [create, view_modified]
  rfl

theorem grows_create : Grows s [.createObject a] (s.create H a) :=
  grows_modified_append ..

theorem undoAll_create {db : Database} {base : Address → Option AccountView} (V : View) :
    V.undoAll H db base [.createObject a] = some (V.set a (base a)) :=
  rfl

theorem set_base_of_none (hn : (s.getStateObject a).fst = none) (ht : s.trie a = none) :
    (s.view H).set a (s.base H a) = s.view H := by
  have ha : (s.view H).accounts a = s.base H a := by
    rw [base, ht]
    exact account_eq_map_getStateObject.trans (by rw [hn]; rfl)
  rw [← ha, View.set_self]

theorem callNew_undo (hn : (s.getStateObject a).fst = none) (ht : s.trie a = none) :
    ∃ es, Grows s es (s.callNew H a op) ∧
      ((s.callNew H a op).view H).undoAll H s.db (s.base H) es = some (s.view H) := by
  have hg : Grows s [.createObject a] (s.create H a) := grows_create
  have hb : (s.create H a).base H = s.base H := base_congr hg.trie hg.db
  obtain h | ⟨c, h, rfl | hc⟩ := callNew_cases H s a op <;> rw [h]
  · exact ⟨[], .refl s, rfl⟩
  · refine ⟨_, hg, ?_⟩
    rw [apply, undoAll_create, view_create, View.set_set, set_base_of_none hn ht]
  · cases c
    case none =>
      refine ⟨_, hg, ?_⟩
      rw [apply, undoAll_create, view_create, View.set_set, set_base_of_none hn ht]
    case some c =>
      refine ⟨_, hg.trans (grows_modified_append ..), ?_⟩
      have ha : (s.create H a).account H a = some ((freshObject H a).content H (s.create H a).db) := by
        exact (congrArg (·.accounts a) view_create).trans (View.set_accounts_self _)
      have hu := change_undoable (H := H) (o := freshObject H a) rfl hc.symm
      have hv := view_apply ha rfl rfl (hg.db ▸ hu)
      rw [hg.db, hb] at hv
      rw [View.undoAll_concat, hv, Option.bind_some, undoAll_create]
      split
      case isTrue  => rw [View.set_set, view_create, View.set_set, set_base_of_none hn ht]
      case isFalse => rw [view_create, View.set_set, set_base_of_none hn ht]

theorem call_undo (hs : s.Wf) (hc : SafeCall H s a op) : ∃ es V, Grows s es (s.call H a op) ∧
    ((s.call H a op).view H).undoAll H s.db (s.base H) es = some V ∧
    (V = s.view H ∨ Fresh a s.sinceSnapshot ∧ V = (s.view H).set a (s.base H a)) := by
  unfold SafeCall at hc
  match h : s.getStateObject a with
  | (none, s₁) =>
    have hn : (s.getStateObject a).fst = none := by rw [h]
    rw [call_of_none hn]
    rw [h] at hc
    obtain rfl | ht := hc
    · exact ⟨[], _, .refl s, rfl, .inl rfl⟩
    · obtain ⟨es, hg, hv⟩ : ∃ es, Grows s es (s.callNew H a op) ∧ _ := callNew_undo hn ht
      exact ⟨es, _, hg, hv, .inl rfl⟩
  | (some o, s₁) =>
    rw [h] at hc
    obtain ⟨_, ha, _⟩ := hs.object h
    have hd := (lookup_of_getStateObject h).right
    have hg := grows_of_getStateObject s a h
    have hb : s₁.base H = s.base H := base_congr hg.trie hg.db
    have hv : s₁.view H = s.view H := view_of_getStateObject h
    rw [call_of_some h ha]
    match hch : change H s₁.db o op with
    | none         => exact ⟨[], _, hg, by rw [apply, hv]; rfl, .inl rfl⟩
    | some (e, o') =>
      have hacc : s₁.account H a = some (o.content H s₁.db) := by
        rw [hg.db, ← account_of_getStateObject h]
        exact congrFun (congrArg View.accounts hv) a
      have hu := view_apply hacc ha hd (change_undoable hd hch)
      rw [hg.db, hb, hv] at hu
      refine ⟨[e], _, hg.trans (grows_modified_append ..), by simpa [View.undoAll] using hu, ?_⟩
      split
      case isFalse => exact .inl rfl
      case isTrue hdrop =>
        obtain ⟨hop, he, ht, hr⟩ := change_drops hch hdrop
        apply (hc hop he ht (ha ▸ hr)).imp
        · intro hsame
          rw [← hsame]
          exact View.set_self ..
        · exact fun hf => ⟨hf, rfl⟩

end

section

variable {H : Hashing} {s s' : StateDB} {V : View} {cache : GoMap Hash Nat} {r : Revision}

-- Undoing the entries shows the view, with the cache of code sizes as it is.
def Shows (H : Hashing) (V : View) (cache : GoMap Hash Nat) (s : StateDB) (es : List JournalEntry) :
    Prop :=
  s.codeSizeCache = cache ∧ (s.view H).undoAll H s.db (s.base H) es = some V

theorem SameContent.view (h : SameContent s s') : s'.view H = s.view H := by
  refine View.ext (funext fun a => ?_) h.refund (funext fun x => ?_)
  · simp only [StateDB.view, account, base, h.stateObjects, h.trie, h.db]
  · simp only [StateDB.view, h.logs]

theorem Shows.grows {es new : List JournalEntry} {W : View} (hg : Grows s new s')
    (hu : (s'.view H).undoAll H s.db (s.base H) new = some W)
    (hW : W.undoAll H s.db (s.base H) es = (s.view H).undoAll H s.db (s.base H) es)
    (h : Shows H V cache s es) : Shows H V cache s' (es ++ new) := by
  refine ⟨hg.codeSizeCache.trans h.left, ?_⟩
  rw [hg.db, base_congr hg.trie hg.db, View.undoAll_append, hu, Option.bind_some, hW, h.right]

theorem undoAll_addLog (log : Log) :
    ((s.addLog log).view H).undoAll H s.db (s.base H) [.addLog s.thash] = some (s.view H) := by
  have hl : ((s.addLog log).view H).logs s.thash ≠ [] := by
    simp [view, addLog]
  simp only [View.undoAll, List.foldrM_cons, List.foldrM_nil, pure_bind, View.undo, if_neg hl]
  refine congrArg some (View.ext rfl rfl (funext fun x => ?_))
  simp only [view, addLog, GoMap.lookup_insert_eq_ite, Function.update_apply]
  split
  case isTrue hx =>
    subst hx
    simp
  case isFalse   => rfl

theorem drop_eq_append_sinceSnapshot (hw : s.Wf) (hr : r ∈ s.validRevisions) :
    ∃ es, s.journal.drop r.journalIndex = es ++ s.sinceSnapshot := by
  obtain ⟨k, hk⟩ := Nat.exists_eq_add_of_le (hw.revisions.le_last hr)
  refine ⟨(s.journal.drop r.journalIndex).take k, ?_⟩
  rw [sinceSnapshot, hk, ← List.drop_drop, List.take_append_drop]

theorem shows_tracked : Tracked H (SafeCall H) (Shows H V cache) where
  content hsc h := by
    refine ⟨hsc.codeSizeCache.trans h.left, ?_⟩
    rw [hsc.view, hsc.db, base_congr hsc.trie hsc.db, h.right]
  undo {s s' es e} hw hs h := by
    have hg := grows_undo hs
    have hv := undo_view (H := H) hw e
    rw [hs, Option.map_some] at hv
    have hu := h.right
    rw [View.undoAll_concat, ← hv, Option.bind_some] at hu
    exact ⟨hg.codeSizeCache.trans h.left, by rw [hg.db, base_congr hg.trie hg.db, hu]⟩
  call {s a op} hw hc := by
    obtain ⟨new, W, hg, hu, hW⟩ := call_undo hw hc
    refine ⟨new, hg, fun r hr => .grows hg hu ?_⟩
    obtain rfl | ⟨hf, rfl⟩ := hW
    · rfl
    · obtain ⟨es', he⟩ := drop_eq_append_sinceSnapshot hw hr
      exact he ▸ (hf.append_left es').undoAll_set _
  refund h := .grows (grows_addRefund ..) rfl rfl h
  addLog h := .grows (grows_addLog ..) (undoAll_addLog _) rfl h

end

theorem undoAll_of_safe {H : Hashing} {s s₁ s₂ : StateDB} {revid : Nat} {ops : List Op}
    (hs : s.Wf) (h₁ : s.snapshot = (revid, s₁)) (hc : CallsMeet H (SafeCall H) s₁ ops)
    (h₂ : s₁.run H ops = some s₂) (hv : ∃ r ∈ s₂.validRevisions, r.id = revid) :
    ∃ s₃ rs, undoAll (s₂.journal.drop s.journal.length) s₂ = some s₃ ∧ s₃.view H = s.view H ∧
      s₃.codeSizeCache = s.codeSizeCache ∧ s₂.revertToSnapshot revid = some { s₃ with
        journal := s₂.journal.take s.journal.length, validRevisions := rs } := by
  obtain ⟨hw₂, ⟨hcache, hu⟩, rs, hr⟩ := (shows_tracked (V := s.view H)).snapshot hs h₁ ⟨rfl, rfl⟩ hc h₂ hv
  rw [← undoAll_view hw₂ (List.drop_subset ..)] at hu
  obtain ⟨s₃, hs₃, hview⟩ := Option.map_eq_some_iff.mp hu
  rw [hs₃] at hr
  exact ⟨s₃, rs, hs₃, hview, (grows_undoAll hs₃).codeSizeCache.trans hcache, hr⟩

-- Reverting to a snapshot that is still valid does not panic, and every accessor returns what it
-- returned when the snapshot was taken.
theorem revertToSnapshot_restores {H : Hashing} {s s₁ s₂ : StateDB} {revid : Nat} {ops : List Op}
    (hs : s.Reachable H) (h₁ : s.snapshot = (revid, s₁)) (hc : CallsMeet H (SafeCall H) s₁ ops)
    (h₂ : s₁.run H ops = some s₂) (hv : ∃ r ∈ s₂.validRevisions, r.id = revid) :
    ∃ s₃, s₂.revertToSnapshot revid = some s₃ ∧ Observed H s₁ s₃ := by
  obtain ⟨s₃, rs, _, hview, hcache, hr⟩ := undoAll_of_safe hs.wf h₁ hc h₂ hv
  obtain ⟨rfl, rfl⟩ := Prod.mk.inj h₁
  exact ⟨_, hr, .of_view hview.symm hcache.symm⟩

def sampleHashing : Hashing where
  keccak b      := if b = [] then
      ⟨[0xc5, 0xd2, 0x46, 0x01, 0x86, 0xf7, 0x23, 0x3c, 0x92, 0x7e, 0x7d, 0xb2, 0xdc, 0xc7, 0x03, 0xc0,
        0xe5, 0x00, 0xb6, 0x53, 0xca, 0x82, 0x27, 0x3b, 0x7b, 0xfa, 0xd8, 0x04, 0x5d, 0x85, 0xa4, 0x70],
        rfl⟩
    else
      Hash.zero
  storageRoot _ := Trie.emptyRoot
  accountRoot _ := Trie.emptyRoot

def sampleDatabase : Database where
  accounts _ := none
  storages _ := none
  codes    _ := none

def sampleState : StateDB :=
  ofTrie sampleDatabase AccountTrie.empty

def sampleAddress (b : UInt8) : Address :=
  ⟨List.replicate 19 0 ++ [b], rfl⟩

theorem sampleState_reachable : sampleState.Reachable sampleHashing :=
  .new (show StateDB.new Hash.zero sampleDatabase = _ from rfl)

-- An account that was created before the snapshot, and touched afterwards, is gone.
theorem revertToSnapshot_drops_created : ∃ s s₁ s₂ : StateDB,
    s.Reachable sampleHashing ∧ s.snapshot = (0, s₁) ∧
    s₁.run sampleHashing [.account (sampleAddress 0x11) (.addBalance 0)] = some s₂ ∧
    (s₁.exist (sampleAddress 0x11)).fst = true ∧
    (s₂.revertToSnapshot 0).map (fun s₃ => (s₃.exist (sampleAddress 0x11)).fst) = some false :=
  ⟨sampleState.call sampleHashing (sampleAddress 0x11) .createAccount, _, _,
    sampleState_reachable.step (show sampleState.step _ (.account _ .createAccount) = _ from rfl), rfl, rfl, by decide +kernel,
    by decide +kernel⟩

-- The trie does not have the account, and if it exists it is not touched.
def plain (s : StateDB) (a : Address) : AccountOp → Bool
  | .addBalance n => (s.trie a).isNone && (n ≠ 0 || (s.getStateObject a).fst.isNone)
  | _             => (s.trie a).isNone

theorem trie_of_plain {s : StateDB} {a : Address} {op : AccountOp} (h : plain s a op) :
    s.trie a = none := by
  cases op <;> simp_all [plain]

theorem safeCall_of_plain {H : Hashing} {s : StateDB} {a : Address} {op : AccountOp}
    (h : plain s a op) : SafeCall H s a op := by
  rw [SafeCall]
  split
  case h_1 => exact .inr (trie_of_plain h)
  case h_2 o ho =>
    rintro rfl
    simp [plain, ho] at h

-- A new account is touched, and a revert to an inner snapshot comes before the outer one.
def sampleOps : List Op :=
  [.account (sampleAddress 0x22) (.addBalance 0), .snapshot,
   .account (sampleAddress 0x11) (.setNonce 1), .revertToSnapshot 1,
   .account (sampleAddress 0x11) (.subBalance 2)]

theorem revertToSnapshot_restores_sample : ∃ s s₁ s₂ s₃ : StateDB,
    s.snapshot = (0, s₁) ∧ s₁.run sampleHashing sampleOps = some s₂ ∧
    s₂.revertToSnapshot 0 = some s₃ ∧ Observed sampleHashing s₁ s₃ := by
  let s := sampleState.call sampleHashing (sampleAddress 0x11) (.setBalance 5)
  have hs : s.Reachable sampleHashing :=
    sampleState_reachable.step (show sampleState.step _ (.account _ (.setBalance 5)) = _ from rfl)
  have hc : CallsMeet sampleHashing (SafeCall sampleHashing) s.snapshot.snd sampleOps :=
    callsMeet_of_checkRun safeCall_of_plain (by decide +kernel)
  have hr : (s.snapshot.snd.run sampleHashing sampleOps).map (·.validRevisions) = some [⟨0, 2⟩] := by
    decide +kernel
  obtain ⟨s₂, hs₂, hr⟩ := Option.map_eq_some_iff.mp hr
  obtain ⟨s₃, hs₃, ho⟩ := revertToSnapshot_restores hs rfl hc hs₂ ⟨⟨0, 2⟩, by simp [hr], rfl⟩
  exact ⟨s, _, s₂, s₃, rfl, hs₂, hs₃, ho⟩

end StateDB

end State
