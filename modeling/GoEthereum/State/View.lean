import GoEthereum.State.Snapshot

-- What the accessors report of a state, and how undoing an entry changes it.

namespace State

open Common

@[ext]
structure AccountView where
  nonce    : UInt64
  balance  : Int
  codeHash : Hash
  code     : Option Bytes
  storage  : Hash → Hash
  suicided : Bool

@[ext]
structure View where
  accounts : Address → Option AccountView
  refund   : Int
  logs     : Hash → List Log

section

variable (H : Hashing) (db : Database) (o : StateObject)

def codeAt (code : Option Bytes) (codeHash : Hash) : Option Bytes :=
  code.or (if codeHash = H.emptyCodeHash then none else db.codes codeHash)

def StateObject.storedTrie : StorageTrie :=
  o.trie.getD ((openTrie db.storages StorageTrie.empty o.data.root).getD StorageTrie.empty)

def StateObject.content : AccountView where
  nonce    := o.data.nonce
  balance  := o.data.balance
  codeHash := o.data.codeHash
  code     := codeAt H db o.code o.data.codeHash
  storage  := fun k => (o.cachedStorage.lookup k).getD (o.storedTrie db k)
  suicided := o.suicided

def StateObject.view : Option AccountView :=
  if o.deleted then none else some (o.content H db)

theorem StateObject.getCode_fst : (o.getCode H db).fst = codeAt H db o.code o.data.codeHash := by
  unfold StateObject.getCode codeAt
  split
  case h_1 h => simp [h]
  case h_2 h =>
    rw [h]
    split
    case isTrue  => rfl
    case isFalse => split <;> simp_all

variable {H db o}

theorem StateObject.getTrie_fst : (o.getTrie db).fst = o.storedTrie db := by
  unfold getTrie storedTrie
  split
  case h_1 h => rw [h, Option.getD_some]
  case h_2 h => split <;> simp_all

theorem StateObject.getState_fst_eq_content (k : Hash) :
    (o.getState db k).fst = (o.content H db).storage k := by
  rw [getState_fst, getTrie_fst]
  rfl

theorem StateObject.content_getTrie : (o.getTrie db).snd.content H db = o.content H db := by
  unfold getTrie
  split
  case h_1 => rfl
  case h_2 hn => split <;> simp_all [content, storedTrie]

theorem StateObject.content_insert_cached {t : StorageTrie} {k : Hash} (ht : o.trie = some t)
    (hk : o.cachedStorage.lookup k = none) :
    content H db { o with cachedStorage := o.cachedStorage.insert k (t k) } = o.content H db := by
  refine AccountView.ext rfl rfl rfl rfl (funext fun j => ?_) rfl
  simp only [content, GoMap.lookup_insert_eq_ite]
  split
  case isFalse => rfl
  case isTrue h =>
    subst h
    simp [hk, storedTrie, ht]

theorem StateObject.content_insert_both (k v : Hash) :
    content H db { o with
      cachedStorage := o.cachedStorage.insert k v
      dirtyStorage  := o.dirtyStorage.insert k v } =
    { o.content H db with storage := Function.update (o.content H db).storage k v } := by
  refine AccountView.ext rfl rfl rfl rfl (funext fun j => ?_) rfl
  simp only [content, GoMap.lookup_insert_eq_ite, Function.update_apply]
  split <;> rfl

theorem StateObject.content_getState (k : Hash) :
    (o.getState db k).snd.content H db = o.content H db := by
  unfold getState
  split
  case h_1 => rfl
  case h_2 hk =>
    simp only
    split
    case isTrue  => exact content_getTrie
    case isFalse =>
      rw [content_insert_cached getTrie_snd_trie (by rw [getTrie_snd_caches.left, hk]), content_getTrie]

theorem StateObject.content_getCode : (o.getCode H db).snd.content H db = o.content H db := by
  unfold getCode
  split
  case h_1 => rfl
  case h_2 hn =>
    split
    case isTrue => rfl
    case isFalse hh =>
      split
      case h_2 => rfl
      case h_1 c hc =>
        refine AccountView.ext rfl rfl rfl ?_ rfl rfl
        simp [content, codeAt, hn, hh, hc]

theorem StateObject.getState_snd_flags {k : Hash} :
    (o.getState db k).snd.deleted = o.deleted ∧ (o.getState db k).snd.onDirty = o.onDirty := by
  have ht : (o.getTrie db).snd.deleted = o.deleted ∧ (o.getTrie db).snd.onDirty = o.onDirty := by
    unfold getTrie
    repeat' split
    all_goals exact ⟨rfl, rfl⟩
  unfold getState
  split
  case h_1 => exact ⟨rfl, rfl⟩
  case h_2 =>
    simp only
    split <;> exact ht

theorem StateObject.getCode_snd_flags :
    (o.getCode H db).snd.deleted = o.deleted ∧ (o.getCode H db).snd.onDirty = o.onDirty := by
  unfold getCode
  repeat' split
  all_goals exact ⟨rfl, rfl⟩

end

namespace JournalEntry

-- What undoing an entry makes of the view of its account. `base` is what the account trie has.
-- `none` is a panic.
def back (H : Hashing) (db : Database) (base v : Option AccountView) :
    JournalEntry → Option (Option AccountView)
  | .createObject _ => some base
  | .touch a prev => some (if !prev && a ≠ StateDB.ripemd then base else v)
  | .resetObject prev => some (prev.view H db)
  | .suicide _ prev prevbalance =>
    some (v.map fun v => { v with suicided := prev, balance := prevbalance })
  | .balance _ prev => v.map fun v => some { v with balance := prev }
  | .nonce _ prev => v.map fun v => some { v with nonce := prev }
  | .storage _ key prevalue =>
    v.map fun v => some { v with storage := Function.update v.storage key prevalue }
  | .code _ prevcode prevhash =>
    v.map fun v => some { v with codeHash := prevhash, code := codeAt H db prevcode prevhash }
  | .refund _ | .addLog _ => some v

end JournalEntry

namespace View

def set (V : View) (a : Address) (v : Option AccountView) : View :=
  { V with accounts := Function.update V.accounts a v }

theorem set_self (V : View) (a : Address) : V.set a (V.accounts a) = V := by
  rw [set, Function.update_eq_self]

variable (H : Hashing) (db : Database) (base : Address → Option AccountView)

def undo (e : JournalEntry) (V : View) : Option View :=
  match e with
  | .refund prev => some { V with refund := prev }
  | .addLog h =>
    if V.logs h = [] then
      none
    else
      some { V with logs := Function.update V.logs h (V.logs h).dropLast }
  | e =>
    match e.account with
    | none   => some V
    | some a => (e.back H db (base a) (V.accounts a)).map (V.set a)

def undoAll (es : List JournalEntry) (V : View) : Option View :=
  es.foldrM (undo H db base) V

variable {H db base} {V : View} {a : Address} {es es' : List JournalEntry} {e : JournalEntry}

theorem undoAll_append :
    V.undoAll H db base (es ++ es') = (V.undoAll H db base es').bind (·.undoAll H db base es) := by
  simp only [undoAll, List.foldrM_append]
  rfl

theorem undoAll_concat :
    V.undoAll H db base (es ++ [e]) = (V.undo H db base e).bind (·.undoAll H db base es) := by
  simp [undoAll]

theorem undo_set_of_ne (v : Option AccountView) (h : e.account ≠ some a) :
    (V.set a v).undo H db base e = (V.undo H db base e).map (·.set a v) := by
  have hu {b : Address} (hb : b ≠ a) (w : Option (Option AccountView)) :
      w.map ((V.set a v).set b) = (w.map (V.set b)).map (·.set a v) := by
    cases w
    case none => rfl
    case some w => simp [set, Function.update_comm hb]
  cases e <;> simp only [JournalEntry.account, ne_eq, Option.some.injEq] at h
  case refund => rfl
  case addLog tx =>
    by_cases hl : V.logs tx = [] <;> simp [undo, set, hl]
  all_goals
    simp only [undo, JournalEntry.account, hu h]
    simp only [set, Function.update_of_ne h]

end View

namespace StateDB

variable (H : Hashing) (s : StateDB)

def base (a : Address) : Option AccountView :=
  (s.trie a).map fun data => (StateObject.newObject a data.val).content H s.db

def account (a : Address) : Option AccountView :=
  match s.stateObjects.lookup a with
  | some o => o.view H s.db
  | none   => s.base H a

def view : View where
  accounts := s.account H
  refund   := s.refund
  logs     := fun h => (s.logs.lookup h).getD []

variable {H s} {o : StateObject} {a : Address}

theorem account_setStateObject :
    (s.setStateObject o).account H = Function.update (s.account H) o.address (o.view H s.db) := by
  funext x
  by_cases h : x = o.address
  · subst h
    simp [account, setStateObject]
  · simp [account, setStateObject, h, base, AList.lookup_insert_ne h]

theorem account_modified :
    (s.modified o).account H = Function.update (s.account H) o.address (o.view H s.db) := by
  unfold modified
  split
  case isTrue  => exact account_setStateObject
  case isFalse => exact account_setStateObject

theorem account_deleteLive :
    (s.deleteLive a).account H = Function.update (s.account H) a (s.base H a) := by
  funext x
  by_cases h : x = a
  · subst h
    simp [account, deleteLive, base]
  · simp [account, deleteLive, Function.update_of_ne h, base, AList.lookup_erase_ne h]

theorem account_eq_map_getStateObject :
    s.account H a = (s.getStateObject a).fst.map (·.content H s.db) := by
  cases h : s.stateObjects.lookup a
  case none =>
    simp only [account, getStateObject, h, base]
    cases s.trie a <;> rfl
  case some o =>
    simp only [account, getStateObject, h, StateObject.view]
    split <;> rfl

theorem account_getStateObject_snd : (s.getStateObject a).snd.account H = s.account H := by
  unfold getStateObject
  split
  case h_1 => split <;> rfl
  case h_2 hn =>
    split
    case h_1 => rfl
    case h_2 data ht =>
      rw [account_setStateObject]
      have hv : s.account H a = (StateObject.newObject a data.val).view H s.db := by
        simp only [account, hn, base, ht]
        rfl
      rw [← hv]
      exact Function.update_eq_self ..

theorem view_setStateObject :
    (s.setStateObject o).view H = (s.view H).set o.address (o.view H s.db) := by
  simp only [view, account_setStateObject]
  rfl

theorem view_deleteLive : (s.deleteLive a).view H = (s.view H).set a (s.base H a) := by
  simp only [view, account_deleteLive]
  rfl

theorem view_modified : (s.modified o).view H = (s.view H).set o.address (o.view H s.db) := by
  simp only [view, account_modified]
  unfold modified
  split <;> rfl

theorem view_getStateObject_snd : (s.getStateObject a).snd.view H = s.view H := by
  simp only [view, account_getStateObject_snd]
  unfold getStateObject
  repeat' split
  all_goals rfl

variable {s₁ : StateDB}

theorem view_of_getStateObject {r : Option StateObject}
    (h : s.getStateObject a = (r, s₁)) : s₁.view H = s.view H := by
  rw [← view_getStateObject_snd (s := s) (a := a), h]

theorem account_of_getStateObject (h : s.getStateObject a = (some o, s₁)) :
    s.account H a = some (o.content H s.db) := by
  rw [account_eq_map_getStateObject, h]
  rfl

theorem base_congr {s' : StateDB} (ht : s'.trie = s.trie) (hd : s'.db = s.db) :
    s'.base H = s.base H := by
  funext a
  rw [base, base, ht, hd]

theorem view_modified_object {o' : StateObject} (h : s.getStateObject a = (some o, s₁))
    (ha : o'.address = a) (hd : o'.deleted = o.deleted) :
    (s₁.modified o').view H = (s.view H).set a (some (o'.content H s.db)) := by
  have hg := grows_of_getStateObject s a h
  rw [view_modified, view_of_getStateObject h, ha, hg.db, StateObject.view, hd, (lookup_of_getStateObject h).right]
  rfl

theorem undo_object_view (hs : s.Wf) {f : StateObject → StateObject} {g : AccountView → AccountView}
    (hf : ∀ o : StateObject, (f o).address = o.address ∧ (f o).deleted = o.deleted ∧
      (f o).content H s.db = g (o.content H s.db)) :
    (match s.getStateObject a with
      | (none, _)   => none
      | (some o, s) => some (s.modified (f o))).map (view H) =
    (((s.view H).accounts a).map fun v => some (g v)).map ((s.view H).set a) := by
  have ha : (s.view H).accounts a = _ := account_eq_map_getStateObject
  match h : s.getStateObject a with
  | (none, s₁)   => simp [ha, h]
  | (some o, s₁) =>
    obtain ⟨hfa, hfd, hfc⟩ := hf o
    have hv := view_modified_object (H := H) h (hfa.trans (hs.object h).right.left) hfd
    simp [ha, h, hv, hfc]

-- Undoing an entry, on states and on what is observed of them. A panic is a panic on both sides.
theorem undo_view (hs : s.Wf) (e : JournalEntry) :
    (undo e s).map (view H) = (s.view H).undo H s.db (s.base H) e := by
  cases e <;> simp only [undo, View.undo, JournalEntry.account, JournalEntry.back]
  case createObject a => simp [view_deleteLive]
  case resetObject p  => simp [view_setStateObject]
  case touch a prev =>
    split
    case isTrue  => simp [view_deleteLive]
    case isFalse => simp [View.set]
  case refund => rfl
  case addLog h =>
    have hl : (s.view H).logs h = (s.logs.lookup h).getD [] := rfl
    rw [hl]
    split
    case h_1 hn => simp [hn]
    case h_2 l hn =>
      simp only [hn, Option.map_some]
      refine congrArg some (View.ext rfl rfl (funext fun x => ?_))
      simp only [view, GoMap.lookup_erase_eq_ite, Function.update_apply]
      split <;> rfl
    case h_3 l ls hne hn =>
      simp only [hn, Option.map_some]
      refine congrArg some (View.ext rfl rfl (funext fun x => ?_))
      simp only [view, GoMap.lookup_insert_eq_ite, Function.update_apply]
      split <;> rfl
  case balance a n => exact undo_object_view hs fun o => ⟨rfl, rfl, rfl⟩
  case nonce a n   => exact undo_object_view hs fun o => ⟨rfl, rfl, rfl⟩
  case code a c h  => exact undo_object_view hs fun o => ⟨rfl, rfl, rfl⟩
  case storage a k v =>
    exact undo_object_view hs fun o => ⟨rfl, rfl, StateObject.content_insert_both k v⟩
  case suicide a prev n =>
    have ha : (s.view H).accounts a = _ := account_eq_map_getStateObject
    rcases h : s.getStateObject a with ⟨o, s₁⟩
    cases o
    case none =>
      have hn := getStateObject_none (s := s) (a := a) (by rw [h])
      cases h.symm.trans hn
      have hv : (s.view H).accounts a = none := by rw [ha, h]; rfl
      simp only [hv, Option.map_none, Option.map_some]
      rw [← hv, View.set_self]
    case some o =>
      simp only [ha, h, Option.map_some]
      exact congrArg some (view_modified_object h (hs.object h).right.left rfl)

theorem undoAll_view {es : List JournalEntry} (hs : s.Wf) (he : es ⊆ s.journal) :
    (undoAll es s).map (view H) = (s.view H).undoAll H s.db (s.base H) es := by
  induction es using List.reverseRecOn generalizing s
  case nil => rfl
  case append_singleton es e hi =>
    obtain ⟨he₁, he₂⟩ := List.append_subset.mp he
    have hv := undo_view (H := H) hs e
    rw [undoAll_concat, View.undoAll_concat, ← hv]
    cases ht : undo e s
    case none => rfl
    case some t =>
      have hg := grows_undo ht
      have hj : t.journal = s.journal := by rw [hg.journal, List.append_nil]
      simp only [Option.bind_some, Option.map_some]
      rw [hi (hs.undo (he₂ List.mem_cons_self) ht) (hj ▸ he₁), hg.db, base_congr hg.trie hg.db]

-- What a call does to the view of its account, and how its entry takes that back.
structure Undoable (H : Hashing) (db : Database) (o : StateObject) (e : JournalEntry)
    (o' : StateObject) : Prop where
  account : e.account = some o.address
  address : o'.address = o.address
  deleted : o'.deleted = o.deleted
  back    : e.drops = false → ∀ base,
    e.back H db base (some (o'.content H db)) = some (some (o.content H db))
  dropped : e.drops → o'.content H db = o.content H db

theorem change_undoable {db : Database} {op : AccountOp} {e : JournalEntry} {o' : StateObject}
    (hd : o.deleted = false) (h : change H db o op = some (e, o')) : Undoable H db o e o' := by
  cases op <;> simp only [change] at h
  case addBalance n =>
    split at h
    case isTrue =>
      split at h
      case isFalse => cases h
      case isTrue  =>
        cases h
        refine ⟨rfl, rfl, rfl, fun h base => ?_, fun _ => rfl⟩
        rw [JournalEntry.back, if_neg (by simpa [JournalEntry.drops] using h)]
        rfl
    case isFalse => cases h; exact ⟨rfl, rfl, rfl, fun _ _ => rfl, by simp [JournalEntry.drops]⟩
  case subBalance n =>
    split at h
    case isTrue  => cases h
    case isFalse => cases h; exact ⟨rfl, rfl, rfl, fun _ _ => rfl, by simp [JournalEntry.drops]⟩
  case setBalance => cases h; exact ⟨rfl, rfl, rfl, fun _ _ => rfl, by simp [JournalEntry.drops]⟩
  case setNonce   => cases h; exact ⟨rfl, rfl, rfl, fun _ _ => rfl, by simp [JournalEntry.drops]⟩
  case setCode c  =>
    cases h
    refine ⟨congrArg some o.getCode_snd_address, o.getCode_snd_address, o.getCode_snd_flags.left,
      fun _ base => ?_, by simp [JournalEntry.drops]⟩
    have hc : (o.getCode H db).snd.content H db = o.content H db := StateObject.content_getCode
    rw [← hc]
    refine congrArg (some ∘ some) (AccountView.ext rfl rfl rfl ?_ rfl rfl)
    rw [hc, StateObject.getCode_fst]
    have hh : (o.getCode H db).snd.data.codeHash = o.data.codeHash := congrArg AccountView.codeHash hc
    simp only [hh, StateObject.content, codeAt, Option.or_assoc, Option.or_self]
  case setState k v =>
    cases h
    refine ⟨congrArg some o.getState_snd_address, o.getState_snd_address, o.getState_snd_flags.left,
      fun _ base => ?_, by simp [JournalEntry.drops]⟩
    have hc : (o.getState db k).snd.content H db = o.content H db :=
      StateObject.content_getState k
    have hp : (o.getState db k).fst = ((o.getState db k).snd.content H db).storage k := by
      rw [hc, StateObject.getState_fst_eq_content]
    rw [← hc, StateObject.content_insert_both, JournalEntry.back, hp]
    simp
  case suicide => cases h; exact ⟨rfl, rfl, rfl, fun _ _ => rfl, by simp [JournalEntry.drops]⟩
  case createAccount =>
    cases h
    refine ⟨rfl, rfl, hd.symm, fun _ base => ?_, by simp [JournalEntry.drops]⟩
    rw [JournalEntry.back, StateObject.view, hd]
    rfl

end StateDB

end State
