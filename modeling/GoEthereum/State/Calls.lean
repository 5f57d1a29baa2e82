import GoEthereum.State.Commit

-- What the calls on accounts do to the live objects, and what undoing their entries does.

namespace State

open Common

namespace JournalEntry

def account : JournalEntry → Option Address
  | .createObject a | .suicide a _ _ | .balance a _ | .nonce a _ | .storage a _ _ | .code a _ _
  | .touch a _ => some a
  | .resetObject prev => some prev.address
  | .refund _ | .addLog _ => none

def drops : JournalEntry → Bool
  | .createObject _ => true
  | .touch a prev   => !prev && a ≠ StateDB.ripemd
  | _               => false

-- The ways in which undoing an entry works on the object of its account.
inductive Effect
  | drop
  | reset (prev : StateObject)
  | restore
  | keep

def effect : JournalEntry → Effect
  | .createObject _ => .drop
  | .touch a prev => if !prev && a ≠ StateDB.ripemd then .drop else .keep
  | .resetObject prev => .reset prev
  | .suicide _ _ _ | .balance _ _ | .nonce _ _ | .storage _ _ _ | .code _ _ _ => .restore
  | .refund _ | .addLog _ => .keep

theorem effect_eq_drop_iff {e : JournalEntry} : e.effect = .drop ↔ e.drops := by
  cases e <;> simp [effect, drops]

def restore (o : StateObject) : JournalEntry → StateObject
  | .suicide _ prev prevbalance =>
    { o with suicided := prev, data := { o.data with balance := prevbalance } }
  | .balance _ prev => { o with data := { o.data with balance := prev } }
  | .nonce _ prev => { o with data := { o.data with nonce := prev } }
  | .code _ prevcode prevhash =>
    { o with code := prevcode, data := { o.data with codeHash := prevhash }, dirtyCode := true }
  | .storage _ key prevalue => { o with
    cachedStorage := o.cachedStorage.insert key prevalue
    dirtyStorage  := o.dirtyStorage.insert key prevalue }
  | _ => o

end JournalEntry

namespace StateDB

-- A modification of objects leaves the tries as they are and appends to the journal.
structure Grows (s : StateDB) (es : List JournalEntry) (s' : StateDB) : Prop where
  db             : s'.db = s.db
  trie           : s'.trie = s.trie
  codeSizeCache  : s'.codeSizeCache = s.codeSizeCache
  validRevisions : s'.validRevisions = s.validRevisions
  nextRevisionId : s'.nextRevisionId = s.nextRevisionId
  journal        : s'.journal = s.journal ++ es

section

variable {s s' s'' : StateDB} {es es' : List JournalEntry}

theorem Grows.refl (s : StateDB) : Grows s [] s :=
  ⟨rfl, rfl, rfl, rfl, rfl, (List.append_nil _).symm⟩

theorem Grows.trans (h : Grows s es s') (h' : Grows s' es' s'') : Grows s (es ++ es') s'' where
  db             := h'.db.trans h.db
  trie           := h'.trie.trans h.trie
  codeSizeCache  := h'.codeSizeCache.trans h.codeSizeCache
  validRevisions := h'.validRevisions.trans h.validRevisions
  nextRevisionId := h'.nextRevisionId.trans h.nextRevisionId
  journal        := by rw [h'.journal, h.journal, List.append_assoc]

variable (s) (o : StateObject) (a : Address) (e : JournalEntry)

theorem grows_setStateObject : Grows s [] (s.setStateObject o) :=
  ⟨rfl, rfl, rfl, rfl, rfl, (List.append_nil _).symm⟩

theorem grows_deleteLive : Grows s [] (s.deleteLive a) :=
  ⟨rfl, rfl, rfl, rfl, rfl, (List.append_nil _).symm⟩

theorem grows_append : Grows s [e] (s.append e) :=
  ⟨rfl, rfl, rfl, rfl, rfl, rfl⟩

theorem grows_addRefund (gas : Int) : Grows s [.refund s.refund] (s.addRefund gas) :=
  ⟨rfl, rfl, rfl, rfl, rfl, rfl⟩

theorem grows_addLog (log : Log) : Grows s [.addLog s.thash] (s.addLog log) :=
  ⟨rfl, rfl, rfl, rfl, rfl, rfl⟩

theorem grows_modified : Grows s [] (s.modified o) := by
  unfold modified
  split <;> exact ⟨rfl, rfl, rfl, rfl, rfl, (List.append_nil _).symm⟩

theorem grows_getStateObject : Grows s [] (s.getStateObject a).snd := by
  unfold getStateObject
  split
  case h_1 => split <;> exact .refl s
  case h_2 =>
    split
    case h_1 => exact .refl s
    case h_2 => exact grows_setStateObject ..

theorem grows_of_getStateObject {r : Option StateObject} (h : s.getStateObject a = (r, s')) :
    Grows s [] s' :=
  (congrArg Prod.snd h).subst (motive := Grows s []) (grows_getStateObject s a)

theorem grows_modified_append : Grows s [e] ((s.append e).modified o) :=
  (grows_append s e).trans (grows_modified ..)

end

-- What a call does to the object of its account: the entry it writes and the object it leaves.
-- `none` stands for no change.
def change (H : Hashing) (db : Database) (o : StateObject) :
    AccountOp → Option (JournalEntry × StateObject)
  | .addBalance amount =>
    if amount = 0 then
      if o.empty H then some (.touch o.address o.touched, { o with touched := true }) else none
    else
      some (.balance o.address o.data.balance,
        { o with data := { o.data with balance := o.data.balance + amount } })
  | .subBalance amount =>
    if amount = 0 then
      none
    else
      some (.balance o.address o.data.balance,
        { o with data := { o.data with balance := o.data.balance - amount } })
  | .setBalance amount =>
    some (.balance o.address o.data.balance, { o with data := { o.data with balance := amount } })
  | .setNonce nonce =>
    some (.nonce o.address o.data.nonce, { o with data := { o.data with nonce := nonce } })
  | .setCode code =>
    let (prevcode, o) := o.getCode H db
    some (.code o.address prevcode o.data.codeHash, { o with
      code := code, data := { o.data with codeHash := H.keccak (code.getD []) }, dirtyCode := true })
  | .setState key value =>
    let (prevalue, o) := o.getState db key
    some (.storage o.address key prevalue, { o with
      cachedStorage := o.cachedStorage.insert key value
      dirtyStorage  := o.dirtyStorage.insert key value })
  | .suicide =>
    some (.suicide o.address o.suicided o.data.balance,
      { o with suicided := true, data := { o.data with balance := 0 } })
  | .createAccount =>
    some (.resetObject o, StateObject.newObject o.address
      { StateObject.newAccount H with balance := o.data.balance })

def apply (s : StateDB) : Option (JournalEntry × StateObject) → StateDB
  | none         => s
  | some (e, o') => (s.append e).modified o'

def freshObject (H : Hashing) (a : Address) : StateObject :=
  { StateObject.newObject a (StateObject.newAccount H) with onDirty := false }

def create (H : Hashing) (s : StateDB) (a : Address) : StateDB :=
  (s.append (.createObject a)).modified (StateObject.newObject a (StateObject.newAccount H))

def callNew (H : Hashing) (s : StateDB) (a : Address) : AccountOp → StateDB
  | .suicide       => s
  | .createAccount => s.create H a
  | op             => (s.create H a).apply (change H s.db (freshObject H a) op)

theorem callNew_cases (H : Hashing) (s : StateDB) (a : Address) (op : AccountOp) :
    s.callNew H a op = s ∨ ∃ c, s.callNew H a op = (s.create H a).apply c ∧
      (c = none ∨ c = change H s.db (freshObject H a) op) := by
  cases op
  case suicide       => exact .inl rfl
  case createAccount => exact .inr ⟨none, rfl, .inl rfl⟩
  all_goals exact .inr ⟨_, rfl, .inr rfl⟩

section

variable {H : Hashing} {s s₁ : StateDB} {a : Address} {o : StateObject}

theorem getStateObject_none (h : (s.getStateObject a).fst = none) :
    s.getStateObject a = (none, s) := by
  revert h
  unfold getStateObject
  split
  case h_1 => split <;> simp
  case h_2 => split <;> simp

theorem lookup_of_getStateObject (h : s.getStateObject a = (some o, s₁)) :
    s₁.stateObjects.lookup a = some o ∧ o.deleted = false := by
  revert h
  unfold getStateObject
  split
  case h_1 o' ho' =>
    split
    case isTrue  => simp
    case isFalse hd =>
      rintro ⟨⟩
      exact ⟨ho', by simpa using hd⟩
  case h_2 =>
    split
    case h_1 => simp
    case h_2 data _ =>
      rintro ⟨⟩
      exact ⟨AList.lookup_insert _, rfl⟩

theorem getOrNewStateObject_of_some (h : s.getStateObject a = (some o, s₁)) :
    s.getOrNewStateObject H a = (o, s₁) := by
  rw [getOrNewStateObject, h]

theorem createObject_of_none (h : (s.getStateObject a).fst = none) :
    s.createObject H a = (freshObject H a, none, s.create H a) := by
  rw [createObject, getStateObject_none h]
  rfl

theorem getOrNewStateObject_of_none (h : (s.getStateObject a).fst = none) :
    s.getOrNewStateObject H a = (freshObject H a, s.create H a) := by
  rw [getOrNewStateObject, getStateObject_none h]
  simp only [createObject_of_none h]

theorem createAccount_of_some (h : s.getStateObject a = (some o, s₁)) :
    s.createAccount H a = (s₁.append (.resetObject o)).modified (StateObject.newObject a
      { StateObject.newAccount H with balance := o.data.balance }) := by
  rw [createAccount, createObject, h]
  simp [objectSetBalance, modified, StateObject.newObject, setStateObject, append,
    markStateObjectDirty, AList.insert_insert]

theorem call_of_some (h : s.getStateObject a = (some o, s₁)) (ha : o.address = a) (op : AccountOp) :
    s.call H a op = s₁.apply (change H s₁.db o op) := by
  have hn := getOrNewStateObject_of_some (H := H) h
  cases op
  case suicide       => simp [call, suicide, h, change, apply, ha]
  case createAccount => rw [call, createAccount_of_some h, change, apply, ha]
  case addBalance n =>
    simp only [call, addBalance, hn, change]
    repeat' split
    all_goals rfl
  case subBalance n =>
    simp only [call, subBalance, hn, change]
    split <;> rfl
  case setBalance => simp only [call, setBalance, hn]; rfl
  case setNonce   => simp only [call, setNonce, hn]; rfl
  case setCode    => simp only [call, setCode, hn]; rfl
  case setState   => simp only [call, setState, hn]; rfl

theorem call_of_none (h : (s.getStateObject a).fst = none) (op : AccountOp) :
    s.call H a op = s.callNew H a op := by
  have hn := getOrNewStateObject_of_none (H := H) h
  have hd : (s.create H a).db = s.db := (grows_modified ..).db
  cases op
  case suicide       => simp [call, suicide, getStateObject_none h, callNew]
  case createAccount => simp [call, createAccount, createObject_of_none h, callNew]
  case addBalance n =>
    simp only [call, addBalance, hn, callNew, change]
    repeat' split
    all_goals rfl
  case subBalance n =>
    simp only [call, subBalance, hn, callNew, change]
    split <;> rfl
  case setBalance => simp only [call, setBalance, hn]; rfl
  case setNonce   => simp only [call, setNonce, hn]; rfl
  case setCode    => simp only [call, setCode, hn, hd]; rfl
  case setState   => simp only [call, setState, hn, hd]; rfl

end

variable {e : JournalEntry} {s s' : StateDB}

theorem undo_cases (h : undo e s = some s') :
    (∃ a, e.account = some a ∧ e.effect = .drop ∧ s' = s.deleteLive a) ∨
    (∃ p, e = .resetObject p ∧ s' = s.setStateObject p) ∨
    (∃ a o s₁, e.account = some a ∧ e.effect = .restore ∧ s.getStateObject a = (some o, s₁) ∧
      s' = s₁.modified (e.restore o)) ∨
    (∃ a, e.account = some a ∧ e.effect = .restore ∧ (s.getStateObject a).fst = none ∧ s' = s) ∨
    (e.effect = .keep ∧ ∃ r l, s' = { s with refund := r, logs := l }) := by
  cases e <;> simp only [undo] at h
  case createObject a => cases h; exact .inl ⟨a, rfl, rfl, rfl⟩
  case resetObject p  => cases h; exact .inr (.inl ⟨p, rfl, rfl⟩)
  case touch a prev =>
    split at h <;> cases h
    case isTrue hd  => exact .inl ⟨a, rfl, if_pos hd, rfl⟩
    case isFalse hd => exact .inr (.inr (.inr (.inr ⟨if_neg hd, s.refund, s.logs, rfl⟩)))
  case refund => cases h; exact .inr (.inr (.inr (.inr ⟨rfl, _, s.logs, rfl⟩)))
  case addLog =>
    split at h <;> cases h
    all_goals exact .inr (.inr (.inr (.inr ⟨rfl, s.refund, _, rfl⟩)))
  case suicide a _ _ =>
    split at h <;> cases h
    case h_1 hn =>
      have hs := getStateObject_none (s := s) (a := a) (by rw [hn])
      have he := hn.symm.trans hs
      cases he
      exact .inr (.inr (.inr (.inl ⟨a, rfl, rfl, by rw [hn], rfl⟩)))
    case h_2 ho => exact .inr (.inr (.inl ⟨a, _, _, rfl, rfl, ho, rfl⟩))
  all_goals
    split at h <;> cases h
    case h_2 ho => exact .inr (.inr (.inl ⟨_, _, _, rfl, rfl, ho, rfl⟩))

theorem grows_undo (h : undo e s = some s') : Grows s [] s' := by
  obtain ⟨a, _, _, rfl⟩ | ⟨p, _, rfl⟩ | ⟨a, o, s₁, _, _, ho, rfl⟩ | ⟨a, _, _, _, rfl⟩ |
    ⟨_, r, l, rfl⟩ := undo_cases h
  · exact grows_deleteLive ..
  · exact grows_setStateObject ..
  · exact (grows_of_getStateObject _ _ ho).trans (grows_modified ..)
  · exact .refl _
  · exact ⟨rfl, rfl, rfl, rfl, rfl, (List.append_nil _).symm⟩

theorem undoAll_concat (es : List JournalEntry) (e : JournalEntry) (s : StateDB) :
    undoAll (es ++ [e]) s = (undo e s).bind (undoAll es) := by
  simp [undoAll]
  rfl

theorem grows_undoAll {es : List JournalEntry} (h : undoAll es s = some s') : Grows s [] s' := by
  induction es using List.reverseRecOn generalizing s
  case nil => cases h; exact .refl _
  case append_singleton es e hi =>
    rw [undoAll_concat] at h
    obtain ⟨t, ht, h⟩ := Option.bind_eq_some_iff.mp h
    exact (grows_undo ht).trans (hi h)

end StateDB

end State
