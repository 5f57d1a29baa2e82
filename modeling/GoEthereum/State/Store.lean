import GoEthereum.State.Root

-- What the database has to hold for the objects of a state, and what a batch adds to it.

namespace State

open Common

section

variable {α : Type} {puts : List (Hash × α)} {m : Hash → Option α} {h : Hash} {v : α}

-- No two values are put under the same hash, and none but the one that is already there.
structure Agrees (puts : List (Hash × α)) (m : Hash → Option α) : Prop where
  each : ∀ p ∈ puts, ∀ q ∈ puts, p.fst = q.fst → p.snd = q.snd
  old  : ∀ p ∈ puts, m p.fst = none ∨ m p.fst = some p.snd

theorem Agrees.nil : Agrees [] m :=
  ⟨fun p hp => (by cases hp), fun p hp => (by cases hp)⟩

theorem Agrees.singleton (hm : m h = none ∨ m h = some v) : Agrees [(h, v)] m where
  each p hp q hq _ := by rw [List.mem_singleton.mp hp, List.mem_singleton.mp hq]
  old p hp         := by rwa [List.mem_singleton.mp hp]

theorem putAll_cons (p : Hash × α) :
    putAll (p :: puts) m = putAll puts (Function.update m p.fst (some p.snd)) :=
  rfl

theorem putAll_of_forall (hm : m h = some v) (hp : ∀ p ∈ puts, p.fst = h → p.snd = v) :
    putAll puts m h = some v := by
  induction puts generalizing m
  case nil => exact hm
  case cons p puts hi =>
    obtain ⟨hp, hps⟩ := List.forall_mem_cons.mp hp
    rw [putAll_cons]
    refine hi ?_ hps
    by_cases he : h = p.fst
    · subst he
      rw [Function.update_self, hp rfl]
    · rwa [Function.update_of_ne he]

theorem putAll_mem {p : Hash × α} (hp : p ∈ puts)
    (ha : ∀ q ∈ puts, p.fst = q.fst → q.snd = p.snd) : putAll puts m p.fst = some p.snd := by
  induction puts generalizing m
  case nil => cases hp
  case cons q puts hi =>
    obtain ⟨haq, hap⟩ := List.forall_mem_cons.mp ha
    rw [putAll_cons]
    by_cases he : p.fst = q.fst
    · refine putAll_of_forall ?_ fun r hr hrp => hap r hr hrp.symm
      rw [he, Function.update_self, haq he]
    · cases hp
      case head    => exact absurd rfl he
      case tail hp => exact hi hp hap

-- Reads of some hashes do not reach the map. What a read finds besides is kept, and what is put is
-- found.
variable {P : Hash → Prop} [DecidablePred P] {d : α}

variable (ha : Agrees puts fun h => if P h then some d else m h)
include ha

theorem Agrees.keeps (hm : (if P h then some d else m h) = some v) :
    (if P h then some d else putAll puts m h) = some v := by
  split at hm
  case isTrue hp  => rwa [if_pos hp]
  case isFalse hn =>
    rw [if_neg hn]
    refine putAll_of_forall hm fun p hp he => ?_
    subst he
    simpa [hn, hm, eq_comm] using ha.old p hp

theorem Agrees.mem {p : Hash × α}
    (hp : p ∈ puts) : (if P p.fst then some d else putAll puts m p.fst) = some p.snd := by
  split
  case isTrue h  => simpa [h] using ha.old p hp
  case isFalse h => exact putAll_mem hp fun q hq he => (ha.each p hp q hq he).symm

end

def codeOf (H : Hashing) (db : Database) (h : Hash) : Option Bytes :=
  if h = H.emptyCodeHash then some [] else db.codes h

structure Extends (H : Hashing) (db db' : Database) : Prop where
  accounts : ∀ {h t}, openTrie db.accounts AccountTrie.empty h = some t →
    openTrie db'.accounts AccountTrie.empty h = some t
  storages : ∀ {h t}, openTrie db.storages StorageTrie.empty h = some t →
    openTrie db'.storages StorageTrie.empty h = some t
  codes    : ∀ {h c}, codeOf H db h = some c → codeOf H db' h = some c

-- The hashes of what a batch puts do not clash, neither among them nor with the database.
structure Batch.Agrees (H : Hashing) (db : Database) (b : Batch) : Prop where
  accounts : State.Agrees b.accounts (openTrie db.accounts AccountTrie.empty)
  storages : State.Agrees b.storages (openTrie db.storages StorageTrie.empty)
  codes    : State.Agrees b.codes (codeOf H db)

section

variable {H : Hashing} {db db' db'' : Database} {b : Batch}

theorem Extends.refl (db : Database) : Extends H db db :=
  ⟨id, id, id⟩

theorem Extends.trans (h : Extends H db db') (h' : Extends H db' db'') : Extends H db db'' :=
  ⟨fun ht => h'.accounts (h.accounts ht), fun ht => h'.storages (h.storages ht),
    fun hc => h'.codes (h.codes hc)⟩

variable (hb : b.Agrees H db)
include hb

theorem Batch.Agrees.write_extends : Extends H db (db.write b) :=
  ⟨hb.accounts.keeps, hb.storages.keeps, hb.codes.keeps⟩

theorem Batch.Agrees.openTrie_accounts {p : Hash × AccountTrie}
    (hp : p ∈ b.accounts) : openTrie (db.write b).accounts AccountTrie.empty p.fst = some p.snd :=
  hb.accounts.mem hp

theorem Batch.Agrees.openTrie_storages {p : Hash × StorageTrie}
    (hp : p ∈ b.storages) : openTrie (db.write b).storages StorageTrie.empty p.fst = some p.snd :=
  hb.storages.mem hp

theorem Batch.Agrees.codeOf {p : Hash × Bytes} (hp : p ∈ b.codes) :
    State.codeOf H (db.write b) p.fst = some p.snd :=
  hb.codes.mem hp

end

-- What a state that is opened later has to report of an account.
@[ext]
structure Facts where
  nonce    : UInt64
  balance  : Int
  codeHash : Hash
  code     : Bytes
  storage  : Hash → Hash

def AccountView.facts (v : AccountView) : Facts where
  nonce    := v.nonce
  balance  := v.balance
  codeHash := v.codeHash
  code     := v.code.getD []
  storage  := v.storage

theorem codeAt_getD {H : Hashing} {db : Database} (code : Option Bytes) (h : Hash) :
    (codeAt H db code h).getD [] = code.getD ((codeOf H db h).getD []) := by
  cases code
  case some => rfl
  case none =>
    rw [codeAt, codeOf]
    split <;> rfl

theorem StateObject.facts_code {H : Hashing} {db : Database} (o : StateObject) :
    (o.content H db).facts.code = o.code.getD ((codeOf H db o.data.codeHash).getD []) :=
  codeAt_getD ..

-- The database has what an object has not loaded, and the code that it would not write. No read of
-- it has failed.
structure StateObject.Backed (H : Hashing) (db : Database) (o : StateObject) : Prop where
  dbErr : o.dbErr = false
  trie  : o.trie = none → (openTrie db.storages StorageTrie.empty o.data.root).isSome
  code  : o.code = none → (codeOf H db o.data.codeHash).isSome
  clean : o.dirtyCode = false → ∀ c, o.code = some c → codeOf H db o.data.codeHash = some c

namespace StateObject.Backed

variable {H : Hashing} {db db' : Database} {o o' : StateObject}

section

variable (ho : o.Backed H db)
include ho

theorem mono (h : Extends H db db') : o.Backed H db' where
  dbErr := ho.dbErr
  trie hn := by
    obtain ⟨t, ht⟩ := Option.isSome_iff_exists.mp (ho.trie hn)
    rw [h.storages ht]
    rfl
  code hn := by
    obtain ⟨c, hc⟩ := Option.isSome_iff_exists.mp (ho.code hn)
    rw [h.codes hc]
    rfl
  clean hd c hc := h.codes (ho.clean hd c hc)

theorem getTrie : (o.getTrie db).snd.Backed H db := by
  unfold StateObject.getTrie
  split
  case h_1 => exact ho
  case h_2 hn =>
    obtain ⟨t, ht⟩ := Option.isSome_iff_exists.mp (ho.trie hn)
    rw [ht]
    exact { ho with trie := fun h => by cases h }

theorem getState (k : Hash) : (o.getState db k).snd.Backed H db := by
  unfold StateObject.getState
  split
  case h_1 => exact ho
  case h_2 =>
    simp only
    split
    case isTrue  => exact ho.getTrie
    case isFalse => exact { ho.getTrie with }

theorem updateTrie : (o.updateTrie db).Backed H db :=
  { ho.getTrie with trie := fun h => by cases h }

theorem updateRoot : (o.updateRoot H db).Backed H db :=
  { ho.updateTrie with trie := fun h => by cases h }

theorem getCode : (o.getCode H db).snd.Backed H db := by
  unfold StateObject.getCode
  split
  case h_1 => exact ho
  case h_2 hn =>
    split
    case isTrue     => exact ho
    case isFalse hh =>
      obtain ⟨c, hc⟩ := Option.isSome_iff_exists.mp (ho.code hn)
      have hdb : db.codes o.data.codeHash = some c := by simpa [codeOf, hh] using hc
      rw [hdb]
      exact { ho with
        code  := fun h => by cases h
        clean := fun _ c' hc' => hc.trans hc' }

theorem codeHash_of_getCode (h : (o.getCode H db).fst = none) :
    o.data.codeHash = H.emptyCodeHash := by
  rw [o.getCode_fst, codeAt, Option.or_eq_none_iff] at h
  by_contra hn
  have hc := ho.code h.left
  rw [if_neg hn] at h
  simp [codeOf, hn, h.right] at hc

end

theorem newObject_newAccount {a : Address} {data : Account} (hr : data.root = Hash.zero)
    (hc : data.codeHash = H.emptyCodeHash) : (newObject a data).Backed H db where
  dbErr       := rfl
  trie _      := by simp [newObject, openTrie, hr]
  code _      := by simp [newObject, codeOf, hc]
  clean _ _ h := by cases h

theorem facts_extends (ho : o.Backed H db) (h : Extends H db db') :
    (o.content H db').facts = (o.content H db).facts := by
  refine Facts.ext rfl rfl rfl ?_ (funext fun k => ?_)
  · rw [facts_code, facts_code]
    cases hc : o.code
    case some c => rfl
    case none =>
      obtain ⟨c, hc⟩ := Option.isSome_iff_exists.mp (ho.code hc)
      rw [hc, h.codes hc]
  · simp only [AccountView.facts, content, storedTrie]
    cases ht : o.trie
    case some t => rfl
    case none =>
      obtain ⟨t, ht⟩ := Option.isSome_iff_exists.mp (ho.trie ht)
      rw [ht, h.storages ht]

end StateObject.Backed

def Batch.append (b b' : Batch) : Batch where
  accounts := b.accounts ++ b'.accounts
  storages := b.storages ++ b'.storages
  codes    := b.codes ++ b'.codes

theorem Batch.append_empty (b : Batch) : b.append .empty = b := by
  simp [append, empty]

namespace StateDB

section

variable (H : Hashing) (d : Bool) (db : Database) (o : StateObject)

def removes (isDirty : Bool) : Bool :=
  o.suicided || (isDirty && d && o.empty H)

def codePuts : List (Hash × Bytes) :=
  match o.code, o.dirtyCode with
  | some code, true => [(o.data.codeHash, code)]
  | _, _            => []

def codeWritten : StateObject :=
  match o.code, o.dirtyCode with
  | some _, true => { o with dirtyCode := false }
  | _, _         => o

def puts : Batch where
  accounts := []
  storages := [(H.storageRoot (o.content H db).storage, (o.content H db).storage)]
  codes    := codePuts o

def committed : StateObject :=
  (codeWritten o).updateRoot H db

-- What an iteration of the loop of `commit` makes of an object, its account in the trie and its
-- mark. `none` is a panic.
def commitAt : Option StateObject × Option StoredAccount × Bool →
    Option (Option StateObject × Option StoredAccount × Bool)
  | (none, t, isDirty)   => some (none, t, isDirty)
  | (some o, t, isDirty) =>
    if removes H d o isDirty then
      some (some { o with deleted := true }, none, false)
    else if isDirty then
      let o := committed H db o
      if h : 0 ≤ o.data.balance then some (some o, some ⟨o.data, h⟩, false) else none
    else
      some (some o, t, isDirty)

variable {H d db o}

theorem codeWritten_address : (codeWritten o).address = o.address := by
  unfold codeWritten
  split <;> rfl

theorem codeWritten_content : (codeWritten o).content H db = o.content H db := by
  unfold codeWritten
  split <;> rfl

theorem codeWritten_coherent (ho : o.Coherent) : (codeWritten o).Coherent := by
  unfold codeWritten
  split <;> exact ho

theorem codeWritten_updateTrie_dbErr :
    ((codeWritten o).updateTrie db).dbErr = (o.updateTrie db).dbErr := by
  unfold codeWritten
  split
  case h_1 =>
    simp only [StateObject.updateTrie, StateObject.getTrie]
    repeat' split
    all_goals rfl
  case h_2 => rfl

theorem committed_updateTrie_dbErr :
    ((committed H db o).updateTrie db).dbErr = (o.updateTrie db).dbErr :=
  codeWritten_updateTrie_dbErr

end

section

variable {H : Hashing} {d : Bool} {c c' : Committing} {a : Address} {o : StateObject}

def Committing.put (c : Committing) (a : Address) (x : StateObject × Option StoredAccount)
    (b : Batch) : Committing :=
  { c with
    state := { c.state.put a x with stateObjectsDirty := c.state.stateObjectsDirty.erase a }
    batch := c.batch.append b }

theorem commitObject_eq (ha : o.address = a) (hc : o.Coherent)
    (herr : (o.updateTrie c.state.db).dbErr = false) :
    commitObject H c o =
      if h : 0 ≤ (o.updateRoot H c.state.db).data.balance then
        some (Committing.put c a (o.updateRoot H c.state.db, some ⟨(o.updateRoot H c.state.db).data, h⟩)
          { Batch.empty with storages :=
            [(H.storageRoot (o.content H c.state.db).storage, (o.content H c.state.db).storage)] })
      else
        none := by
  have ht : (o.updateTrie c.state.db).trie = some (o.content H c.state.db).storage :=
    updateTrie_trie_eq hc
  have haddr : (o.updateRoot H c.state.db).address = a := o.getTrie_snd_address.trans ha
  change (if (o.updateTrie c.state.db).dbErr then _ else Option.map _
    (updateStateObject (c.state.setStateObject (o.updateRoot H c.state.db))
      (o.updateRoot H c.state.db))) = _
  rw [herr, if_neg Bool.false_ne_true]
  unfold updateStateObject
  split
  case isFalse => rfl
  case isTrue hb =>
    rw [show (o.updateTrie c.state.db).address = a from haddr, ht]
    simp [Committing.put, StateDB.put, Batch.append, Batch.empty, setStateObject, haddr]

theorem commitAddress_eq (hf : c.failed = false) (hs : c.state.Wf)
    (hb : ∀ {o}, c.state.stateObjects.lookup a = some o →
      (c.state.stateObjectsDirty.lookup a).isSome → removes H d o true = false →
      (o.updateTrie c.state.db).dbErr = false) :
    commitAddress H d c a =
      match c.state.stateObjects.lookup a with
      | none   => some c
      | some o =>
        if removes H d o (c.state.stateObjectsDirty.lookup a).isSome then
          some (Committing.put c a ({ o with deleted := true }, none) .empty)
        else if (c.state.stateObjectsDirty.lookup a).isSome then
          let o' := committed H c.state.db o
          if h : 0 ≤ o'.data.balance then
            some (Committing.put c a (o', some ⟨o'.data, h⟩) (puts H c.state.db o))
          else
            none
        else
          some c := by
  rw [commitAddress, if_neg (by simp [hf])]
  cases ho : c.state.stateObjects.lookup a
  case none => rfl
  case some o =>
    have ha := hs.address ho
    refine ite_congr rfl (fun _ => ?_) fun hr => ite_congr rfl (fun hd => ?_) fun _ => rfl
    · simp [Committing.put, StateDB.put, deleteStateObject, setStateObject, Batch.append_empty, ha]
    · -- The code is written first.
      rw [hd] at hr
      have hr : removes H d o true = false := by simpa [removes] using hr
      have hc := commitObject_eq (H := H)
        (c := { c with batch := c.batch.append { Batch.empty with codes := codePuts o } })
        (codeWritten_address.trans ha) (codeWritten_coherent (hs.coherent ho))
        (codeWritten_updateTrie_dbErr.trans (hb ho hd hr))
      simp only [codeWritten_content] at hc
      refine Eq.trans ?_ (hc.trans ?_)
      · unfold codePuts codeWritten
        split
        case h_1 hcode hd => simp [Batch.append, Batch.empty, hcode, hd]
        case h_2          => simp [Batch.append, Batch.empty]
      · simp [committed, puts, Committing.put, Batch.append, Batch.empty]

structure Sound (db : Database) (c : Committing) : Prop where
  failed : c.failed = false
  same   : c.state.db = db
  wf     : c.state.Wf
  opens  : ∀ {a o}, c.state.stateObjects.lookup a = some o → (o.updateTrie db).dbErr = false
  nil    : c.batch.accounts = []

variable {db : Database}

theorem Sound.commitAddress_cases (hc : Sound db c) (h : commitAddress H d c a = some c') :
    c' = c ∨ ∃ o x b, c.state.stateObjects.lookup a = some o ∧ c' = Committing.put c a x b ∧
      (x.fst.updateTrie db).dbErr = (o.updateTrie db).dbErr ∧ b.accounts = [] := by
  obtain rfl := hc.same
  rw [commitAddress_eq hc.failed hc.wf fun h _ _ => hc.opens h] at h
  cases ho : c.state.stateObjects.lookup a
  case none =>
    rw [ho] at h
    cases h
    exact .inl rfl
  case some o =>
    simp only [ho] at h
    split at h
    case isTrue =>
      cases h
      refine .inr ⟨o, _, _, rfl, rfl, ?_, rfl⟩
      simp only [StateObject.updateTrie, StateObject.getTrie]
      repeat' split
      all_goals rfl
    case isFalse =>
      split at h
      case isFalse => cases h; exact .inl rfl
      case isTrue =>
        split at h
        case isFalse => cases h
        case isTrue  => cases h; exact .inr ⟨o, _, _, rfl, rfl, committed_updateTrie_dbErr, rfl⟩

theorem Sound.commitAddress (hc : Sound db c) (h : commitAddress H d c a = some c') : Sound db c' := by
  have hw := (StateDB.WfAt.commitAddress ⟨hc.wf, rfl⟩ h).left
  obtain rfl | ⟨o, x, b, ho, rfl, hx, hb⟩ := hc.commitAddress_cases h
  · exact hc
  · refine ⟨hc.failed, hc.same, hw, fun {y o'} h => ?_, List.append_eq_nil_iff.mpr ⟨hc.nil, hb⟩⟩
    obtain ⟨-, rfl⟩ | ⟨-, h⟩ := GoMap.of_lookup_insert h
    · exact hx.trans (hc.opens ho)
    · exact hc.opens h

theorem commitAddress_local : Loop.Local (Sound db)
    (fun c a => (c.state.stateObjects.lookup a, c.state.trie a,
      (c.state.stateObjectsDirty.lookup a).isSome))
    (commitAddress H d) (fun _ => commitAt H d db) where
  keep hc h := hc.commitAddress h
  here {c a} hc := by
    obtain rfl := hc.same
    rw [commitAddress_eq hc.failed hc.wf fun h _ _ => hc.opens h]
    cases ho : c.state.stateObjects.lookup a
    case none => simp [commitAt, ho]
    case some o =>
      simp only [commitAt]
      repeat' split
      all_goals simp_all [Committing.put, StateDB.put]
  other {c c' a b} hc h hb := by
    obtain rfl | ⟨o, x, b, _, rfl, _, _⟩ := hc.commitAddress_cases h
    · rfl
    · simp only [Committing.put, StateDB.put, AList.lookup_insert_ne hb, Function.update_of_ne hb,
        AList.lookup_erase_ne hb]

theorem Sound.puts_subset (hc : Sound db c) (ho : c.state.stateObjects.lookup a = some o)
    (hd : (c.state.stateObjectsDirty.lookup a).isSome) (hr : removes H d o true = false)
    (h : StateDB.commitAddress H d c a = some c') :
    (puts H db o).storages ⊆ c'.batch.storages ∧ (puts H db o).codes ⊆ c'.batch.codes := by
  obtain rfl := hc.same
  rw [commitAddress_eq hc.failed hc.wf fun h _ _ => hc.opens h] at h
  simp only [ho, hd, hr, Bool.false_eq_true, if_false, if_true] at h
  split at h
  case isFalse => cases h
  case isTrue  =>
    cases h
    exact ⟨List.subset_append_right .., List.subset_append_right ..⟩

theorem Sound.batch_subset (hc : Sound db c) (h : StateDB.commitAddress H d c a = some c') :
    c.batch.storages ⊆ c'.batch.storages ∧ c.batch.codes ⊆ c'.batch.codes := by
  obtain rfl | ⟨o, x, b, _, rfl, _, _⟩ := hc.commitAddress_cases h
  · exact ⟨fun _ => id, fun _ => id⟩
  · exact ⟨List.subset_append_left .., List.subset_append_left ..⟩

end

structure Commits (H : Hashing) (d : Bool) (s : StateDB) (root : Hash) (b : Batch) (s' : StateDB) :
    Prop where
  db       : s'.db = s.db.write b
  accounts : b.accounts = [(root, s'.trie)]
  each     : ∀ a, commitAt H d s.db
    (s.stateObjects.lookup a, s.trie a, (s.stateObjectsDirty.lookup a).isSome) =
    some (s'.stateObjects.lookup a, s'.trie a, (s'.stateObjectsDirty.lookup a).isSome)
  written  : ∀ {a o}, s.stateObjects.lookup a = some o → (s.stateObjectsDirty.lookup a).isSome →
    removes H d o true = false →
    (puts H s.db o).storages ⊆ b.storages ∧ (puts H s.db o).codes ⊆ b.codes
  journal  : s'.journal = []

theorem commits_of_commit {H : Hashing} {d : Bool} {s s' : StateDB} {root : Hash} (hs : s.Wf)
    (ho : ∀ {a o}, s.stateObjects.lookup a = some o → (o.updateTrie s.db).dbErr = false)
    (h : s.commit H d = some (root, s')) :
    ∃ b t, s.commitBatch H d = some (root, b, t) ∧ Commits H d s root b s' := by
  obtain ⟨⟨r, b, t⟩, ht, h⟩ := Option.bind_eq_some_iff.mp h
  cases h
  refine ⟨b, t, ht, ?_⟩
  obtain ⟨c, hc, ht⟩ := Option.bind_eq_some_iff.mp ht
  have h₀ : Sound s.db { state := s, batch := Batch.empty, failed := false } :=
    ⟨rfl, rfl, hs, ho, rfl⟩
  have h₁ : Sound s.db c := Loop.foldlM_keep Sound.commitAddress h₀ hc
  rw [if_neg (by simp [h₁.failed])] at ht
  cases ht
  have hn := s.stateObjects.keys_nodup
  refine ⟨congrArg (Database.write · _) h₁.same, congrArg (· ++ _) h₁.nil,
    fun a => ?_, fun {a o} hl hd hr => ?_, rfl⟩
  · by_cases ha : a ∈ s.stateObjects
    · exact commitAddress_local.foldlM_here hn h₀ hc (AList.mem_keys.mp ha)
    · have hk := commitAddress_local.foldlM_other h₀ hc fun hk => ha (AList.mem_keys.mpr hk)
      refine Eq.trans ?_ (congrArg some hk.symm)
      simp [commitAt, AList.lookup_eq_none.mpr ha]
  · have ha : a ∈ s.stateObjects.keys := GoMap.mem_keys_of_lookup hl
    refine commitAddress_local.foldlM_done (Q := fun _ x c => ∀ o, x.fst = some o → x.snd.snd = true →
        removes H d o true = false →
        (puts H s.db o).storages ⊆ c.batch.storages ∧ (puts H s.db o).codes ⊆ c.batch.codes)
      (fun hc h o ho hd hr => hc.puts_subset ho hd hr h) (fun {c c' i j r} hc h hq o ho hd hr => ?_)
      hn h₀ hc ha o hl hd hr
    obtain ⟨hs, hc'⟩ := hq o ho hd hr
    have hb := hc.batch_subset h
    exact ⟨List.Subset.trans hs hb.left, List.Subset.trans hc' hb.right⟩

end StateDB

end State
