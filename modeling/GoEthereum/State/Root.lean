import GoEthereum.State.View

-- What `IntermediateRoot` writes to the account trie, address by address.

namespace State

open Common

def AccountView.isEmpty (H : Hashing) (v : AccountView) : Bool :=
  v.nonce = 0 && v.balance = 0 && v.codeHash = H.emptyCodeHash

-- What `IntermediateRoot` writes to the trie for a dirty account. The outer `none` is a panic, the
-- inner one a deletion.
def written (H : Hashing) (d : Bool) (v : AccountView) : Option (Option StoredAccount) :=
  if v.suicided || (d && v.isEmpty H) then
    some none
  else if h : 0 ≤ v.balance then
    some (some ⟨{ nonce := v.nonce, balance := v.balance, root := H.storageRoot v.storage,
                  codeHash := v.codeHash }, h⟩)
  else
    none

namespace StateDB

variable (H : Hashing) (d : Bool)

def final (s : StateDB) (a : Address) : Option (Option StoredAccount) :=
  if a ∈ s.stateObjectsDirty then
    (s.stateObjects.lookup a).bind fun o => written H d (o.content H s.db)
  else
    some (s.trie a)

-- The object and the account that an iteration of the loop leaves.
def rootOf (db : Database) (o : StateObject) : Option (StateObject × Option StoredAccount) :=
  if o.suicided || (d && o.empty H) then
    some ({ o with deleted := true }, none)
  else
    let o := o.updateRoot H db
    if h : 0 ≤ o.data.balance then some (o, some ⟨o.data, h⟩) else none

def put (s : StateDB) (a : Address) (x : StateObject × Option StoredAccount) : StateDB :=
  { s with
    stateObjects := s.stateObjects.insert a x.fst
    trie         := Function.update s.trie a x.snd }

variable {H d} {s s' : StateDB} {a : Address} {o : StateObject} {db : Database}

theorem rootObject_eq (hs : s.Wf) : s.rootObject H d a =
    (s.stateObjects.lookup a).bind fun o => (rootOf H d s.db o).map (s.put a) := by
  unfold rootObject
  cases ho : s.stateObjects.lookup a
  case none => rfl
  case some o =>
    have ha : o.address = a := hs.address ho
    have hu : (o.updateRoot H s.db).address = a := o.getTrie_snd_address.trans ha
    simp only [Option.bind_some, rootOf]
    split
    case isTrue  => simp [deleteStateObject, setStateObject, put, ha]
    case isFalse =>
      simp only [updateStateObject]
      split
      case isTrue  => simp [setStateObject, put, hu]
      case isFalse => rfl

theorem rootObject_local : Loop.Local (fun s : StateDB => s.db = db ∧ s.Wf)
    (fun s a => (s.stateObjects.lookup a, s.trie a)) (rootObject H d)
    (fun _ x => x.fst.bind fun o => (rootOf H d db o).map fun y => (some y.fst, y.snd)) where
  keep {s s' a} hs h := by
    refine ⟨?_, (WfAt.rootObject ⟨hs.right, rfl⟩ h).left⟩
    rw [rootObject_eq hs.right] at h
    obtain ⟨o, _, h⟩ := Option.bind_eq_some_iff.mp h
    obtain ⟨x, _, h⟩ := Option.map_eq_some_iff.mp h
    exact h ▸ hs.left
  here {s a} hs := by
    rw [rootObject_eq hs.right, hs.left]
    cases s.stateObjects.lookup a
    case none => rfl
    case some o =>
      simp only [Option.bind_some, Option.map_map, Function.comp_def, put, AList.lookup_insert,
        Function.update_self]
  other {s s' a b} hs h hb := by
    rw [rootObject_eq hs.right] at h
    obtain ⟨o, _, h⟩ := Option.bind_eq_some_iff.mp h
    obtain ⟨x, _, h⟩ := Option.map_eq_some_iff.mp h
    simp only [← h, put, AList.lookup_insert_ne hb, Function.update_of_ne hb]

theorem updateTrie_trie_eq (ho : o.Coherent) :
    (o.updateTrie db).trie = some (o.content H db).storage := by
  rw [StateObject.updateTrie_trie]
  refine congrArg some (funext fun k => ?_)
  rw [ho.getD_dirty, StateObject.getState_fst_eq_content]

theorem updateRoot_data (ho : o.Coherent) :
    (o.updateRoot H db).data = { o.data with root := H.storageRoot (o.content H db).storage } := by
  have hd : (o.updateTrie db).data = o.data := by
    simp only [StateObject.updateTrie, StateObject.getTrie]
    repeat' split
    all_goals rfl
  simp only [StateObject.updateRoot, updateTrie_trie_eq (H := H) ho, hd, Option.getD_some]

theorem rootOf_snd (ho : o.Coherent) :
    (rootOf H d db o).map Prod.snd = written H d (o.content H db) := by
  unfold rootOf written
  split
  case isTrue h => exact (if_pos h).symm
  case isFalse h =>
    refine Eq.trans ?_ (if_neg h).symm
    simp only [updateRoot_data ho]
    split
    case isTrue hb  => simp [StateObject.content, hb]
    case isFalse hb => simp [StateObject.content, hb]

theorem final_of_mem (hs : s.Wf) (ha : a ∈ s.stateObjectsDirty) : s.final H d a =
    ((s.stateObjects.lookup a).bind fun o => (rootOf H d s.db o).map fun y => (some y.fst, y.snd)).map
      Prod.snd := by
  rw [final, if_pos ha]
  cases ho : s.stateObjects.lookup a
  case none => rfl
  case some o => simp [← rootOf_snd (hs.coherent ho), Function.comp_def]

theorem intermediateRoot_trie {root : Hash} (hs : s.Wf) (h : s.intermediateRoot H d = some (root, s'))
    (a : Address) : s.final H d a = some (s'.trie a) := by
  obtain ⟨t, ht, h⟩ := Option.bind_eq_some_iff.mp h
  cases h
  by_cases ha : a ∈ s.stateObjectsDirty
  · have hh := rootObject_local.foldlM_here s.stateObjectsDirty.keys_nodup ⟨rfl, hs⟩ ht
      (AList.mem_keys.mp ha)
    rw [final_of_mem hs ha, hh]
    rfl
  · have ho := rootObject_local.foldlM_other ⟨rfl, hs⟩ ht fun hk => ha (AList.mem_keys.mpr hk)
    rw [final, if_neg ha]
    exact congrArg some (congrArg Prod.snd ho).symm

theorem intermediateRoot_isSome_iff (hs : s.Wf) :
    (s.intermediateRoot H d).isSome ↔ ∀ a, (s.final H d a).isSome := by
  have hl := (rootObject_local (H := H) (d := d)).foldlM_isSome_iff s.stateObjectsDirty.keys_nodup
    ⟨rfl, hs⟩
  have hr : (s.intermediateRoot H d).isSome =
      (s.stateObjectsDirty.keys.foldlM (rootObject H d) s).isSome := by
    unfold intermediateRoot
    cases s.stateObjectsDirty.keys.foldlM (rootObject H d) s <;> rfl
  rw [hr, hl]
  constructor
  · intro h a
    by_cases ha : a ∈ s.stateObjectsDirty
    · rw [final_of_mem hs ha, Option.isSome_map]
      exact h a (AList.mem_keys.mp ha)
    · rw [final, if_neg ha]
      rfl
  · intro h a ha
    have := h a
    rwa [final_of_mem hs (AList.mem_keys.mpr ha), Option.isSome_map] at this

theorem intermediateRoot_root {root : Hash} (h : s.intermediateRoot H d = some (root, s')) :
    root = H.accountRoot s'.trie := by
  obtain ⟨t, _, h⟩ := Option.bind_eq_some_iff.mp h
  cases h
  rfl

theorem intermediateRoot_congr (hs : s.Wf) (hs' : s'.Wf) (h : ∀ a, s.final H d a = s'.final H d a) :
    (s.intermediateRoot H d).map Prod.fst = (s'.intermediateRoot H d).map Prod.fst := by
  have hsome : (s.intermediateRoot H d).isSome ↔ (s'.intermediateRoot H d).isSome := by
    rw [intermediateRoot_isSome_iff hs, intermediateRoot_isSome_iff hs']
    exact forall_congr' fun a => by rw [h a]
  match ht : s.intermediateRoot H d, ht' : s'.intermediateRoot H d with
  | none, none                     => rfl
  | none, some _                   => simp [ht, ht'] at hsome
  | some _, none                   => simp [ht, ht'] at hsome
  | some (root, t), some (root', t') =>
    have he : t.trie = t'.trie := funext fun a => by
      rw [← Option.some_inj, ← intermediateRoot_trie hs ht, ← intermediateRoot_trie hs' ht', h a]
    rw [intermediateRoot_root ht, intermediateRoot_root ht', he]
    rfl

end StateDB

end State
