import GoEthereum.State.Store

-- What has to hold between two commits so that the next one loses no update.

namespace State

open Common

namespace StateDB

section

variable (H : Hashing) (s : StateDB)

-- An account that need not be written: it will be removed, or the trie and the database have what
-- is reported of it.
def Settled (a : Address) : Prop :=
  (∃ o, s.stateObjects.lookup a = some o ∧ o.suicided) ∨
  (s.account H a).map AccountView.facts = (s.base H a).map AccountView.facts ∧
  ∀ data, s.trie a = some data → (StateObject.newObject a data.val).Backed H s.db

def Marked (a : Address) : Prop :=
  a ∈ s.stateObjectsDirty ∨ ∀ o, s.stateObjects.lookup a = some o → o.onDirty

-- The database has the storage and the code of every account in its tries.
def Complete (db : Database) : Prop :=
  ∀ h t, openTrie db.accounts AccountTrie.empty h = some t →
    ∀ a data, t a = some data → (StateObject.newObject a data.val).Backed H db

structure Durable : Prop where
  wf       : s.Wf
  complete : Complete H s.db
  backed   : ∀ {a o}, s.stateObjects.lookup a = some o → o.Backed H s.db
  settled  : ∀ {a}, a ∉ s.stateObjectsDirty → Settled H s a
  marked   : ∀ {e a}, e ∈ s.journal → e.account = some a → Marked s a
  prev     : ∀ {o}, .resetObject o ∈ s.journal → o.Backed H s.db ∧ o.address ∈ s.stateObjectsDirty
  code     : ∀ {a h}, .code a none h ∈ s.journal → h = H.emptyCodeHash

def SafeStep : Op → Prop
  | .account a op => op = .createAccount ∨ ∀ o, s.stateObjects.lookup a = some o →
    o.deleted = false → (change H s.db o op).isSome → a ∈ s.stateObjectsDirty ∨ o.onDirty
  | .revertToSnapshot revid => ∀ r ∈ s.validRevisions, r.id = revid →
    ∀ e ∈ s.journal.drop r.journalIndex, ∀ a, e.drops → e.account = some a →
      s.trie a = none ∧ ∀ o, .resetObject o ∈ s.journal → o.address ≠ a
  | .deleteSuicides => ∀ a o, a ∈ s.stateObjectsDirty → s.stateObjects.lookup a = some o → o.suicided
  | .commit d =>
    (∀ a o, a ∈ s.stateObjectsDirty → s.stateObjects.lookup a = some o → o.deleted →
      removes H d o true) ∧
    ∀ root b t, s.commitBatch H d = some (root, b, t) → b.Agrees H s.db
  | _ => True

end

variable {H : Hashing} {s s' s₁ : StateDB} {a : Address} {o : StateObject} {e : JournalEntry}

theorem Settled.congr (h : Settled H s a) (hl : s'.stateObjects.lookup a = s.stateObjects.lookup a)
    (ht : s'.trie a = s.trie a) (hd : s'.db = s.db) : Settled H s' a := by
  unfold Settled account base at h ⊢
  rwa [hl, ht, hd]

theorem settled_of_account (ht : ∀ data, s.trie a = some data →
    (StateObject.newObject a data.val).Backed H s.db) (h : s.account H a = s.base H a) :
    Settled H s a :=
  .inr ⟨by rw [h], ht⟩

theorem Durable.of_insert (hs : s.Durable H) (hw : s'.Wf) (hdb : s'.db = s.db)
    (ht : s'.trie = s.trie) (hj : s'.journal = s.journal)
    (hl : s'.stateObjects = s.stateObjects.insert a o)
    (hd : ∀ x, x ∈ s.stateObjectsDirty → x ∈ s'.stateObjectsDirty) (hb : o.Backed H s.db)
    (hm : ∀ e ∈ s.journal, e.account = some a → a ∈ s'.stateObjectsDirty ∨ o.onDirty)
    (hst : a ∉ s'.stateObjectsDirty → Settled H s' a) : s'.Durable H where
  wf       := hw
  complete := hdb ▸ hs.complete
  backed {x y} h := by
    rw [hl, GoMap.lookup_insert_eq_ite] at h
    rw [hdb]
    split at h
    case isTrue  => cases h; exact hb
    case isFalse => exact hs.backed h
  settled {x} hx := by
    by_cases hxa : x = a
    · subst hxa
      exact hst hx
    · refine (hs.settled fun h => hx (hd x h)).congr ?_ (by rw [ht]) hdb
      rw [hl, AList.lookup_insert_ne hxa]
  marked {e x} he hx := by
    rw [hj] at he
    by_cases hxa : x = a
    · subst hxa
      refine (hm e he hx).imp_right fun ho y hy => ?_
      rw [hl, AList.lookup_insert] at hy
      cases hy
      exact ho
    · refine (hs.marked he hx).imp (hd x) fun h y hy => h y ?_
      rwa [hl, AList.lookup_insert_ne hxa] at hy
  prev h :=
    have ⟨hp, hm⟩ := hs.prev (hj ▸ h)
    ⟨hdb ▸ hp, hd _ hm⟩
  code h := hs.code (hj ▸ h)

theorem Durable.modified (hs : s.Durable H) (hb : o.Backed H s.db) (hc : o.Coherent)
    (hm : o.address ∈ s.stateObjectsDirty ∨ o.onDirty) :
    (s.modified o).Durable H ∧ o.address ∈ (s.modified o).stateObjectsDirty := by
  have hw := hs.wf.modified hc
  unfold StateDB.modified at hw ⊢
  split
  case isTrue hd =>
    rw [if_pos hd] at hw
    have ha : o.address ∈ s.stateObjectsDirty.insert o.address () := (AList.mem_insert _).mpr (.inl rfl)
    exact ⟨hs.of_insert hw rfl rfl rfl rfl (fun x h => (AList.mem_insert _).mpr (.inr h))
      { hb with } (fun _ _ _ => .inl ha) (fun h => absurd ha h), ha⟩
  case isFalse hd =>
    rw [if_neg hd] at hw
    have ha := hm.resolve_right hd
    exact ⟨hs.of_insert hw rfl rfl rfl rfl (fun x h => h) hb (fun _ _ _ => .inl ha)
      (fun h => absurd ha h), ha⟩

theorem Durable.append (hs : s.Durable H) (ha : ∀ a, e.account = some a → a ∈ s.stateObjectsDirty)
    (hp : ∀ o, e = .resetObject o → o.Coherent ∧ o.Backed H s.db)
    (hc : ∀ a h, e = .code a none h → h = H.emptyCodeHash) : (s.append e).Durable H :=
  { hs with
    wf := hs.wf.append fun o h => (hp o h).left
    settled := fun h => (hs.settled h).congr rfl rfl rfl
    marked := fun {e' x} he hx => by
      rcases List.mem_append.mp he with he | he
      · exact hs.marked he hx
      · rw [List.mem_singleton.mp he] at hx
        exact .inl (ha x hx)
    prev := fun {o} h => by
      rcases List.mem_append.mp h with h | h
      · exact hs.prev h
      · have h := (List.mem_singleton.mp h).symm
        exact ⟨(hp o h).right, ha _ (by rw [h]; rfl)⟩
    code := fun {x h} hx => by
      rcases List.mem_append.mp hx with hx | hx
      · exact hs.code hx
      · exact hc x h (List.mem_singleton.mp hx).symm }

theorem append_modified : (s.append e).modified o = (s.modified o).append e := by
  unfold StateDB.modified
  split <;> rfl

theorem Durable.backed_of_trie (hs : s.Durable H) (hn : s.stateObjects.lookup a = none)
    {data : StoredAccount} (ht : s.trie a = some data) :
    (StateObject.newObject a data.val).Backed H s.db := by
  have hd : a ∉ s.stateObjectsDirty := fun h => AList.lookup_eq_none.mp hn (hs.wf.live h)
  obtain ⟨o, ho, _⟩ | ⟨_, hb⟩ := hs.settled hd
  · rw [hn] at ho
    cases ho
  · exact hb data ht

theorem Durable.getStateObject (hs : s.Durable H) (a : Address) :
    (s.getStateObject a).snd.Durable H := by
  have hw := hs.wf.getStateObject (a := a)
  have hacc := account_getStateObject_snd (H := H) (s := s) (a := a)
  unfold StateDB.getStateObject at hw hacc ⊢
  split
  case h_1 => split <;> exact hs
  case h_2 hn =>
    split
    case h_1 => exact hs
    case h_2 data ht =>
      simp only [hn, ht] at hw hacc
      have hb := hs.backed_of_trie hn ht
      refine hs.of_insert (a := a) hw rfl rfl rfl rfl (fun _ h => h) hb (fun _ _ _ => .inr rfl) fun _ => ?_
      refine settled_of_account (fun data' ht' => ?_) ?_
      · cases ht.symm.trans ht'
        exact hb
      · rw [hacc, account, hn]
        rfl

theorem Durable.object (hs : s.Durable H) (h : s.getStateObject a = (some o, s₁)) :
    s₁.Durable H ∧ o.Backed H s₁.db := by
  have hd := hs.getStateObject a
  rw [h] at hd
  exact ⟨hd, hd.backed (lookup_of_getStateObject h).left⟩

theorem onDirty_of_getStateObject (h : s.getStateObject a = (some o, s₁)) :
    s₁.stateObjectsDirty = s.stateObjectsDirty ∧ (s.stateObjects.lookup a = some o ∨ o.onDirty) := by
  revert h
  unfold StateDB.getStateObject
  split
  case h_1 ho =>
    split
    case isTrue  => rintro ⟨⟩
    case isFalse => rintro ⟨⟩; exact ⟨rfl, .inl ho⟩
  case h_2 =>
    split
    case h_1 => rintro ⟨⟩
    case h_2 => rintro ⟨⟩; exact ⟨rfl, .inr rfl⟩

variable {op : AccountOp} {d : Bool}

theorem change_backed {db : Database} {o' : StateObject} (ho : o.Backed H db)
    (h : change H db o op = some (e, o')) :
    o'.Backed H db ∧ (∀ p, e = .resetObject p → p = o) ∧
    (∀ a h, e = .code a none h → h = H.emptyCodeHash) ∧
    (op = .createAccount ∨ o.onDirty → o'.onDirty) := by
  have hne {op : AccountOp} (hop : op ≠ .createAccount) (h : op = .createAccount ∨ o.onDirty) :
      o.onDirty := h.resolve_left hop
  cases op <;> simp only [change] at h
  case addBalance n =>
    split at h
    case isTrue =>
      split at h
      case isTrue  => cases h; exact ⟨{ ho with }, by rintro _ ⟨⟩, by rintro _ _ ⟨⟩, hne (by rintro ⟨⟩)⟩
      case isFalse => cases h
    case isFalse => cases h; exact ⟨{ ho with }, by rintro _ ⟨⟩, by rintro _ _ ⟨⟩, hne (by rintro ⟨⟩)⟩
  case subBalance n =>
    split at h
    case isTrue  => cases h
    case isFalse => cases h; exact ⟨{ ho with }, by rintro _ ⟨⟩, by rintro _ _ ⟨⟩, hne (by rintro ⟨⟩)⟩
  case setBalance => cases h; exact ⟨{ ho with }, by rintro _ ⟨⟩, by rintro _ _ ⟨⟩, hne (by rintro ⟨⟩)⟩
  case setNonce   => cases h; exact ⟨{ ho with }, by rintro _ ⟨⟩, by rintro _ _ ⟨⟩, hne (by rintro ⟨⟩)⟩
  case suicide    => cases h; exact ⟨{ ho with }, by rintro _ ⟨⟩, by rintro _ _ ⟨⟩, hne (by rintro ⟨⟩)⟩
  case setCode c =>
    cases h
    refine ⟨?_, by rintro _ ⟨⟩, fun _ _ h => ?_, fun h => ?_⟩
    · exact { ho.getCode with
        code  := fun h => by cases h; simp [codeOf, Hashing.emptyCodeHash]
        clean := fun h => by cases h }
    · obtain ⟨_, hn, hh⟩ := JournalEntry.code.inj h
      have hc := ho.codeHash_of_getCode hn
      have ho : (o.getCode H db).snd.content H db = o.content H db := o.content_getCode
      rw [← hh]
      exact (congrArg AccountView.codeHash ho).trans hc
    · exact o.getCode_snd_flags.right.trans (hne (by rintro ⟨⟩) h)
  case setState k v =>
    cases h
    exact ⟨{ ho.getState k with }, by rintro _ ⟨⟩, by rintro _ _ ⟨⟩,
      fun h => o.getState_snd_flags.right.trans (hne (by rintro ⟨⟩) h)⟩
  case createAccount =>
    cases h
    exact ⟨.newObject_newAccount rfl rfl, fun p h => (JournalEntry.resetObject.inj h).symm,
      by rintro _ _ ⟨⟩, fun _ => rfl⟩

theorem Durable.apply (hs : s.Durable H) (hb : o.Backed H s.db) (hc : o.Coherent)
    (hd : o.deleted = false) (hm : (change H s.db o op).isSome →
      op = .createAccount ∨ o.address ∈ s.stateObjectsDirty ∨ o.onDirty) :
    (s.apply (change H s.db o op)).Durable H := by
  match h : change H s.db o op with
  | none         => exact hs
  | some (e, o') =>
    obtain ⟨hc', ha, he⟩ := change_coherent hc h
    obtain ⟨hb', hp, hcode, hon⟩ := change_backed hb h
    have hm' : o'.address ∈ s.stateObjectsDirty ∨ o'.onDirty := by
      rw [ha]
      obtain hop | hmem | hon' := hm (by rw [h]; rfl)
      · exact .inr (hon (.inl hop))
      · exact .inl hmem
      · exact .inr (hon (.inr hon'))
    obtain ⟨hm, hmem⟩ := hs.modified hb' hc' hm'
    rw [StateDB.apply, append_modified]
    refine hm.append (fun x hx => ?_) (fun p h => ?_) hcode
    · rw [(change_undoable hd h).account, ← ha] at hx
      cases hx
      exact hmem
    · have hp := hp p h
      subst hp
      exact ⟨hc, (grows_modified s o').db ▸ hb⟩

theorem Durable.create (hs : s.Durable H) (a : Address) :
    (s.create H a).Durable H ∧ a ∈ (s.create H a).stateObjectsDirty := by
  obtain ⟨hm, hmem⟩ := hs.modified (o := StateObject.newObject a (StateObject.newAccount H))
    (.newObject_newAccount rfl rfl) (StateObject.newObject_coherent _ _) (.inr rfl)
  refine ⟨hm.append (fun x hx => ?_) (by rintro _ ⟨⟩) (by rintro _ _ ⟨⟩), hmem⟩
  cases hx
  exact hmem

theorem Durable.call (hs : s.Durable H) (hc : SafeStep H s (.account a op)) :
    (s.call H a op).Durable H := by
  match h : s.getStateObject a with
  | (some o, s₁) =>
    obtain ⟨_, ha, ho⟩ := hs.wf.object h
    obtain ⟨hd, hb⟩ := hs.object h
    obtain ⟨_, hdel⟩ := lookup_of_getStateObject h
    rw [call_of_some h ha]
    obtain ⟨hdi, hon⟩ := onDirty_of_getStateObject h
    refine hd.apply hb ho hdel fun hch => hc.imp_right fun hc => ?_
    rw [hdi, ha]
    rcases hon with hl | hon
    · exact hc o hl hdel ((grows_of_getStateObject s a h).db ▸ hch)
    · exact .inr hon
  | (none, s₁) =>
    rw [call_of_none (by rw [h])]
    obtain ⟨hcr, hmem⟩ := hs.create a
    obtain hn | ⟨c, hn, rfl | rfl⟩ := callNew_cases H s a op <;> rw [hn]
    · exact hs
    · exact hcr
    · have hdb : (s.create H a).db = s.db := (grows_modified ..).db
      have hb : (StateObject.newObject a (StateObject.newAccount H)).Backed H (s.create H a).db :=
        .newObject_newAccount rfl rfl
      exact hcr.apply (o := freshObject H a) { hb with } (fun _ => .inl rfl) rfl
        fun _ => .inr (.inl hmem)

theorem Durable.deleteLive (hs : s.Durable H) (ht : s.trie a = none)
    (hr : ∀ o, .resetObject o ∈ s.journal → o.address ≠ a) : (s.deleteLive a).Durable H where
  wf       := hs.wf.deleteLive a
  complete := hs.complete
  backed h := hs.backed (GoMap.of_lookup_erase h).right
  settled {x} hx := by
    by_cases hxa : x = a
    · subst hxa
      refine settled_of_account (fun data h => ?_) ?_
      · cases ht.symm.trans h
      · rw [account_deleteLive, Function.update_self]
        rfl
    · refine (hs.settled fun h => hx (AList.mem_erase.mpr ⟨hxa, h⟩)).congr ?_ rfl rfl
      exact AList.lookup_erase_ne hxa
  marked {e x} he hx := by
    by_cases hxa : x = a
    · subst hxa
      refine .inr fun o ho => ?_
      simp [StateDB.deleteLive] at ho
    · refine (hs.marked he hx).imp (fun h => AList.mem_erase.mpr ⟨hxa, h⟩) fun h o ho => h o ?_
      rwa [StateDB.deleteLive, AList.lookup_erase_ne hxa] at ho
  prev h :=
    have ⟨hb, hm⟩ := hs.prev h
    ⟨hb, AList.mem_erase.mpr ⟨hr _ h, hm⟩⟩
  code     := hs.code

theorem restore_backed (ho : o.Backed H s.db) (hc : ∀ a h, e = .code a none h → h = H.emptyCodeHash) :
    (e.restore o).Backed H s.db := by
  cases e
  case code a c h =>
    exact { ho with
      code  := fun hn => by
        cases hn
        simp [JournalEntry.restore, codeOf, hc a h rfl]
      clean := fun hn => by cases hn }
  all_goals exact { ho with }

theorem restore_flags : (e.restore o).address = o.address ∧ (e.restore o).onDirty = o.onDirty := by
  cases e <;> exact ⟨rfl, rfl⟩

theorem Durable.undo (hs : s.Durable H) (he : e ∈ s.journal)
    (hd : ∀ a, e.drops → e.account = some a →
      s.trie a = none ∧ ∀ o, .resetObject o ∈ s.journal → o.address ≠ a)
    (h : undo e s = some s') : s'.Durable H := by
  have hw := hs.wf.undo he h
  obtain ⟨a, ha, hdr, rfl⟩ | ⟨p, rfl, rfl⟩ | ⟨a, o, s₁, ha, _, ho, rfl⟩ | ⟨a, _, _, _, rfl⟩ |
    ⟨_, r, l, rfl⟩ := undo_cases h
  · obtain ⟨ht, hr⟩ := hd a (e.effect_eq_drop_iff.mp hdr) ha
    exact hs.deleteLive ht hr
  · obtain ⟨hb, hm⟩ := hs.prev he
    exact hs.of_insert hw rfl rfl rfl rfl (fun _ h => h) hb (fun _ _ _ => .inl hm)
      fun h => absurd hm h
  · obtain ⟨_, hoa, hoc⟩ := hs.wf.object ho
    obtain ⟨hs₁, hb⟩ := hs.object ho
    obtain ⟨hra, hro⟩ := restore_flags (e := e) (o := o)
    refine (hs₁.modified (restore_backed hb fun x h hx => hs.code (hx ▸ he)) (restore_coherent hoc e)
      ?_).left
    obtain ⟨hdi, hon⟩ := onDirty_of_getStateObject ho
    rw [hra, hro, hoa, hdi]
    rcases hon with hl | hon
    · exact (hs.marked he ha).imp_right fun h => h o hl
    · exact .inr hon
  · exact hs
  · exact { hs with
      wf      := hw
      settled := fun h => (hs.settled h).congr rfl rfl rfl
      marked  := hs.marked }

theorem Durable.undoAll {es : List JournalEntry} (hs : s.Durable H) (he : es ⊆ s.journal)
    (hd : ∀ e ∈ es, ∀ a, e.drops → e.account = some a →
      s.trie a = none ∧ ∀ o, .resetObject o ∈ s.journal → o.address ≠ a)
    (h : undoAll es s = some s') : s'.Durable H := by
  induction es using List.reverseRecOn generalizing s
  case nil => cases h; exact hs
  case append_singleton es e hi =>
    rw [undoAll_concat] at h
    obtain ⟨t, ht, h⟩ := Option.bind_eq_some_iff.mp h
    obtain ⟨he₁, he₂⟩ := List.append_subset.mp he
    have hg := grows_undo ht
    have hj : t.journal = s.journal := by rw [hg.journal, List.append_nil]
    refine hi (hs.undo (he₂ List.mem_cons_self) (hd e (by simp)) ht) (hj ▸ he₁) ?_ h
    rw [hg.trie, hj]
    exact fun e' he' => hd e' (List.mem_append_left _ he')

theorem Durable.revertToSnapshot {revid : Nat} (hs : s.Durable H)
    (hc : SafeStep H s (.revertToSnapshot revid)) (h : s.revertToSnapshot revid = some s') :
    s'.Durable H := by
  have hw := hs.wf.revertToSnapshot h
  obtain ⟨rs, r, rs', hr, hid⟩ := revertToSnapshot_eq_some h
  subst hid
  rw [revertToSnapshot_of_mem hs.wf.revisions hr] at h
  obtain ⟨t, ht, h⟩ := Option.map_eq_some_iff.mp h
  have hd := hs.undoAll (List.drop_subset ..) (hc r (by simp [hr]) rfl) ht
  have hj : t.journal = s.journal := by rw [(grows_undoAll ht).journal, List.append_nil]
  have hsub {e : JournalEntry} (he : e ∈ s.journal.take r.journalIndex) : e ∈ t.journal :=
    hj ▸ List.mem_of_mem_take he
  subst h
  exact { hd with
    wf      := hw
    settled := fun h => (hd.settled h).congr rfl rfl rfl
    marked  := fun he => hd.marked (hsub he)
    prev    := fun he => hd.prev (hsub he)
    code    := fun he => hd.code (hsub he) }

theorem durable_of_journal_nil (hj : s.journal = []) (hw : s.Wf) (hc : Complete H s.db)
    (hb : ∀ {a o}, s.stateObjects.lookup a = some o → o.Backed H s.db)
    (hst : ∀ {a}, a ∉ s.stateObjectsDirty → Settled H s a) : s.Durable H where
  wf       := hw
  complete := hc
  backed   := hb
  settled  := hst
  marked h := by rw [hj] at h; cases h
  prev h   := by rw [hj] at h; cases h
  code h   := by rw [hj] at h; cases h

theorem rootOf_backed {db : Database} {x : StateObject × Option StoredAccount}
    (ho : o.Backed H db) (h : rootOf H d db o = some x) : x.fst.Backed H db := by
  unfold rootOf at h
  split at h
  case isTrue  => cases h; exact { ho with }
  case isFalse =>
    simp only at h
    split at h
    case isTrue  => cases h; exact ho.updateRoot
    case isFalse => cases h

structure Roots (H : Hashing) (s t : StateDB) : Prop where
  wf     : t.db = s.db ∧ t.Wf
  dirty  : t.stateObjectsDirty = s.stateObjectsDirty
  backed : ∀ {a o}, t.stateObjects.lookup a = some o → o.Backed H s.db

theorem Roots.rootObject {t t' : StateDB} (ht : Roots H s t)
    (h : t.rootObject H d a = some t') : Roots H s t' := by
  have hw := rootObject_local.keep ht.wf h
  rw [rootObject_eq ht.wf.right, ht.wf.left] at h
  obtain ⟨o, ho, h⟩ := Option.bind_eq_some_iff.mp h
  obtain ⟨x, hx, h⟩ := Option.map_eq_some_iff.mp h
  subst h
  refine ⟨hw, ht.dirty, fun {y o'} h => ?_⟩
  obtain ⟨-, rfl⟩ | ⟨-, h⟩ := GoMap.of_lookup_insert h
  · exact rootOf_backed (ht.backed ho) hx
  · exact ht.backed h

theorem Durable.intermediateRoot {root : Hash} (hs : s.Durable H)
    (h : s.intermediateRoot H d = some (root, s')) : s'.Durable H := by
  have hw := (hs.wf.intermediateRoot h).left.left
  obtain ⟨t, ht, h⟩ := Option.bind_eq_some_iff.mp h
  cases h
  have hr : Roots H s t := Loop.foldlM_keep Roots.rootObject ⟨⟨rfl, hs.wf⟩, rfl, hs.backed⟩ ht
  have hdb := hr.wf.left
  refine durable_of_journal_nil rfl hw ?_ ?_ fun {a} ha => ?_
  · exact hdb ▸ hs.complete
  · exact fun h => hdb ▸ hr.backed h
  · have ha' : a ∉ s.stateObjectsDirty := hr.dirty ▸ ha
    have ho := rootObject_local.foldlM_other ⟨rfl, hs.wf⟩ ht fun hk => ha' (AList.mem_keys.mpr hk)
    exact (hs.settled ha').congr (congrArg Prod.fst ho) (congrArg Prod.snd ho) hdb

-- What the loop of `DeleteSuicides` keeps: it changes suicided objects only.
structure Flags (H : Hashing) (s t : StateDB) : Prop where
  db      : t.db = s.db
  trie    : t.trie = s.trie
  journal : t.journal = []
  backed  : ∀ {a o}, t.stateObjects.lookup a = some o → o.Backed H s.db
  lookup  : ∀ a, t.stateObjects.lookup a = s.stateObjects.lookup a ∨
    ∃ o, t.stateObjects.lookup a = some o ∧ o.suicided

theorem Flags.deleteSuicide {t t' : StateDB} (ht : Flags H s t) (h : t.deleteSuicide a = some t') :
    Flags H s t' := by
  unfold StateDB.deleteSuicide at h
  split at h
  case h_1 => cases h
  case h_2 o ho =>
    cases h
    split
    case isFalse => exact { ht with }
    case isTrue hsu =>
      refine ⟨ht.db, ht.trie, ht.journal, fun {x y} h => ?_, fun x => ?_⟩
      · obtain ⟨-, rfl⟩ | ⟨-, h⟩ := GoMap.of_lookup_insert h
        · exact { ht.backed ho with }
        · exact ht.backed h
      · simp only [StateDB.setStateObject, GoMap.lookup_insert_eq_ite]
        split
        case isTrue  => exact .inr ⟨_, rfl, hsu⟩
        case isFalse => exact ht.lookup x

theorem Durable.deleteSuicides (hs : s.Durable H) (hc : SafeStep H s .deleteSuicides)
    (h : s.deleteSuicides = some s') : s'.Durable H := by
  have hw := (hs.wf.deleteSuicides h).left.left
  have hf : Flags H s s' := Loop.foldlM_keep (s := s.clearJournalAndRefund) Flags.deleteSuicide
    ⟨rfl, rfl, rfl, hs.backed, fun _ => .inl rfl⟩ h
  refine durable_of_journal_nil hf.journal hw (hf.db ▸ hs.complete) (fun h => hf.db ▸ hf.backed h)
    fun {a} ha => ?_
  obtain hl | hl := hf.lookup a
  · by_cases hd : a ∈ s.stateObjectsDirty
    · obtain ⟨o, ho⟩ := Option.isSome_iff_exists.mp (AList.lookup_isSome.mpr (hs.wf.live hd))
      exact .inl ⟨o, hl.trans ho, hc a o hd ho⟩
    · exact (hs.settled hd).congr hl (by rw [hf.trie]) hf.db
  · exact .inl hl

end StateDB

end State
