import GoEthereum.State.Calls

-- What holds of a state database after any sequence of calls.

namespace State

open Common

namespace StateObject

-- A cached storage entry is dirty, or it is what the loaded storage trie has.
def Coherent (o : StateObject) : Prop :=
  ∀ k, o.dirtyStorage.lookup k = o.cachedStorage.lookup k ∨
    o.dirtyStorage.lookup k = none ∧ ∃ t, o.trie = some t ∧ o.cachedStorage.lookup k = some (t k)

variable {o : StateObject} {db : Database} {H : Hashing}

theorem newObject_coherent (a : Address) (data : Account) : (newObject a data).Coherent :=
  fun _ => .inl rfl

theorem getTrie_snd_trie : (o.getTrie db).snd.trie = some (o.getTrie db).fst := by
  unfold getTrie
  split
  case h_1 t h => exact h
  case h_2 => split <;> rfl

theorem getTrie_snd_caches : (o.getTrie db).snd.cachedStorage = o.cachedStorage ∧
    (o.getTrie db).snd.dirtyStorage = o.dirtyStorage := by
  unfold getTrie
  split
  case h_1 => exact ⟨rfl, rfl⟩
  case h_2 => split <;> exact ⟨rfl, rfl⟩

theorem getTrie_fst_of_some {t : StorageTrie} (h : o.trie = some t) : (o.getTrie db).fst = t := by
  simp [getTrie, h]

section

variable (ho : o.Coherent)
include ho

theorem Coherent.getTrie : (o.getTrie db).snd.Coherent := by
  intro k
  rw [getTrie_snd_caches.left, getTrie_snd_caches.right, getTrie_snd_trie]
  apply (ho k).imp_right
  rintro ⟨hd, t, ht, hc⟩
  exact ⟨hd, t, by rw [getTrie_fst_of_some ht], hc⟩

theorem Coherent.insert_cached {k : Hash} {t : StorageTrie} (ht : o.trie = some t)
    (hk : o.cachedStorage.lookup k = none) :
    Coherent { o with cachedStorage := o.cachedStorage.insert k (t k) } := by
  intro j
  simp only [GoMap.lookup_insert_eq_ite]
  split
  case isFalse => exact ho j
  case isTrue h =>
    subst h
    obtain hd | ⟨hd, _⟩ := ho j
    · exact .inr ⟨hd.trans hk, t, ht, rfl⟩
    · exact .inr ⟨hd, t, ht, rfl⟩

theorem Coherent.getState (k : Hash) : (o.getState db k).snd.Coherent := by
  unfold StateObject.getState
  split
  case h_1 => exact ho
  case h_2 hk =>
    simp only
    split
    case isTrue => exact ho.getTrie
    case isFalse =>
      apply ho.getTrie.insert_cached getTrie_snd_trie
      rw [getTrie_snd_caches.left, hk]

theorem Coherent.insert_both (k v : Hash) :
    Coherent { o with cachedStorage := o.cachedStorage.insert k v
                      dirtyStorage  := o.dirtyStorage.insert k v } := by
  intro j
  simp only [GoMap.lookup_insert_eq_ite]
  split
  case isTrue  => exact .inl rfl
  case isFalse => exact ho j

theorem Coherent.getCode : (o.getCode H db).snd.Coherent := by
  unfold StateObject.getCode
  split
  case h_1 => exact ho
  case h_2 =>
    split
    case isTrue  => exact ho
    case isFalse => split <;> exact ho

end

theorem getTrie_snd_address : (o.getTrie db).snd.address = o.address := by
  unfold getTrie
  split
  case h_1 => rfl
  case h_2 => split <;> rfl

theorem getState_snd_address {k : Hash} : (o.getState db k).snd.address = o.address := by
  unfold getState
  split
  case h_1 => rfl
  case h_2 =>
    simp only
    split <;> exact getTrie_snd_address

theorem getCode_snd_address : (o.getCode H db).snd.address = o.address := by
  unfold getCode
  split
  case h_1 => rfl
  case h_2 =>
    split
    case isTrue  => rfl
    case isFalse => split <;> rfl

theorem updateTrie_trie : (o.updateTrie db).trie = some fun k =>
    (o.dirtyStorage.lookup k).getD ((o.getTrie db).fst k) := by
  simp only [updateTrie, Option.some.injEq]
  funext k
  rw [GoMap.foldl_update, getTrie_snd_caches.right]

theorem Coherent.updateTrie (ho : o.Coherent) : (o.updateTrie db).Coherent := by
  intro k
  have hd : (o.updateTrie db).dirtyStorage.lookup k = none := rfl
  have hc : (o.updateTrie db).cachedStorage = o.cachedStorage := getTrie_snd_caches.left
  rw [hc, updateTrie_trie]
  obtain h | ⟨hn, t, ht, h⟩ := ho k
  · rw [← h]
    cases hv : o.dirtyStorage.lookup k
    case none   => exact .inl rfl
    case some v => exact .inr ⟨rfl, _, rfl, by simp [hv]⟩
  · exact .inr ⟨rfl, _, rfl, by rw [h, hn, getTrie_fst_of_some ht, Option.getD_none]⟩

theorem Coherent.updateRoot (ho : o.Coherent) : (o.updateRoot H db).Coherent :=
  ho.updateTrie

theorem getState_fst (k : Hash) :
    (o.getState db k).fst = (o.cachedStorage.lookup k).getD ((o.getTrie db).fst k) := by
  unfold StateObject.getState
  split
  case h_1 h => rw [h, Option.getD_some]
  case h_2 h =>
    rw [h]
    simp only
    split <;> rfl

theorem Coherent.getD_dirty (ho : o.Coherent) (k : Hash) :
    (o.dirtyStorage.lookup k).getD ((o.getTrie db).fst k) = (o.getState db k).fst := by
  rw [getState_fst]
  obtain h | ⟨hn, t, ht, h⟩ := ho k
  · rw [h]
  · rw [h, hn, getTrie_fst_of_some ht, Option.getD_none, Option.getD_some]

end StateObject

namespace StateDB

structure Revisions (len next : Nat) (rs : List Revision) : Prop where
  ids     : rs.Pairwise (·.id < ·.id)
  below   : ∀ r ∈ rs, r.id < next
  indices : rs.Pairwise (·.journalIndex ≤ ·.journalIndex)
  within  : ∀ r ∈ rs, r.journalIndex ≤ len

structure Wf (s : StateDB) : Prop where
  address   : ∀ {a o}, s.stateObjects.lookup a = some o → o.address = a
  coherent  : ∀ {a o}, s.stateObjects.lookup a = some o → o.Coherent
  live      : ∀ {a}, a ∈ s.stateObjectsDirty → a ∈ s.stateObjects
  prev      : ∀ {o}, .resetObject o ∈ s.journal → o.Coherent
  revisions : Revisions s.journal.length s.nextRevisionId s.validRevisions

section

variable {len len' next : Nat} {rs rs' : List Revision}

theorem Revisions.mono (h : Revisions len next rs) (hl : len ≤ len') : Revisions len' next rs :=
  { h with within := fun r hr => (h.within r hr).trans hl }

theorem Revisions.nil : Revisions len next [] :=
  ⟨.nil, nofun, .nil, nofun⟩

theorem Revisions.concat (h : Revisions len next rs) : Revisions len (next + 1) (rs ++ [⟨next, len⟩]) where
  ids := by
    refine List.pairwise_append.mpr ⟨h.ids, List.pairwise_singleton .., fun r hr r' hr' => ?_⟩
    rw [List.mem_singleton.mp hr']
    exact h.below r hr
  below r hr := by
    rcases List.mem_append.mp hr with hr | hr
    · exact (h.below r hr).trans (Nat.lt_succ_self _)
    · rw [List.mem_singleton.mp hr]
      exact Nat.lt_succ_self _
  indices := by
    refine List.pairwise_append.mpr ⟨h.indices, List.pairwise_singleton .., fun r hr r' hr' => ?_⟩
    rw [List.mem_singleton.mp hr']
    exact h.within r hr
  within r hr := by
    rcases List.mem_append.mp hr with hr | hr
    · exact h.within r hr
    · rw [List.mem_singleton.mp hr]

variable {r : Revision}

theorem Revisions.left (h : Revisions len next (rs ++ r :: rs')) :
    Revisions r.journalIndex next rs where
  ids        := (List.pairwise_append.mp h.ids).left
  below q hq := h.below q (List.mem_append_left _ hq)
  indices    := (List.pairwise_append.mp h.indices).left
  within q hq := (List.pairwise_append.mp h.indices).right.right q hq r List.mem_cons_self

theorem Revisions.le_last (h : Revisions len next rs) (hr : r ∈ rs) :
    r.journalIndex ≤ (rs.getLast?.map (·.journalIndex)).getD 0 := by
  obtain rfl | ⟨l, q, rfl⟩ := List.eq_nil_or_concat' rs
  · cases hr
  · rw [List.getLast?_concat, Option.map_some, Option.getD_some]
    rcases List.mem_append.mp hr with hr | hr
    · exact (List.pairwise_append.mp h.indices).right.right r hr q List.mem_cons_self
    · rw [List.mem_singleton.mp hr]

theorem Revisions.findIdx (h : Revisions len next (rs ++ r :: rs')) :
    (rs ++ r :: rs').findIdx (·.id ≥ r.id) = rs.length := by
  have hlt : ∀ q ∈ rs, q.id < r.id := fun q hq =>
    (List.pairwise_append.mp h.ids).right.right q hq r List.mem_cons_self
  rw [List.findIdx_append, List.findIdx_eq_length_of_false]
  · simp [List.findIdx_cons]
  · intro q hq
    simpa using hlt q hq

variable {s s' : StateDB}

theorem revertToSnapshot_of_mem (hr : Revisions s.journal.length s.nextRevisionId s.validRevisions)
    (h : s.validRevisions = rs ++ r :: rs') :
    s.revertToSnapshot r.id = (undoAll (s.journal.drop r.journalIndex) s).map fun s' => { s' with
      journal        := s.journal.take r.journalIndex
      validRevisions := rs } := by
  rw [h] at hr
  simp [revertToSnapshot, h, hr.findIdx, Option.map_eq_bind]

theorem revertToSnapshot_eq_some {revid : Nat} (h : s.revertToSnapshot revid = some s') :
    ∃ rs r rs', s.validRevisions = rs ++ r :: rs' ∧ r.id = revid := by
  simp only [revertToSnapshot] at h
  split at h
  case h_1 => cases h
  case h_2 r hr =>
    split at h
    case isFalse => cases h
    case isTrue hid =>
      obtain ⟨rs, rs', hs⟩ := List.append_of_mem (List.mem_of_getElem? hr)
      exact ⟨rs, r, rs', hs, hid⟩

end

variable {H : Hashing} {s s' s₁ : StateDB} {a : Address} {o o' : StateObject} {e : JournalEntry}

section

variable (hs : s.Wf)
include hs

theorem Wf.setStateObject (ho : o.Coherent) : (s.setStateObject o).Wf where
  address {x y} h := by
    obtain ⟨rfl, rfl⟩ | ⟨-, h⟩ := GoMap.of_lookup_insert h
    · rfl
    · exact hs.address h
  coherent {x y} h := by
    obtain ⟨-, rfl⟩ | ⟨-, h⟩ := GoMap.of_lookup_insert h
    · exact ho
    · exact hs.coherent h
  live h      := (AList.mem_insert _).mpr (.inr (hs.live h))
  prev        := hs.prev
  revisions   := hs.revisions

theorem Wf.deleteLive (a : Address) : (s.deleteLive a).Wf where
  address h  := hs.address (GoMap.of_lookup_erase h).right
  coherent h := hs.coherent (GoMap.of_lookup_erase h).right
  live h :=
    have ⟨hne, h⟩ := AList.mem_erase.mp h
    AList.mem_erase.mpr ⟨hne, hs.live h⟩
  prev      := hs.prev
  revisions := hs.revisions

theorem Wf.modified (ho : o.Coherent) : (s.modified o).Wf := by
  unfold StateDB.modified
  split
  case isFalse => exact hs.setStateObject ho
  case isTrue =>
    have hw := hs.setStateObject (o := { o with onDirty := false }) ho
    refine { hw with live := fun {x} h => ?_ }
    rcases (AList.mem_insert _).mp h with h | h
    · exact (AList.mem_insert _).mpr (.inl h)
    · exact (AList.mem_insert _).mpr (.inr (hs.live h))

theorem Wf.append (he : ∀ o, e = .resetObject o → o.Coherent) : (s.append e).Wf :=
  { hs with
    prev := fun {o} h => by
      rcases List.mem_append.mp h with h | h
      · exact hs.prev h
      · exact he o (List.mem_singleton.mp h).symm
    revisions := hs.revisions.mono (by simp [StateDB.append]) }

theorem Wf.getStateObject : (s.getStateObject a).snd.Wf := by
  unfold StateDB.getStateObject
  split
  case h_1 => split <;> exact hs
  case h_2 =>
    split
    case h_1 => exact hs
    case h_2 => exact hs.setStateObject (StateObject.newObject_coherent _ _)

theorem Wf.object (h : s.getStateObject a = (some o, s₁)) :
    s₁.Wf ∧ o.address = a ∧ o.Coherent := by
  have hw := hs.getStateObject (a := a)
  rw [h] at hw
  have hl := (lookup_of_getStateObject h).left
  exact ⟨hw, hw.address hl, hw.coherent hl⟩

end

theorem restore_coherent (ho : o.Coherent) (e : JournalEntry) : (e.restore o).Coherent := by
  cases e
  case storage k v => exact ho.insert_both k v
  all_goals exact ho

theorem change_coherent {db : Database} {op : AccountOp} (ho : o.Coherent)
    (h : change H db o op = some (e, o')) :
    o'.Coherent ∧ o'.address = o.address ∧ ∀ p, e = .resetObject p → p.Coherent := by
  cases op <;> simp only [change] at h
  case addBalance n =>
    split at h
    case isTrue =>
      split at h
      case isTrue  => cases h; exact ⟨ho, rfl, by rintro _ ⟨⟩⟩
      case isFalse => cases h
    case isFalse => cases h; exact ⟨ho, rfl, by rintro _ ⟨⟩⟩
  case subBalance n =>
    split at h
    case isTrue  => cases h
    case isFalse => cases h; exact ⟨ho, rfl, by rintro _ ⟨⟩⟩
  case setBalance => cases h; exact ⟨ho, rfl, by rintro _ ⟨⟩⟩
  case setNonce   => cases h; exact ⟨ho, rfl, by rintro _ ⟨⟩⟩
  case setCode    => cases h; exact ⟨ho.getCode, o.getCode_snd_address, by rintro _ ⟨⟩⟩
  case setState k v =>
    cases h
    exact ⟨(ho.getState k).insert_both k v, o.getState_snd_address, by rintro _ ⟨⟩⟩
  case suicide => cases h; exact ⟨ho, rfl, by rintro _ ⟨⟩⟩
  case createAccount =>
    cases h
    refine ⟨StateObject.newObject_coherent _ _, rfl, fun p hp => ?_⟩
    cases hp
    exact ho

section

variable (hs : s.Wf)
include hs

theorem Wf.apply {db : Database} {op : AccountOp} (ho : o.Coherent) :
    (s.apply (change H db o op)).Wf := by
  match h : change H db o op with
  | none         => exact hs
  | some (e, o') =>
    obtain ⟨ho', _, he⟩ := change_coherent ho h
    exact (hs.append he).modified ho'

theorem Wf.create (a : Address) : (s.create H a).Wf :=
  (hs.append fun _ h => by cases h).modified (StateObject.newObject_coherent _ _)

theorem Wf.call (a : Address) (op : AccountOp) : (s.call H a op).Wf := by
  match h : s.getStateObject a with
  | (some o, s₁) =>
    obtain ⟨hw, ha, ho⟩ := hs.object h
    rw [call_of_some h ha]
    exact hw.apply ho
  | (none, s₁) =>
    rw [call_of_none (by rw [h])]
    obtain hc | ⟨c, hc, rfl | rfl⟩ := callNew_cases H s a op <;> rw [hc]
    · exact hs
    · exact hs.create a
    · exact (hs.create a).apply fun _ => .inl rfl

theorem Wf.undo (he : e ∈ s.journal) (h : undo e s = some s') : s'.Wf := by
  obtain ⟨a, _, _, rfl⟩ | ⟨p, rfl, rfl⟩ | ⟨a, o, s₁, _, _, ho, rfl⟩ | ⟨a, _, _, _, rfl⟩ |
    ⟨_, r, l, rfl⟩ := undo_cases h
  · exact hs.deleteLive a
  · exact hs.setStateObject (hs.prev he)
  · obtain ⟨hw, _, hc⟩ := hs.object ho
    exact hw.modified (restore_coherent hc e)
  · exact hs
  · exact { hs with }

theorem Wf.undoAll {es : List JournalEntry} (he : es ⊆ s.journal)
    (h : undoAll es s = some s') : s'.Wf := by
  induction es using List.reverseRecOn generalizing s
  case nil => cases h; exact hs
  case append_singleton es e hi =>
    rw [undoAll_concat] at h
    obtain ⟨t, ht, h⟩ := Option.bind_eq_some_iff.mp h
    obtain ⟨he₁, he₂⟩ := List.append_subset.mp he
    have hj : t.journal = s.journal := by rw [(grows_undo ht).journal, List.append_nil]
    exact hi (hs.undo (he₂ List.mem_cons_self) ht) (hj ▸ he₁) h

theorem Wf.revertToSnapshot {revid : Nat} (h : s.revertToSnapshot revid = some s') :
    s'.Wf := by
  obtain ⟨rs, r, rs', hr, hid⟩ := revertToSnapshot_eq_some h
  subst hid
  rw [revertToSnapshot_of_mem hs.revisions hr] at h
  obtain ⟨t, ht, h⟩ := Option.map_eq_some_iff.mp h
  have hw := hs.undoAll (List.drop_subset ..) ht
  have hrev := hr ▸ hs.revisions
  subst h
  exact { hw with
    prev := fun ho => hs.prev (List.mem_of_mem_take ho)
    revisions := by
      have hl : (s.journal.take r.journalIndex).length = r.journalIndex :=
        List.length_take_of_le (hrev.within r (List.mem_append_right _ List.mem_cons_self))
      simp only [hl, (grows_undoAll ht).nextRevisionId]
      exact hrev.left }

theorem Wf.clearJournalAndRefund : s.clearJournalAndRefund.Wf :=
  { hs with
    prev      := fun h => by cases h
    revisions := .nil }

theorem Wf.deleteStateObject (ho : o.Coherent) : (s.deleteStateObject o).Wf :=
  { hs.setStateObject (o := { o with deleted := true }) ho with }

theorem Wf.eraseDirty (a : Address) :
    Wf { s with stateObjectsDirty := s.stateObjectsDirty.erase a } :=
  { hs with live := fun h => hs.live (AList.mem_erase.mp h).right }

end

-- Well-formed, with `n` as the next revision.
def WfAt (n : Nat) (s : StateDB) : Prop :=
  s.Wf ∧ s.nextRevisionId = n

section

variable {n : Nat} {d : Bool} {root : Hash} {c c' : Committing}

theorem WfAt.updateStateObject (hs : s.WfAt n) (h : s.updateStateObject o = some s') : s'.WfAt n := by
  unfold StateDB.updateStateObject at h
  split at h
  case isTrue  => cases h; exact ⟨{ hs.left with }, hs.right⟩
  case isFalse => cases h

theorem WfAt.rootObject (hs : s.WfAt n) (h : s.rootObject H d a = some s') : s'.WfAt n := by
  obtain ⟨hs, hn⟩ := hs
  unfold StateDB.rootObject at h
  split at h
  case h_1 => cases h
  case h_2 o ho =>
    split at h
    case isTrue  => cases h; exact ⟨hs.deleteStateObject (hs.coherent ho), hn⟩
    case isFalse =>
      exact WfAt.updateStateObject ⟨hs.setStateObject (hs.coherent ho).updateRoot, hn⟩ h

theorem WfAt.commitObject (hs : c.state.WfAt n) (ho : o.Coherent)
    (h : commitObject H c o = some c') : c'.state.WfAt n := by
  obtain ⟨hs, hn⟩ := hs
  unfold StateDB.commitObject at h
  simp only at h
  split at h
  case isTrue  => cases h; exact ⟨hs.setStateObject ho.updateTrie, hn⟩
  case isFalse =>
    obtain ⟨t, ht, h⟩ := Option.map_eq_some_iff.mp h
    cases h
    obtain ⟨hs, hn⟩ := WfAt.updateStateObject ⟨hs.setStateObject (by exact ho.updateTrie), hn⟩ ht
    exact ⟨hs.eraseDirty _, hn⟩

theorem WfAt.commitAddress (hs : c.state.WfAt n) (h : commitAddress H d c a = some c') :
    c'.state.WfAt n := by
  unfold StateDB.commitAddress at h
  split at h
  case isTrue  => cases h; exact hs
  case isFalse =>
    split at h
    case h_1 => cases h; exact hs
    case h_2 o ho =>
      have hc := hs.left.coherent ho
      simp only at h
      split at h
      case isTrue  => cases h; exact ⟨(hs.left.deleteStateObject hc).eraseDirty _, hs.right⟩
      case isFalse =>
        split at h
        case isFalse => cases h; exact hs
        case isTrue =>
          split at h
          case h_1 => exact WfAt.commitObject (by exact hs) (by exact hc) h
          case h_2 => exact hs.commitObject hc h

theorem Wf.intermediateRoot (hs : s.Wf) (h : s.intermediateRoot H d = some (root, s')) :
    s'.WfAt s.nextRevisionId ∧ s'.validRevisions = [] := by
  obtain ⟨t, ht, h⟩ := Option.bind_eq_some_iff.mp h
  cases h
  obtain ⟨hw, hn⟩ := Loop.foldlM_keep WfAt.rootObject ⟨hs, rfl⟩ ht
  exact ⟨⟨hw.clearJournalAndRefund, hn⟩, rfl⟩

theorem Wf.commit (hs : s.Wf) (h : s.commit H d = some (root, s')) :
    s'.WfAt s.nextRevisionId ∧ s'.validRevisions = [] := by
  obtain ⟨⟨r, b, t⟩, ht, h⟩ := Option.bind_eq_some_iff.mp h
  cases h
  obtain ⟨c, hc, ht⟩ := Option.bind_eq_some_iff.mp ht
  obtain ⟨hw, hn⟩ : c.state.WfAt s.nextRevisionId := Loop.foldlM_keep
    (I := fun c => c.state.WfAt s.nextRevisionId) WfAt.commitAddress ⟨hs, rfl⟩ hc
  split at ht <;> cases ht <;> exact ⟨⟨{ hw.clearJournalAndRefund with }, hn⟩, rfl⟩

theorem Wf.deleteSuicide (hs : s.WfAt n ∧ s.validRevisions = []) (h : s.deleteSuicide a = some s') :
    s'.WfAt n ∧ s'.validRevisions = [] := by
  obtain ⟨⟨hs, hn⟩, hr⟩ := hs
  unfold StateDB.deleteSuicide at h
  split at h
  case h_1 => cases h
  case h_2 o ho =>
    cases h
    have hc := hs.coherent ho
    split
    case isTrue  => exact ⟨⟨(hs.setStateObject (by exact hc)).eraseDirty _, hn⟩, hr⟩
    case isFalse => exact ⟨⟨hs.eraseDirty _, hn⟩, hr⟩

theorem Wf.deleteSuicides (hs : s.Wf) (h : s.deleteSuicides = some s') :
    s'.WfAt s.nextRevisionId ∧ s'.validRevisions = [] :=
  Loop.foldlM_keep (I := fun t => t.WfAt s.nextRevisionId ∧ t.validRevisions = []) Wf.deleteSuicide
    ⟨⟨hs.clearJournalAndRefund, rfl⟩, rfl⟩ h

end

theorem Wf.blank (ho : s.stateObjects = ∅) (hd : s.stateObjectsDirty = ∅) (hj : s.journal = [])
    (hr : s.validRevisions = []) : s.Wf where
  address h   := by simp [ho] at h
  coherent h  := by simp [ho] at h
  live h      := by simp [hd] at h
  prev h      := by simp [hj] at h
  revisions   := hr ▸ .nil

theorem Wf.reset {root : Hash} (hs : s.Wf) : ((s.reset root).getD s).Wf := by
  unfold StateDB.reset
  cases openTrie s.db.accounts AccountTrie.empty root
  case none   => exact hs
  case some t => exact .blank rfl rfl rfl rfl

theorem Wf.step {op : Op} (hs : s.Wf) (h : s.step H op = some s') : s'.Wf := by
  cases op <;> simp only [StateDB.step] at h
  case account a op       => cases h; exact hs.call a op
  case addRefund          => cases h; exact { hs.append (e := .refund s.refund) (by rintro _ ⟨⟩) with }
  case addLog             => cases h; exact { hs.append (e := .addLog s.thash) (by rintro _ ⟨⟩) with }
  case startRecord        => cases h; exact { hs with }
  case snapshot           => cases h; exact { hs with revisions := hs.revisions.concat }
  case revertToSnapshot   => exact hs.revertToSnapshot h
  case intermediateRoot d =>
    obtain ⟨⟨root, t⟩, ht, h⟩ := Option.map_eq_some_iff.mp h
    exact h ▸ (hs.intermediateRoot ht).left.left
  case deleteSuicides     => exact (hs.deleteSuicides h).left.left
  case commit d           =>
    obtain ⟨⟨root, t⟩, ht, h⟩ := Option.map_eq_some_iff.mp h
    exact h ▸ (hs.commit ht).left.left
  case reset              => cases h; exact hs.reset

theorem Wf.read (hs : s.Wf) (r : Read) : (s.read H r).Wf := by
  cases r <;> simp only [StateDB.read]
  case exist a => exact hs.getStateObject
  case getCode a =>
    unfold StateDB.getCode
    split
    case h_1 h => rw [← congrArg Prod.snd h]; exact hs.getStateObject
    case h_2 h =>
      obtain ⟨hw, _, ho⟩ := hs.object h
      exact { hw.setStateObject ho.getCode with }
  case getCodeSize a =>
    unfold StateDB.getCodeSize
    split
    case h_1 h => rw [← congrArg Prod.snd h]; exact hs.getStateObject
    case h_2 h =>
      obtain ⟨hw, _, ho⟩ := hs.object h
      split
      case h_1 => exact hw
      case h_2 =>
        simp only
        split <;> exact { hw.setStateObject ho.getCode with }
  case getState a k =>
    unfold StateDB.getState
    split
    case h_1 h => rw [← congrArg Prod.snd h]; exact hs.getStateObject
    case h_2 h =>
      obtain ⟨hw, _, ho⟩ := hs.object h
      exact hw.setStateObject (ho.getState k)

theorem Reachable.wf (hs : s.Reachable H) : s.Wf := by
  induction hs
  case new h =>
    obtain ⟨t, _, h⟩ := Option.map_eq_some_iff.mp h
    exact h ▸ .blank rfl rfl rfl rfl
  case step h hi => exact hi.step h
  case read r _ hi => exact hi.read r

end StateDB

end State
