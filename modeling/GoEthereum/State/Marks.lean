import GoEthereum.State.Revert
import GoEthereum.State.Root

-- The marks on dirty accounts, and what calls that are reverted leave in the state root.

namespace State

open Common

namespace StateDB

-- The object that is live at an address, or that would be loaded.
structure Slot where
  deleted : Bool
  content : AccountView
  onDirty : Bool

section

variable (H : Hashing)

def slotOf (db : Database) (o : StateObject) : Slot :=
  ⟨o.deleted, o.content H db, o.onDirty⟩

def loaded (s : StateDB) (a : Address) : Option Slot :=
  (s.base H a).map fun v => ⟨false, v, true⟩

def slot (s : StateDB) (a : Address) : Option Slot :=
  match s.stateObjects.lookup a with
  | some o => some (slotOf H s.db o)
  | none   => s.loaded H a

def dirty (s : StateDB) (a : Address) : Bool :=
  a ∈ s.stateObjectsDirty

-- What `IntermediateRoot` leaves of a slot, depending on the mark of its address.
def left (d : Bool) (t : Option StoredAccount) (x : Option Slot) (m : Bool) :
    Option (Option StoredAccount) :=
  if m then x.bind fun x => written H d x.content else some t

variable {H} {s : StateDB} {a : Address} {d : Bool}

theorem final_eq_left (hs : s.Wf) :
    s.final H d a = left H d (s.trie a) (s.slot H a) (s.dirty a) := by
  unfold final left dirty
  by_cases ha : a ∈ s.stateObjectsDirty
  · obtain ⟨o, ho⟩ := Option.isSome_iff_exists.mp (AList.lookup_isSome.mpr (hs.live ha))
    simp [ha, slot, ho, slotOf]
  · simp [ha]

end

section

-- Undoing an entry that restores a field runs the callback of the object.
def restoreSlot (H : Hashing) (db : Database) (e : JournalEntry) (m : Bool) :
    Option Slot → Option Slot × Bool
  | some ⟨false, v, b⟩ => (some ⟨false, ((e.back H db none (some v)).getD none).getD v, false⟩, m || b)
  | x                  => (x, m)

variable (H : Hashing) (db : Database) (a : Address) (base : Option Slot)
variable (goal : Option Slot → Bool → Prop)

-- Undoing the entries of an account leads from a slot and its mark to the goal. A reset marked the
-- account, so its undoing is only followed for marks that are not less.
def Leads : List JournalEntry → Option Slot → Bool → Prop
  | [], x, m      => goal x m
  | e :: es, x, m =>
    if e.account = some a then
      match e.effect with
      | .drop    => Leads es base false
      | .reset p => ∀ m', (m = true → m' = true) → Leads es (some (slotOf H db p)) m'
      | .keep    => Leads es x m
      | .restore => Leads es (restoreSlot H db e m x).fst (restoreSlot H db e m x).snd
    else
      Leads es x m

variable {H db a base goal} {e : JournalEntry} {es : List JournalEntry} {x : Option Slot} {m : Bool}

theorem leads_of_ne (h : e.account ≠ some a) :
    Leads H db a base goal (e :: es) x m ↔ Leads H db a base goal es x m := by
  rw [Leads, if_neg h]

theorem leads_of_drop (h : e.account = some a) (hd : e.effect = .drop) :
    Leads H db a base goal (e :: es) x m ↔ Leads H db a base goal es base false := by
  rw [Leads, if_pos h, hd]

theorem leads_of_keep (hk : e.effect = .keep) :
    Leads H db a base goal (e :: es) x m ↔ Leads H db a base goal es x m := by
  rw [Leads, hk]
  split <;> rfl

theorem leads_of_reset {p : StateObject} (h : e.account = some a) (hr : e.effect = .reset p) :
    Leads H db a base goal (e :: es) x m ↔
      ∀ m', (m = true → m' = true) → Leads H db a base goal es (some (slotOf H db p)) m' := by
  rw [Leads, if_pos h, hr]

theorem leads_of_restore (h : e.account = some a) (hr : e.effect = .restore) :
    Leads H db a base goal (e :: es) x m ↔ Leads H db a base goal es
      (restoreSlot H db e m x).fst (restoreSlot H db e m x).snd := by
  rw [Leads, if_pos h, hr]

theorem leads_append_of_ne {es' : List JournalEntry} (h : ∀ e ∈ es, e.account ≠ some a) :
    Leads H db a base goal (es ++ es') x m ↔ Leads H db a base goal es' x m := by
  induction es
  case nil => rfl
  case cons e es hi =>
    obtain ⟨he, h⟩ := List.forall_mem_cons.mp h
    rw [List.cons_append, leads_of_ne he, hi h]

theorem leads_iff_of_fresh (h : Fresh a es) (y : Option Slot) (n : Bool) :
    Leads H db a base goal es.reverse x m ↔ Leads H db a base goal es.reverse y n := by
  obtain ⟨es₁, es₂, rfl, hn⟩ := h
  have hn : ∀ e ∈ es₂.reverse, e.account ≠ some a := fun e he => hn e (List.mem_reverse.mp he)
  rw [List.reverse_append, List.reverse_cons, List.append_assoc, leads_append_of_ne hn,
    leads_append_of_ne hn, List.singleton_append, leads_of_drop rfl rfl,
    leads_of_drop rfl rfl]

theorem Leads.mark {v : AccountView} {b : Bool}
    (hg : goal (some ⟨false, v, true⟩) m → goal (some ⟨false, v, b⟩) true)
    (h : Leads H db a base goal es (some ⟨false, v, true⟩) m) :
    Leads H db a base goal es (some ⟨false, v, b⟩) true := by
  induction es
  case nil => exact hg h
  case cons e es hi =>
    by_cases he : e.account = some a
    · cases hf : e.effect
      case drop    => exact (leads_of_drop he hf).mpr ((leads_of_drop he hf).mp h)
      case keep    => exact (leads_of_keep hf).mpr (hi ((leads_of_keep hf).mp h))
      case reset p =>
        have h := (leads_of_reset he hf).mp h
        exact (leads_of_reset he hf).mpr fun m' hm => h m' fun _ => hm rfl
      case restore =>
        have h := (leads_of_restore he hf).mp h
        refine (leads_of_restore he hf).mpr ?_
        simpa [restoreSlot] using h
    · exact (leads_of_ne he).mpr (hi ((leads_of_ne he).mp h))

end

section

variable {H : Hashing} {s s₁ : StateDB} {a b : Address} {o : StateObject} {e : JournalEntry}

theorem slot_setStateObject : (s.setStateObject o).slot H =
    Function.update (s.slot H) o.address (some (slotOf H s.db o)) := by
  funext x
  by_cases h : x = o.address
  · subst h
    simp [slot, setStateObject]
  · simp [slot, setStateObject, AList.lookup_insert_ne h, h, loaded, base]

theorem slot_modified : (s.modified o).slot H =
    Function.update (s.slot H) o.address (some ⟨o.deleted, o.content H s.db, false⟩) := by
  unfold modified
  split
  case isTrue => exact slot_setStateObject
  case isFalse h =>
    rw [slot_setStateObject, slotOf, Bool.eq_false_iff.mpr h]

theorem slot_deleteLive : (s.deleteLive a).slot H = Function.update (s.slot H) a (s.loaded H a) := by
  funext x
  by_cases h : x = a
  · subst h
    simp [slot, deleteLive, loaded, base]
  · simp [slot, deleteLive, AList.lookup_erase_ne h, h, loaded, base]

theorem dirty_setStateObject : (s.setStateObject o).dirty = s.dirty :=
  rfl

theorem dirty_modified : (s.modified o).dirty =
    Function.update s.dirty o.address (s.dirty o.address || o.onDirty) := by
  unfold modified
  cases h : o.onDirty
  case false => simp [dirty_setStateObject]
  case true =>
    funext x
    by_cases hx : x = o.address <;> simp [dirty, setStateObject, markStateObjectDirty, hx]

theorem dirty_deleteLive : (s.deleteLive a).dirty = Function.update s.dirty a false := by
  funext x
  by_cases hx : x = a <;> simp [dirty, deleteLive, hx]

theorem slot_of_getStateObject {r : Option StateObject} (h : s.getStateObject a = (r, s₁)) :
    s₁.slot H = s.slot H ∧ s₁.dirty = s.dirty := by
  revert h
  unfold getStateObject
  split
  case h_1 => split <;> rintro ⟨⟩ <;> exact ⟨rfl, rfl⟩
  case h_2 hn =>
    split
    case h_1 => rintro ⟨⟩; exact ⟨rfl, rfl⟩
    case h_2 data ht =>
      rintro ⟨⟩
      refine ⟨?_, rfl⟩
      have hs : s.slot H a = some (slotOf H s.db (StateObject.newObject a data.val)) := by
        simp only [slot, hn, loaded, base, ht]
        rfl
      rw [slot_setStateObject, ← hs]
      exact Function.update_eq_self ..

theorem slot_of_some (h : s.getStateObject a = (some o, s₁)) :
    s.slot H a = some ⟨false, o.content H s.db, o.onDirty⟩ := by
  obtain ⟨hl, hd⟩ := lookup_of_getStateObject h
  rw [← (slot_of_getStateObject h).left, slot, hl, (grows_of_getStateObject s a h).db, ← hd]
  rfl

variable {db : Database}

theorem restoreSlot_of_none {m : Bool} (h : (s.getStateObject a).fst = none) :
    restoreSlot H db e m (s.slot H a) = (s.slot H a, m) := by
  have ha := account_eq_map_getStateObject (H := H) (s := s) (a := a)
  rw [h] at ha
  cases ho : s.stateObjects.lookup a
  case none =>
    simp only [account, ho] at ha
    simp only [slot, ho, loaded, ha]
    rfl
  case some o =>
    simp only [account, ho] at ha
    simp only [slot, ho]
    cases hd : o.deleted
    case false => simp [StateObject.view, hd] at ha
    case true  => simp [slotOf, hd, restoreSlot]

theorem back_restore {v : Option AccountView} (h : e.effect = .restore) :
    e.back H db v (some (o.content H db)) = some (some ((e.restore o).content H db)) := by
  cases e
  case storage a k x => rw [JournalEntry.restore, StateObject.content_insert_both]; rfl
  case touch => simp only [JournalEntry.effect] at h; split at h <;> cases h
  case createObject => cases h
  case resetObject  => cases h
  all_goals rfl

theorem back_of_keep {b v : Option AccountView} (h : e.effect = .keep) :
    e.back H db b v = some v := by
  cases e
  case touch a prev =>
    simp only [JournalEntry.effect, JournalEntry.back] at h ⊢
    split at h
    case isTrue    => cases h
    case isFalse hn => rw [if_neg hn]
  case refund => rfl
  case addLog => rfl
  all_goals cases h

end

-- Undoing the entries leads from the present slot and mark of an account to the goal.
def LeadsTo (H : Hashing) (s : StateDB) (a : Address) (goal : Option Slot → Bool → Prop)
    (es : List JournalEntry) : Prop :=
  Leads H s.db a (s.loaded H a) goal es (s.slot H a) (s.dirty a)

section

variable {H : Hashing} {s s' s₁ : StateDB} {a b : Address} {o o' : StateObject} {e : JournalEntry}
variable {goal : Option Slot → Bool → Prop} {es : List JournalEntry}

theorem Grows.loaded (hg : Grows s es s') : s'.loaded H a = s.loaded H a := by
  rw [StateDB.loaded, StateDB.loaded, base_congr hg.trie hg.db]

theorem Grows.leadsTo (hg : Grows s es s') {es' : List JournalEntry} :
    LeadsTo H s' a goal es' ↔
      Leads H s.db a (s.loaded H a) goal es' (s'.slot H a) (s'.dirty a) := by
  rw [LeadsTo, hg.db, hg.loaded]

theorem LeadsTo.undo (hs : s.Wf) (h : undo e s = some s') (hl : LeadsTo H s a goal (e :: es)) :
    LeadsTo H s' a goal es := by
  rw [(grows_undo h).leadsTo]
  obtain ⟨x, hx, hd, rfl⟩ | ⟨p, rfl, rfl⟩ | ⟨x, o, s₁, hx, hr, ho, rfl⟩ | ⟨x, hx, hr, hn, rfl⟩ |
    ⟨hk, r, l, rfl⟩ := undo_cases h
  · rw [slot_deleteLive, dirty_deleteLive]
    by_cases hxa : x = a
    · subst hxa
      simpa using (leads_of_drop hx hd).mp hl
    · rw [Function.update_of_ne (Ne.symm hxa), Function.update_of_ne (Ne.symm hxa)]
      exact (leads_of_ne (by simpa [hx] using hxa)).mp hl
  · rw [slot_setStateObject, dirty_setStateObject]
    by_cases hxa : p.address = a
    · subst hxa
      simpa using (leads_of_reset rfl rfl).mp hl _ id
    · rw [Function.update_of_ne (Ne.symm hxa)]
      exact (leads_of_ne (by simpa [JournalEntry.account] using hxa)).mp hl
  · obtain ⟨_, ha, _⟩ := hs.object ho
    obtain ⟨hsl, hdi⟩ := slot_of_getStateObject (H := H) ho
    obtain ⟨hra, hrd, hro⟩ : (e.restore o).address = x ∧ (e.restore o).deleted = false ∧
        (e.restore o).onDirty = o.onDirty := by
      rw [← ha, ← (lookup_of_getStateObject ho).right]
      cases e <;> exact ⟨rfl, rfl, rfl⟩
    rw [slot_modified, dirty_modified, hra, hrd, hro, hsl, hdi, (grows_of_getStateObject s x ho).db]
    by_cases hxa : x = a
    · subst hxa
      have hl := (leads_of_restore hx hr).mp hl
      rw [slot_of_some ho] at hl
      simpa [restoreSlot, back_restore hr] using hl
    · rw [Function.update_of_ne (Ne.symm hxa), Function.update_of_ne (Ne.symm hxa)]
      exact (leads_of_ne (by simpa [hx] using hxa)).mp hl
  · by_cases hxa : x = a
    · subst hxa
      have hl := (leads_of_restore hx hr).mp hl
      rwa [restoreSlot_of_none hn] at hl
    · exact (leads_of_ne (by simpa [hx] using hxa)).mp hl
  · exact (leads_of_keep hk).mp hl

variable {H : Hashing} {s s' s₁ : StateDB} {a b : Address} {o o' : StateObject} {e : JournalEntry}
variable {op : AccountOp} {d : Bool}

theorem change_onDirty {db : Database} (h : change H db o op = some (e, o')) :
    e.effect = .reset o ∧ o'.onDirty = true ∨
    (∀ p, e.effect ≠ .reset p) ∧ o'.onDirty = o.onDirty := by
  cases op <;> simp only [change] at h
  case addBalance n =>
    split at h
    case isTrue =>
      split at h
      case isFalse => cases h
      case isTrue  =>
        cases h
        refine .inr ⟨fun p => ?_, rfl⟩
        simp only [JournalEntry.effect]
        split <;> rintro ⟨⟩
    case isFalse => cases h; exact .inr ⟨by rintro _ ⟨⟩, rfl⟩
  case subBalance n =>
    split at h
    case isTrue  => cases h
    case isFalse => cases h; exact .inr ⟨by rintro _ ⟨⟩, rfl⟩
  case setCode       => cases h; exact .inr ⟨by rintro _ ⟨⟩, o.getCode_snd_flags.right⟩
  case setState      => cases h; exact .inr ⟨by rintro _ ⟨⟩, o.getState_snd_flags.right⟩
  case createAccount => cases h; exact .inl ⟨rfl, rfl⟩
  all_goals
    cases h
    exact .inr ⟨by rintro _ ⟨⟩, rfl⟩

-- The mark that a call on an object leaves has to do no harm, depending on what undoing its entry
-- does.
def MarkSafe (H : Hashing) (d : Bool) (s : StateDB) (a : Address) (o : StateObject) :
    JournalEntry.Effect → Prop
  -- This is the first touch. Undoing it drops the object, so it has to be as it was loaded.
  | .drop    =>
    o.onDirty ∧ a ∉ s.stateObjectsDirty ∧ s.account H a = s.base H a ∨ Fresh a s.sinceSnapshot
  -- Otherwise the account was dirty before, or it is not marked, or it would be written as it is.
  | .reset _ =>
    a ∈ s.stateObjectsDirty ∨ o.onDirty ∧ written H d (o.content H s.db) = some (s.trie a)
  | _        =>
    a ∈ s.stateObjectsDirty ∨ o.onDirty = false ∨ written H d (o.content H s.db) = some (s.trie a)

-- The condition under which a call leaves no trace in the state root once it is reverted.
def RootSafeCall (H : Hashing) (d : Bool) (s : StateDB) (a : Address) (op : AccountOp) : Prop :=
  SafeCall H s a op ∧
  match (s.getStateObject a).fst with
  -- There is no object, or a deleted one of which the journal does not know.
  | none   => op = .suicide ∨ a ∉ s.stateObjects ∨
    (∀ e ∈ s.journal, e.account ≠ some a) ∧ s.final H d a = some (s.trie a)
  | some o => ∀ e o', change H s.db o op = some (e, o') → MarkSafe H d s a o e.effect

theorem slot_apply (hs : s.Wf) (h : s.getStateObject a = (some o, s₁))
    (hc : change H s.db o op = some (e, o')) :
    (s₁.apply (some (e, o'))).slot H =
      Function.update (s.slot H) a (some ⟨false, o'.content H s.db, false⟩) ∧
    (s₁.apply (some (e, o'))).dirty = Function.update s.dirty a (s.dirty a || o'.onDirty) := by
  obtain ⟨_, ha, _⟩ := hs.object h
  obtain ⟨hsl, hdi⟩ := slot_of_getStateObject (H := H) h
  have hd := (lookup_of_getStateObject h).right
  have hu := change_undoable hd hc
  have hsl' : (s₁.append e).slot H = s.slot H := hsl
  have hdi' : (s₁.append e).dirty = s.dirty := hdi
  have hdb : (s₁.append e).db = s.db := (grows_of_getStateObject s a h).db
  rw [apply, slot_modified, dirty_modified, hu.address, ha, hu.deleted, hd, hsl', hdi', hdb]
  exact ⟨rfl, rfl⟩

theorem loaded_eq {v : AccountView} (h : s.base H a = some v) :
    s.loaded H a = some ⟨false, v, true⟩ := by
  rw [loaded, h]
  rfl

-- The goal: what `IntermediateRoot` leaves at an address.
def Leaves (H : Hashing) (d : Bool) (t : Option StoredAccount) (F : Option (Option StoredAccount))
    (x : Option Slot) (m : Bool) : Prop :=
  left H d t x m = F

variable {F : Option (Option StoredAccount)}

theorem leaves_mark {v : AccountView} {t : Option StoredAccount}
    {m b c : Bool} (hm : m = true ∨ written H d v = some t)
    (h : Leaves H d t F (some ⟨false, v, b⟩) m) : Leaves H d t F (some ⟨false, v, c⟩) true := by
  cases m
  case true  => exact h
  case false => exact (hm.resolve_left Bool.false_ne_true).trans h

theorem modified_leads (hs : s.Wf)
    (h : s.getStateObject a = (some o, s₁)) (hc : change H s.db o op = some (e, o'))
    (hm : MarkSafe H d s a o e.effect) (hf : ∃ es', es.reverse = es' ++ s.sinceSnapshot)
    (hl : LeadsTo H s a (Leaves H d (s.trie a) F) es) :
    LeadsTo H (s₁.apply (some (e, o'))) a (Leaves H d (s.trie a) F) (e :: es) := by
  obtain ⟨_, ha, _⟩ := hs.object h
  have hd := (lookup_of_getStateObject h).right
  have hu := change_undoable hd hc
  have hea : e.account = some a := hu.account.trans (congrArg some ha)
  have hg : Grows s [e] (s₁.apply (some (e, o'))) :=
    (grows_of_getStateObject s a h).trans (grows_modified_append ..)
  obtain ⟨hsl, hdi⟩ := slot_apply hs h hc
  rw [hg.leadsTo, hsl, hdi, Function.update_self, Function.update_self]
  unfold LeadsTo at hl
  rw [slot_of_some h] at hl
  -- Restoring the object leaves it without its callback, and marked if it had one.
  have hback (ho : o'.onDirty = o.onDirty)
      (hm : s.dirty a = true ∨ o.onDirty = false ∨ written H d (o.content H s.db) = some (s.trie a)) :
      Leads H s.db a (s.loaded H a) (Leaves H d (s.trie a) F) es
        (some ⟨false, o.content H s.db, false⟩) (s.dirty a || o'.onDirty) := by
    rw [ho]
    cases hb : o.onDirty
    case false =>
      rw [hb] at hl
      rwa [Bool.or_false]
    case true =>
      rw [hb] at hl hm
      rw [Bool.or_true]
      exact hl.mark (leaves_mark (hm.imp_right (·.resolve_left (by simp))))
  have hdirty : a ∈ s.stateObjectsDirty ↔ s.dirty a = true := by simp [dirty]
  cases he : e.effect
  case drop =>
    rw [leads_of_drop hea he]
    rw [he] at hm
    obtain ⟨ho, hn, hv⟩ | hfresh := hm
    · -- The object is as it was loaded.
      rw [account_of_getStateObject h] at hv
      rw [hdirty, Bool.not_eq_true] at hn
      rwa [ho, hn, ← loaded_eq hv.symm] at hl
    · obtain ⟨es', hes⟩ := hf
      rw [← List.reverse_reverse es, hes] at hl ⊢
      exact (leads_iff_of_fresh (hfresh.append_left es') _ _).mp hl
  case reset p =>
    rw [he] at hm
    obtain ⟨hp, ho⟩ | ⟨hn, _⟩ := change_onDirty hc
    case inr => exact absurd he (hn p)
    rw [leads_of_reset hea hp, slotOf, hd, ho, Bool.or_true]
    intro m' hm'
    rw [hm' rfl]
    obtain hm | ⟨hb, hm⟩ := hm
    · rwa [hdirty.mp hm] at hl
    · rw [hb] at hl ⊢
      exact hl.mark (leaves_mark (.inr hm))
  all_goals
    rw [he] at hm
    obtain ⟨hp, _⟩ | ⟨_, ho⟩ := change_onDirty hc
    case inl => cases he.symm.trans hp
    have hnd : e.drops = false := Bool.eq_false_iff.mpr fun hd => by
      cases he.symm.trans (e.effect_eq_drop_iff.mpr hd)
    have hb := hu.back hnd none
    have hl := hback ho (hm.imp_left hdirty.mp)
  case restore =>
    rw [leads_of_restore hea he, restoreSlot, hb]
    simpa using hl
  case keep =>
    have hv : o'.content H s.db = o.content H s.db := by simpa [back_of_keep he] using hb
    rwa [leads_of_keep he, hv]

theorem leads_over_create {db : Database} {base x : Option Slot} {m : Bool}
    (h : Leads H db a base goal es base false) :
    Leads H db a base goal (e :: .createObject a :: es) x m := by
  have hc (y : Option Slot) (n : Bool) : Leads H db a base goal (.createObject a :: es) y n :=
    (leads_of_drop rfl rfl).mpr h
  by_cases he : e.account = some a
  · cases hf : e.effect
    case drop    => exact (leads_of_drop he hf).mpr (hc ..)
    case keep    => exact (leads_of_keep hf).mpr (hc ..)
    case reset p => exact (leads_of_reset he hf).mpr fun _ _ => hc ..
    case restore => exact (leads_of_restore he hf).mpr (hc ..)
  · exact (leads_of_ne he).mpr (hc ..)

theorem slot_modified_of_ne (hb : b ≠ o.address) :
    (s.modified o).slot H b = s.slot H b ∧ (s.modified o).dirty b = s.dirty b := by
  rw [slot_modified, dirty_modified, Function.update_of_ne hb, Function.update_of_ne hb]
  exact ⟨rfl, rfl⟩

theorem callNew_leads (hn : (s.getStateObject a).fst = none) : ∃ new, Grows s new (s.callNew H a op) ∧
    ∀ b goal es, LeadsTo H s b goal es →
      (b = a → Leads H s.db a (s.loaded H a) goal es (s.loaded H a) false) →
      LeadsTo H (s.callNew H a op) b goal (new.reverse ++ es) := by
  have hg : Grows s [.createObject a] (s.create H a) := grows_create
  have hcreate (b goal es) (hl : LeadsTo H s b goal es)
      (hb : b = a → Leads H s.db a (s.loaded H a) goal es (s.loaded H a) false) :
      LeadsTo H (s.create H a) b goal (.createObject a :: es) := by
    rw [hg.leadsTo]
    by_cases hba : b = a
    · subst hba
      exact (leads_of_drop rfl rfl).mpr (hb rfl)
    · obtain ⟨hsl, hdi⟩ := slot_modified_of_ne (H := H) (s := s.append (.createObject a))
        (o := StateObject.newObject a (StateObject.newAccount H)) hba
      rw [leads_of_ne (by simpa [JournalEntry.account] using Ne.symm hba), create, hsl, hdi]
      exact hl
  obtain h | ⟨c, h, hc⟩ := callNew_cases H s a op <;> rw [h]
  · exact ⟨[], .refl s, fun b goal es hl _ => hl⟩
  · cases c
    case none => exact ⟨_, hg, hcreate⟩
    case some c =>
      obtain ⟨e, o'⟩ := c
      have hu := change_undoable (H := H) (o := freshObject H a) rfl (hc.resolve_left (by simp)).symm
      have hg' : Grows s [.createObject a, e] ((s.create H a).apply (some (e, o'))) :=
        hg.trans (grows_modified_append ..)
      refine ⟨_, hg', fun b goal es hl hb => ?_⟩
      rw [hg'.leadsTo]
      by_cases hba : b = a
      · subst hba
        exact leads_over_create (hb rfl)
      · obtain ⟨hsl, hdi⟩ := slot_modified_of_ne (H := H) (s := (s.create H a).append e) (b := b)
          (o := o') (hu.address.symm ▸ hba)
        have hl := hcreate b goal es hl hb
        have hea : e.account ≠ some b := by
          rw [hu.account]
          simpa [freshObject, StateObject.newObject] using Ne.symm hba
        have hsl : ((s.create H a).apply (some (e, o'))).slot H b = (s.create H a).slot H b := hsl
        have hdi : ((s.create H a).apply (some (e, o'))).dirty b = (s.create H a).dirty b := hdi
        rw [hsl, hdi]
        exact (leads_of_ne hea).mpr hl

theorem leads_loaded (hs : s.Wf)
    (h : a ∉ s.stateObjects ∨
      (∀ e ∈ es, e.account ≠ some a) ∧ s.final H d a = some (s.trie a))
    (hl : LeadsTo H s a (Leaves H d (s.trie a) F) es) :
    Leads H s.db a (s.loaded H a) (Leaves H d (s.trie a) F) es (s.loaded H a) false := by
  unfold LeadsTo at hl
  obtain hn | ⟨he, hf⟩ := h
  · have hd : s.dirty a = false := by
      simp only [dirty, decide_eq_false_iff_not]
      exact fun h => hn (hs.live h)
    rwa [hd, slot, AList.lookup_eq_none.mpr hn] at hl
  · rw [← List.append_nil es, leads_append_of_ne he] at hl ⊢
    rw [final_eq_left hs] at hf
    exact hf.symm.trans hl

theorem call_leads (hs : s.Wf) (hc : RootSafeCall H d s a op) :
    ∃ new, Grows s new (s.call H a op) ∧ ∀ b F es, es ⊆ s.journal →
      (∃ es', es = es' ++ s.sinceSnapshot) → LeadsTo H s b (Leaves H d (s.trie b) F) es.reverse →
      LeadsTo H (s.call H a op) b (Leaves H d (s.trie b) F) (es ++ new).reverse := by
  obtain ⟨_, hc⟩ := hc
  match h : s.getStateObject a with
  | (none, s₁) =>
    have hn : (s.getStateObject a).fst = none := by rw [h]
    rw [h] at hc
    rw [call_of_none hn]
    obtain rfl | hc := hc
    · exact ⟨[], .refl s, fun b F es _ _ hl => by rwa [List.append_nil]⟩
    · obtain ⟨new, hg, hl'⟩ : ∃ new, Grows s new (s.callNew H a op) ∧ _ := callNew_leads hn
      refine ⟨new, hg, fun b F es hes _ hl => ?_⟩
      rw [List.reverse_append]
      refine hl' b _ _ hl fun hb => ?_
      subst hb
      refine leads_loaded hs (hc.imp_right (And.imp_left fun hc e he => ?_)) hl
      exact hc e (hes (List.mem_reverse.mp he))
  | (some o, s₁) =>
    rw [h] at hc
    obtain ⟨_, ha, _⟩ := hs.object h
    have hg := grows_of_getStateObject s a h
    obtain ⟨hsl, hdi⟩ := slot_of_getStateObject (H := H) h
    rw [call_of_some h ha, hg.db]
    match hch : change H s.db o op with
    | none =>
      refine ⟨[], hg, fun b F es _ _ hl => ?_⟩
      rwa [List.append_nil, apply, hg.leadsTo, hsl, hdi]
    | some (e, o') =>
      have hg' : Grows s [e] (s₁.apply (some (e, o'))) := hg.trans (grows_modified_append ..)
      refine ⟨[e], hg', fun b F es _ hes hl => ?_⟩
      rw [List.reverse_append, List.reverse_singleton, List.singleton_append]
      by_cases hb : b = a
      · subst hb
        exact modified_leads hs h hch (hc e o' hch) (by rwa [List.reverse_reverse]) hl
      · have hea : e.account ≠ some b := by
          rw [(change_undoable (lookup_of_getStateObject h).right hch).account, ha]
          simpa using Ne.symm hb
        obtain ⟨hsl', hdi'⟩ := slot_apply hs h hch
        rw [hg'.leadsTo, leads_of_ne hea, hsl', hdi', Function.update_of_ne hb,
          Function.update_of_ne hb]
        exact hl

-- Undoing the entries leaves at each address what should be left.
def Stays (H : Hashing) (d : Bool) (T : AccountTrie) (F : Address → Option (Option StoredAccount))
    (s : StateDB) (es : List JournalEntry) : Prop :=
  s.trie = T ∧ ∀ a, LeadsTo H s a (Leaves H d (T a) (F a)) es.reverse

theorem stays_tracked {T : AccountTrie} {F : Address → Option (Option StoredAccount)} :
    Tracked H (RootSafeCall H d) (Stays H d T F) where
  content {s s' es} hsc h := by
    refine ⟨hsc.trie.trans h.left, fun a => ?_⟩
    have hl := h.right a
    simpa only [LeadsTo, slot, loaded, base, dirty, hsc.db, hsc.trie, hsc.stateObjects,
      hsc.stateObjectsDirty] using hl
  undo {s s' es e} hw hs h := by
    refine ⟨(grows_undo hs).trie.trans h.left, fun a => .undo hw hs ?_⟩
    have hl := h.right a
    rwa [List.reverse_append] at hl
  call {s a op} hw hc := by
    obtain ⟨new, hg, hl⟩ := call_leads hw hc
    refine ⟨new, hg, fun r hr h => ⟨hg.trie.trans h.left, fun b => ?_⟩⟩
    obtain ⟨hT, h⟩ := h
    subst hT
    exact hl b _ _ (List.drop_subset ..) (drop_eq_append_sinceSnapshot hw hr) (h b)
  refund {s gas es} h := by
    refine ⟨h.left, fun a => ?_⟩
    rw [List.reverse_append, List.reverse_singleton]
    exact (leads_of_keep rfl).mpr (h.right a)
  addLog {s log es} h := by
    refine ⟨h.left, fun a => ?_⟩
    rw [List.reverse_append, List.reverse_singleton]
    exact (leads_of_keep rfl).mpr (h.right a)

end

-- The root of the trie that has an empty account at the precompiled contract `ripemd` only.
def ripemdRoot : Hash :=
  ⟨[0x74, 0x33, 0x0c, 0x42, 0xdf, 0x46, 0x6b, 0x53, 0xe5, 0x44, 0xae, 0xa3, 0x14, 0x21, 0x5e, 0x54,
    0xac, 0xa0, 0x6d, 0x5e, 0x6c, 0xc4, 0xe2, 0xcd, 0x30, 0x8d, 0xd4, 0x9f, 0x70, 0x45, 0x15, 0x83],
    rfl⟩

def ripemdHashing : Hashing :=
  { sampleHashing with accountRoot := fun t => if (t ripemd).isSome then ripemdRoot else Trie.emptyRoot }

def ripemdTrie : AccountTrie := fun a =>
  if a = ripemd then
    some ⟨⟨0, 0, Trie.emptyRoot, ripemdHashing.emptyCodeHash⟩, le_rfl⟩
  else
    none

def ripemdDatabase : Database :=
  { sampleDatabase with accounts := fun h => if h = ripemdRoot then some ripemdTrie else none }

def rootPlain (s : StateDB) (a : Address) (op : AccountOp) : Bool :=
  plain s a op && (a ∉ s.stateObjects || a ∈ s.stateObjectsDirty && (s.getStateObject a).fst.isSome)

theorem rootSafeCall_of_rootPlain {H : Hashing} {d : Bool} {s : StateDB} {a : Address}
    {op : AccountOp} (h : rootPlain s a op) : RootSafeCall H d s a op := by
  obtain ⟨hp, h⟩ := Bool.and_eq_true_iff.mp h
  refine ⟨safeCall_of_plain hp, ?_⟩
  split
  case h_1 hn => exact .inr (.inl (by simpa [hn] using h))
  case h_2 o ho =>
    have hd : a ∈ s.stateObjectsDirty := by
      have hm : a ∈ s.stateObjects := by
        by_contra hn
        simp [getStateObject, AList.lookup_eq_none.mpr hn, trie_of_plain hp] at ho
      simpa [hm, ho] using h
    intro e o' hc
    cases he : e.effect
    case drop =>
      obtain ⟨hop, _⟩ := change_drops hc (e.effect_eq_drop_iff.mp he)
      simp [hop, plain, ho] at hp
    all_goals exact .inl hd

def sampleRootOps : List Op :=
  [.account (sampleAddress 0x11) (.setBalance 5), .account (sampleAddress 0x11) (.setNonce 1),
   .snapshot, .account (sampleAddress 0x22) (.addBalance 0), .revertToSnapshot 1]

end StateDB

end State
