import GoEthereum.State.Invariant

-- What the entries of the journal take back one by one is taken back by reverting to a snapshot.

namespace State

open Common

namespace StateDB

-- Every call on an account meets a condition in the state it is made in.
def CallsMeet (H : Hashing) (C : StateDB → Address → AccountOp → Prop) (s : StateDB) :
    List Op → Prop
  | []        => True
  | op :: ops => (∀ a o, op = .account a o → C s a o) ∧
    ∀ s', s.step H op = some s' → CallsMeet H C s' ops

theorem CallsMeet.imp {H : Hashing} {C C' : StateDB → Address → AccountOp → Prop}
    (hC : ∀ {s a op}, C s a op → C' s a op) {s : StateDB} {ops : List Op} (h : CallsMeet H C s ops) :
    CallsMeet H C' s ops := by
  induction ops generalizing s
  case nil => trivial
  case cons op ops hi =>
    exact ⟨fun a o ho => hC (h.left a o ho), fun s' hs' => hi (h.right s' hs')⟩

-- The same with a condition that can be evaluated.
def checkRun (H : Hashing) (c : StateDB → Address → AccountOp → Bool) (s : StateDB) : List Op → Bool
  | []        => true
  | op :: ops =>
    (match op with
      | .account a o => c s a o
      | _            => true) && (s.step H op).all (checkRun H c · ops)

theorem callsMeet_of_checkRun {H : Hashing} {C : StateDB → Address → AccountOp → Prop}
    {c : StateDB → Address → AccountOp → Bool} (hc : ∀ {s a op}, c s a op → C s a op) {s : StateDB}
    {ops : List Op} (h : checkRun H c s ops) : CallsMeet H C s ops := by
  induction ops generalizing s
  case nil => trivial
  case cons op ops hi =>
    obtain ⟨hp, h⟩ := Bool.and_eq_true_iff.mp h
    refine ⟨fun a o ho => hc (by simpa [ho] using hp), fun s' hs' => hi ?_⟩
    rwa [hs'] at h

structure SameContent (s s' : StateDB) : Prop where
  db                : s'.db = s.db
  trie              : s'.trie = s.trie
  codeSizeCache     : s'.codeSizeCache = s.codeSizeCache
  stateObjects      : s'.stateObjects = s.stateObjects
  stateObjectsDirty : s'.stateObjectsDirty = s.stateObjectsDirty
  refund            : s'.refund = s.refund
  logs              : s'.logs = s.logs

-- `P s es` says that undoing `es` in `s` leads to where it should. Each undoing has to keep to
-- that, and each call that meets the condition `C` has to write entries that do.
structure Tracked (H : Hashing) (C : StateDB → Address → AccountOp → Prop)
    (P : StateDB → List JournalEntry → Prop) : Prop where
  content : ∀ {s s' es}, SameContent s s' → P s es → P s' es
  undo    : ∀ {s s' es e}, s.Wf → undo e s = some s' → P s (es ++ [e]) → P s' es
  call    : ∀ {s a op}, s.Wf → C s a op → ∃ new, Grows s new (s.call H a op) ∧
    ∀ r ∈ s.validRevisions, P s (s.journal.drop r.journalIndex) →
      P (s.call H a op) (s.journal.drop r.journalIndex ++ new)
  refund  : ∀ {s gas es}, P s es → P (s.addRefund gas) (es ++ [.refund s.refund])
  addLog  : ∀ {s log es}, P s es → P (s.addLog log) (es ++ [.addLog s.thash])

-- A snapshot is no longer valid, or the entries since then are tracked.
structure Held (P : StateDB → List JournalEntry → Prop) (r : Revision) (s : StateDB) : Prop where
  below : r.id < s.nextRevisionId
  held  : (∀ q ∈ s.validRevisions, q.id ≠ r.id) ∨
    r ∈ s.validRevisions ∧ P s (s.journal.drop r.journalIndex)

variable {H : Hashing} {C : StateDB → Address → AccountOp → Prop}
variable {P : StateDB → List JournalEntry → Prop} {s s' : StateDB} {r : Revision}

theorem Tracked.undoAll (hP : Tracked H C P) {es es' : List JournalEntry} (hw : s.Wf)
    (he : es' ⊆ s.journal) (h : undoAll es' s = some s') (hp : P s (es ++ es')) : P s' es := by
  induction es' using List.reverseRecOn generalizing s
  case nil =>
    cases h
    rwa [List.append_nil] at hp
  case append_singleton es' e hi =>
    rw [undoAll_concat] at h
    obtain ⟨t, ht, h⟩ := Option.bind_eq_some_iff.mp h
    obtain ⟨he₁, he₂⟩ := List.append_subset.mp he
    have hj : t.journal = s.journal := by rw [(grows_undo ht).journal, List.append_nil]
    rw [← List.append_assoc] at hp
    exact hi (hw.undo (he₂ List.mem_cons_self) ht) (hj ▸ he₁) h (hP.undo hw ht hp)

theorem Held.dropped (h : Held P r s) (hn : s'.nextRevisionId = s.nextRevisionId)
    (hr : s'.validRevisions = []) : Held P r s' where
  below := hn ▸ h.below
  held  := .inl (by simp [hr])

theorem Held.grows {new : List JournalEntry} (hw : s.Wf) (h : Held P r s) (hg : Grows s new s')
    (hp : r ∈ s.validRevisions → P s (s.journal.drop r.journalIndex) →
      P s' (s.journal.drop r.journalIndex ++ new)) : Held P r s' where
  below := hg.nextRevisionId ▸ h.below
  held  := by
    rw [hg.validRevisions, hg.journal]
    apply h.held.imp_right
    rintro ⟨hr, hs⟩
    refine ⟨hr, ?_⟩
    rw [List.drop_append_of_le_length (hw.revisions.within r hr)]
    exact hp hr hs

variable (hP : Tracked H C P)
include hP

theorem Held.snapshot (h : Held P r s) : Held P r s.snapshot.snd where
  below := h.below.trans (Nat.lt_succ_self _)
  held  := h.held.imp
    (fun hn q hq => by
      rcases List.mem_append.mp hq with hq | hq
      · exact hn q hq
      · rw [List.mem_singleton.mp hq]
        exact h.below.ne')
    (fun ⟨hr, hp⟩ =>
      ⟨List.mem_append_left _ hr, hP.content (s := s) ⟨rfl, rfl, rfl, rfl, rfl, rfl, rfl⟩ hp⟩)

theorem Held.revertToSnapshot {revid : Nat} (hw : s.Wf) (h : Held P r s)
    (hs : s.revertToSnapshot revid = some s') : Held P r s' := by
  obtain ⟨rs, q, rs', hq, hid⟩ := revertToSnapshot_eq_some hs
  subst hid
  rw [revertToSnapshot_of_mem hw.revisions hq] at hs
  obtain ⟨t, ht, hs⟩ := Option.map_eq_some_iff.mp hs
  subst hs
  have hrev := hq ▸ hw.revisions
  refine ⟨(grows_undoAll ht).nextRevisionId ▸ h.below, ?_⟩
  obtain hn | ⟨hr, hp⟩ := h.held
  · exact .inl fun p hp => hn p (hq ▸ List.mem_append_left _ hp)
  · rcases List.mem_append.mp (hq ▸ hr) with hr | hr
    · -- The snapshot is below the one that is reverted to.
      have hi : r.journalIndex ≤ q.journalIndex := hrev.left.within r hr
      rw [← List.take_append_drop (q.journalIndex - r.journalIndex) (s.journal.drop r.journalIndex),
        List.drop_drop, Nat.add_sub_cancel' hi, ← List.drop_take] at hp
      have hp := hP.undoAll hw (List.drop_subset ..) ht hp
      exact .inr ⟨hr, hP.content (s := t) ⟨rfl, rfl, rfl, rfl, rfl, rfl, rfl⟩ hp⟩
    · -- It is reverted to, or one below it is.
      exact .inl fun p hp => ((List.pairwise_append.mp hrev.ids).right.right p hp r hr).ne

theorem Held.step {op : Op} (hw : s.Wf) (h : Held P r s)
    (hc : ∀ a o, op = .account a o → C s a o) (hs : s.step H op = some s') : Held P r s' := by
  cases op <;> simp only [StateDB.step] at hs
  case account a op =>
    cases hs
    obtain ⟨new, hg, hp⟩ := hP.call hw (hc a op rfl)
    exact h.grows hw hg (hp r)
  case addRefund gas =>
    cases hs
    exact h.grows hw (grows_addRefund s gas) fun _ => hP.refund
  case addLog log =>
    cases hs
    exact h.grows hw (grows_addLog s log) fun _ => hP.addLog
  case startRecord =>
    cases hs
    exact ⟨h.below, h.held.imp_right (And.imp_right
      (hP.content (s := s) ⟨rfl, rfl, rfl, rfl, rfl, rfl, rfl⟩))⟩
  case snapshot         => cases hs; exact h.snapshot hP
  case revertToSnapshot => exact h.revertToSnapshot hP hw hs
  case intermediateRoot d =>
    obtain ⟨⟨root, t⟩, ht, hs⟩ := Option.map_eq_some_iff.mp hs
    obtain ⟨⟨-, hn⟩, hr⟩ := hw.intermediateRoot ht
    exact hs ▸ h.dropped hn hr
  case deleteSuicides =>
    obtain ⟨⟨-, hn⟩, hr⟩ := hw.deleteSuicides hs
    exact h.dropped hn hr
  case commit d =>
    obtain ⟨⟨root, t⟩, ht, hs⟩ := Option.map_eq_some_iff.mp hs
    obtain ⟨⟨-, hn⟩, hr⟩ := hw.commit ht
    exact hs ▸ h.dropped hn hr
  case reset root =>
    cases hs
    unfold StateDB.reset
    cases openTrie s.db.accounts AccountTrie.empty root
    case none   => exact h
    case some t => exact h.dropped rfl rfl

theorem Held.run {ops : List Op} (hw : s.Wf) (h : Held P r s)
    (hc : CallsMeet H C s ops) (hs : s.run H ops = some s') : s'.Wf ∧ Held P r s' := by
  induction ops generalizing s
  case nil => cases hs; exact ⟨hw, h⟩
  case cons op ops hi =>
    obtain ⟨t, ht, hs⟩ := Loop.foldlM_cons_eq_some hs
    exact hi (hw.step ht) (h.step hP hw hc.left ht) (hc.right t ht) hs

theorem Tracked.snapshot {s₁ s₂ : StateDB} {revid : Nat} {ops : List Op}
    (hw : s.Wf) (h₁ : s.snapshot = (revid, s₁)) (hp : P s []) (hc : CallsMeet H C s₁ ops)
    (h₂ : s₁.run H ops = some s₂) (hv : ∃ r ∈ s₂.validRevisions, r.id = revid) :
    s₂.Wf ∧ P s₂ (s₂.journal.drop s.journal.length) ∧ ∃ rs, s₂.revertToSnapshot revid =
      (StateDB.undoAll (s₂.journal.drop s.journal.length) s₂).map fun s₃ =>
        { s₃ with journal := s₂.journal.take s.journal.length, validRevisions := rs } := by
  obtain ⟨rfl, rfl⟩ := Prod.mk.inj h₁
  have hh : Held P ⟨s.nextRevisionId, s.journal.length⟩ s.snapshot.snd := by
    refine ⟨Nat.lt_succ_self _, .inr ⟨List.mem_append_right _ (List.mem_singleton_self _), ?_⟩⟩
    simp only [StateDB.snapshot, List.drop_length]
    exact hP.content (s := s) ⟨rfl, rfl, rfl, rfl, rfl, rfl, rfl⟩ hp
  have hw₁ : s.snapshot.snd.Wf := hw.step (show s.step H .snapshot = _ from rfl)
  obtain ⟨hw₂, hh⟩ := hh.run hP hw₁ hc h₂
  obtain hn | ⟨hr, hp⟩ := hh.held
  · obtain ⟨q, hq, hid⟩ := hv
    exact absurd hid (hn q hq)
  · obtain ⟨rs, rs', hrs⟩ := List.append_of_mem hr
    exact ⟨hw₂, hp, rs, revertToSnapshot_of_mem hw₂.revisions hrs⟩

end StateDB

end State
