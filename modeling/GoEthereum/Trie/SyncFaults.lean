import GoEthereum.Trie.SyncRun

-- The scheduler on a database whose batch writes may fail.

namespace Trie

open Common

-- What `Process` could report: one of its own errors, or a write that failed.
inductive CallError (ε δ : Type)
  | process (e : ProcessError ε)
  | write   (e : δ)

structure Faulty where
  sync   : TrieSync
  writes : Nat

inductive Call
  | missing (max : Nat)
  | process (results : List SyncResult)

namespace Faulty

variable {ε δ : Type} (callback : Bytes → Go ε (List Entry))

-- What `Process` does with one result before it commits anything: it returns the request to commit,
-- if there is one.
def prepare (item : SyncResult) : Act TrieSync (ProcessError ε) (Option Request) := fun s =>
  match s.requests.lookup item.hash with
  | none         => (Go.fail .notRequested, s)
  | some request =>
    let request := { request with data := item.data }
    -- If the item is a raw entry request, commit directly
    if request.raw then
      (.ok (some request), s.setRequest request)
    else
      match decodeNode (some item.hash) item.data 0 with
      | .error (.error e) => (Go.fail (.decode e), s)
      | .error .panic     => (Go.panics, s)
      | .ok node          =>
        match TrieSync.children callback request node (s.setRequest request) with
        | (.error (.error e), s) => (Go.fail (.callback e), s)
        | (.error .panic, s)     => (Go.panics, s)
        | (.ok requests, s)      =>
          match s.requests.lookup item.hash with
          | none         => (Go.panics, s)
          | some request =>
            if requests = [] ∧ request.deps = 0 then
              (.ok (some request), s)
            else
              let request := { request with deps := request.deps + requests.length }
              (.ok none, requests.foldl TrieSync.schedule (s.setRequest request))

variable (w : Nat → Option δ)

-- `commit` and the write of its batch, of which `w` tells the outcomes. The requests are deleted
-- before it is written.
def commit (req : Request) (s : Faulty) : Option δ × Faulty :=
  let (requests, batch) := TrieSync.commitLoop s.sync.requests.entries.length req s.sync.requests
  let database := if (w s.writes).isSome then s.sync.database else s.sync.database.putAll batch
  (w s.writes,
    { sync   := { s.sync with database := database, requests := requests }
      writes := s.writes + 1 })

def processItem (item : SyncResult) (s : Faulty) : Except (Fault (CallError ε δ)) Bool × Faulty :=
  match prepare callback item s.sync with
  | (.error (.error e), t)  => (.error (.error (.process e)), { s with sync := t })
  | (.error .panic, t)      => (.error .panic, { s with sync := t })
  | (.ok none, t)           => (.ok false, { s with sync := t })
  | (.ok (some request), t) =>
    -- The error is not looked at.
    let (_, s) := commit w request { s with sync := t }
    (.ok true, s)

-- `Process` from the `i`-th result on: whether something was committed, and the index and the error
-- if one of the results fails.
def process : Nat → Bool → List SyncResult → Faulty →
    (Bool × Option (Nat × Fault (CallError ε δ))) × Faulty
  | _, committed, [],           s => ((committed, none), s)
  | i, committed, item :: rest, s =>
    match processItem callback w item s with
    | (.error e, s) => ((committed, some (i, e)), s)
    | (.ok new, s)  => process (i + 1) (committed || new) rest s

def call : Call → Faulty → Option (Nat × Fault (CallError ε δ)) × Faulty
  | .missing max,     s => (none, { s with sync := (s.sync.missing max).snd })
  | .process results, s => ((process callback w 0 false results s).fst.snd, (process callback w 0 false results s).snd)

def run (calls : List Call) (s : Faulty) : Faulty :=
  calls.foldl (fun s c => (call callback w c s).snd) s

end Faulty

section

variable (D : Hash → Bytes → Prop)

def Landed (db : Database) (h : Hash) : Prop :=
  ∃ data, db h.bytes = some data ∧ D h data

def Waiting (requests : GoMap Hash Request) : Prop :=
  ∀ h req, requests.lookup h = some req → 0 < req.deps → req.raw = false ∧ D h req.data

variable {D} in
theorem Waiting.insert {requests : GoMap Hash Request} {p : Hash} {req : Request}
    (hw : Waiting D requests) (hr : 0 < req.deps → req.raw = false ∧ D p req.data) :
    Waiting D (requests.insert p req) := by
  intro h r hl hpos
  obtain ⟨rfl, rfl⟩ | ⟨-, hl⟩ := GoMap.of_lookup_insert hl
  · exact hr hpos
  · exact hw h r hl hpos

-- A request that is replaced stays pending.
theorem parents_insert {requests : GoMap Hash Request} {p h : Hash} {req req' r : Request}
    (hp : requests.lookup p = some req) (hs : req.parents ⊆ req'.parents)
    (hl : requests.lookup h = some r) :
    ∃ r', (requests.insert p req').lookup h = some r' ∧ r.parents ⊆ r'.parents := by
  rw [GoMap.lookup_insert_eq_ite]
  split
  case isTrue he =>
    rw [he, hp] at hl
    cases hl
    exact ⟨_, rfl, hs⟩
  case isFalse => exact ⟨r, hl, List.Subset.refl _⟩

structure TrieSync.Sound (s : TrieSync) : Prop where
  linked  : Linked s.requests []
  waiting : Waiting D s.requests

-- What is pending stays pending for all that waits for it, or is written.
structure TrieSync.Kept (s s' : TrieSync) : Prop where
  requests : ∀ {h req}, s.requests.lookup h = some req →
    (∃ req', s'.requests.lookup h = some req' ∧ req.parents ⊆ req'.parents) ∨ Landed D s'.database h
  written  : ∀ {h}, Landed D s.database h → Landed D s'.database h

-- The state while the children of the request for `p` are gathered.
structure TrieSync.Busy (p : Hash) (s : TrieSync) : Prop extends s.Sound D where
  self : ∃ req, s.requests.lookup p = some req ∧ req.raw = false ∧ D p req.data

end

namespace TrieSync

variable {ε : Type} {D : Hash → Bytes → Prop} {s s' s'' : TrieSync} {p : Hash} {debts : List Hash}

theorem Kept.refl (s : TrieSync) : s.Kept D s :=
  ⟨fun hl => .inl ⟨_, hl, List.Subset.refl _⟩, id⟩

theorem Kept.trans (h : s.Kept D s') (h' : s'.Kept D s'') : s.Kept D s'' where
  written hw := h'.written (h.written hw)
  requests hl := by
    obtain ⟨req', hl, hp⟩ | hw := h.requests hl
    case inl =>
      obtain ⟨req'', hl, hp'⟩ | hw := h'.requests hl
      case inl => exact .inl ⟨req'', hl, fun _ hm => hp' (hp hm)⟩
      case inr => exact .inr hw
    case inr => exact .inr (h'.written hw)

theorem Extends.kept (h : s.Extends s') : s.Kept D s' where
  written hw := by rwa [h.database]
  requests hl :=
    .inl ((h.requests hl).imp fun _ h => ⟨h.left, h.right.parents⟩)

theorem Extends.busy (h : s.Extends s') (hb : s.Busy D p) (hs : s'.Sound D) : s'.Busy D p where
  toSound := hs
  self := by
    obtain ⟨req, hl, hr, hd⟩ := hb.self
    obtain ⟨req', hl, hx⟩ := h.requests hl
    exact ⟨req', hl, hx.raw.trans hr, hx.data ▸ hd⟩

section

variable {req : Request}

theorem schedule_waiting (hw : Waiting D s.requests) (hd : req.deps = 0) :
    Waiting D (s.schedule req).requests := by
  cases hp : s.requests.lookup req.hash
  case none =>
    simp only [schedule, hp]
    exact hw.insert fun hpos => by omega
  case some old =>
    simp only [schedule, hp]
    exact hw.insert (hw _ old hp)

def Safe {α : Type} (D : Hash → Bytes → Prop) (p : Hash) (x : Act TrieSync ε α) : Prop :=
  ∀ s : TrieSync, s.Busy D p → (x s).snd.Busy D p ∧ s.Extends (x s).snd

theorem Safe.of_eq {α : Type} {x : Act TrieSync ε α} (h : ∀ s, (x s).snd = s) : Safe D p x :=
  fun s hb => (h s).symm ▸ ⟨hb, .refl s⟩

theorem Safe.bind {α β : Type} {x : Act TrieSync ε α} {f : α → Act TrieSync ε β} (hx : Safe D p x)
    (hf : ∀ a, Safe D p (f a)) : Safe D p (x >>= f) := by
  intro s hb
  obtain ⟨hb', he⟩ := hx s hb
  rcases h : x s with ⟨e | a, t⟩
  case error =>
    rw [Act.bind_error h]
    rw [h] at hb' he
    exact ⟨hb', he⟩
  case ok =>
    rw [Act.bind_ok h]
    rw [h] at hb' he
    obtain ⟨hb'', he'⟩ := hf a t hb'
    exact ⟨hb'', he.trans he'⟩

theorem safe_addRequest (hd : req.deps = 0) : Safe D p (addRequest req p : Act TrieSync ε Unit) := by
  intro s hb
  obtain ⟨anc, hl, hraw, hdata⟩ := hb.self
  obtain ⟨parents, t, hlink, hi, hw, hx⟩ : ∃ parents t,
      (link p : Act TrieSync ε _) s = (.ok parents, t) ∧ Linked t.requests (parents ++ []) ∧
        Waiting D t.requests ∧ s.Extends t := by
    rw [link]
    split
    case isTrue  => exact ⟨[], s, rfl, hb.linked, hb.waiting, .refl s⟩
    case isFalse =>
      rw [hl]
      exact ⟨[p], _, rfl, hb.linked.raise hl 1, hb.waiting.insert fun _ => ⟨hraw, hdata⟩,
        extends_insert hl ⟨rfl, rfl, rfl, rfl, List.Subset.refl _⟩⟩
  have he : (addRequest req p : Act TrieSync ε Unit) s =
      (.ok (), t.schedule { req with parents := parents }) := by
    rw [addRequest, Act.bind_ok hlink]
    rfl
  have hx := hx.trans (t.schedule_extends { req with parents := parents })
  rw [he]
  exact ⟨hx.busy hb ⟨schedule_linked hi hd, schedule_waiting hw hd⟩, hx⟩

theorem snd_resolves (h : Hash) (s : TrieSync) :
    ((resolves h : Act TrieSync ε Bool) s).snd = s := by
  unfold resolves
  split <;> rfl

theorem safe_composes : Composes p fun {α} (x : Act TrieSync ε α) => Safe D p x where
  pure _     := .of_eq fun _ => rfl
  bind       := .bind
  get        := .of_eq fun _ => rfl
  resolves h := .of_eq (snd_resolves h)
  addRequest := safe_addRequest

variable {callback : Bytes → Go ε (List Entry)}

theorem safe_children (object : Node Key) : Safe D req.hash (children callback req object) := by
  unfold children
  split
  case h_1 => exact .of_eq fun _ => rfl
  case h_2 => exact safe_composes.requestChildren (fun _ _ _ => .of_eq fun _ => rfl) _

variable {new : List Request}

theorem requestChildren_new {cs : List (Node Key × Nat)} (hraw : req.raw = false)
    (h : requestChildren callback req cs s = (.ok new, s')) :
    ∀ r ∈ new, r.parents = [req.hash] ∧ r.deps = 0 := by
  induction cs generalizing s new
  case nil =>
    cases h
    simp
  case cons c cs ih =>
    obtain ⟨_, t, _, h⟩ := Act.bind_eq_ok.mp h
    obtain ⟨new₁, t', h₁, h⟩ := Act.bind_eq_ok.mp h
    obtain ⟨new₂, t'', h₂, h⟩ := Act.bind_eq_ok.mp h
    cases h
    intro r hm
    obtain hm | hm := List.mem_append.mp hm
    case inl =>
      obtain ⟨hr, -⟩ := (resolve_spec hraw h₁).right.left r hm
      exact ⟨hr.parents, hr.deps⟩
    case inr => exact ih h₂ r hm

theorem children_new {object : Node Key} (hraw : req.raw = false)
    (h : children callback req object s = (.ok new, s')) :
    ∀ r ∈ new, r.parents = [req.hash] ∧ r.deps = 0 := by
  rcases hc : childNodes req.depth object with _ | cs
  case none =>
    simp only [children, hc] at h
    cases h
  case some =>
    simp only [children, hc] at h
    exact requestChildren_new hraw h

theorem scheduleAll_sound (hl : Linked s.requests (List.replicate new.length p))
    (hw : Waiting D s.requests) (hn : ∀ r ∈ new, r.parents = [p] ∧ r.deps = 0) :
    (new.foldl schedule s).Sound D ∧ s.Extends (new.foldl schedule s) := by
  induction new generalizing s
  case nil => exact ⟨⟨hl, hw⟩, .refl s⟩
  case cons r new ih =>
    rw [List.forall_mem_cons] at hn
    obtain ⟨⟨hp, hd⟩, hn⟩ := hn
    rw [List.length_cons, List.replicate_succ, ← List.singleton_append, ← hp] at hl
    obtain ⟨hs, hx⟩ := ih (schedule_linked hl hd) (schedule_waiting hw hd) hn
    exact ⟨hs, (s.schedule_extends r).trans hx⟩

theorem Busy.scheduleAll (hb : s.Busy D p)
    (hl : s.requests.lookup p = some req) (hn : ∀ r ∈ new, r.parents = [p] ∧ r.deps = 0)
    (ht : s.setRequest { req with deps := req.deps + new.length } = s') :
    (new.foldl schedule s').Sound D ∧ s.Extends (new.foldl schedule s') := by
  have hh := hb.linked.hash hl
  subst hh
  obtain ⟨old, hl', hraw, hdata⟩ := hb.self
  rw [hl] at hl'
  cases hl'
  have hi := hb.linked.raise hl new.length
  rw [List.append_nil] at hi
  have hw : Waiting D s'.requests := ht ▸ hb.waiting.insert fun _ => ⟨hraw, hdata⟩
  have hset : s.Extends s' := ht ▸ extends_insert hl ⟨rfl, rfl, rfl, rfl, List.Subset.refl _⟩
  obtain ⟨hs, hx⟩ := scheduleAll_sound (ht ▸ hi) hw hn
  exact ⟨hs, hset.trans hx⟩

end

theorem Sound.setData {req : Request} {data : Bytes} (hs : s.Sound D)
    (hp : s.requests.lookup p = some req) (hd : D p data) :
    (s.setRequest { req with data := data }).Sound D ∧
      s.Kept D (s.setRequest { req with data := data }) := by
  have hh := hs.linked.hash hp
  subst hh
  refine ⟨⟨hs.linked.setData hp data, ?_⟩,
    fun hl => .inl (parents_insert hp (List.Subset.refl _) hl), id⟩
  exact hs.waiting.insert fun hpos => ⟨(hs.waiting _ req hp hpos).left, hd⟩

end TrieSync

section

variable {D : Hash → Bytes → Prop} {requests : GoMap Hash Request} {debts : List Hash} {p : Hash}
variable {req : Request}

-- What committing a request does: it deletes only what is in its batch, and all of that has been
-- delivered.
structure CommitKept (D : Hash → Bytes → Prop) (requests requests' : GoMap Hash Request)
    (batch : List Request) : Prop where
  waiting : Waiting D requests'
  length  : requests'.entries.length ≤ requests.entries.length
  kept    : ∀ {h r}, requests.lookup h = some r →
    (∃ r', requests'.lookup h = some r' ∧ r.parents ⊆ r'.parents) ∨ ∃ q ∈ batch, q.hash = h
  data    : ∀ q ∈ batch, D q.hash q.data

theorem CommitKept.append {requests' requests'' : GoMap Hash Request} {batch batch' : List Request}
    (h : CommitKept D requests requests' batch) (h' : CommitKept D requests' requests'' batch') :
    CommitKept D requests requests'' (batch ++ batch') where
  waiting := h'.waiting
  length  := h'.length.trans h.length
  kept hl := by
    obtain ⟨r', hl, hp⟩ | ⟨q, hm, hq⟩ := h.kept hl
    case inl =>
      obtain ⟨r'', hl, hp'⟩ | ⟨q, hm, hq⟩ := h'.kept hl
      case inl => exact .inl ⟨r'', hl, fun _ hm => hp' (hp hm)⟩
      case inr => exact .inr ⟨q, List.mem_append_right _ hm, hq⟩
    case inr => exact .inr ⟨q, List.mem_append_left _ hm, hq⟩
  data q hm := by
    obtain hm | hm := List.mem_append.mp hm
    case inl => exact h.data q hm
    case inr => exact h'.data q hm

def CommitsLinked (D : Hash → Bytes → Prop) (n : Nat)
    (commit : Request → GoMap Hash Request → GoMap Hash Request × List Request) : Prop :=
  ∀ {requests : GoMap Hash Request} {debts : List Hash} {req : Request},
    requests.entries.length ≤ n → Linked requests debts → Waiting D requests →
    requests.lookup req.hash = some req → req.deps = 0 → D req.hash req.data →
    Linked (commit req requests).fst debts ∧
      CommitKept D requests (commit req requests).fst (commit req requests).snd

variable {commit : Request → GoMap Hash Request → GoMap Hash Request × List Request}

theorem Linked.commitParent {n : Nat} (batch : List Request)
    (hc : CommitsLinked D n commit) (hn : requests.entries.length ≤ n)
    (hi : Linked requests (p :: debts)) (hw : Waiting D requests) :
    ∃ new, (TrieSync.commitParent commit (requests, batch) p).snd = batch ++ new ∧
      Linked (TrieSync.commitParent commit (requests, batch) p).fst debts ∧
      CommitKept D requests (TrieSync.commitParent commit (requests, batch) p).fst new := by
  obtain ⟨req, hp⟩ := Option.isSome_iff_exists.mp
    (AList.lookup_isSome.mpr (hi.owed List.mem_cons_self))
  have hdeps := hi.deps hp
  rw [List.count_cons_self] at hdeps
  obtain ⟨hraw, hdata⟩ := hw p req hp (by omega)
  obtain ⟨req', hreq⟩ : ∃ r, r = { req with deps := req.deps - 1 } := ⟨_, rfl⟩
  have hi' : Linked (requests.insert p req') debts := by
    subst hreq
    exact hi.lower hp
  have hone : CommitKept D requests (requests.insert p req') [] := by
    subst hreq
    exact ⟨hw.insert fun _ => ⟨hraw, hdata⟩, (GoMap.length_insert hp).le,
      fun hl => .inl (parents_insert hp (List.Subset.refl _) hl), by simp⟩
  have he : TrieSync.commitParent commit (requests, batch) p =
      if req'.deps = 0 then
        ((commit req' (requests.insert p req')).fst, batch ++ (commit req' (requests.insert p req')).snd)
      else
        (requests.insert p req', batch) := by
    simp only [TrieSync.commitParent, hp, hreq]
  rw [he]
  split
  case isFalse hz => exact ⟨[], (List.append_nil _).symm, hi', hone⟩
  case isTrue hz =>
    have hh : req'.hash = p := by rw [hreq, hi.hash hp]
    have hl : (requests.insert p req').lookup req'.hash = some req' := by
      rw [hh]
      exact AList.lookup_insert _
    have hd : D req'.hash req'.data := by
      rw [hh, hreq]
      exact hdata
    obtain ⟨h₁, h₂⟩ := hc (hone.length.trans hn) hi' hone.waiting hl hz hd
    exact ⟨_, rfl, h₁, hone.append h₂⟩

theorem Linked.commitParents {n : Nat} {batch : List Request} {parents : List Hash}
    (hc : CommitsLinked D n commit) (hn : requests.entries.length ≤ n)
    (hi : Linked requests (parents ++ debts)) (hw : Waiting D requests)
    {r : GoMap Hash Request × List Request}
    (hr : parents.foldl (TrieSync.commitParent commit) (requests, batch) = r) :
    ∃ new, r.snd = batch ++ new ∧ Linked r.fst debts ∧ CommitKept D requests r.fst new := by
  induction parents generalizing requests batch
  case nil =>
    cases hr
    exact ⟨[], (List.append_nil _).symm, hi, hw, le_rfl, fun hl => .inl ⟨_, hl, List.Subset.refl _⟩,
      by simp⟩
  case cons p parents ih =>
    obtain ⟨new, hb, hi, hc'⟩ := Linked.commitParent batch hc hn hi hw
    obtain ⟨new', hb', hi, hc''⟩ := ih (hc'.length.trans hn) hi hc'.waiting hr
    refine ⟨new ++ new', hb'.trans ?_, hi, hc'.append hc''⟩
    exact (congrArg (· ++ new') hb).trans (List.append_assoc ..)

theorem commitLoop_commitsLinked (fuel : Nat) :
    CommitsLinked D fuel (TrieSync.commitLoop fuel) := by
  induction fuel
  case zero =>
    intro requests debts req hn hi hw hp hd hdata
    have h := GoMap.length_erase hp
    omega
  case succ fuel ih =>
    intro requests debts req hn hi hw hp hd hdata
    have hlen := GoMap.length_erase hp
    have hone : CommitKept D requests (requests.erase req.hash) [req] := by
      refine ⟨fun h r hl => hw h r (GoMap.of_lookup_erase hl).right, by omega, fun {h r} hl => ?_, ?_⟩
      case refine_1 =>
        by_cases he : h = req.hash
        case pos => exact .inr ⟨req, List.mem_singleton_self _, he.symm⟩
        case neg => exact .inl ⟨r, by rwa [AList.lookup_erase_ne he], List.Subset.refl _⟩
      case refine_2 => simpa using hdata
    obtain ⟨new, hb, hi', hc⟩ := Linked.commitParents ih (by omega) (hi.erase hp hd) hone.waiting
      (show _ = TrieSync.commitLoop (fuel + 1) req requests from rfl)
    rw [hb]
    exact ⟨hi', hone.append hc⟩

theorem Landed.putAll {db : Database} {batch : List Request} (hd : ∀ q ∈ batch, D q.hash q.data)
    {h : Hash} (hw : Landed D db h ∨ ∃ q ∈ batch, q.hash = h) : Landed D (db.putAll batch) h := by
  induction batch generalizing db
  case nil =>
    obtain hw | ⟨q, hm, hq⟩ := hw
    case inl => exact hw
    case inr => cases hm
  case cons q batch ih =>
    have hput : db.putAll (q :: batch) = (db.put q.hash.bytes q.data).putAll batch := rfl
    rw [List.forall_mem_cons] at hd
    rw [hput]
    apply ih hd.right
    obtain hw | ⟨q', hm, hq⟩ := hw
    case inl =>
      obtain ⟨data, hb, hw⟩ := hw
      by_cases he : h = q.hash
      case pos => exact .inl ⟨q.data, by rw [Database.put_apply, if_pos he], he ▸ hd.left⟩
      case neg => exact .inl ⟨data, by rwa [Database.put_apply, if_neg he], hw⟩
    case inr =>
      obtain rfl | hm := List.mem_cons.mp hm
      case inl => exact .inl ⟨q'.data, by rw [Database.put_apply, if_pos hq.symm], hq ▸ hd.left⟩
      case inr => exact .inr ⟨q', hm, hq⟩

end

namespace Faulty

variable {ε δ : Type} {callback : Bytes → Go ε (List Entry)} {w : Nat → Option δ}
variable {D : Hash → Bytes → Prop}

theorem prepare_spec {item : SyncResult} {s s' : TrieSync}
    {r : Go (ProcessError ε) (Option Request)} (hs : s.Sound D) (hd : D item.hash item.data)
    (h : prepare callback item s = (r, s')) : s'.Sound D ∧ s.Kept D s' ∧ ∀ req, r = .ok (some req) →
      s'.requests.lookup req.hash = some req ∧ req.deps = 0 ∧ D req.hash req.data := by
  unfold prepare at h
  split at h
  case h_1 =>
    cases h
    exact ⟨hs, .refl s, fun _ h => by cases h⟩
  case h_2 old hp =>
    obtain ⟨hs', hk⟩ := hs.setData hp hd
    have hh : old.hash = item.hash := hs.linked.hash hp
    simp only at h
    generalize hreq : ({ old with data := item.data } : Request) = request at h hs' hk
    have hhash : request.hash = item.hash := by rw [← hreq, hh]
    have hself : (s.setRequest request).requests.lookup item.hash = some request := by
      rw [TrieSync.setRequest, hhash]
      exact AList.lookup_insert _
    split at h
    case isTrue hr =>
      cases h
      refine ⟨hs', hk, fun req he => ?_⟩
      cases he
      refine ⟨hhash ▸ hself, ?_, ?_⟩
      case refine_1 =>
        by_contra hne
        have hdeps := hs'.linked.deps hself
        have hraw := (hs'.waiting _ _ hself (by omega)).left
        rw [← hreq] at hraw
        exact Bool.false_ne_true (hraw.symm.trans hr)
      case refine_2 => rw [hhash, ← hreq]; exact hd
    case isFalse hr =>
      split at h
      case h_1 =>
        cases h
        exact ⟨hs, .refl s, fun _ h => by cases h⟩
      case h_2 =>
        cases h
        exact ⟨hs, .refl s, fun _ h => by cases h⟩
      case h_3 node _ =>
        have hraw : request.raw = false := by
          rw [← hreq]
          simpa using hr
        have hb : (s.setRequest request).Busy D request.hash := by
          refine ⟨hs', request, hhash ▸ hself, hraw, ?_⟩
          rw [hhash, ← hreq]
          exact hd
        obtain ⟨hb', hx⟩ := (TrieSync.safe_children node : TrieSync.Safe D _ (TrieSync.children callback _ _)) _ hb
        have hk' := hk.trans hx.kept
        split at h
        case h_1 t hc =>
          rw [hc] at hb' hk'
          cases h
          exact ⟨hb'.toSound, hk', fun _ h => by cases h⟩
        case h_2 t hc =>
          rw [hc] at hb' hk'
          cases h
          exact ⟨hb'.toSound, hk', fun _ h => by cases h⟩
        case h_3 requests t hc =>
          rw [hc] at hb' hk'
          obtain ⟨request', hl, -, hdata⟩ := hb'.self
          rw [hhash] at hl
          simp only [hl] at h
          split at h
          case isTrue hz =>
            cases h
            refine ⟨hb'.toSound, hk', fun req he => ?_⟩
            cases he
            have hh' := hb'.linked.hash hl
            exact ⟨hh'.symm ▸ hl, hz.right, by rw [hh', ← hhash]; exact hdata⟩
          case isFalse hz =>
            cases h
            rw [← hhash] at hl
            obtain ⟨hs, hx⟩ := hb'.scheduleAll hl (TrieSync.children_new hraw hc) rfl
            exact ⟨hs, hk'.trans hx.kept, fun _ h => by cases h⟩

section

variable {s : Faulty}

theorem commit_sound {req : Request} (hs : s.sync.Sound D)
    (hp : s.sync.requests.lookup req.hash = some req) (hd : req.deps = 0)
    (hdata : D req.hash req.data) (hw : w s.writes = none) :
    (commit w req s).snd.sync.Sound D ∧ s.sync.Kept D (commit w req s).snd.sync := by
  obtain ⟨hl, hc⟩ := commitLoop_commitsLinked _ le_rfl hs.linked hs.waiting hp hd hdata
  have hdb : (commit w req s).snd.sync.database = s.sync.database.putAll
      (TrieSync.commitLoop s.sync.requests.entries.length req s.sync.requests).snd := by
    simp [commit, hw]
  refine ⟨⟨hl, hc.waiting⟩, fun hl => ?_, fun hw => ?_⟩
  case refine_1 =>
    rw [hdb]
    exact (hc.kept hl).imp_right fun h => .putAll hc.data (.inr h)
  case refine_2 =>
    rw [hdb]
    exact .putAll hc.data (.inl hw)

def NoFault (w : Nat → Option δ) (n m : Nat) : Prop :=
  ∀ i, n ≤ i → i < m → w i = none

-- The writes from one state to the other. If none of them fails, nothing that is pending is lost.
structure Steps (D : Hash → Bytes → Prop) (w : Nat → Option δ) (s s' : Faulty) : Prop where
  writes : s.writes ≤ s'.writes
  kept   : NoFault w s.writes s'.writes → s.sync.Sound D →
    s'.sync.Sound D ∧ s.sync.Kept D s'.sync

theorem Steps.refl (s : Faulty) : Steps D w s s :=
  ⟨le_rfl, fun _ hs => ⟨hs, .refl _⟩⟩

theorem Steps.trans {s' s'' : Faulty} (h : Steps D w s s') (h' : Steps D w s' s'') :
    Steps D w s s'' where
  writes := h.writes.trans h'.writes
  kept hw hs := by
    obtain ⟨hs, hk⟩ := h.kept (fun j hn hj => hw j hn (lt_of_lt_of_le hj h'.writes)) hs
    obtain ⟨hs, hk'⟩ := h'.kept (fun j hn hj => hw j (h.writes.trans hn) hj) hs
    exact ⟨hs, hk.trans hk'⟩

theorem processItem_steps {item : SyncResult} (hd : D item.hash item.data) :
    Steps D w s (processItem callback w item s).snd := by
  unfold processItem
  split
  case h_4 req t h =>
    refine ⟨Nat.le_succ _, fun hw hs => ?_⟩
    obtain ⟨hs, hk, hr⟩ := prepare_spec hs hd h
    obtain ⟨hp, hz, hdata⟩ := hr req rfl
    obtain ⟨hs, hk'⟩ := commit_sound (s := { s with sync := t }) hs hp hz hdata
      (hw _ le_rfl (Nat.lt_succ_self _))
    exact ⟨hs, hk.trans hk'⟩
  all_goals
    rename_i h
    refine ⟨le_rfl, fun _ hs => ?_⟩
    obtain ⟨hs, hk, _⟩ := prepare_spec hs hd h
    exact ⟨hs, hk⟩

theorem process_steps {i : Nat} {committed : Bool} {items : List SyncResult}
    (hd : ∀ item ∈ items, D item.hash item.data) :
    Steps D w s (process callback w i committed items s).snd := by
  induction items generalizing s i committed
  case nil => exact .refl s
  case cons item items ih =>
    rw [List.forall_mem_cons] at hd
    have h : Steps D w s (processItem callback w item s).snd := processItem_steps hd.left
    rw [process]
    rcases hp : processItem callback w item s with ⟨_ | new, t⟩ <;> rw [hp] at h
    case error => exact h
    case ok    => exact h.trans (ih hd.right)

def results : Call → List SyncResult
  | .missing _       => []
  | .process results => results

theorem call_steps {c : Call} (hd : ∀ item ∈ results c, D item.hash item.data) :
    Steps D w s (call callback w c s).snd := by
  cases c
  case missing =>
    refine ⟨le_rfl, fun _ hs => ⟨⟨hs.linked, hs.waiting⟩, fun hl => ?_, id⟩⟩
    exact .inl ⟨_, hl, List.Subset.refl _⟩
  case process => exact process_steps hd

theorem run_steps {calls : List Call} (hd : ∀ c ∈ calls, ∀ item ∈ results c, D item.hash item.data) :
    Steps D w s (run callback w calls s) := by
  induction calls generalizing s
  case nil => exact .refl s
  case cons c calls ih =>
    rw [List.forall_mem_cons] at hd
    exact (call_steps hd.left).trans (ih hd.right)

def Reported (callback : Bytes → Go ε (List Entry)) (w : Nat → Option δ) (c : Call) (s : Faulty) :
    Prop :=
  ∀ n e, s.writes ≤ n → n < (call callback w c s).snd.writes → w n = some e →
    ∃ i, (call callback w c s).fst = some (i, .error (.write e))

-- A hash that is pending in `s` and not in `s'` has its data written, and so has everything that it
-- waits for in `s`.
def Settled (D : Hash → Bytes → Prop) (s s' : TrieSync) : Prop :=
  ∀ h, h ∈ s.requests → h ∉ s'.requests → Landed D s'.database h ∧
    ∀ c req, s.requests.lookup c = some req → h ∈ req.parents → Landed D s'.database c

def Delivered (calls : List Call) (h : Hash) (data : Bytes) : Prop :=
  ∃ c ∈ calls, ⟨h, data⟩ ∈ results c

-- Every call of the run reports its failed writes, and from any state of the run to any later one
-- hashes disappear only with what was delivered for them written.
structure Faithful (callback : Bytes → Go ε (List Entry)) (w : Nat → Option δ) (calls : List Call)
    (s : Faulty) : Prop where
  reported : ∀ before c after, calls = before ++ c :: after →
    Reported callback w c (run callback w before s)
  settled  : ∀ before between after, calls = before ++ between ++ after →
    Settled (Delivered calls) (run callback w before s).sync
      (run callback w (before ++ between) s).sync

variable {calls : List Call}

theorem run_append (before after : List Call) (s : Faulty) : run callback w (before ++ after) s =
    run callback w after (run callback w before s) :=
  List.foldl_append

theorem settled_of_kept {s s' : TrieSync} (hs : s'.Sound D) (hk : s.Kept D s') :
    Settled D s s' := by
  intro h hm hn
  obtain ⟨req, hl⟩ := Option.isSome_iff_exists.mp (AList.lookup_isSome.mpr hm)
  constructor
  case left =>
    obtain ⟨req', hl', _⟩ | hw := hk.requests hl
    case inl => exact absurd (AList.lookup_isSome.mp (by rw [hl']; rfl)) hn
    case inr => exact hw
  case right =>
    intro c r hc hp
    obtain ⟨r', hc', hp'⟩ | hw := hk.requests hc
    case inl => exact absurd (hs.linked.parents hc' (hp' hp)) hn
    case inr => exact hw

theorem new_sound {root : Hash} {db : Database} {t : TrieSync}
    (h : (TrieSync.new root db : Go ε Unit × TrieSync) = (.ok (), t)) : t.Sound D := by
  have hempty : TrieSync.Sound D { database := db, requests := ∅, queue := [] } := by
    refine ⟨⟨?_, ?_, ?_, ?_⟩, fun h req hl => ?_⟩
    all_goals
      intros
      contradiction
  unfold TrieSync.new TrieSync.addSubTrie at h
  split at h
  case isTrue =>
    cases h
    exact hempty
  case isFalse =>
    obtain ⟨known, t', hb, h⟩ := Act.bind_eq_ok.mp h
    have ht := TrieSync.snd_resolves (ε := ε) root { database := db, requests := ∅, queue := [] }
    rw [hb] at ht
    subst ht
    cases known
    case true =>
      cases h
      exact hempty
    case false =>
      cases h
      exact ⟨TrieSync.schedule_linked hempty.linked rfl, TrieSync.schedule_waiting hempty.waiting rfl⟩

theorem process_not_write {i j : Nat} {committed : Bool} {items : List SyncResult} {e : δ} :
    (process callback w i committed items s).fst.snd ≠ some (j, .error (.write e)) := by
  induction items generalizing s i committed
  case nil => simp [process]
  case cons item items ih =>
    rw [process]
    rcases hp : processItem callback w item s with ⟨err | _, t⟩
    case ok => exact ih
    case error =>
      intro h
      cases h
      unfold processItem at hp
      split at hp <;> cases hp

theorem exists_call {n : Nat} (hn : s.writes ≤ n) (hm : n < (run callback w calls s).writes) :
    ∃ before c after, calls = before ++ c :: after ∧ (run callback w before s).writes ≤ n ∧
      n < (call callback w c (run callback w before s)).snd.writes := by
  induction calls generalizing s
  case nil => exact absurd hm (by simpa [run] using hn)
  case cons c calls ih =>
    by_cases hc : n < (call callback w c s).snd.writes
    case pos => exact ⟨[], c, calls, rfl, hn, hc⟩
    case neg =>
      obtain ⟨before, c', after, rfl, h₁, h₂⟩ := ih (Nat.le_of_not_lt hc) hm
      exact ⟨c :: before, c', after, rfl, h₁, h₂⟩

theorem run_faithful_iff {root : Hash} {db : Database} {t : TrieSync}
    (h : (TrieSync.new root db : Go ε Unit × TrieSync) = (.ok (), t)) (calls : List Call) :
    Faithful callback w calls { sync := t, writes := 0 } ↔
      ∀ n < (run callback w calls { sync := t, writes := 0 }).writes, w n = none := by
  constructor
  case mp =>
    intro hf n hn
    by_contra hne
    obtain ⟨e, he⟩ := Option.ne_none_iff_exists'.mp hne
    obtain ⟨before, c, after, hc, h₁, h₂⟩ := exists_call (Nat.zero_le n) hn
    obtain ⟨i, hi⟩ := hf.reported before c after hc n e h₁ h₂ he
    cases c
    case missing => cases hi
    case process => exact process_not_write hi
  case mpr =>
    intro hw
    have hsteps {cs : List Call} (hc : ∀ c ∈ cs, c ∈ calls) {s : Faulty} :
        Steps (Delivered calls) w s (run callback w cs s) :=
      run_steps fun c hm item hi => ⟨c, hc c hm, hi⟩
    constructor
    case reported =>
      rintro before c after rfl n e _ hn he
      rw [run_append] at hw
      have hnone := hw n (lt_of_lt_of_le hn (hsteps (by simp +contextual)).writes)
      rw [hnone] at he
      cases he
    case settled =>
      rintro before between after rfl
      rw [run_append, run_append] at hw
      have hbefore := @hsteps before (by simp +contextual)
      have hbetween := @hsteps between (by simp +contextual)
      have hafter := @hsteps after (by simp +contextual)
      obtain ⟨hs, _⟩ := hbefore.kept (fun n _ hn =>
        hw n (lt_of_lt_of_le hn (hbetween.writes.trans hafter.writes))) (new_sound h)
      obtain ⟨hs', hk⟩ := hbetween.kept (fun n _ hn => hw n (lt_of_lt_of_le hn hafter.writes)) hs
      rw [run_append]
      exact settled_of_kept hs' hk

end

-- A trie of one leaf: a short node with the key 1 and a value of one byte.
def sampleLeafBlob : Bytes :=
  [0xc2, 0x31, 0x05]

def sampleLeafHash : Hash :=
  bytesToHash [7]

def sampleCallback (_ : Bytes) : Go Unit (List Entry) :=
  .ok []

def sampleSync : TrieSync :=
  (TrieSync.new sampleLeafHash (fun _ => none) : Go Unit Unit × TrieSync).snd

def sampleCalls : List Call :=
  [.missing 0, .process [⟨sampleLeafHash, sampleLeafBlob⟩]]

theorem sampleSync_new : (TrieSync.new sampleLeafHash (fun _ => none) : Go Unit Unit × TrieSync) =
    (.ok (), sampleSync) :=
  rfl

theorem sampleCalls_faithful : Faithful sampleCallback (fun _ => (none : Option Unit)) sampleCalls
    { sync := sampleSync, writes := 0 } :=
  (run_faithful_iff sampleSync_new sampleCalls).mpr fun _ _ => rfl

-- The write of the leaf fails. `Process` reports nothing, and the leaf is neither pending nor stored.
theorem sampleCalls_lost :
    (call sampleCallback (fun _ => some ()) (.process [⟨sampleLeafHash, sampleLeafBlob⟩])
      { sync := sampleSync, writes := 0 }).fst = none ∧
    ¬ Faithful sampleCallback (fun _ => some ()) sampleCalls { sync := sampleSync, writes := 0 } := by
  refine ⟨by decide +kernel, fun hf => ?_⟩
  obtain ⟨⟨data, hd, _⟩, _⟩ := hf.settled [] sampleCalls [] rfl sampleLeafHash (by decide +kernel)
    (by decide +kernel)
  have hnone : (run sampleCallback (fun _ => some ()) ([] ++ sampleCalls)
      { sync := sampleSync, writes := 0 }).sync.database sampleLeafHash.bytes = none := by
    decide +kernel
  cases hd

end Faulty

end Trie
