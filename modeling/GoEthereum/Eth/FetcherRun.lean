import GoEthereum.Eth.Fetcher

-- What the counters and the maps of the fetcher say about each other in every state of its loop.

namespace Eth

open Common

namespace Fetcher

section

variable {m : GoMap String Int} {p q : String}

theorem counter_insert (n : Int) : counter (m.insert p n) q = if q = p then n else counter m q := by
  rw [counter, GoMap.lookup_insert_eq_ite]
  split <;> rfl

theorem counter_erase : counter (m.erase p) q = if q = p then 0 else counter m q := by
  rw [counter, GoMap.lookup_erase_eq_ite]
  split <;> rfl

theorem counter_decrement :
    counter (decrement m p) q = if q = p then counter m p - 1 else counter m q := by
  rw [decrement]
  split
  case isTrue h  => rw [counter_erase, h]
  case isFalse h => exact counter_insert _

end

-- The blocks that are waiting or being imported, each once, and how many each peer has of them.
structure Tracks (queued : GoMap Hash Inject) (queues : GoMap String Int) (l : List Inject) :
    Prop where
  holds : GoMap.Holds Inject.hash queued l
  count : ∀ p, counter queues p = l.countP (·.origin = p)
  limit : ∀ p, counter queues p ≤ blockLimit

namespace Tracks

variable {queued : GoMap Hash Inject} {queues : GoMap String Int} {l l' : List Inject} {op : Inject}

theorem perm (h : Tracks queued queues l) (hp : l.Perm l') : Tracks queued queues l' where
  holds   := h.holds.perm hp
  count p := by rw [h.count, hp.countP_eq]
  limit   := h.limit

theorem nodup (h : Tracks queued queues l) : (l.map Inject.hash).Nodup := by
  have hk := h.holds.map Sigma.fst
  rw [List.map_map] at hk
  exact hk.nodup_iff.mp queued.nodupKeys

theorem insert (h : Tracks queued queues l) (hn : queued.lookup op.hash = none)
    (hc : ¬counter queues op.origin + 1 > blockLimit) :
    Tracks (queued.insert op.hash op) (queues.insert op.origin (counter queues op.origin + 1))
      (op :: l) where
  holds := by
    have hi := h.holds.insert op
    rwa [List.filter_eq_self.mpr] at hi
    simpa using h.holds.lookup_eq_none_iff.mp hn
  count p := by
    rw [counter_insert]
    by_cases hp : p = op.origin
    · simp [hp, h.count]
    · simp [hp, Ne.symm hp, h.count]
  limit p := by
    rw [counter_insert]
    split
    · omega
    · exact h.limit p

theorem erase (h : Tracks queued queues (op :: l)) :
    Tracks (queued.erase op.hash) (decrement queues op.origin) l where
  holds := by
    have he := h.holds.erase op.hash
    have hn := (List.nodup_cons.mp h.nodup).left
    rwa [List.filter_cons_of_neg (by simp), List.filter_eq_self.mpr] at he
    intro x hx
    have hne : x.hash ≠ op.hash := fun heq => hn (heq ▸ List.mem_map_of_mem hx)
    simpa using hne
  count p := by
    have hc := h.count p
    rw [counter_decrement]
    by_cases hp : p = op.origin
    · simp [← hp, hc]
    · simpa [hp, Ne.symm hp] using hc
  limit p := by
    have hp := h.limit p
    rw [counter_decrement]
    grind

end Tracks

def Tracked (f : Fetcher) : Prop :=
  Tracks f.queued f.queues (f.queue.values ++ f.running)

namespace Tracked

variable {f : Fetcher} {e : Env}

theorem forgetBlock {op : Inject}
    (h : Tracks f.queued f.queues (op :: (f.queue.values ++ f.running))) :
    Tracked (f.forgetBlock op.hash) := by
  have hl := h.holds.lookup_of_mem List.mem_cons_self
  rw [Fetcher.forgetBlock, hl]
  exact h.erase

theorem enqueue (h : Tracked f) (peer : String) (block : Header) :
    Tracked (enqueue e f peer block) := by
  rw [Fetcher.enqueue]
  split
  · exact h
  · split
    · exact h
    case isFalse hlim hn =>
      have hnone : f.queued.lookup block.hash = none := by simpa using hn
      have hi := @Tracks.insert _ _ _ ⟨peer, block⟩ h hnone fun hc => hlim (.inl hc)
      exact hi.perm (Prque.values_push_perm.symm.append_right _)

theorem importQueued (n : Nat) (h : Tracked f) : Tracked (importQueued e n f) := by
  induction n generalizing f
  case zero => exact h
  case succ n hi =>
    rw [Fetcher.importQueued]
    split
    · exact h
    case h_2 op _ q hq =>
      have hp := h.perm ((Prque.values_of_pop hq).append_right _)
      split
      · exact hp.perm (Prque.values_push_perm.symm.append_right _)
      · split
        · exact hi (forgetBlock hp)
        · exact hi (hp.perm List.perm_middle.symm)

theorem report (h : Tracked f) (i : Nat) : Tracked (f.report i) := by
  rw [Fetcher.report]
  split
  · exact h
  case h_2 op ho =>
    have hr := (List.getElem_cons_eraseIdx_perm (List.getElem?_eq_some_iff.mp ho).fst).symm
    rw [(List.getElem?_eq_some_iff.mp ho).snd] at hr
    exact forgetBlock (h.perm ((hr.append_left _).trans List.perm_middle))

theorem splitHeader {s : Split} (h : Tracked s.fetcher) (time : Int) (header : Header) :
    Tracked (splitHeader e time s header).fetcher := by
  rw [Fetcher.splitHeader]
  split
  · split
    · exact h
    · split <;> exact h
  · exact h

theorem enqueueCompleted (h : Tracked f) (block : Header) :
    Tracked (enqueueCompleted e f block) := by
  rw [Fetcher.enqueueCompleted]
  split
  · exact h
  · exact h.enqueue _ _

theorem matchBody {s : Match} (h : Tracked s.fetcher) (body : Body) :
    Tracked (matchBody e s body).fetcher := by
  refine List.foldlRecOn (motive := fun s : Fetcher × _ => Tracked s.fst) _ _ h fun s hs r _ => ?_
  rw [matchRecord]
  split
  · split <;> exact hs
  · exact hs

theorem handle (h : Tracked f) (event : Event) : Tracked (f.handle e event) := by
  cases event
  case top =>
    apply importQueued
    refine List.foldlRecOn _ _ h fun f hf r _ => ?_
    split <;> exact hf
  case notify a =>
    rw [Fetcher.handle, notify]
    split_ifs <;> exact h
  case inject op     => exact h.enqueue _ _
  case done i        => exact h.report i
  case fetchTimer    =>
    refine List.foldlRecOn _ _ h fun f hf r _ => ?_
    rw [fetch]
    split
    · split <;> exact hf
    · exact hf
  case completeTimer =>
    refine List.foldlRecOn _ _ h fun f hf r _ => ?_
    rw [complete]
    split <;> exact hf
  case headers l time =>
    refine List.foldlRecOn _ _ (List.foldlRecOn _ _ (List.foldlRecOn
      (motive := fun s : Split => Tracked s.fetcher) _ _ h ?_) ?_) ?_
    · intro s hs header _
      exact hs.splitHeader time header
    · intro f hf a _
      rw [schedule]
      split
      · exact hf
      · split <;> exact hf
    · intro f hf block _
      exact hf.enqueueCompleted block
  case bodies l =>
    refine List.foldlRecOn _ _ (List.foldlRecOn
      (motive := fun s : Match => Tracked s.fetcher) _ _ h ?_) ?_
    · intro s hs body _
      exact hs.matchBody body
    · intro f hf block _
      exact hf.enqueueCompleted block

end Tracked

theorem tracked_of_reached {P : Fetcher → Env → Event → Prop} {f : Fetcher} (h : Reached P f) :
    Tracked f := by
  induction h
  case new =>
    exact ⟨GoMap.Holds.empty, fun _ => rfl, fun _ => (by decide : (0 : Int) ≤ blockLimit)⟩
  case handle event _ _ hi => exact hi.handle event

-- The queued blocks are those in the import queue and those being imported.
theorem queued_of_reached {P : Fetcher → Env → Event → Prop} {f : Fetcher} (h : Reached P f) :
    (∀ hash op, f.queued.lookup hash = some op ↔
      op ∈ f.queue.values ++ f.running ∧ op.hash = hash) ∧
    ((f.queue.values ++ f.running).map Inject.hash).Nodup ∧
    (∀ p, counter f.queues p = (f.queue.values ++ f.running).countP (·.origin = p) ∧
      counter f.queues p ≤ blockLimit) ∧
    (f.running.map Inject.hash).Nodup := by
  have ht : Tracks _ _ _ := tracked_of_reached h
  refine ⟨fun _ _ => ht.holds.lookup_iff, ht.nodup, fun p => ⟨ht.count p, ht.limit p⟩, ?_⟩
  have hn := ht.nodup
  rw [List.map_append] at hn
  exact (List.nodup_append.mp hn).right.left

def sampleOrder (α : Type) : GoMap.RangeOrder Hash α where
  list m := m.entries.map fun e => (e.fst, e.snd)
  perm _ := List.Perm.refl _

def sampleEnv (known : Bool) : Env where
  now         := 1000000000
  chainHeight := 0
  known _     := known
  emptyTxs    := Hash.zero
  emptyUncles := Hash.zero
  rand _      := 0
  lists       := sampleOrder _
  records     := sampleOrder _

def sampleInject : Inject :=
  ⟨"peer", ⟨Hash.zero, 1, Hash.zero, Hash.zero⟩⟩

def importing : Fetcher :=
  (new.handle (sampleEnv false) (.inject sampleInject)).handle (sampleEnv false) .top

theorem queued_importing : importing.running = [sampleInject] ∧
    (importing.queued.lookup Hash.zero = some sampleInject ↔
      sampleInject ∈ importing.queue.values ++ importing.running ∧
        sampleInject.hash = Hash.zero) := by
  have h : Reached (fun _ _ _ => True) importing := .handle (.handle .new trivial) trivial
  exact ⟨by decide +kernel, (queued_of_reached h).left Hash.zero sampleInject⟩

def held (f : Fetcher) (p : String) : Nat :=
  GoMap.total f.announced (·.countP (·.origin = p)) +
    GoMap.total f.fetching (fun a => if a.origin = p then 1 else 0) +
    GoMap.total f.fetched (·.countP (·.origin = p)) +
    GoMap.total f.completing (fun a => if a.origin = p then 1 else 0)

def Counted (f : Fetcher) : Prop :=
  ∀ p, counter f.announces p = f.held p ∧ f.held p ≤ hashLimit

structure Counts (announces : GoMap String Int) (announced : GoMap Hash (List Announce)) :
    Prop where
  count : ∀ p, counter announces p = GoMap.total announced (·.countP (·.origin = p))
  limit : ∀ p, counter announces p ≤ hashLimit

-- Nothing is being retrieved, and the announced blocks are counted.
def Idle (f : Fetcher) : Prop :=
  f.fetching = ∅ ∧ f.fetched = ∅ ∧ f.completing = ∅ ∧ Counts f.announces f.announced

-- When the fetch timer fires, the chain has every block that is due.
def Arrived (f : Fetcher) (e : Env) : Event → Prop
  | .fetchTimer => ∀ hash l, f.announced.lookup hash = some l → isDue e l → e.known hash
  | _           => True

theorem counter_foldl_decrement (l : List Announce) (m : GoMap String Int) (p : String) :
    counter (l.foldl (fun m a => decrement m a.origin) m) p =
      counter m p - l.countP (·.origin = p) := by
  induction l generalizing m
  case nil => simp
  case cons a l hi =>
    rw [List.foldl_cons, hi, counter_decrement]
    by_cases hp : p = a.origin
    · simp [hp]
      omega
    · simp [hp, Ne.symm hp]

theorem total_announced (f : Fetcher) (hash : Hash) (p : String) :
    GoMap.total f.announced (·.countP (·.origin = p)) =
      ((f.announced.lookup hash).getD []).countP (·.origin = p) +
        GoMap.total (f.announced.erase hash) (·.countP (·.origin = p)) := by
  cases h : f.announced.lookup hash
  case none   => simp [GoMap.total_erase_of_lookup_none h]
  case some l => simp [GoMap.total_of_lookup h]

namespace Idle

variable {f : Fetcher} {e : Env}

theorem counted (h : Idle f) : Counted f := by
  obtain ⟨hf, hd, hc, h⟩ := h
  intro p
  have hh : f.held p = counter f.announces p := by
    rw [h.count, held, hf, hd, hc]
    rfl
  exact ⟨hh.symm, hh ▸ h.limit p⟩

theorem forgetHash (h : Idle f) (hash : Hash) : Idle (f.forgetHash hash) := by
  obtain ⟨hf, hd, hc, h⟩ := h
  have hr : f.recordsOf hash = (f.announced.lookup hash).getD [] := by
    simp [recordsOf, hf, hd, hc]
  have ha (p : String) : counter (f.forgetHash hash).announces p =
      counter f.announces p - ((f.announced.lookup hash).getD []).countP (·.origin = p) := by
    rw [← hr]
    exact counter_foldl_decrement _ _ _
  refine ⟨congrArg (AList.erase hash) hf, congrArg (AList.erase hash) hd,
    congrArg (AList.erase hash) hc, fun p => ?_, fun p => ?_⟩
  · have ht := total_announced f hash p
    rw [ha, h.count]
    change _ = (GoMap.total (f.announced.erase hash) _ : Int)
    omega
  · have := h.limit p
    rw [ha]
    omega

theorem notify (h : Idle f) (a : Announce) : Idle (notify e f a) := by
  rw [Fetcher.notify]
  split_ifs with hlim
  · exact h
  · exact h
  · exact h
  obtain ⟨hf, hd, hc, h⟩ := h
  refine ⟨hf, hd, hc, fun p => ?_, fun p => ?_⟩
  · have ht := total_announced f a.hash p
    rw [counter_insert, GoMap.total_insert]
    have hp := h.count p
    by_cases ho : p = a.origin
    · simp [← ho]
      omega
    · simp [ho, Ne.symm ho]
      omega
  · rw [counter_insert]
    split
    · omega
    · exact h.limit p

theorem enqueue (h : Idle f) (peer : String) (block : Header) : Idle (enqueue e f peer block) := by
  rw [Fetcher.enqueue]
  split_ifs
  · exact h.forgetHash _
  · exact h
  · exact h

theorem forgetBlock (h : Idle f) (hash : Hash) : Idle (f.forgetBlock hash) := by
  rw [Fetcher.forgetBlock]
  split <;> exact h

theorem importQueued (n : Nat) (h : Idle f) : Idle (importQueued e n f) := by
  induction n generalizing f
  case zero => exact h
  case succ n hi =>
    rw [Fetcher.importQueued]
    split
    · exact h
    · split_ifs
      · exact h
      · apply hi
        apply forgetBlock
        exact h
      · exact hi h

theorem fetchTimer (h : Idle f) (ha : Arrived f e .fetchTimer) : Idle (fetchTimer e f) := by
  refine List.foldlRecOn _ _ h fun f' hf' r hr => ?_
  rw [fetch]
  split
  case isFalse => exact hf'
  case isTrue hdue =>
    rw [ha r.fst r.snd (e.lists.mem_list.mp hr) hdue]
    exact hf'.forgetHash r.fst

-- No header and no body is asked for.

theorem filterHeaders (h : Idle f) (l : List Header) (time : Int) :
    (filterHeaders e f l time).fst = f := by
  have hs : l.foldl (splitHeader e time) ⟨f, [], [], []⟩ = ⟨f, l, [], []⟩ := by
    suffices ∀ u, l.foldl (splitHeader e time) ⟨f, u, [], []⟩ = ⟨f, u ++ l, [], []⟩ from this []
    induction l
    case nil => simp
    case cons header l hi =>
      intro u
      have hn : splitHeader e time ⟨f, u, [], []⟩ header = ⟨f, u ++ [header], [], []⟩ := by
        simp [splitHeader, h.left]
      rw [List.foldl_cons, hn, hi, List.append_assoc, List.singleton_append]
  rw [Fetcher.filterHeaders, hs]
  rfl

theorem filterBodies (h : Idle f) (l : List Body) : (filterBodies e f l).fst = f := by
  obtain ⟨_, _, hc, _⟩ := h
  have hr : e.records.list ∅ = [] := (e.records.perm ∅).eq_nil
  suffices ∀ u, (l.foldl (matchBody e) ⟨f, u, []⟩).fetcher = f ∧
      (l.foldl (matchBody e) ⟨f, u, []⟩).blocks = [] by
    rw [Fetcher.filterBodies, (this []).left, (this []).right]
    rfl
  induction l
  case nil => simp
  case cons body l hi =>
    intro u
    have hn : matchBody e ⟨f, u, []⟩ body = ⟨f, u ++ [body], []⟩ := by
      simp [matchBody, hc, hr]
    rw [List.foldl_cons, hn]
    exact hi _

theorem handle (h : Idle f) {event : Event} (ha : Arrived f e event) : Idle (f.handle e event) := by
  cases event
  case top =>
    apply importQueued
    rw [cleanUp, h.left, (e.records.perm ∅).eq_nil]
    exact h
  case notify a   => exact h.notify a
  case inject op  => exact h.enqueue _ _
  case done i =>
    rw [Fetcher.handle, report]
    split
    · exact h
    · apply forgetBlock
      apply forgetHash
      exact h
  case fetchTimer => exact h.fetchTimer ha
  case completeTimer =>
    rw [Fetcher.handle, completeTimer, h.right.left, (e.lists.perm ∅).eq_nil]
    exact h
  case headers l time =>
    rw [Fetcher.handle, h.filterHeaders]
    exact h
  case bodies l =>
    rw [Fetcher.handle, h.filterBodies]
    exact h

end Idle

def sampleAnnounce : Announce :=
  ⟨Hash.zero, 1, none, 0, "peer"⟩

def announcing (known : Bool) : Fetcher :=
  (new.handle (sampleEnv known) (.notify sampleAnnounce)).handle (sampleEnv known) .fetchTimer

end Fetcher

end Eth
