import GoEthereum.Trie.Decoded
import GoEthereum.Trie.SyncInvariant

-- The invariant holds after every call of the scheduler.

namespace Trie

open Common

-- What stays the same while a trie is synchronised.
structure Goal (ε : Type) where
  callback : Bytes → Go ε (List Entry)
  contents : Hash → Option Bytes
  root     : Hash
  full     : Bool
  init     : Database

namespace Goal

variable {ε : Type} (G : Goal ε)

abbrev Wanted : Role → Hash → Prop :=
  Trie.Wanted G.callback G.contents G.root

abbrev Separate : Prop :=
  Trie.Separate G.callback G.contents G.root G.full

abbrev Inv : GoMap Hash Request → Database → List Hash → Option Hash → List Request → Prop :=
  Trie.Inv G.callback G.contents G.root G.full G.init

abbrev InvAt (s : TrieSync) : List Hash → Option Hash → List Request → Prop :=
  G.Inv s.requests s.database

end Goal

variable {ε : Type} {G : Goal ε}

theorem Database.putAll_append (db : Database) (batch batch' : List Request) :
    db.putAll (batch ++ batch') = (db.putAll batch).putAll batch' :=
  List.foldl_append

section

variable {requests : GoMap Hash Request} {db : Database} {debts : List Hash} {log : List Request}
variable {p : Hash} {req : Request}

theorem Inv.ready (hi : G.Inv requests db debts none log)
    (hp : requests.lookup p = some req) (he : req.Expanded G.callback G.contents requests db)
    (hl : links requests p = 0) : req.Ready G.callback G.contents db where
  data := he.data
  refs _ := by
    obtain ⟨n, hn, hr⟩ := he.refs
    refine ⟨n, hn, fun role h hm => ?_⟩
    cases hr role h hm
    case inl h => exact h
    case inr h =>
      obtain ⟨c, hc, hm⟩ := h
      rw [hi.hash hp] at hm
      have h₁ : c.parents.count p ≤ links requests p := GoMap.le_total (f := fun c => c.parents.count p) hc
      have h₂ := List.count_pos_iff.mpr hm
      omega

-- What a function that commits a request does, if it may delete `n` requests.
def Commits (G : Goal ε) (n : Nat)
    (commit : Request → GoMap Hash Request → GoMap Hash Request × List Request) : Prop :=
  ∀ {requests : GoMap Hash Request} {db : Database} {debts : List Hash} {log : List Request}
    {req : Request},
    requests.entries.length ≤ n → G.Inv requests db debts none log →
    requests.lookup req.hash = some req → req.deps = 0 → req.Ready G.callback G.contents db →
    G.Inv (commit req requests).fst (db.putAll (commit req requests).snd) debts
      none (log ++ (commit req requests).snd) ∧
    (commit req requests).fst.entries.length ≤ requests.entries.length

variable {commit : Request → GoMap Hash Request → GoMap Hash Request × List Request}

theorem Inv.commitParent {n : Nat} {batch : List Request}
    (hc : Commits G n commit) (hn : requests.entries.length ≤ n)
    (hi : G.Inv requests (db.putAll batch) (p :: debts) none (log ++ batch)) :
    G.Inv (TrieSync.commitParent commit (requests, batch) p).fst
      (db.putAll (TrieSync.commitParent commit (requests, batch) p).snd) debts none
      (log ++ (TrieSync.commitParent commit (requests, batch) p).snd) ∧
    (TrieSync.commitParent commit (requests, batch) p).fst.entries.length ≤ requests.entries.length := by
  obtain ⟨req, hp⟩ := Option.isSome_iff_exists.mp
    (AList.lookup_isSome.mpr (hi.owed List.mem_cons_self))
  have hdeps := hi.deps hp
  rw [List.count_cons_self] at hdeps
  have hexp := hi.waiting hp (by omega) (by simp)
  obtain ⟨req', hreq⟩ : ∃ r, r = { req with deps := req.deps - 1 } := ⟨_, rfl⟩
  have hi' : G.Inv (requests.insert p req') (db.putAll batch) debts none
      (log ++ batch) := by
    subst hreq
    exact hi.replace hp (hi.linked.lower hp) rfl (List.Subset.refl _)
      (fun _ _ => ⟨hexp.node, hexp.data, hexp.refs⟩) fun _ h => h
  have hlen : (requests.insert p req').entries.length = requests.entries.length :=
    GoMap.length_insert hp
  have he : TrieSync.commitParent commit (requests, batch) p =
      if req'.deps = 0 then
        ((commit req' (requests.insert p req')).fst, batch ++ (commit req' (requests.insert p req')).snd)
      else
        (requests.insert p req', batch) := by
    simp only [TrieSync.commitParent, hp, hreq]
  rw [he]
  split
  case isFalse hz => exact ⟨hi', hlen.le⟩
  case isTrue hz =>
    have hl : (requests.insert p req').lookup req'.hash = some req' := by
      rw [hreq, hi.hash hp]
      exact AList.lookup_insert _
    have hready : req'.Ready G.callback G.contents (db.putAll batch) := by
      subst hreq
      have h := hi.ready hp hexp (by simp only at hz; omega)
      exact ⟨h.data, h.refs⟩
    obtain ⟨h₁, h₂⟩ := hc (hlen.le.trans hn) hi' hl hz hready
    rw [Database.putAll_append, ← List.append_assoc]
    exact ⟨h₁, h₂.trans hlen.le⟩

theorem Inv.commitParents {n : Nat} {batch : List Request} {parents : List Hash}
    (hc : Commits G n commit) (hn : requests.entries.length ≤ n)
    (hi : G.Inv requests (db.putAll batch) (parents ++ debts) none
      (log ++ batch)) {r : GoMap Hash Request × List Request}
    (hr : parents.foldl (TrieSync.commitParent commit) (requests, batch) = r) :
    G.Inv r.fst (db.putAll r.snd) debts none (log ++ r.snd) ∧
      r.fst.entries.length ≤ requests.entries.length := by
  induction parents generalizing requests batch
  case nil =>
    cases hr
    exact ⟨hi, le_rfl⟩
  case cons p parents ih =>
    obtain ⟨h₁, h₂⟩ := Inv.commitParent hc hn hi
    obtain ⟨h₃, h₄⟩ := ih (h₂.trans hn) h₁ hr
    exact ⟨h₃, h₄.trans h₂⟩

theorem commitLoop_commits (hs : G.Separate) (fuel : Nat) :
    Commits G fuel (TrieSync.commitLoop fuel) := by
  induction fuel
  case zero =>
    intro requests db debts log req hn hi hp hd hr
    have h := GoMap.length_erase hp
    omega
  case succ fuel ih =>
    intro requests db debts log req hn hi hp hd hr
    have hlen := GoMap.length_erase hp
    have hi' : G.Inv (requests.erase req.hash) (db.putAll [req])
        (req.parents ++ debts) none (log ++ [req]) := hi.erase hs hp hd hr
    obtain ⟨h₁, h₂⟩ := Inv.commitParents ih (by omega) hi' rfl
    exact ⟨h₁, h₂.trans (by omega)⟩

end

structure Request.Extends (req req' : Request) : Prop where
  hash     : req'.hash = req.hash
  data     : req'.data = req.data
  raw      : req'.raw = req.raw
  callback : req'.callback = req.callback
  parents  : req.parents ⊆ req'.parents

theorem Request.Extends.refl (req : Request) : req.Extends req :=
  ⟨rfl, rfl, rfl, rfl, fun _ h => h⟩

theorem Request.Extends.trans {req req' req'' : Request} (h : req.Extends req')
    (h' : req'.Extends req'') : req.Extends req'' where
  hash     := h'.hash.trans h.hash
  data     := h'.data.trans h.data
  raw      := h'.raw.trans h.raw
  callback := h'.callback.trans h.callback
  parents  := fun _ hm => h'.parents (h.parents hm)

structure TrieSync.Extends (s s' : TrieSync) : Prop where
  database : s'.database = s.database
  requests : ∀ {h req}, s.requests.lookup h = some req →
    ∃ req', s'.requests.lookup h = some req' ∧ req.Extends req'

def TrieSync.Covers (s : TrieSync) (p : Hash) (role : Role) (h : Hash) : Prop :=
  s.database.Present role h ∨ ∃ c, s.requests.lookup h = some c ∧ p ∈ c.parents

namespace TrieSync

theorem Extends.refl (s : TrieSync) : s.Extends s :=
  ⟨rfl, fun hl => ⟨_, hl, .refl _⟩⟩

theorem Extends.trans {s s' s'' : TrieSync} (h : s.Extends s') (h' : s'.Extends s'') :
    s.Extends s'' where
  database := h'.database.trans h.database
  requests hl :=
    have ⟨_, hl, h₁⟩ := h.requests hl
    have ⟨_, hl, h₂⟩ := h'.requests hl
    ⟨_, hl, h₁.trans h₂⟩

theorem Covers.extend {s s' : TrieSync} {p h : Hash} {role : Role} (hc : s.Covers p role h)
    (he : s.Extends s') : s'.Covers p role h := by
  cases hc
  case inl h => exact .inl (he.database ▸ h)
  case inr h =>
    obtain ⟨c, hl, hm⟩ := h
    obtain ⟨c', hl, hx⟩ := he.requests hl
    exact .inr ⟨c', hl, hx.parents hm⟩

theorem extends_insert {s : TrieSync} {p : Hash} {req req' : Request}
    (hp : s.requests.lookup p = some req) (hx : req.Extends req') :
    s.Extends { s with requests := s.requests.insert p req' } where
  database := rfl
  requests {h r} hl := by
    by_cases he : h = p
    case pos =>
      subst he
      rw [hp] at hl
      cases hl
      exact ⟨req', AList.lookup_insert _, hx⟩
    case neg => exact ⟨r, by rw [AList.lookup_insert_ne he, hl], .refl r⟩

variable {s s' : TrieSync} {debts : List Hash} {busy : Option Hash} {log : List Request}
variable {p h : Hash} {req : Request}

theorem schedule_extends (s : TrieSync) (req : Request) : s.Extends (s.schedule req) := by
  cases hp : s.requests.lookup req.hash
  case none =>
    simp only [schedule, hp]
    refine ⟨rfl, fun {h r} hl => ?_⟩
    have hne : h ≠ req.hash := fun he => by rw [he, hp] at hl; cases hl
    exact ⟨r, by rw [AList.lookup_insert_ne hne, hl], .refl r⟩
  case some old =>
    simp only [schedule, hp]
    exact extends_insert hp ⟨rfl, rfl, rfl, rfl, List.subset_append_left _ _⟩

theorem schedule_linked (hi : Linked s.requests (req.parents ++ debts)) (hd : req.deps = 0) :
    Linked (s.schedule req).requests debts := by
  cases hp : s.requests.lookup req.hash
  case none =>
    simp only [schedule, hp]
    exact hi.add hp hd
  case some old =>
    simp only [schedule, hp]
    refine hi.replace req.parents hp rfl rfl ?_ ?_
    case refine_1 =>
      simp only [hi.deps hp, List.count_append]
      omega
    case refine_2 =>
      intro q _
      rw [List.count_append]

theorem schedule_spec (req : Request)
    (hi : G.InvAt s (req.parents ++ debts)
      busy log) (hw : G.Wanted req.role req.hash)
    (ha : ¬ s.database.Present req.role req.hash) (hd : req.deps = 0) :
    G.InvAt (s.schedule req) debts busy log ∧
      s.Extends (s.schedule req) ∧
      ∃ c, (s.schedule req).requests.lookup req.hash = some c ∧ req.parents ⊆ c.parents := by
  have hx := s.schedule_extends req
  have hlinked := schedule_linked hi.linked hd
  cases hp : s.requests.lookup req.hash
  case none =>
    simp only [schedule, hp] at hx ⊢
    exact ⟨hi.add hp hw ha hd, hx, _, AList.lookup_insert _, fun _ h => h⟩
  case some old =>
    simp only [schedule, hp] at hx hlinked ⊢
    refine ⟨?_, hx, _, AList.lookup_insert _, List.subset_append_right _ _⟩
    refine hi.replace hp hlinked rfl (List.subset_append_left _ _) (fun hpos hb => ?_) fun _ h => h
    have he := hi.waiting hp hpos hb
    exact ⟨he.node, he.data, he.refs⟩

theorem link_spec {parents : List Hash} (hi : G.InvAt s debts (some p) log)
    (hl : (link p : Act TrieSync ε _) s = (.ok parents, s')) :
    G.InvAt s' (parents ++ debts) (some p) log ∧
      s.Extends s' ∧ (p ≠ Hash.zero → parents = [p]) := by
  simp only [link] at hl
  split at hl
  case isTrue hz =>
    cases hl
    exact ⟨hi, .refl _, fun h => absurd hz h⟩
  case isFalse hz =>
    cases hp : s.requests.lookup p
    case none => simp [hp, Go.panics] at hl
    case some ancestor =>
      simp only [hp, Prod.mk.injEq, Except.ok.injEq] at hl
      obtain ⟨rfl, rfl⟩ := hl
      refine ⟨?_, extends_insert hp ⟨rfl, rfl, rfl, rfl, fun _ h => h⟩, fun _ => rfl⟩
      exact hi.replace hp (hi.linked.raise hp 1) rfl (List.Subset.refl _) (fun _ h => absurd rfl h)
        fun _ h => h

theorem addRequest_spec (req : Request) (hi : G.InvAt s debts (some p) log)
    (hw : G.Wanted req.role req.hash) (ha : ¬ s.database.Present req.role req.hash)
    (hd : req.deps = 0) (h : (addRequest req p : Act TrieSync ε _) s = (.ok (), s')) :
    G.InvAt s' debts (some p) log ∧ s.Extends s' ∧
      (p ≠ Hash.zero → s'.Covers p req.role req.hash) := by
  obtain ⟨parents, t, hl, h⟩ := Act.bind_eq_ok.mp h
  cases h
  obtain ⟨hi, hx, hp⟩ := link_spec hi hl
  obtain ⟨hi', hx', c, hc, hm⟩ := schedule_spec { req with parents := parents } hi hw
    (by rw [hx.database]; exact ha) hd
  refine ⟨hi', hx.trans hx', fun hz => .inr ⟨c, hc, hm ?_⟩⟩
  rw [hp hz]
  exact List.mem_singleton_self p

theorem resolves_spec {b : Bool} (h' : (resolves h : Act TrieSync ε _) s = (.ok b, s')) :
    s' = s ∧ ∀ {role}, role ≠ .raw → (b = true ↔ s.database.Present role h) := by
  cases hn : decodeNode (some h) ((s.database h.bytes).getD []) 0
  case ok n =>
    simp only [resolves, hn, Prod.mk.injEq, Except.ok.injEq] at h'
    obtain ⟨rfl, rfl⟩ := h'
    refine ⟨rfl, fun hr => iff_of_true rfl ?_⟩
    cases hb : s.database h.bytes
    case none   => rw [hb] at hn; cases hn
    case some b => exact ⟨b, hb, fun _ => ⟨n, by rwa [hb] at hn⟩⟩
  case error e =>
    cases e
    case panic => simp [resolves, hn, Go.panics] at h'
    case error e =>
      simp only [resolves, hn, Prod.mk.injEq, Except.ok.injEq] at h'
      obtain ⟨rfl, rfl⟩ := h'
      refine ⟨rfl, fun hr => iff_of_false Bool.false_ne_true fun hp => ?_⟩
      obtain ⟨b, hb, hn'⟩ := hp
      obtain ⟨n, hn'⟩ := hn' hr
      rw [hb, Option.getD_some, hn'] at hn
      cases hn

variable {depth : Nat} {child : Node Key} {new : List Request} {cs : List (Node Key × Nat)}
  {n : Node Key} {d : Nat} {r : Go (ProcessError ε) (List Request)}

section

variable (hi : G.InvAt s debts (some p) log)
include hi

theorem addSubTrie_spec {watch : Bool}
    (hw : h ≠ emptyRoot → G.Wanted (Request.new h false depth watch).role h)
    (hs : (addSubTrie h depth p watch : Act TrieSync ε _) s = (.ok (), s')) :
    G.InvAt s' debts (some p) log ∧ s.Extends s' ∧
      (h ≠ emptyRoot → p ≠ Hash.zero → s'.Covers p (Request.new h false depth watch).role h) := by
  have hraw : (Request.new h false depth watch).role ≠ .raw := Request.role_ne_raw.mpr rfl
  unfold addSubTrie at hs
  split at hs
  case isTrue he =>
    cases hs
    exact ⟨hi, .refl _, fun hne => absurd he hne⟩
  case isFalse he =>
    obtain ⟨b, t, hb, hs⟩ := Act.bind_eq_ok.mp hs
    obtain ⟨ht, hp⟩ := resolves_spec hb
    rw [ht] at hs
    cases b
    case true =>
      cases hs
      exact ⟨hi, .refl _, fun _ _ => .inl ((hp hraw).mp rfl)⟩
    case false =>
      have ha : ¬ s.database.Present (Request.new h false depth watch).role h :=
        fun h => Bool.false_ne_true ((hp hraw).mpr h)
      obtain ⟨hi, hx, hc⟩ := addRequest_spec (Request.new h false depth watch) hi (hw he) ha rfl hs
      exact ⟨hi, hx, fun _ => hc⟩

theorem addRawEntry_spec (hw : h ≠ emptyState → G.Wanted .raw h) (hz : p ≠ Hash.zero)
    (hs : (addRawEntry h depth p : Act TrieSync ε _) s = (.ok (), s')) :
    G.InvAt s' debts (some p) log ∧ s.Extends s' ∧
      (h ≠ emptyState → s'.Covers p .raw h) := by
  unfold addRawEntry at hs
  split at hs
  case isTrue he =>
    cases hs
    exact ⟨hi, .refl _, fun hne => absurd he hne⟩
  case isFalse he =>
    obtain ⟨t, t', ht, hs⟩ := Act.bind_eq_ok.mp hs
    cases ht
    cases hb : s.database h.bytes
    case some b =>
      simp only [hb, Option.isSome_some, if_true] at hs
      cases hs
      exact ⟨hi, .refl _, fun _ => .inl ⟨b, hb, fun h => absurd rfl h⟩⟩
    case none =>
      simp only [hb, Option.isSome_none, Bool.false_eq_true, if_false] at hs
      have ha : ¬ s.database.Present .raw h := fun ⟨b, hb', _⟩ => by
        rw [hb] at hb'
        cases hb'
      obtain ⟨hi, hx, hc⟩ := addRequest_spec (Request.new h true depth false) hi (hw he) ha rfl hs
      exact ⟨hi, hx, fun _ => hc hz⟩

theorem addEntry_spec {e : Entry} (hw : e.isEmpty = false → G.Wanted e.role e.hash)
    (hz : p ≠ Hash.zero) (h : (addEntry p e : Act TrieSync ε _) s = (.ok (), s')) :
    G.InvAt s' debts (some p) log ∧ s.Extends s' ∧
      (e.isEmpty = false → s'.Covers p e.role e.hash) := by
  cases e
  case subTrie r depth =>
    simp only [Entry.isEmpty, decide_eq_false_iff_not] at hw ⊢
    obtain ⟨hi, hx, hc⟩ := addSubTrie_spec hi hw h
    exact ⟨hi, hx, fun he => hc he hz⟩
  case raw r depth =>
    simp only [Entry.isEmpty, decide_eq_false_iff_not] at hw ⊢
    exact addRawEntry_spec hi hw hz h

theorem addEntries_spec {es : List Entry}
    (hw : ∀ e ∈ es, e.isEmpty = false → G.Wanted e.role e.hash)
    (hz : p ≠ Hash.zero) (h : (addEntries p es : Act TrieSync ε _) s = (.ok (), s')) :
    G.InvAt s' debts (some p) log ∧ s.Extends s' ∧
      ∀ e ∈ es, e.isEmpty = false → s'.Covers p e.role e.hash := by
  induction es generalizing s
  case nil =>
    cases h
    exact ⟨hi, .refl _, by simp⟩
  case cons e es ih =>
    obtain ⟨_, t, h₁, h⟩ := Act.bind_eq_ok.mp h
    rw [List.forall_mem_cons] at hw
    obtain ⟨hi, hx, hc⟩ := addEntry_spec hi hw.left hz h₁
    obtain ⟨hi, hx', hc'⟩ := ih hi hw.right h
    refine ⟨hi, hx.trans hx', List.forall_mem_cons.mpr ⟨fun he => (hc he).extend hx', hc'⟩⟩

end

theorem notify_spec
    (hi : G.InvAt s debts (some req.hash) log)
    (hw : ∀ {role h}, (role, h) ∈ childRefs G.callback req.role child →
      G.Wanted role h) (hraw : req.raw = false) (hz : req.hash ≠ Hash.zero)
    (h : notify G.callback req child s = (.ok (), s')) :
    G.InvAt s' debts (some req.hash) log ∧ s.Extends s' ∧
      ∀ {leaf role h}, child = .value leaf → (role, h) ∈ childRefs G.callback req.role child →
        s'.Covers req.hash role h := by
  cases child
  case value leaf =>
    cases hc : req.callback
    case false =>
      simp only [notify, hc] at h
      cases h
      refine ⟨hi, .refl _, fun _ hm => ?_⟩
      simp [childRefs, Request.role, hraw, hc] at hm
    case true =>
      have hrole : req.role = .watched := by simp [Request.role, hraw, hc]
      cases he : G.callback leaf
      case error e => simp [notify, hc, he] at h
      case ok es =>
        simp only [notify, hc, he] at h
        have hmem : ∀ {role h}, (role, h) ∈ childRefs G.callback req.role (.value leaf) ↔
            ∃ e ∈ es, e.isEmpty = false ∧ e.role = role ∧ e.hash = h := by
          simp [childRefs, hrole, entriesOf, he, and_assoc]
        obtain ⟨hi, hx, hc⟩ := addEntries_spec hi
          (fun e hm hn => hw (hmem.mpr ⟨e, hm, hn, rfl, rfl⟩)) hz h
        refine ⟨hi, hx, fun _ hm => ?_⟩
        obtain ⟨e, hm, hn, hr, hh⟩ := hmem.mp hm
        exact hr ▸ hh ▸ hc e hm hn
  all_goals
    cases hc : req.callback
    all_goals
      simp only [notify, hc] at h
      cases h
      exact ⟨hi, .refl _, by simp⟩

-- What `children` returns for a hash: a new request that is not linked yet.
structure IsNew (s : TrieSync) (req new : Request) : Prop where
  parents : new.parents = [req.hash]
  deps    : new.deps = 0
  role    : new.role = req.role
  absent  : ¬ s.database.Present new.role new.hash

theorem resolve_spec (hraw : req.raw = false)
    (h : (resolve req child depth : Act TrieSync ε _) s = (.ok new, s')) :
    s' = s ∧ (∀ r ∈ new, IsNew s req r ∧ child = .hash r.hash) ∧
      ∀ {h}, child = .hash h → s.database.Present req.role h ∨ ∃ r ∈ new, r.hash = h := by
  cases child
  case hash h' =>
    obtain ⟨b, t, hb, h⟩ := Act.bind_eq_ok.mp h
    obtain ⟨ht, hp⟩ := resolves_spec hb
    rw [ht] at h
    have hr : req.role ≠ .raw := Request.role_ne_raw.mpr hraw
    cases b
    case true =>
      cases h
      refine ⟨rfl, by simp, fun he => ?_⟩
      cases he
      exact .inl ((hp hr).mp rfl)
    case false =>
      cases h
      have hrole : (Request.new h' false depth req.callback).role = req.role :=
        Request.role_congr hraw.symm rfl
      refine ⟨rfl, ?_, fun he => ?_⟩
      case refine_1 =>
        intro r hm
        cases List.mem_singleton.mp hm
        refine ⟨⟨rfl, rfl, hrole, fun h => ?_⟩, rfl⟩
        exact Bool.false_ne_true ((hp hr).mpr (hrole ▸ h))
      case refine_2 =>
        cases he
        exact .inr ⟨_, List.mem_singleton_self _, rfl⟩
  all_goals
    cases h
    exact ⟨rfl, by simp, fun h => by cases h⟩

theorem requestChildren_spec
    (hi : G.InvAt s debts (some req.hash) log)
    (hw : ∀ c ∈ cs, ∀ {role h}, (role, h) ∈ childRefs G.callback req.role c.fst →
      G.Wanted role h) (hraw : req.raw = false) (hz : req.hash ≠ Hash.zero)
    (h : requestChildren G.callback req cs s = (.ok new, s')) :
    G.InvAt s' debts (some req.hash) log ∧ s.Extends s' ∧
      (∀ r ∈ new, IsNew s req r ∧ G.Wanted r.role r.hash) ∧
      ∀ c ∈ cs, ∀ {role h}, (role, h) ∈ childRefs G.callback req.role c.fst →
        s'.Covers req.hash role h ∨ role = req.role ∧ ∃ r ∈ new, r.hash = h := by
  induction cs generalizing s new
  case nil =>
    cases h
    exact ⟨hi, .refl _, by simp, by simp⟩
  case cons c cs ih =>
    obtain ⟨child, depth⟩ := c
    obtain ⟨_, t, h₁, h⟩ := Act.bind_eq_ok.mp h
    obtain ⟨new₁, t', h₂, h⟩ := Act.bind_eq_ok.mp h
    obtain ⟨new₂, t'', h₃, h⟩ := Act.bind_eq_ok.mp h
    cases h
    rw [List.forall_mem_cons] at hw
    obtain ⟨hi, hx, hv⟩ := notify_spec hi hw.left hraw hz h₁
    obtain ⟨ht, hn, hc⟩ := resolve_spec hraw h₂
    rw [ht] at h₃
    obtain ⟨hi, hx', hn', hc'⟩ := ih hi hw.right h₃
    refine ⟨hi, hx.trans hx', fun r hm => ?_, List.forall_mem_cons.mpr ⟨?_, ?_⟩⟩
    case refine_1 =>
      cases List.mem_append.mp hm
      case inl hm =>
        obtain ⟨hr, he⟩ := hn r hm
        refine ⟨⟨hr.parents, hr.deps, hr.role, hx.database ▸ hr.absent⟩, hw.left ?_⟩
        rw [he, hr.role]
        exact List.mem_singleton_self _
      case inr hm =>
        obtain ⟨hr, hw⟩ := hn' r hm
        exact ⟨⟨hr.parents, hr.deps, hr.role, hx.database ▸ hr.absent⟩, hw⟩
    case refine_2 =>
      intro role h hr
      cases child
      case value leaf => exact .inl ((hv rfl hr).extend hx')
      case hash h' =>
        cases List.mem_singleton.mp hr
        cases hc rfl
        case inl hp => exact .inl (.inl (hx'.database ▸ hp))
        case inr hn =>
          obtain ⟨r, hm, hh⟩ := hn
          exact .inr ⟨rfl, r, List.mem_append_left _ hm, hh⟩
      all_goals cases hr
    case refine_3 =>
      intro c hm role h hr
      refine (hc' c hm hr).imp_right fun ⟨he, r, hm, hh⟩ => ⟨he, r, List.mem_append_right _ hm, hh⟩

theorem childNodes_fst (d d' : Nat) (n : Node Key) :
    (childNodes d n).map (List.map Prod.fst) = (childNodes d' n).map (List.map Prod.fst) := by
  cases n <;> simp [childNodes]

theorem mem_childNodes {d : Nat} (d' : Nat) {c : Node Key × Nat}
    (hc : c ∈ (childNodes d n).getD []) : ∃ c' ∈ (childNodes d' n).getD [], c'.fst = c.fst := by
  have hd (d) : ((childNodes d n).getD []).map Prod.fst =
      ((childNodes d n).map (List.map Prod.fst)).getD [] := by
    cases childNodes d n <;> rfl
  have hm : c.fst ∈ ((childNodes d' n).getD []).map Prod.fst := by
    rw [hd, childNodes_fst d' d, ← hd]
    exact List.mem_map_of_mem hc
  exact List.mem_map.mp hm

theorem not_value_of_ref (h : n.Ref) (v : Bytes) : n ≠ .value v := by
  rintro rfl
  rcases h with h | ⟨_, h⟩ | ⟨h, _⟩ <;> cases h

theorem childNodes_dropLast (hn : WellFormed n)
    (hcs : childNodes d n = some cs) : ∀ c ∈ cs.dropLast, ∀ v, c.fst ≠ .value v := by
  cases hn
  case short key m flags h =>
    cases hcs
    simp
  case full cs' flags h hv =>
    cases hcs
    intro c hc v
    rw [List.finRange_succ_last, List.filter_append, List.map_append] at hc
    have hfront : c ∈ ((((List.finRange 16).map Fin.castSucc).filter fun i => !(cs' i).isNil).map
        fun i => (cs' i, d + 1)) := by
      by_cases hl : (cs' (Fin.last 16)).isNil
      case pos =>
        rw [List.filter_cons_of_neg (by simpa using hl), List.filter_nil, List.map_nil,
          List.append_nil] at hc
        exact List.mem_of_mem_dropLast hc
      case neg =>
        rw [List.filter_cons_of_pos (by simpa using hl), List.filter_nil, List.map_singleton,
          List.dropLast_concat] at hc
        exact hc
    obtain ⟨i, hi, he⟩ := List.mem_map.mp hfront
    obtain ⟨j, _, hj⟩ := List.mem_map.mp (List.mem_filter.mp hi).left
    rw [← he]
    refine not_value_of_ref (h i ?_) v
    rw [← hj]
    exact (Fin.castSucc_lt_last j).ne

def NoError {α : Type} (x : Act TrieSync ε α) : Prop :=
  ∀ ⦃s s' e⦄, x s ≠ (Go.fail e, s')

theorem noError_composes (p : Hash) : Composes p fun {α} (x : Act TrieSync ε α) => NoError x where
  pure a s s' e h := by cases h
  bind hx hf s s' e h := by
    cases Act.bind_eq_fail.mp h
    case inl h => exact hx h
    case inr h =>
      obtain ⟨a, t, _, h⟩ := h
      exact hf a h
  get s s' e h := by cases h
  resolves h s s' e he := by
    unfold resolves at he
    split at he <;> cases he
  addRequest _ s s' e he := by
    cases Act.bind_eq_fail.mp he
    case inl he =>
      unfold link at he
      split at he
      case isTrue  => cases he
      case isFalse => split at he <;> cases he
    case inr he =>
      obtain ⟨_, _, _, he⟩ := he
      cases he

theorem notify_error {e : ε} (h : notify G.callback req child s = (Go.fail e, s')) :
    s' = s := by
  unfold notify at h
  split at h
  case h_1 leaf _ =>
    split at h
    case h_1 => cases h; rfl
    case h_2 entries _ => exact ((noError_composes _).addEntries entries h).elim
  case h_2 => cases h

theorem notify_not_value {u : Unit} (hc : ∀ v, child ≠ .value v)
    (h : notify G.callback req child s = (.ok u, s')) : s' = s := by
  unfold notify at h
  split at h
  case h_1 leaf _ => exact absurd rfl (hc leaf)
  case h_2 => cases h; rfl

theorem requestChildren_error {e : ε}
    (hv : ∀ c ∈ cs.dropLast, ∀ v, c.fst ≠ .value v) (hraw : req.raw = false)
    (h : requestChildren G.callback req cs s = (Go.fail e, s')) : s' = s := by
  induction cs generalizing s
  case nil => cases h
  case cons c cs ih =>
    obtain ⟨child, depth⟩ := c
    cases Act.bind_eq_fail.mp h
    case inl h => exact notify_error h
    case inr h =>
      obtain ⟨u, t, hn, h⟩ := h
      cases Act.bind_eq_fail.mp h
      case inl h => exact ((noError_composes req.hash).resolve child depth h).elim
      case inr h =>
        obtain ⟨new, t', hr, h⟩ := h
        obtain ⟨ht, _⟩ := resolve_spec hraw hr
        cases Act.bind_eq_fail.mp h
        case inr h =>
          obtain ⟨_, _, _, h⟩ := h
          cases h
        case inl h =>
          cases cs
          case nil => cases h
          case cons c' cs =>
            rw [List.dropLast_cons_cons, List.forall_mem_cons] at hv
            have hts := notify_not_value hv.left hn
            rw [ht, hts] at h
            exact ih hv.right h

theorem scheduleAll_spec
    (hi : G.InvAt s (List.replicate new.length p) busy log)
    (hn : ∀ r ∈ new, r.parents = [p] ∧ r.deps = 0 ∧ ¬ s.database.Present r.role r.hash ∧
      G.Wanted r.role r.hash) :
    G.InvAt (new.foldl schedule s) []
        busy log ∧ s.Extends (new.foldl schedule s) ∧
      ∀ r ∈ new, ∃ c, (new.foldl schedule s).requests.lookup r.hash = some c ∧ p ∈ c.parents := by
  induction new generalizing s
  case nil => exact ⟨hi, .refl s, by simp⟩
  case cons r new ih =>
    rw [List.forall_mem_cons] at hn
    obtain ⟨hp, hd, ha, hw⟩ := hn.left
    rw [List.length_cons, List.replicate_succ, ← List.singleton_append, ← hp] at hi
    obtain ⟨hi, hx, c, hc, hm⟩ := schedule_spec r hi hw ha hd
    obtain ⟨hi, hx', hall⟩ := ih hi fun r hr => by
      obtain ⟨h₁, h₂, h₃, h₄⟩ := hn.right r hr
      exact ⟨h₁, h₂, by rwa [hx.database], h₄⟩
    refine ⟨hi, hx.trans hx', List.forall_mem_cons.mpr ⟨?_, hall⟩⟩
    obtain ⟨c', hc', he⟩ := hx'.requests hc
    exact ⟨c', hc', he.parents (hm (hp ▸ List.mem_singleton_self p))⟩

theorem commit_spec {batch : List Request} (hs : G.Separate) (hi : G.InvAt s [] none log)
    (hp : s.requests.lookup req.hash = some req) (hd : req.deps = 0)
    (hr : req.Ready G.callback G.contents s.database)
    (h : (commit req : Act TrieSync ε _) s = (.ok batch, s')) :
    G.InvAt s' [] none (log ++ batch) := by
  cases h
  exact (commitLoop_commits hs _ le_rfl hi hp hd hr).left

theorem setData_spec (hi : G.InvAt s [] none log) {data : Bytes}
    (hp : s.requests.lookup p = some req) (hc : G.contents p = some data) :
    G.InvAt (s.setRequest { req with data := data }) [] none log := by
  have hh := hi.hash hp
  subst hh
  refine hi.replace hp (hi.linked.setData hp data) rfl (List.Subset.refl _) (fun hpos _ => ?_)
    fun _ h => h
  have he := hi.waiting hp hpos (by simp)
  have hdata : data = req.data := Option.some.inj (hc.symm.trans he.data)
  subst hdata
  exact he

theorem children_covers {role : Role}
    (hcs : childNodes d n = some cs)
    (hc : ∀ c ∈ cs, ∀ {ρ h}, (ρ, h) ∈ childRefs G.callback role c.fst →
      s.Covers p ρ h ∨ ρ = role ∧ ∃ r ∈ new, r.hash = h) :
    ∀ ρ h, (ρ, h) ∈ refs G.callback role n → s.Covers p ρ h ∨ ρ = role ∧ ∃ r ∈ new, r.hash = h := by
  intro ρ h hm
  obtain ⟨c, hmc, hm⟩ := mem_refs.mp hm
  obtain ⟨c', hmc', he⟩ := mem_childNodes d hmc
  rw [hcs] at hmc'
  exact hc c' hmc' (he ▸ hm)

theorem children_wanted {data : Bytes} (hw : G.Wanted req.role req.hash) (hraw : req.raw = false)
    (hdata : G.contents req.hash = some data) (hn : decodeNode (some req.hash) data 0 = .ok n)
    (hcs : childNodes d n = some cs) :
    ∀ c ∈ cs, ∀ {role h}, (role, h) ∈ childRefs G.callback req.role c.fst →
      G.Wanted role h := by
  intro c hmc role h hm
  refine .ref hw (Request.role_ne_raw.mpr hraw) hdata hn (mem_refs.mpr ?_)
  obtain ⟨c', hmc', he⟩ := @mem_childNodes n d 0 c (by rwa [hcs])
  exact ⟨c', hmc', he ▸ hm⟩

variable (hs : G.Separate)

include hs

variable (hi : G.InvAt s [] none log)
include hi

-- The node of a request is delivered and its children are scheduled, or it is committed.
theorem expand_spec (hp : s.requests.lookup req.hash = some req) (hraw : req.raw = false)
    (hc : G.contents req.hash = some req.data) (hn : decodeNode (some req.hash) req.data 0 = .ok n)
    (hcs : childNodes d n = some cs) (h : requestChildren G.callback req cs s = (.ok new, s')) :
    ∃ req', s'.requests.lookup req.hash = some req' ∧
      (new = [] → req'.deps = 0 →
        G.InvAt s' [] none log ∧
          req'.hash = req.hash ∧ req'.Ready G.callback G.contents s'.database) ∧
      G.InvAt
        (new.foldl schedule (s'.setRequest { req' with deps := req'.deps + new.length }))
        [] none log := by
  have hw : G.Wanted req.role req.hash := hi.wanted hp
  have hz : req.hash ≠ Hash.zero := fun h => hs.nonzero (h ▸ hw)
  have hbusy : G.InvAt s [] (some req.hash) log :=
    hi.setBusy fun _ _ => nofun
  obtain ⟨hi', hx, hnew, hcov⟩ :=
    requestChildren_spec hbusy (children_wanted hw hraw hc hn hcs) hraw hz h
  have hcov := children_covers hcs hcov
  obtain ⟨req', hp', hext⟩ := hx.requests hp
  have hrole : req'.role = req.role := Request.role_congr hext.raw hext.callback
  have hnode : decodeNode (some req'.hash) req'.data 0 = .ok n := by rw [hext.hash, hext.data, hn]
  have hdata : G.contents req'.hash = some req'.data := by rw [hext.hash, hext.data, hc]
  refine ⟨req', hp', fun he hd => ?_, ?_⟩
  case refine_1 =>
    have hi'' : G.InvAt s' [] none log :=
      hi'.setBusy fun hl hpos _ h => by
        cases h
        rw [hp'] at hl
        cases hl
        omega
    refine ⟨hi'', hext.hash, hdata, fun _ => ⟨n, hnode, fun role h hm => ?_⟩⟩
    rw [hrole] at hm
    cases hcov role h hm
    case inr hr =>
      obtain ⟨_, r, hr, _⟩ := hr
      rw [he] at hr
      cases hr
    case inl hc =>
      cases hc
      case inl hp => exact hp
      case inr hl =>
        obtain ⟨c, hl, hm⟩ := hl
        have h₁ : c.parents.count req.hash ≤ links s'.requests req.hash :=
          GoMap.le_total (f := fun c => c.parents.count req.hash) hl
        have h₂ := List.count_pos_iff.mpr hm
        have h₃ := hi''.deps hp'
        omega
  case refine_2 =>
    have hset : G.InvAt
        (s'.setRequest { req' with deps := req'.deps + new.length })
        (List.replicate new.length req.hash) (some req.hash) log := by
      rw [← hext.hash] at hp' hi' ⊢
      have hl := hi'.linked.raise hp' new.length
      rw [List.append_nil] at hl
      exact hi'.replace hp' hl rfl (List.Subset.refl _) (fun _ h => absurd rfl h) fun _ h => h
    have hx₁ : s'.Extends (s'.setRequest { req' with deps := req'.deps + new.length }) := by
      rw [← hext.hash] at hp'
      exact extends_insert hp' ⟨rfl, rfl, rfl, rfl, fun _ h => h⟩
    obtain ⟨hi₂, hx₂, hlink⟩ := scheduleAll_spec hset fun r hr =>
      have ⟨hr, hw⟩ := hnew r hr
      ⟨hr.parents, hr.deps, by rw [hx₁.database, hx.database]; exact hr.absent, hw⟩
    refine hi₂.finish fun {r} hl => ?_
    obtain ⟨r', hl', hext'⟩ := (hx₁.trans hx₂).requests hp'
    rw [hl] at hl'
    cases hl'
    have hrole' : r.role = req.role :=
      (Request.role_congr hext'.raw hext'.callback).trans hrole
    have hhash' : r.hash = req.hash := hext'.hash.trans hext.hash
    refine ⟨by rw [hext'.raw, hext.raw, hraw], by rw [hext'.hash, hext'.data, hdata], n,
      by rw [hext'.hash, hext'.data, hnode], fun role h hm => ?_⟩
    rw [hrole'] at hm
    rw [hhash']
    cases hcov role h hm
    case inl hc => exact hc.extend (hx₁.trans hx₂)
    case inr hr =>
      obtain ⟨_, r₀, hr₀, he⟩ := hr
      exact .inr (he ▸ hlink r₀ hr₀)

theorem processRequest_spec {item : SyncResult}
    (hset : G.Inv (s.setRequest req).requests s.database [] none log)
    (hh : item.hash = req.hash) (hd : item.data = req.data) (hc : G.contents req.hash = some req.data)
    (h : processRequest G.callback item req s = (r, s')) (hr : r ≠ Go.panics) :
    G.InvAt s' [] none (log ++ r.toOption.getD []) := by
  have hp : (s.setRequest req).requests.lookup req.hash = some req := AList.lookup_insert _
  have hfail : ∀ {t : TrieSync} {e : ProcessError ε},
      G.InvAt t [] none log → (Go.fail e, t) = (r, s') →
      G.InvAt s' [] none (log ++ r.toOption.getD []) := by
    intro t e hi he
    cases he
    simpa [Go.fail, Except.toOption] using hi
  have hpanic : ∀ {t : TrieSync}, (Go.panics, t) ≠ (r, s') := fun he => hr (Prod.mk.inj he).left.symm
  unfold processRequest at h
  rw [hh, hd] at h
  split at h
  case isTrue hraw =>
    have hdeps : req.deps = 0 := by
      have h₁ := hset.deps hp
      by_contra hne
      have he := hset.waiting hp (by omega) (by simp)
      rw [he.node] at hraw
      cases hraw
    have hready : req.Ready G.callback G.contents (s.setRequest req).database :=
      ⟨hc, fun h => by rw [hraw] at h; cases h⟩
    cases h
    exact commit_spec hs hset hp hdeps hready rfl
  case isFalse hraw =>
    rw [Bool.not_eq_true] at hraw
    cases hn : decodeNode (some req.hash) req.data 0
    case error e =>
      cases e
      case error e =>
        simp only [hn] at h
        exact hfail hi h
      case panic =>
        simp only [hn] at h
        exact (hpanic h).elim
    case ok n =>
      simp only [hn, children] at h
      cases hcs : childNodes req.depth n
      case none =>
        simp only [hcs] at h
        exact (hpanic h).elim
      case some cs =>
        simp only [hcs] at h
        cases hq : requestChildren G.callback req cs (s.setRequest req)
        case mk q t =>
        simp only [hq] at h
        cases q
        case error e =>
          cases e
          case panic => exact (hpanic h).elim
          case error e =>
            have ht := requestChildren_error
              (childNodes_dropLast (decodeNode_wellFormed hn) hcs) hraw hq
            exact hfail (ht ▸ hset) h
        case ok new =>
          obtain ⟨req', hl, hcommit, hwait⟩ := expand_spec hs hset hp hraw hc hn hcs hq
          simp only [hl] at h
          split at h
          case isTrue he =>
            obtain ⟨hi', hhash, hready⟩ := hcommit he.left he.right
            cases h
            exact commit_spec hs hi' (hhash ▸ hl) he.right hready rfl
          case isFalse he =>
            cases h
            simpa [Except.toOption] using hwait

theorem processItem_spec {item : SyncResult} (hc : G.contents item.hash = some item.data)
    (h : processItem G.callback item s = (r, s')) (hr : r ≠ Go.panics) :
    G.InvAt s' [] none (log ++ r.toOption.getD []) := by
  cases hp : s.requests.lookup item.hash
  case none =>
    simp only [processItem, hp] at h
    cases h
    simpa [Go.fail, Except.toOption] using hi
  case some req =>
    simp only [processItem, hp] at h
    have hh := hi.hash hp
    exact processRequest_spec hs hi (setData_spec hi hp hc) hh.symm rfl (hh ▸ hc) h hr

theorem process_spec {i : Nat} {items : List SyncResult} {batch : List Request}
    {err : Option (Nat × Fault (ProcessError ε))}
    (hc : ∀ item ∈ items, G.contents item.hash = some item.data)
    (h : process G.callback i items s = ((batch, err), s')) (hr : ∀ j, err ≠ some (j, .panic)) :
    G.InvAt s' [] none (log ++ batch) := by
  induction items generalizing i s log batch
  case nil =>
    cases h
    simpa using hi
  case cons item items ih =>
    rw [List.forall_mem_cons] at hc
    cases hp : processItem G.callback item s
    case mk r t =>
    simp only [process, hp] at h
    cases r
    case error e =>
      cases h
      have hne : (.error e : Go (ProcessError ε) (List Request)) ≠ Go.panics := by
        intro he
        cases he
        exact hr i rfl
      exact processItem_spec hs hi hc.left hp hne
    case ok b =>
      simp only at h
      cases hq : process G.callback (i + 1) items t
      case mk q t' =>
      rw [hq] at h
      cases h
      have hi' := processItem_spec hs hi hc.left hp (fun h => by cases h)
      rw [← List.append_assoc]
      exact ih hi' hc.right hq

end TrieSync

variable (callback : Bytes → Go ε (List Entry)) (contents : Hash → Option Bytes) (root : Hash)

-- What is stored under a wanted hash is its content, and a stored node comes with what it refers to.
structure Database.Closed (full : Bool) (db : Database) : Prop where
  agree  : ∀ {role h b}, Wanted callback contents root role h → db h.bytes = some b →
    contents h = some b
  closed : ∀ {role h b n}, Wanted callback contents root role h → role ≠ .raw → db h.bytes = some b →
    decodeNode (some h) b 0 = .ok n →
    ∀ {role' h'}, (role', h') ∈ refs callback (role.least full) n → db.Present role' h'

-- The states that the scheduler reaches. Each delivered blob is the content of its hash, and no
-- call panics.
inductive Run (db : Database) : TrieSync → List Request → Prop
  | new {s : TrieSync} (h : (TrieSync.new root db : Go ε Unit × TrieSync) = (.ok (), s)) : Run db s []
  | missing {s : TrieSync} {log : List Request} (hr : Run db s log) (max : Nat) :
      Run db (s.missing max).snd log
  | process {s s' : TrieSync} {log batch : List Request} {items : List SyncResult}
      {err : Option (Nat × Fault (ProcessError ε))} (hr : Run db s log)
      (hc : ∀ item ∈ items, contents item.hash = some item.data)
      (h : TrieSync.process callback 0 items s = ((batch, err), s'))
      (hp : ∀ i, err ≠ some (i, .panic)) : Run db s' (log ++ batch)

variable {callback contents root} {full : Bool} {init : Database}
variable {db : Database} {s : TrieSync} {log : List Request}

theorem TrieSync.new_spec (hdb : G.init.Closed G.callback G.contents G.root G.full)
    (h : (TrieSync.new G.root G.init : Go ε Unit × TrieSync) = (.ok (), s)) :
    G.InvAt s [] none [] := by
  -- There is no request yet, or the one for the root.
  have hinv {requests : GoMap Hash Request} (hl : ∀ {h req}, requests.lookup h = some req →
      h = G.root ∧ req = Request.new G.root false 0 true ∧ G.root ≠ emptyRoot ∧
        ¬ G.init.Present .watched G.root)
      (hst : G.root ≠ emptyRoot → G.init.Present .watched G.root ∨ G.root ∈ requests) :
      G.Inv requests G.init [] none [] := {
    agree   := hdb.agree
    hash    := fun h => by rw [(hl h).left, (hl h).right.left]; rfl
    wanted  := fun h => by rw [(hl h).left, (hl h).right.left]; exact .root (hl h).right.right.left
    absent  := fun h => by rw [(hl h).left, (hl h).right.left]; exact (hl h).right.right.right
    parents := fun h hm => by rw [(hl h).right.left] at hm; cases hm
    owed    := fun h => by cases h
    deps    := fun {p _} h => by
      have hz : links requests p = 0 := GoMap.total_eq_zero fun a b h => by
        rw [(hl h).right.left]
        rfl
      rw [(hl h).right.left, hz]
      rfl
    waiting := fun h hpos => by rw [(hl h).right.left] at hpos; cases hpos
    closed  := hdb.closed
    started := hst
    kept    := fun h => h
    logged  := fun h => by cases h
    once    := List.nodup_nil }
  unfold TrieSync.new TrieSync.addSubTrie at h
  split at h
  case isTrue he =>
    cases h
    exact hinv (fun h => by cases h) fun hne => absurd he hne
  case isFalse he =>
    obtain ⟨b, t, hb, h⟩ := Act.bind_eq_ok.mp h
    obtain ⟨ht, hp⟩ := resolves_spec hb
    rw [ht] at h
    cases b
    case true =>
      cases h
      exact hinv (fun h => by cases h) fun _ => .inl ((hp (by decide)).mp rfl)
    case false =>
      cases h
      refine hinv (fun {h req} hl => ?_) fun _ => .inr ((AList.mem_insert _).mpr (.inl rfl))
      obtain ⟨hh, hr⟩ | ⟨-, hl⟩ := GoMap.of_lookup_insert hl
      · exact ⟨hh, hr, he, fun h => Bool.false_ne_true ((hp (by decide)).mpr h)⟩
      · cases hl

theorem Run.inv (hs : Separate callback contents root full)
    (hdb : db.Closed callback contents root full) (hr : Run callback contents root db s log) :
    Inv callback contents root full db s.requests s.database [] none log := by
  induction hr
  case new h => exact TrieSync.new_spec (G := ⟨callback, contents, root, full, db⟩) hdb h
  case missing ih => exact ih
  case process hc h hp ih =>
    exact TrieSync.process_spec (G := ⟨callback, contents, root, full, db⟩) hs ih hc h hp

theorem Inv.complete (hi : Inv callback contents root true init s.requests s.database [] none log)
    (hp : s.pending = 0) {role : Role} {h : Hash} (hw : Wanted callback contents root role h) :
    s.database.Present role h := by
  induction hw
  case root hne =>
    cases hi.started hne
    case inl h => exact h
    case inr h =>
      obtain ⟨req, hl⟩ := Option.isSome_iff_exists.mp (AList.lookup_isSome.mpr h)
      have hlen := GoMap.length_erase hl
      rw [TrieSync.pending] at hp
      omega
  case ref role role' h h' b n hw hr hb hn hm ih =>
    obtain ⟨b', hb', hn'⟩ := ih
    obtain ⟨n', hn'⟩ := hn' hr
    have he : b' = b := Option.some.inj ((hi.agree hw hb').symm.trans hb)
    subst he
    rw [hn] at hn'
    exact hi.closed hw hr hb' hn hm

end Trie
