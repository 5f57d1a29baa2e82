import GoEthereum.Trie.Sync

-- What holds of the pending requests and the database in every state of the scheduler.

namespace Trie

open Common

-- The ways in which a hash is referenced: as a node of a trie whose leaves are given to the callback,
-- as a node of a trie whose leaves are not, or as a raw entry.
inductive Role
  | watched
  | plain
  | raw
  deriving DecidableEq

def Request.role (req : Request) : Role :=
  if req.raw then .raw else if req.callback then .watched else .plain

namespace Entry

def role : Entry → Role
  | subTrie _ _ => .plain
  | raw _ _     => .raw

def hash : Entry → Hash
  | subTrie root _ => root
  | raw hash _     => hash

-- The empty trie and the empty code are not stored.
def isEmpty : Entry → Bool
  | subTrie root _ => root = emptyRoot
  | raw hash _     => hash = emptyState

end Entry

def Database.Present (db : Database) (role : Role) (h : Hash) : Prop :=
  ∃ b, db h.bytes = some b ∧ (role ≠ .raw → ∃ n, decodeNode (some h) b 0 = .ok n)

section

variable {ε : Type} (callback : Bytes → Go ε (List Entry))

def entriesOf (leaf : Bytes) : List Entry :=
  match callback leaf with
  | .ok entries => entries.filter (!·.isEmpty)
  | .error _    => []

def childRefs (role : Role) : Node Key → List (Role × Hash)
  | .hash h     => [(role, h)]
  | .value leaf =>
    if role = .watched then (entriesOf callback leaf).map fun e => (e.role, e.hash) else []
  | _           => []

def refs (role : Role) (n : Node Key) : List (Role × Hash) :=
  ((TrieSync.childNodes 0 n).getD []).flatMap fun c => childRefs callback role c.fst

-- What has to be stored for the root: `contents` is what the hashes are the hashes of.
inductive Wanted (contents : Hash → Option Bytes) (root : Hash) : Role → Hash → Prop
  | root (h : root ≠ emptyRoot) : Wanted contents root .watched root
  | ref {role role' : Role} {h h' : Hash} {b : Bytes} {n : Node Key} (hw : Wanted contents root role h)
      (hr : role ≠ .raw) (hb : contents h = some b) (hn : decodeNode (some h) b 0 = .ok n)
      (hm : (role', h') ∈ refs callback role n) : Wanted contents root role' h'

-- The roles are told apart by the hashes. `full` says whether that is so for the two roles of a
-- node as well.
structure Separate (contents : Hash → Option Bytes) (root : Hash) (full : Bool) : Prop where
  raw     : ∀ {role h}, Wanted callback contents root role h → role ≠ .raw →
    ¬ Wanted callback contents root .raw h
  nodes   : full = true → ∀ {h}, Wanted callback contents root .watched h →
    ¬ Wanted callback contents root .plain h
  -- The zero hash stands for a parent that is not there.
  nonzero : ∀ {role}, ¬ Wanted callback contents root role Hash.zero

end

def Role.least (full : Bool) (role : Role) : Role :=
  if full then role else .plain

def links (requests : GoMap Hash Request) (p : Hash) : Nat :=
  requests.total fun req => req.parents.count p

-- What the counters of the requests mean. `debts` are the dependencies that are counted and have no
-- request.
structure Linked (requests : GoMap Hash Request) (debts : List Hash) : Prop where
  hash    : ∀ {h req}, requests.lookup h = some req → req.hash = h
  parents : ∀ {h req p}, requests.lookup h = some req → p ∈ req.parents → p ∈ requests
  owed    : ∀ {p}, p ∈ debts → p ∈ requests
  deps    : ∀ {p req}, requests.lookup p = some req → req.deps = (links requests p + debts.count p : Nat)

namespace Linked

variable {requests : GoMap Hash Request} {debts debts' : List Hash} {p : Hash} {req req' : Request}

theorem links_eq_zero (hi : Linked requests debts) (hp : p ∉ requests) : links requests p = 0 := by
  apply GoMap.total_eq_zero
  intro h c hl
  rw [List.count_eq_zero]
  exact fun hm => hp (hi.parents hl hm)

theorem count_eq_zero (hi : Linked requests debts) (hp : p ∉ requests) : debts.count p = 0 :=
  List.count_eq_zero.mpr fun hm => hp (hi.owed hm)

theorem notMem_parents (hi : Linked requests debts) (hp : requests.lookup p = some req)
    (hd : req.deps = 0) {h : Hash} {c : Request} (hl : requests.lookup h = some c) :
    p ∉ c.parents := by
  intro hm
  have hdeps := hi.deps hp
  have h₁ : c.parents.count p ≤ links requests p := GoMap.le_total (f := fun c => c.parents.count p) hl
  have h₂ := List.count_pos_iff.mpr hm
  omega

theorem replace (more : List Hash) (hi : Linked requests debts) (hp : requests.lookup p = some req)
    (hh : req'.hash = req.hash) (hpar : req'.parents = req.parents ++ more)
    (hd : req'.deps = (links requests p + more.count p + debts'.count p : Nat))
    (hdebts : ∀ {q}, q ≠ p → more.count q + debts'.count q = debts.count q) :
    Linked (requests.insert p req') debts' := by
  have hlinks : ∀ q, links (requests.insert p req') q = links requests q + more.count q := by
    intro q
    rw [links, GoMap.total_insert, links, GoMap.total_of_lookup hp, hpar, List.count_append]
    omega
  have hmem : ∀ {q}, q ∈ requests → q ∈ requests.insert p req' := fun h =>
    (AList.mem_insert _).mpr (.inr h)
  have howed : ∀ {q}, 0 < more.count q + debts'.count q → q ∈ requests := by
    intro q hq
    by_cases hqp : q = p
    case pos => exact hqp ▸ AList.lookup_isSome.mp (by rw [hp]; rfl)
    case neg => exact hi.owed (List.count_pos_iff.mp (hdebts hqp ▸ hq))
  constructor
  case hash =>
    intro h r hl
    obtain ⟨rfl, rfl⟩ | ⟨_, hl⟩ := GoMap.of_lookup_insert hl
    · rw [hh, hi.hash hp]
    · exact hi.hash hl
  case parents =>
    intro h r q hl hm
    obtain ⟨rfl, rfl⟩ | ⟨_, hl⟩ := GoMap.of_lookup_insert hl
    · cases List.mem_append.mp (hpar ▸ hm)
      case inl hm => exact hmem (hi.parents hp hm)
      case inr hm => exact hmem (howed (Nat.add_pos_left (List.count_pos_iff.mpr hm) _))
    · exact hmem (hi.parents hl hm)
  case owed => exact fun hq => hmem (howed (Nat.add_pos_right _ (List.count_pos_iff.mpr hq)))
  case deps =>
    intro q r hl
    rw [hlinks]
    obtain ⟨rfl, rfl⟩ | ⟨he, hl⟩ := GoMap.of_lookup_insert hl
    · exact hd
    · rw [hi.deps hl, ← hdebts he, Nat.add_assoc]

theorem setData (hi : Linked requests debts) (hp : requests.lookup p = some req) (data : Bytes) :
    Linked (requests.insert p { req with data := data }) debts := by
  refine hi.replace [] hp rfl (List.append_nil _).symm ?_ (fun _ => by simp)
  simp only [hi.deps hp, List.count_nil, Nat.add_zero]

theorem raise (hi : Linked requests debts) (hp : requests.lookup p = some req) (n : Nat) :
    Linked (requests.insert p { req with deps := req.deps + n }) (List.replicate n p ++ debts) := by
  refine hi.replace [] hp rfl (List.append_nil _).symm ?_ fun {q} hq => ?_
  · simp only [hi.deps hp, List.count_append, List.count_nil, List.count_replicate_self]
    omega
  · rw [List.count_nil, Nat.zero_add, List.count_append, List.count_eq_zero.mpr, Nat.zero_add]
    exact fun h => hq (List.mem_replicate.mp h).right

theorem lower (hi : Linked requests (p :: debts)) (hp : requests.lookup p = some req) :
    Linked (requests.insert p { req with deps := req.deps - 1 }) debts := by
  have hdeps := hi.deps hp
  rw [List.count_cons_self] at hdeps
  refine hi.replace [] hp rfl (List.append_nil _).symm ?_ fun {q} hq => ?_
  · simp only [List.count_nil]
    omega
  · rw [List.count_nil, List.count_cons_of_ne (Ne.symm hq), Nat.zero_add]

theorem add (hi : Linked requests (req.parents ++ debts)) (hp : requests.lookup req.hash = none)
    (hd : req.deps = 0) : Linked (requests.insert req.hash req) debts := by
  have hnot : req.hash ∉ requests := AList.lookup_eq_none.mp hp
  have hlinks : ∀ q, links (requests.insert req.hash req) q = req.parents.count q + links requests q :=
    fun q => GoMap.total_insert_of_lookup_none hp
  have hmem : ∀ {q}, q ∈ requests → q ∈ requests.insert req.hash req :=
    fun h => (AList.mem_insert _).mpr (.inr h)
  constructor
  case hash =>
    intro h r hl
    obtain ⟨rfl, rfl⟩ | ⟨_, hl⟩ := GoMap.of_lookup_insert hl
    · rfl
    · exact hi.hash hl
  case parents =>
    intro h r q hl hm
    obtain ⟨rfl, rfl⟩ | ⟨_, hl⟩ := GoMap.of_lookup_insert hl
    · exact hmem (hi.owed (List.mem_append_left _ hm))
    · exact hmem (hi.parents hl hm)
  case owed => exact fun hq => hmem (hi.owed (List.mem_append_right _ hq))
  case deps =>
    intro q r hl
    rw [hlinks]
    obtain ⟨rfl, rfl⟩ | ⟨_, hl⟩ := GoMap.of_lookup_insert hl
    · have hc := hi.count_eq_zero hnot
      rw [List.count_append] at hc
      rw [hi.links_eq_zero hnot]
      omega
    · rw [hi.deps hl, List.count_append]
      omega

theorem erase (hi : Linked requests debts) (hp : requests.lookup p = some req) (hd : req.deps = 0) :
    Linked (requests.erase p) (req.parents ++ debts) := by
  have hdeps := hi.deps hp
  have hlinks : ∀ q, links requests q = req.parents.count q + links (requests.erase p) q :=
    fun q => GoMap.total_of_lookup hp
  have hpdebt : p ∉ debts := by
    intro hm
    have h₂ := List.count_pos_iff.mpr hm
    omega
  have hmem : ∀ {q}, q ∈ requests → q ≠ p → q ∈ requests.erase p := fun h hq =>
    AList.mem_erase.mpr ⟨hq, h⟩
  have hold : ∀ {h c}, (requests.erase p).lookup h = some c → requests.lookup h = some c :=
    fun hl => (GoMap.of_lookup_erase hl).right
  constructor
  case hash => exact fun hl => hi.hash (hold hl)
  case parents =>
    intro h c q hl hm
    have hl := hold hl
    exact hmem (hi.parents hl hm) fun he => hi.notMem_parents hp hd hl (he ▸ hm)
  case owed =>
    intro q hq
    cases List.mem_append.mp hq
    case inl hq => exact hmem (hi.parents hp hq) fun he => hi.notMem_parents hp hd hp (he ▸ hq)
    case inr hq => exact hmem (hi.owed hq) fun he => hpdebt (he ▸ hq)
  case deps =>
    intro q c hl
    rw [hi.deps (hold hl), hlinks, List.count_append]
    omega

end Linked

section

variable {ε : Type} (callback : Bytes → Go ε (List Entry)) (contents : Hash → Option Bytes)
variable (root : Hash) (full : Bool) (init : Database)

-- A request waits for all that its node refers to and that is not stored.
structure Request.Expanded (requests : GoMap Hash Request) (db : Database) (req : Request) : Prop where
  node : req.raw = false
  data : contents req.hash = some req.data
  refs : ∃ n, decodeNode (some req.hash) req.data 0 = .ok n ∧ ∀ role h, (role, h) ∈ refs callback req.role n →
    db.Present role h ∨ ∃ c, requests.lookup h = some c ∧ req.hash ∈ c.parents

structure Request.Ready (db : Database) (req : Request) : Prop where
  data : contents req.hash = some req.data
  refs : req.raw = false → ∃ n, decodeNode (some req.hash) req.data 0 = .ok n ∧
    ∀ role h, (role, h) ∈ Trie.refs callback req.role n → db.Present role h

-- `debts` are dependencies that are counted and have no request, `busy` is the request whose
-- children are about to be scheduled, and `log` are the requests that were committed.
structure Inv (requests : GoMap Hash Request) (db : Database) (debts : List Hash)
    (busy : Option Hash) (log : List Request) : Prop where
  agree   : ∀ {role h b}, Wanted callback contents root role h → db h.bytes = some b →
    contents h = some b
  hash    : ∀ {h req}, requests.lookup h = some req → req.hash = h
  wanted  : ∀ {h req}, requests.lookup h = some req → Wanted callback contents root req.role h
  absent  : ∀ {h req}, requests.lookup h = some req → ¬ db.Present req.role h
  parents : ∀ {h req p}, requests.lookup h = some req → p ∈ req.parents → p ∈ requests
  owed    : ∀ {p}, p ∈ debts → p ∈ requests
  deps    : ∀ {p req}, requests.lookup p = some req → req.deps = (links requests p + debts.count p : Nat)
  waiting : ∀ {p req}, requests.lookup p = some req → 0 < req.deps → busy ≠ some p →
    req.Expanded callback contents requests db
  closed  : ∀ {role h b n}, Wanted callback contents root role h → role ≠ .raw → db h.bytes = some b →
    decodeNode (some h) b 0 = .ok n →
    ∀ {role' h'}, (role', h') ∈ refs callback (role.least full) n → db.Present role' h'
  started : root ≠ emptyRoot → db.Present .watched root ∨ root ∈ requests
  kept    : ∀ {k b}, init k = some b → db k = some b
  logged  : ∀ {req}, req ∈ log → db.Present req.role req.hash ∧
    Wanted callback contents root req.role req.hash ∧ req.Ready callback contents db
  once    : (log.map Request.hash).Nodup

end

variable {ε : Type} {callback : Bytes → Go ε (List Entry)} {contents : Hash → Option Bytes}
variable {root : Hash} {full : Bool} {init : Database}

theorem Database.put_apply (db : Database) (h k : Hash) (b : Bytes) :
    db.put h.bytes b k.bytes = if k = h then some b else db k.bytes := by
  by_cases hk : k = h
  case pos => simp [Database.put, hk]
  case neg =>
    have hb : k.bytes ≠ h.bytes := fun he => hk (Hash.bytes_injective he)
    simp [Database.put, hk, hb]

variable {h : Hash} {req : Request} {n : Node Key}

theorem Database.Present.congr {db : Database} {role role' : Role} (hp : db.Present role h)
    (hr : role' ≠ .raw → role ≠ .raw) : db.Present role' h :=
  have ⟨b, hb, hn⟩ := hp
  ⟨b, hb, fun h => hn (hr h)⟩

namespace Separate

variable (hs : Separate callback contents root full)

include hs

theorem present {db : Database} {role role' : Role} {h : Hash}
    (hw : Wanted callback contents root role h) (hw' : Wanted callback contents root role' h)
    (hp : db.Present role h) : db.Present role' h := by
  refine hp.congr fun hr' hr => ?_
  exact hs.raw hw' hr' (hr ▸ hw)

end Separate

theorem Request.role_eq_raw : req.role = .raw ↔ req.raw = true := by
  unfold Request.role
  split
  case isTrue h  => simp [h]
  case isFalse h => split <;> simp_all

theorem Request.role_ne_raw : req.role ≠ .raw ↔ req.raw = false := by
  rw [ne_eq, Request.role_eq_raw, Bool.not_eq_true]

theorem Request.role_congr {req req' : Request} (hr : req'.raw = req.raw)
    (hc : req'.callback = req.callback) : req'.role = req.role := by
  simp only [Request.role, hr, hc]

theorem mem_refs {role role' : Role} :
    (role', h) ∈ refs callback role n ↔
      ∃ c ∈ (TrieSync.childNodes 0 n).getD [], (role', h) ∈ childRefs callback role c.fst := by
  simp only [refs, List.mem_flatMap]

theorem mem_refs_plain (role : Role) {role' : Role} (hm : (role', h) ∈ refs callback .plain n) :
    role' = .plain ∧ (role, h) ∈ refs callback role n := by
  obtain ⟨c, hc, hm⟩ := mem_refs.mp hm
  obtain ⟨c, depth⟩ := c
  cases c
  case hash h' =>
    simp only [childRefs, List.mem_singleton, Prod.mk.injEq] at hm
    exact ⟨hm.left, mem_refs.mpr ⟨_, hc, by simp [childRefs, hm.right]⟩⟩
  all_goals simp [childRefs] at hm

-- The role in which a node was requested covers the references that have to be stored with it.
theorem Separate.mem_refs_least (hs : Separate callback contents root full) {role role' ρ : Role} {h h' : Hash} (hw : Wanted callback contents root role h) (hr : role ≠ .raw)
    (hw' : Wanted callback contents root role' h) (hr' : role' ≠ .raw)
    (hm : (ρ, h') ∈ refs callback (role.least full) n) :
    ∃ ρ', (ρ ≠ .raw → ρ' ≠ .raw) ∧ (ρ', h') ∈ refs callback role' n := by
  cases full
  case false =>
    obtain ⟨_, hm⟩ := mem_refs_plain role' hm
    exact ⟨role', fun _ => hr', hm⟩
  case true =>
    have he : role = role' := by
      cases role <;> cases role' <;> try contradiction
      case watched.plain => exact absurd hw' (hs.nodes rfl hw)
      case plain.watched => exact absurd hw (hs.nodes rfl hw')
      all_goals rfl
    exact ⟨ρ, fun h => h, he ▸ hm⟩

theorem Request.Expanded.mono {requests requests' : GoMap Hash Request} {db db' : Database} (he : req.Expanded callback contents requests db)
    (hw : Wanted callback contents root req.role req.hash)
    (hp : ∀ {role h}, db.Present role h → db'.Present role h)
    (hc : ∀ {h c}, requests.lookup h = some c → req.hash ∈ c.parents →
      (∃ c', requests'.lookup h = some c' ∧ req.hash ∈ c'.parents) ∨
        ∀ {role}, Wanted callback contents root role h → db'.Present role h) :
    req.Expanded callback contents requests' db' where
  node := he.node
  data := he.data
  refs := by
    obtain ⟨n, hn, hr⟩ := he.refs
    refine ⟨n, hn, fun role h hm => ?_⟩
    have hraw : req.role ≠ .raw := Request.role_ne_raw.mpr he.node
    cases hr role h hm
    case inl h => exact .inl (hp h)
    case inr h =>
      obtain ⟨c, hl, hm'⟩ := h
      cases hc hl hm'
      case inl h => exact .inr h
      case inr h => exact .inl (h (.ref hw hraw he.data hn hm))

namespace Inv

variable {requests : GoMap Hash Request} {db : Database} {debts debts' : List Hash}
variable {busy busy' : Option Hash} {log : List Request} {p : Hash} {req req' : Request}

section

variable (hi : Inv callback contents root full init requests db debts busy log)
include hi

theorem linked :
    Linked requests debts :=
  ⟨hi.hash, hi.parents, hi.owed, hi.deps⟩

theorem replace
    (hp : requests.lookup p = some req) (hlinked : Linked (requests.insert p req') debts')
    (hr : req'.role = req.role) (hpar : req.parents ⊆ req'.parents)
    (hw : 0 < req'.deps → busy' ≠ some p → req'.Expanded callback contents requests db)
    (hbusy : ∀ {q}, q ≠ p → busy' ≠ some q → busy ≠ some q) :
    Inv callback contents root full init (requests.insert p req') db debts' busy' log := by
  have hh : req'.hash = req.hash :=
    (hlinked.hash (AList.lookup_insert _)).trans (hi.hash hp).symm
  -- An entry of the new map has an entry of the old one with the same role.
  have hold : ∀ {h r}, (requests.insert p req').lookup h = some r → ∃ r₀, requests.lookup h = some r₀ ∧
      r.hash = r₀.hash ∧ r.role = r₀.role := by
    intro h r hl
    obtain ⟨rfl, rfl⟩ | ⟨_, hl⟩ := GoMap.of_lookup_insert hl
    · exact ⟨req, hp, hh, hr⟩
    · exact ⟨r, hl, rfl, rfl⟩
  have hkeep : ∀ {r : Request}, r.Expanded callback contents requests db →
      Wanted callback contents root r.role r.hash →
      r.Expanded callback contents (requests.insert p req') db := by
    intro r he hwr
    refine he.mono hwr (fun h => h) fun {h c} hl hm => .inl ?_
    by_cases hhp : h = p
    case pos =>
      refine ⟨req', by rw [hhp, AList.lookup_insert], ?_⟩
      rw [hhp, hp] at hl
      cases hl
      exact hpar hm
    case neg => exact ⟨c, by rwa [AList.lookup_insert_ne hhp], hm⟩
  refine { hlinked, hi with
    wanted := ?wanted, absent := ?absent, waiting := ?waiting, started := ?started }
  case wanted =>
    intro h r hl
    obtain ⟨r₀, hl, _, hr⟩ := hold hl
    exact hr ▸ hi.wanted hl
  case absent =>
    intro h r hl
    obtain ⟨r₀, hl, _, hr⟩ := hold hl
    exact hr ▸ hi.absent hl
  case waiting =>
    intro q r hl hpos hb
    obtain ⟨r₀, hl₀, hh₀, hr₀⟩ := hold hl
    have hwq := hi.wanted hl₀
    rw [← hi.hash hl₀, ← hh₀, ← hr₀] at hwq
    obtain ⟨rfl, rfl⟩ | ⟨he, hl⟩ := GoMap.of_lookup_insert hl
    · exact hkeep (hw hpos hb) hwq
    · exact hkeep (hi.waiting hl hpos (hbusy he hb)) hwq
  case started => exact fun h => (hi.started h).imp_right fun h => (AList.mem_insert _).mpr (.inr h)

theorem setBusy
    (hb : ∀ {p req}, requests.lookup p = some req → 0 < req.deps → busy' ≠ some p → busy ≠ some p) :
    Inv callback contents root full init requests db debts busy' log :=
  { hi with waiting := fun hl hpos h => hi.waiting hl hpos (hb hl hpos h) }

end

theorem finish (hi : Inv callback contents root full init requests db debts (some p) log)
    (he : ∀ {req}, requests.lookup p = some req → req.Expanded callback contents requests db) :
    Inv callback contents root full init requests db debts none log where
  __ := hi
  waiting {q req} hl hpos _ := by
    by_cases hq : q = p
    case pos => exact he (hq ▸ hl)
    case neg => exact hi.waiting hl hpos fun h => hq (Option.some.inj h).symm

theorem add (hi : Inv callback contents root full init requests db (req.parents ++ debts) busy log)
    (hp : requests.lookup req.hash = none) (hw : Wanted callback contents root req.role req.hash)
    (ha : ¬ db.Present req.role req.hash) (hd : req.deps = 0) :
    Inv callback contents root full init (requests.insert req.hash req) db debts busy log := by
  have hlinked := hi.linked.add hp hd
  refine { hlinked, hi with
    wanted := ?wanted, absent := ?absent, waiting := ?waiting, started := ?started }
  case wanted =>
    intro h r hl
    obtain ⟨rfl, rfl⟩ | ⟨_, hl⟩ := GoMap.of_lookup_insert hl
    · exact hw
    · exact hi.wanted hl
  case absent =>
    intro h r hl
    obtain ⟨rfl, rfl⟩ | ⟨_, hl⟩ := GoMap.of_lookup_insert hl
    · exact ha
    · exact hi.absent hl
  case waiting =>
    intro q r hl hpos hb
    obtain ⟨rfl, rfl⟩ | ⟨_, hl⟩ := GoMap.of_lookup_insert hl
    · exact absurd hpos (by rw [hd]; exact lt_irrefl _)
    · have hwq := hi.wanted hl
      rw [← hi.hash hl] at hwq
      refine (hi.waiting hl hpos hb).mono hwq (fun h => h) fun {h c} hl hm => .inl ⟨c, ?_, hm⟩
      have hne : h ≠ req.hash := fun he => by rw [he, hp] at hl; cases hl
      rwa [AList.lookup_insert_ne hne]
  case started => exact fun h => (hi.started h).imp_right fun h => (AList.mem_insert _).mpr (.inr h)

theorem erase (hs : Separate callback contents root full)
    (hi : Inv callback contents root full init requests db debts busy log)
    (hp : requests.lookup p = some req) (hd : req.deps = 0) (hr : req.Ready callback contents db) :
    Inv callback contents root full init (requests.erase p) (db.put p.bytes req.data)
      (req.parents ++ debts) busy (log ++ [req]) := by
  have hh : req.hash = p := hi.hash hp
  have hw := hi.wanted hp
  have hlinked := hi.linked.erase hp hd
  have hdata : contents p = some req.data := hh ▸ hr.data
  have hpres : ∀ {role h}, db.Present role h → (db.put p.bytes req.data).Present role h := by
    intro role h ⟨b, hb, hn⟩
    refine ⟨b, ?_, hn⟩
    rw [Database.put_apply]
    split
    case isTrue he => rw [← hdata, hi.agree hw (he ▸ hb)]
    case isFalse he => exact hb
  have hstored : ∀ {role h}, h = p → Wanted callback contents root role h →
      (db.put p.bytes req.data).Present role h := by
    intro role h he hw'
    subst he
    refine hs.present hw hw' ⟨req.data, by rw [Database.put_apply, if_pos rfl], fun hraw => ?_⟩
    obtain ⟨n, hn, _⟩ := hr.refs (Request.role_ne_raw.mp hraw)
    exact ⟨n, hh ▸ hn⟩
  have hmem : ∀ {q}, q ∈ requests → q ≠ p → q ∈ requests.erase p := fun h hq =>
    AList.mem_erase.mpr ⟨hq, h⟩
  refine { hlinked with
    agree := ?agree, wanted := ?wanted, absent := ?absent, waiting := ?waiting, closed := ?closed
    started := ?started, kept := ?kept, logged := ?logged, once := ?once }
  case agree =>
    intro role h b hw hb
    rw [Database.put_apply] at hb
    split at hb
    case isTrue he  => rw [he, hdata, hb]
    case isFalse he => exact hi.agree hw hb
  case wanted => exact fun hl => hi.wanted (GoMap.of_lookup_erase hl).right
  case absent =>
    intro h c hl hc
    obtain ⟨hne, hl⟩ := GoMap.of_lookup_erase hl
    obtain ⟨b, hb, hn⟩ := hc
    rw [Database.put_apply, if_neg hne] at hb
    exact hi.absent hl ⟨b, hb, hn⟩
  case waiting =>
    intro q c hl hpos hb
    have hl := (GoMap.of_lookup_erase hl).right
    have hwq := hi.wanted hl
    rw [← hi.hash hl] at hwq
    refine (hi.waiting hl hpos hb).mono hwq hpres fun {h c'} hl' hm => ?_
    by_cases hhp : h = p
    case pos => exact .inr (hstored hhp)
    case neg => exact .inl ⟨c', by rwa [AList.lookup_erase_ne hhp], hm⟩
  case closed =>
    intro role h b n hw' hraw hb hn role' h' hm
    rw [Database.put_apply] at hb
    split at hb
    case isTrue he =>
      cases hb
      subst he
      have hraw' : req.role ≠ .raw := fun h => hs.raw hw' hraw (h ▸ hw)
      obtain ⟨n', hn', hrefs⟩ := hr.refs (Request.role_ne_raw.mp hraw')
      rw [hh, hn] at hn'
      cases hn'
      obtain ⟨role'', hk, hm⟩ := hs.mem_refs_least hw' hraw hw hraw' hm
      exact hpres ((hrefs role'' h' hm).congr hk)
    case isFalse he => exact hpres (hi.closed hw' hraw hb hn hm)
  case started =>
    intro h
    by_cases hrp : root = p
    case pos => exact .inl (hstored hrp (.root h))
    case neg => exact (hi.started h).imp hpres fun hm => hmem hm hrp
  case kept =>
    intro k b hb
    have hb := hi.kept hb
    by_cases hk : k = p.bytes
    case pos =>
      rw [hk, Database.put_apply, if_pos rfl, ← hdata]
      exact hi.agree hw (hk ▸ hb)
    case neg => rwa [Database.put, Function.update_of_ne hk]
  case logged =>
    intro r hm
    cases List.mem_append.mp hm
    case inl hm =>
      obtain ⟨h₁, h₂, h₃⟩ := hi.logged hm
      refine ⟨hpres h₁, h₂, h₃.data, fun hraw => ?_⟩
      obtain ⟨n, hn, hrefs⟩ := h₃.refs hraw
      exact ⟨n, hn, fun role h hm => hpres (hrefs role h hm)⟩
    case inr hm =>
      cases List.mem_singleton.mp hm
      refine ⟨hh ▸ hstored rfl hw, hh ▸ hw, hr.data, fun hraw => ?_⟩
      obtain ⟨n, hn, hrefs⟩ := hr.refs hraw
      exact ⟨n, hn, fun role h hm => hpres (hrefs role h hm)⟩
  case once =>
    rw [List.map_append, List.map_singleton, List.nodup_append_comm, List.singleton_append,
      List.nodup_cons]
    refine ⟨fun hm => ?_, hi.once⟩
    obtain ⟨r, hm, he⟩ := List.mem_map.mp hm
    obtain ⟨h₁, h₂, _⟩ := hi.logged hm
    rw [he, hh] at h₁ h₂
    exact hi.absent hp (hs.present h₂ hw h₁)

end Inv

end Trie
