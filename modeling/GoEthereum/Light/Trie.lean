import GoEthereum.Trie.Missing

-- The trie of a light client, which retrieves the nodes that it misses and tries again.

namespace Light

open Common Trie Trie.Merkle

structure LightTrie where
  -- The encapsulated trie, which is opened before the first request.
  trie : Option Trie
  root : Hash
  db   : Database

section

variable {α : Type}

-- The key that is retrieved to get at a missing node.
def requestKey (fallbackKey : Bytes) (mn : MissingNodeError) : Bytes :=
  if mn.prefixLen + mn.suffixLen > 0 then mn.key else fallbackKey

-- `do` tries and retries to execute a function until it returns with no error. `retrieve` is the
-- network, which adds nodes to the database or fails.
def LightTrie.doRetry (retrieve : Database → Bytes → Option Database) (fallbackKey : Bytes)
    (fn : LightTrie → LightTrie × Go MissingNodeError α) :
    Nat → LightTrie → Option (LightTrie × Go MissingNodeError α)
  | 0, _ => none
  | fuel + 1, t =>
    match fn t with
    | (t, .error (.error mn)) =>
      match retrieve t.db (requestKey fallbackKey mn) with
      | none    => some (t, .error (.error mn))
      | some db => doRetry retrieve fallbackKey fn fuel { t with db := db }
    | res => some res

end

-- A call with the hash of its key, as the encapsulated `SecureTrie` passes it on.
def secure (keccak : Bytes → Hash) : Access → Access
  | .tryGet key          => .tryGet ⟨(keccak key.val).bytes, by simp [Hash.bytes_length]⟩
  | .tryUpdate key value => .tryUpdate ⟨(keccak key.val).bytes, by simp [Hash.bytes_length]⟩ value
  | .tryDelete key       => .tryDelete ⟨(keccak key.val).bytes, by simp [Hash.bytes_length]⟩

def key : Access → Bytes
  | .tryGet key      => key.val
  | .tryUpdate key _ => key.val
  | .tryDelete key   => key.val

def newSecure (root : Hash) (db : Database) (cachelimit : UInt16) : Go MissingNodeError Trie := do
  let trie ← Trie.new root db
  pure (trie.setCacheLimit cachelimit)

-- The function that the methods pass to `do`.
def LightTrie.attempt (keccak : Bytes → Hash) (x : Access) (t : LightTrie) :
    LightTrie × Go MissingNodeError (Option Bytes) :=
  let opened : Go MissingNodeError Trie := match t.trie with
    | none      => newSecure t.root t.db 0
    | some trie => pure trie
  match opened with
  | .error e => (t, .error e)
  | .ok trie =>
    match trie.access t.db (secure keccak x) with
    | .error e        => ({ t with trie := some trie }, .error e)
    | .ok (res, trie) => ({ t with trie := some trie }, .ok res)

-- `Get`, `Update` and `Delete`
def LightTrie.call (keccak : Bytes → Hash) (retrieve : Database → Bytes → Option Database)
    (x : Access) (fuel : Nat) (t : LightTrie) : Option (LightTrie × Go MissingNodeError (Option Bytes)) :=
  LightTrie.doRetry retrieve (key x) (LightTrie.attempt keccak x) fuel t

section

def missing (N : List Hash) (D : Database) : Nat :=
  (N.filter fun h => (D h.bytes).isNone).length

theorem missing_lt {N : List Hash} {D D' : Database} (hp : D.Part D') {h : Hash} (hN : h ∈ N)
    (hD : D h.bytes = none) (hD' : D' h.bytes ≠ none) : missing N D' < missing N D := by
  have hsub : (N.filter fun h => (D' h.bytes).isNone) =
      (N.filter fun h => (D h.bytes).isNone).filter fun h => (D' h.bytes).isNone := by
    rw [List.filter_filter]
    apply List.filter_congr
    intro g _
    rcases hp g.bytes with h | h <;> simp [h]
  rw [missing, hsub, missing, List.length_filter_lt_length_iff_exists]
  exact ⟨h, by simp [hN, hD], by simpa using hD'⟩

variable {α : Type} {fn : LightTrie → LightTrie × Go MissingNodeError α}
variable (retrieve : Database → Bytes → Option Database) (fallbackKey : Bytes)

-- If every error names a node that is missing and the node is there in the next round, the loop ends.
theorem doRetry_ends (I : LightTrie → Prop) (N : List Hash) {fuel : Nat} {t : LightTrie}
    (hdb : ∀ t, (fn t).fst.db = t.db)
    (hfail : ∀ t mn, I t → (fn t).snd = Go.fail mn → t.db mn.nodeHash.bytes = none ∧ mn.nodeHash ∈ N)
    (hserve : ∀ t mn, I t → (fn t).snd = Go.fail mn →
      ∃ D, retrieve t.db (requestKey fallbackKey mn) = some D ∧ t.db.Part D ∧
        D mn.nodeHash.bytes ≠ none ∧ I { (fn t).fst with db := D })
    (hi : I t) (hf : missing N t.db < fuel) :
    ∃ t', I t' ∧ LightTrie.doRetry retrieve fallbackKey fn fuel t = some (fn t') ∧
      ∀ mn, (fn t').snd ≠ Go.fail mn := by
  induction fuel generalizing t
  case zero => omega
  case succ fuel ih =>
    by_cases hmn : ∃ mn, (fn t).snd = Go.fail mn
    case neg =>
      push Not at hmn
      refine ⟨t, hi, ?_, hmn⟩
      rw [LightTrie.doRetry]
      split
      case h_1 t' mn heq => exact absurd (by rw [heq]; rfl) (hmn mn)
      case h_2           => rfl
    case pos =>
      obtain ⟨mn, hmn⟩ := hmn
      obtain ⟨hD, hN⟩ := hfail t mn hi hmn
      obtain ⟨D, hret, hpart, hnode, hinv⟩ := hserve t mn hi hmn
      obtain ⟨t', hi', hdo, hend⟩ := ih hinv (by have := missing_lt hpart hN hD hnode; simp; omega)
      refine ⟨t', hi', ?_, hend⟩
      rw [LightTrie.doRetry]
      have heq : fn t = ((fn t).fst, .error (.error mn)) := Prod.ext rfl hmn
      rw [heq]
      simp only [hdb, hret]
      exact hdo

end

variable {keccak : Bytes → Hash} {S : Set Bytes}

theorem attempt_of_some {x : Access} {t : LightTrie} {trie : Trie} (ht : t.trie = some trie) :
    LightTrie.attempt keccak x t =
      match trie.access t.db (secure keccak x) with
      | .error e        => (t, .error e)
      | .ok (res, trie) => ({ t with trie := some trie }, .ok res) := by
  cases t
  obtain rfl := ht
  simp only [LightTrie.attempt, pure, Except.pure]

-- What a retrieval does for a call: it adds nodes of the whole database, with the missing one.
def Serves (keccak : Bytes → Hash) (retrieve : Database → Bytes → Option Database) (W : Database)
    (trie : Trie) (x : Access) : Prop :=
  ∀ (D : Database) (mn : MissingNodeError), D.Part W →
    trie.access D (secure keccak x) = Go.fail mn →
    ∃ D', retrieve D (requestKey (key x) mn) = some D' ∧ D.Part D' ∧ D'.Part W ∧
      D' mn.nodeHash.bytes ≠ none

theorem call_ends {retrieve : Database → Bytes → Option Database} {W : Database} {trie : Trie}
    {t : Tree} {x : Access} {lt : LightTrie} (ht : Wf [] t) (hr : Rep keccak W S true trie.root t)
    (hserves : Serves keccak retrieve W trie x) (hlt : lt.trie = some trie) (hD : lt.db.Part W) :
    ∃ fuel lt' res, LightTrie.call keccak retrieve x fuel lt = some (lt', res) ∧
      ((∃ v trie', trie.access W (secure keccak x) = .ok (v, trie') ∧ res = .ok v ∧
        lt'.trie = some trie') ∨
      (Blocked trie lt'.db (secure keccak x) ∧ res = Go.panics)) := by
  have hdb (t : LightTrie) : (LightTrie.attempt keccak x t).fst.db = t.db := by
    simp only [LightTrie.attempt]
    split <;> try split
    all_goals rfl
  have hfails {t : LightTrie} {mn : MissingNodeError} (hti : t.trie = some trie ∧ t.db.Part W)
      (hf : (LightTrie.attempt keccak x t).snd = Go.fail mn) :
      trie.access t.db (secure keccak x) = Go.fail mn ∧ (LightTrie.attempt keccak x t).fst = t := by
    rw [attempt_of_some hti.left] at hf ⊢
    cases hacc : trie.access t.db (secure keccak x) <;> simp only [hacc] at hf
    case error e =>
      obtain rfl : e = .error mn := by simpa [Go.fail] using hf
      exact ⟨rfl, rfl⟩
    case ok      => simp [Go.fail] at hf
  obtain ⟨v, trie', hok⟩ := access_spec ht hr (secure keccak x)
  have hfalls {D : Database} (hD : D.Part W) := access_falls hD ht hr (secure keccak x)
  rw [hok] at hfalls
  obtain ⟨lt', hinv, hdo, hend⟩ := doRetry_ends retrieve (key x)
    (fun t => t.trie = some trie ∧ t.db.Part W) (nodeHashes keccak t) hdb
    (fun t mn hti hf => by
      obtain ⟨hacc, _⟩ := hfails hti hf
      obtain ⟨hD, _, hN⟩ := (hacc ▸ hfalls hti.right).of_fail
      exact ⟨hD, hN⟩)
    (fun t mn hti hf => by
      obtain ⟨hacc, hfst⟩ := hfails hti hf
      obtain ⟨D', hret, h₁, h₂, h₃⟩ := hserves t.db mn hti.right hacc
      rw [hfst]
      exact ⟨D', hret, h₁, h₃, hti.left, h₂⟩)
    ⟨hlt, hD⟩ (Nat.lt_succ_self _)
  refine ⟨_, (LightTrie.attempt keccak x lt').fst, (LightTrie.attempt keccak x lt').snd, hdo, ?_⟩
  rw [attempt_of_some hinv.left] at hend ⊢
  have hlast := hfalls hinv.right
  cases hacc : trie.access lt'.db (secure keccak x)
  case error e =>
    rw [hacc] at hlast
    cases e
    case error mn => exact absurd (by rw [hacc]; rfl) (hend mn)
    case panic    => exact .inr ⟨hlast.of_panics, rfl⟩
  case ok r =>
    rw [hacc] at hlast
    obtain rfl := hlast.of_ok
    exact .inl ⟨v, trie', hok, rfl, rfl⟩

-- What a call does on a trie whose database is missing nodes. It panics exactly if it is blocked.
-- An error names a missing node and leaves the trie as before, and if the call is repeated with the
-- named nodes added, it comes to its result on the whole database.
theorem access_missing_iff (db : Database) (ops : List Op)
    (hcf : CollisionFree keccak ({[0x80]} ∪ hashedIn keccak db ops))
    (hz : ∀ i, Op.reopen i ∈ ops → NoZero keccak (hashedIn keccak db ops)) :
    ∃ s outs, (Session.start db).run keccak ops = .ok (s, outs) ∧
      ∀ D : Database, D.Part s.db → ∀ x : Access,
        (s.trie.access D x ≠ Go.panics ↔ ¬Blocked s.trie D x) ∧
        (∀ r, s.trie.access D x = .ok r → s.trie.access s.db x = .ok r) ∧
        (∀ mn, s.trie.access D x = Go.fail mn →
          D mn.nodeHash.bytes = none ∧ s.db mn.nodeHash.bytes ≠ none) ∧
        ∀ retrieve root, Serves keccak retrieve s.db s.trie x →
          ∃ fuel lt res, LightTrie.call keccak retrieve x fuel ⟨some s.trie, root, D⟩ = some (lt, res) ∧
            ((∃ v trie, s.trie.access s.db (secure keccak x) = .ok (v, trie) ∧ res = .ok v ∧
              lt.trie = some trie) ∨
            (Blocked s.trie lt.db (secure keccak x) ∧ res = Go.panics)) := by
  obtain ⟨s, outs, hrun, hs, _⟩ := (Sim.start db).run hcf ops (fun i h => (hz i h).union hcf)
    (hashed_of_run Set.subset_union_right)
  obtain ⟨t, ht, hr, -⟩ := hs.cur
  refine ⟨s, outs, hrun, fun D hD x => ?_⟩
  obtain ⟨v, trie, hok⟩ := access_spec ht hr x
  have hfalls := access_falls hD ht hr x
  rw [hok] at hfalls
  refine ⟨⟨fun h hb => h (hfalls.panics hb), fun hb h => ?_⟩, fun r h => ?_, fun mn h => ?_, ?_⟩
  · rw [h] at hfalls
    exact hb hfalls.of_panics
  · rw [h] at hfalls
    rw [hok, hfalls.of_ok]
  · rw [h] at hfalls
    exact ⟨hfalls.of_fail.left, hfalls.of_fail.right.left⟩
  · intro retrieve root hserves
    have hlt : (⟨some s.trie, root, D⟩ : LightTrie).trie = some s.trie := rfl
    obtain ⟨fuel, lt, res, hcall, h⟩ := call_ends ht hr hserves hlt hD
    exact ⟨fuel, lt, res, hcall, h⟩

-- A full root with an embedded leaf and one that is stored by its hash.

def sampleLeafEnc : Bytes :=
  [0xe2, 0x31, 0xa0] ++ List.replicate 32 0x07

def sampleLeafHash : Hash :=
  ⟨[0xf6, 0x3b, 0x76, 0x6d, 0x91, 0x50, 0x2b, 0x25, 0x2b, 0x5d, 0x05, 0xad, 0x14, 0x48, 0x75, 0x2a,
    0xf0, 0x1c, 0xe3, 0x0d, 0xd7, 0x60, 0x12, 0x90, 0x8a, 0x43, 0x6a, 0x1e, 0xba, 0xa8, 0xfa, 0x6b],
    rfl⟩

def sampleForkEnc : Bytes :=
  [0xf3, 0xc2, 0x31, 0x02, 0xa0] ++ sampleLeafHash.bytes ++ List.replicate 15 0x80

def sampleForkKeccak (e : Bytes) : Hash :=
  if e = sampleLeafEnc then
    sampleLeafHash
  else if e = sampleForkEnc then
    ⟨[0xa8, 0x5f, 0x3c, 0x10, 0x1c, 0x34, 0x0f, 0xaa, 0x4f, 0x43, 0x93, 0xe3, 0xb1, 0x0f, 0x25, 0xe9,
      0xcc, 0xac, 0x80, 0xc7, 0xb1, 0x8b, 0x2f, 0x17, 0x18, 0x57, 0xd0, 0xea, 0x3f, 0xf7, 0x05, 0x01],
      rfl⟩
  else
    emptyRoot

theorem sampleForkKey_fits : 2 * 1 + 1 < 2 ^ 63 := by
  decide

theorem sampleForkValue_fits : 1 < 2 ^ 63 := by
  decide

def sampleForkOps : List Op :=
  [.tryUpdate ⟨[0x01], sampleForkKey_fits⟩ ⟨[0x02], sampleForkValue_fits⟩,
   .tryUpdate ⟨[0x11], sampleForkKey_fits⟩ ⟨List.replicate 32 0x07, by decide⟩, .commit, .reopen 0]

def withoutLeaf (D : Database) : Database :=
  Function.update D sampleLeafHash.bytes none

theorem tryDelete_panics_on_missing_sibling :
    ∃ s outs, (Session.start fun _ => none).run sampleForkKeccak sampleForkOps = .ok (s, outs) ∧
      (withoutLeaf s.db).Part s.db ∧
      s.trie.access (withoutLeaf s.db) (.tryDelete ⟨[0x01], by decide⟩) = Go.panics := by
  refine ⟨_, _, rfl, fun b => ?_, rfl⟩
  by_cases hb : b = sampleLeafHash.bytes
  · exact .inl (by simp [withoutLeaf, hb])
  · exact .inr (by simp [withoutLeaf, hb])

theorem sampleForkOps_hashed :
    hashedIn sampleForkKeccak (fun _ => none) sampleForkOps ⊆ {sampleLeafEnc, sampleForkEnc} :=
  hashedIn_subset sampleForkKeccak (by decide +kernel)

-- The stored leaf is looked up, with the database that has it and with any part of it.
theorem access_missing_sample :
    ∃ s outs, (Session.start fun _ => none).run sampleForkKeccak sampleForkOps = .ok (s, outs) ∧
      ∀ D : Database, D.Part s.db → s.trie.access D (.tryGet ⟨[0x11], by decide⟩) ≠ Go.panics := by
  have hcf : CollisionFree sampleForkKeccak
      ({[0x80]} ∪ hashedIn sampleForkKeccak (fun _ => none) sampleForkOps) := by
    have hinj : Set.InjOn sampleForkKeccak {[0x80], sampleLeafEnc, sampleForkEnc} := by
      rintro a (rfl | rfl | rfl) b (rfl | rfl | rfl) h <;> first | rfl | exact absurd h (by decide)
    refine ⟨hinj.mono ?_, by simp, by decide⟩
    exact Set.insert_subset (by simp) (sampleForkOps_hashed.trans (by simp))
  have hz : NoZero sampleForkKeccak (hashedIn sampleForkKeccak (fun _ => none) sampleForkOps) := by
    intro e he
    rcases sampleForkOps_hashed he with rfl | rfl <;> decide
  obtain ⟨s, outs, hrun, h⟩ := access_missing_iff (fun _ => none) sampleForkOps hcf fun _ _ => hz
  refine ⟨s, outs, hrun, fun D hD => (h D hD _).left.mpr ?_⟩
  rintro ⟨key, hk, -⟩
  simp [Access.deletes] at hk

end Light
