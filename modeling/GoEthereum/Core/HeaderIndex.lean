import GoEthereum.Core.HeaderChain

-- The canonical number index under the loops that rewrite it.

namespace Core

open Common

namespace ChainDb

variable {db : ChainDb} {hash : Hash} {i n : UInt64} {fuel : Nat}

theorem getCanonicalHash_deleteCanonicalHash :
    (db.deleteCanonicalHash i).getCanonicalHash n =
      if n = i then Hash.zero else db.getCanonicalHash n := by
  simp only [getCanonicalHash, deleteCanonicalHash, GoMap.lookup_erase_eq_ite]
  split <;> rfl

theorem getCanonicalHash_writeCanonicalHash :
    (db.writeCanonicalHash hash i).getCanonicalHash n =
      if n = i then hash else db.getCanonicalHash n := by
  simp only [getCanonicalHash, writeCanonicalHash, GoMap.lookup_insert_eq_ite]
  split <;> rfl

theorem length_deleteCanonicalHash (h : db.getCanonicalHash i ≠ Hash.zero) :
    (db.deleteCanonicalHash i).canonical.entries.length + 1 = db.canonical.entries.length := by
  cases hl : db.canonical.lookup i
  case none   => simp [getCanonicalHash, hl] at h
  case some _ => exact GoMap.length_erase hl

def Reindexed (db db' : ChainDb) : Prop :=
  { db' with canonical := db.canonical } = db

theorem Reindexed.trans {db₁ db₂ db₃ : ChainDb} (h : db₁.Reindexed db₂) (h' : db₂.Reindexed db₃) :
    db₁.Reindexed db₃ := by
  rw [Reindexed] at h h' ⊢
  rw [← h, ← h']

theorem Reindexed.write (hash : Hash) (i : UInt64) : db.Reindexed (db.writeCanonicalHash hash i) :=
  rfl

theorem Reindexed.getHeader {db' : ChainDb} (h : db.Reindexed db') (hash : Hash) (n : UInt64) :
    db'.getHeader hash n = db.getHeader hash n := by
  rw [← h]
  rfl

theorem Reindexed.getTd {db' : ChainDb} (h : db.Reindexed db') (hash : Hash) (n : UInt64) :
    db'.getTd hash n = db.getTd hash n := by
  rw [← h]
  rfl

theorem deleteAbove_reindexed : db.Reindexed (db.deleteAbove fuel i) := by
  induction fuel generalizing db i
  case zero => rfl
  case succ fuel hi =>
    rw [deleteAbove]
    split
    case isTrue => rfl
    case isFalse =>
      have hd : db.Reindexed (db.deleteCanonicalHash i) := rfl
      exact hd.trans hi

theorem deleteAbove_run (h : db.canonical.entries.length < fuel) :
    ∃ k, (db.deleteAbove fuel i).getCanonicalHash (i + .ofNat k) = Hash.zero ∧
      ∀ n, (db.deleteAbove fuel i).getCanonicalHash n =
        if ∃ j < k, n = i + .ofNat j then Hash.zero else db.getCanonicalHash n := by
  induction fuel generalizing db i
  case zero => omega
  case succ fuel hi =>
    rw [deleteAbove]
    split
    case isTrue h₀ => exact ⟨0, by simpa using h₀, by simp⟩
    case isFalse h₀ =>
      have hf : (db.deleteCanonicalHash i).canonical.entries.length < fuel := by
        have := length_deleteCanonicalHash h₀
        omega
      obtain ⟨k, he, hk⟩ := hi (i := i + 1) hf
      have hs (j : Nat) : i + 1 + .ofNat j = i + .ofNat (j + 1) := by
        rw [UInt64.ofNat_add, UInt64.add_assoc, UInt64.add_comm 1]
        rfl
      refine ⟨k + 1, hs k ▸ he, fun n => ?_⟩
      rw [hk, getCanonicalHash_deleteCanonicalHash]
      by_cases hn : n = i
      case pos =>
        have : ∃ j < k + 1, n = i + .ofNat j := ⟨0, by omega, by simp [hn]⟩
        rw [if_pos this, if_pos hn, ite_self]
      case neg =>
        have : (∃ j < k + 1, n = i + .ofNat j) ↔ ∃ j < k, n = i + 1 + .ofNat j := by
          constructor
          case mp =>
            rintro ⟨_ | j, hj, he⟩
            case zero => exact absurd (by simpa using he) hn
            case succ => exact ⟨j, by omega, by rw [he, hs]⟩
          case mpr =>
            rintro ⟨j, hj, he⟩
            exact ⟨j + 1, by omega, by rw [he, hs]⟩
        simp only [hn, this, if_false]

-- On an index without gaps the loop clears everything from `i` on, and all the rest if the numbers
-- wrap around.
theorem deleteAbove_spec {c : Nat} (h : db.canonical.entries.length < fuel)
    (hc : ∀ n, db.getCanonicalHash n ≠ Hash.zero ↔ n.toNat ≤ c) :
    (∀ n, i.toNat ≤ n.toNat → (db.deleteAbove fuel i).getCanonicalHash n = Hash.zero) ∧
      ((∀ n, n.toNat < i.toNat →
        (db.deleteAbove fuel i).getCanonicalHash n = db.getCanonicalHash n) ∨
      ∀ n, (db.deleteAbove fuel i).getCanonicalHash n = Hash.zero) := by
  obtain ⟨k, he, hk⟩ := deleteAbove_run (i := i) h
  have hadd (j : Nat) : (i + .ofNat j).toNat = (i.toNat + j) % 2 ^ 64 := by
    simp [UInt64.toNat_add, UInt64.toNat_ofNat']
  -- A number that is left has an entry, and the run does not reach it.
  have hleft {n : UInt64} (hn : (db.deleteAbove fuel i).getCanonicalHash n ≠ Hash.zero) :
      n.toNat ≤ c ∧ ∀ j < k, (i.toNat + j) % 2 ^ 64 ≠ n.toNat := by
    rw [hk] at hn
    split at hn
    case isTrue => exact absurd rfl hn
    case isFalse hj =>
      exact ⟨(hc n).mp hn, fun j hjk he => hj ⟨j, hjk, UInt64.toNat_inj.mp (by rw [hadd, he])⟩⟩
  -- The number behind the run is past the end of the index, or the run comes back to itself.
  have hend (hk' : k < 2 ^ 64) : c < (i.toNat + k) % 2 ^ 64 := by
    by_contra hle
    have hne := (hc (i + .ofNat k)).mpr (by rw [hadd]; omega)
    rw [hk] at he
    split at he
    case isTrue hj =>
      obtain ⟨j, hj, hij⟩ := hj
      have := congrArg UInt64.toNat hij
      rw [hadd, hadd] at this
      omega
    case isFalse => exact hne he
  have hlow : ∀ n, i.toNat ≤ n.toNat → (db.deleteAbove fuel i).getCanonicalHash n = Hash.zero := by
    intro n hn
    by_contra h₀
    obtain ⟨hnc, hj⟩ := hleft h₀
    have hlt := n.toNat_lt
    have hkn : k ≤ n.toNat - i.toNat := by
      by_contra hlt'
      exact hj (n.toNat - i.toNat) (by omega) (by omega)
    omega
  refine ⟨hlow, ?_⟩
  by_cases hwrap : i.toNat + k ≤ 2 ^ 64
  case pos =>
    left
    intro n hn
    rw [hk, if_neg]
    rintro ⟨j, hj, he⟩
    have := congrArg UInt64.toNat he
    rw [hadd] at this
    omega
  case neg =>
    right
    intro n
    by_contra h₀
    by_cases hn : i.toNat ≤ n.toNat
    case pos => exact h₀ (hlow n hn)
    case neg =>
      obtain ⟨hnc, hj⟩ := hleft h₀
      have hi := i.toNat_lt
      have hkn : k ≤ 2 ^ 64 - i.toNat + n.toNat := by
        by_contra hlt'
        exact hj (2 ^ 64 - i.toNat + n.toNat) (by omega) (by omega)
      omega

end ChainDb

variable (H : Hashes) (genesis : Header)

-- No two of the headers have the same hash, and no hash is the zero hash, which stands for none.
structure Headers (S : Set Header) : Prop where
  proper  : (headerTree H genesis).Proper S
  nonzero : ∀ h ∈ S, H.header h ≠ Hash.zero
  origin  : genesis.parentHash = Hash.zero

abbrev HeaderBranch (S : Set Header) (h : Header) (l : List Header) : Prop :=
  (headerTree H genesis).Branch S h l

def ChainDb.Canonical (db : ChainDb) (h : Header) : Prop :=
  db.getCanonicalHash h.number = H.header h

structure ChainDb.Indexed (db : ChainDb) (l : List Header) : Prop where
  here  : ∀ h ∈ l, db.Canonical H h
  blank : ∀ n, (∀ h ∈ l, h.number ≠ n) → db.getCanonicalHash n = Hash.zero

-- The headers that the database holds under their own hash and number.
def ChainDb.stored (db : ChainDb) : Set Header :=
  { h | db.getHeader (H.header h) h.number = some h }

variable {H genesis} {S : Set Header} {db : ChainDb} {h p : Header} {l lp : List Header}

theorem Headers.mono {S' : Set Header} (hs : Headers H genesis S') (h : S ⊆ S') :
    Headers H genesis S where
  proper  := hs.proper.mono h
  nonzero := fun a ha => hs.nonzero a (h ha)
  origin  := hs.origin

theorem Headers.ofList {l : List Header} (hb : genesis.number = 0)
    (ho : genesis.parentHash = Hash.zero)
    (hi : ∀ a ∈ genesis :: l, ∀ b ∈ genesis :: l, H.header a = H.header b → a = b)
    (hn : ∀ a ∈ genesis :: l, H.header a ≠ Hash.zero) :
    Headers H genesis ({genesis} ∪ { h | h ∈ l }) where
  proper  := ⟨fun a ha b hb => hi a (List.mem_cons.mpr ha) b (List.mem_cons.mpr hb), by simp [hb]⟩
  nonzero := fun a ha => hn a (List.mem_cons.mpr ha)
  origin  := ho

namespace ChainDb

variable (hs : Headers H genesis S)
include hs

variable (hb : HeaderBranch H genesis S h l)
include hb

theorem Indexed.getCanonicalHash_ne_zero (hi : db.Indexed H l) (n : UInt64) :
    db.getCanonicalHash n ≠ Hash.zero ↔ n.toNat ≤ h.number.toNat := by
  constructor
  case mp =>
    intro hn
    by_contra hlt
    apply hn
    apply hi.blank
    intro a ha he
    have : a.number.toNat ≤ h.number.toNat := hb.height_le a ha
    rw [he] at this
    omega
  case mpr =>
    intro hn
    obtain ⟨a, ha, he⟩ := hb.exists_height hs.proper hn
    have ha' : db.getCanonicalHash a.number = H.header a := hi.here a ha
    rw [← UInt64.toNat_inj.mp he, ha']
    exact hs.nonzero a (hb.subset a ha)

theorem Indexed.closed (hi : db.Indexed H l) {a : Header} {la : List Header}
    (ha : HeaderBranch H genesis S a la) (hc : db.Canonical H a) : ∀ b ∈ la, db.Canonical H b := by
  have hn : db.getCanonicalHash a.number ≠ Hash.zero := hc ▸ hs.nonzero a ha.mem
  obtain ⟨a', ha', he⟩ := hb.exists_height hs.proper
    ((hi.getCanonicalHash_ne_zero hs hb a.number).mp hn)
  have hc' : H.header a' = H.header a := by
    rw [← hi.here a' ha', UInt64.toNat_inj.mp he, hc]
  obtain rfl := hs.proper.inj (hb.subset a' ha') ha.mem hc'
  obtain ⟨l₁, l₂, rfl, h₂⟩ := hb.suffix ha'
  rw [ha.unique hs.proper h₂]
  exact fun b hb => hi.here b (List.mem_append_right l₁ hb)

-- The walk records the branch of the header it starts from, and changes nothing above it.
theorem overwriteStale_spec {fuel : Nat} (hd : ∀ a ∈ l, db.getHeader (H.header a) a.number = some a)
    (hn : h.number.toNat + 1 < 2 ^ 64) (hf : h.number.toNat + 2 ≤ fuel)
    (hc : ∀ a la, HeaderBranch H genesis S a la → a.number.toNat ≤ h.number.toNat →
      db.Canonical H a → ∀ b ∈ la, db.Canonical H b)
    (hg : db.Canonical H genesis ∨ db.getCanonicalHash (0 - 1) = Hash.zero) :
    ∃ db', db.overwriteStale fuel (H.header h) h.number (some h) = (.ok (), db') ∧
      db.Reindexed db' ∧ (∀ a ∈ l, db'.Canonical H a) ∧
      ∀ n, h.number.toNat < n.toNat → db'.getCanonicalHash n = db.getCanonicalHash n := by
  induction hb generalizing db fuel
  case root hr =>
    simp only [headerTree_root] at *
    have h₀ : genesis.number = 0 := UInt64.toNat_inj.mp hs.proper.base
    obtain ⟨fuel, rfl⟩ : ∃ k, fuel = k + 1 + 1 := ⟨fuel - 2, by omega⟩
    by_cases hn : db.getCanonicalHash genesis.number = H.header genesis
    case pos =>
      simp only [overwriteStale, hn, if_true]
      exact ⟨db, rfl, rfl, List.forall_mem_singleton.mpr hn, fun _ _ => rfl⟩
    case neg =>
      have hz : (db.writeCanonicalHash (H.header genesis) genesis.number).getCanonicalHash
          (genesis.number - 1) = genesis.parentHash := by
        rw [getCanonicalHash_writeCanonicalHash, hs.origin, h₀]
        exact hg.resolve_left hn
      simp only [overwriteStale, hn, hz, if_true, if_false]
      refine ⟨_, rfl, rfl, ?_, fun n hlt => ?_⟩
      case refine_1 => simp [Canonical, getCanonicalHash_writeCanonicalHash]
      case refine_2 =>
        rw [getCanonicalHash_writeCanonicalHash, if_neg]
        rintro rfl
        omega
  case step h p l hh ho hb hi =>
    have hp : h.number.toNat = p.number.toNat + 1 := ho.height
    obtain ⟨fuel, rfl⟩ : ∃ k, fuel = k + 1 := ⟨fuel - 1, by omega⟩
    by_cases hn : db.getCanonicalHash h.number = H.header h
    case pos =>
      simp only [overwriteStale, hn, if_true]
      exact ⟨db, rfl, rfl, hc h _ (.step hh ho hb) le_rfl hn, fun _ _ => rfl⟩
    case neg =>
      have hkeep (n : UInt64) (hne : n.toNat ≠ h.number.toNat) :
          (db.writeCanonicalHash (H.header h) h.number).getCanonicalHash n =
            db.getCanonicalHash n := by
        rw [getCanonicalHash_writeCanonicalHash, if_neg]
        rintro rfl
        exact hne rfl
      have hpar : h.parentHash = H.header p := ho.parent
      have hget : (db.writeCanonicalHash (H.header h) h.number).getHeader (H.header p) p.number =
          some p := hd p (List.mem_cons_of_mem h hb.mem_head)
      simp only [overwriteStale, hn, if_false, hpar, pred_of_succ hp, hget]
      have hlow {a : Header} (ha : a.number.toNat ≤ p.number.toNat) :
          (db.writeCanonicalHash (H.header h) h.number).Canonical H a ↔ db.Canonical H a := by
        rw [Canonical, Canonical, hkeep a.number (by omega)]
      have hclosed : ∀ a la, HeaderBranch H genesis S a la → a.number.toNat ≤ p.number.toNat →
          (db.writeCanonicalHash (H.header h) h.number).Canonical H a →
          ∀ b ∈ la, (db.writeCanonicalHash (H.header h) h.number).Canonical H b := by
        intro a la ha hle hca b hb
        have : b.number.toNat ≤ a.number.toNat := ha.height_le b hb
        exact (hlow (by omega)).mpr (hc a la ha (by omega) ((hlow hle).mp hca) b hb)
      have hgen : (db.writeCanonicalHash (H.header h) h.number).Canonical H genesis ∨
          (db.writeCanonicalHash (H.header h) h.number).getCanonicalHash (0 - 1) = Hash.zero := by
        have h₀ : genesis.number.toNat = 0 := hs.proper.base
        refine hg.imp (hlow (by omega)).mpr fun hz => ?_
        have : (0 - 1 : UInt64).toNat = 2 ^ 64 - 1 := rfl
        rw [hkeep _ (by omega), hz]
      have hd' : ∀ a ∈ l, (db.writeCanonicalHash (H.header h) h.number).getHeader (H.header a)
          a.number = some a := fun a ha => hd a (List.mem_cons_of_mem h ha)
      obtain ⟨db', he, hr, hl, hu⟩ := hi hd' (by omega) (Nat.le_of_succ_le_succ (hp ▸ hf)) hclosed hgen
      refine ⟨db', he, (Reindexed.write _ _).trans hr, ?_, fun n hlt => ?_⟩
      case refine_1 =>
        refine List.forall_mem_cons.mpr ⟨?_, hl⟩
        rw [Canonical, hu h.number (by omega), getCanonicalHash_writeCanonicalHash, if_pos rfl]
      case refine_2 => rw [hu n (by omega), hkeep n (by omega)]

end ChainDb

end Core
