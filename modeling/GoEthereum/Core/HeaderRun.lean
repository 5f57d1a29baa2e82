import GoEthereum.Core.HeaderIndex

-- The header chain over whole runs.

namespace Core

open Common

variable {H : Hashes} {genesis : Header}

namespace ChainDb

variable {S : Set Header} {db : ChainDb} {h header p : Header} {l lp : List Header}

theorem deleteAbove_head (header : Header) {c fuel : Nat} (h : db.canonical.entries.length < fuel)
    (hc : ∀ n, db.getCanonicalHash n ≠ Hash.zero ↔ n.toNat ≤ c) :
    (∀ n, header.number.toNat < n.toNat →
      (db.deleteAbove fuel (header.number + 1)).getCanonicalHash n = Hash.zero) ∧
    ((∀ n, n.toNat ≤ header.number.toNat →
      (db.deleteAbove fuel (header.number + 1)).getCanonicalHash n = db.getCanonicalHash n) ∨
    ∀ n, (db.deleteAbove fuel (header.number + 1)).getCanonicalHash n = Hash.zero) := by
  obtain ⟨ha, hb⟩ := deleteAbove_spec (i := header.number + 1) h hc
  have hn := header.number.toNat_lt
  have hadd : (header.number + 1).toNat = (header.number.toNat + 1) % 2 ^ 64 := by
    simp [UInt64.toNat_add]
  by_cases hlt : header.number.toNat + 1 < 2 ^ 64
  case pos =>
    rw [hadd, Nat.mod_eq_of_lt hlt] at ha hb
    exact ⟨fun n h => ha n h, hb.imp_left fun hb n h => hb n (by omega)⟩
  case neg =>
    have h₀ : (header.number + 1).toNat = 0 := by omega
    rw [h₀] at ha
    exact ⟨fun n _ => ha n (Nat.zero_le _), .inr fun n => ha n (Nat.zero_le _)⟩

theorem Indexed.setHead (hs : Headers H genesis S) (hb : HeaderBranch H genesis S h l)
    (hi : db.Indexed H l) (ho : (headerTree H genesis).On header p)
    (hp : HeaderBranch H genesis S p lp)
    (hd : ∀ a ∈ lp, db.getHeader (H.header a) a.number = some a) :
    ∃ db', (db.deleteAbove (db.canonical.entries.length + 1) (header.number + 1)).overwriteStale
        (header.number.toNat + 2) (H.header p) p.number (some p) = (.ok (), db') ∧
      db.Reindexed db' ∧
      (db'.writeCanonicalHash (H.header header) header.number).Indexed H (header :: lp) := by
  have hn : header.number.toNat = p.number.toNat + 1 := ho.height
  have hlt := header.number.toNat_lt
  have hr : db.Reindexed (db.deleteAbove (db.canonical.entries.length + 1) (header.number + 1)) :=
    deleteAbove_reindexed
  obtain ⟨habove, hbelow⟩ := deleteAbove_head header (Nat.lt_succ_self _)
    (hi.getCanonicalHash_ne_zero hs hb)
  generalize db.deleteAbove (db.canonical.entries.length + 1) (header.number + 1) = db₁ at *
  have hclosed : ∀ a la, HeaderBranch H genesis S a la → a.number.toNat ≤ p.number.toNat →
      db₁.Canonical H a → ∀ b ∈ la, db₁.Canonical H b := by
    intro a la ha hle hc b hb'
    have hba : b.number.toNat ≤ a.number.toNat := ha.height_le b hb'
    cases hbelow
    case inl hsame =>
      rw [Canonical, hsame _ (by omega)] at hc ⊢
      exact hi.closed hs hb ha hc b hb'
    case inr hzero => exact absurd ((hzero a.number).symm.trans hc).symm (hs.nonzero a ha.mem)
  have hgen : db₁.Canonical H genesis ∨ db₁.getCanonicalHash (0 - 1) = Hash.zero := by
    refine hbelow.imp (fun hsame => ?_) fun hzero => hzero _
    have h₀ : genesis.number.toNat = 0 := hs.proper.base
    rw [Canonical, hsame _ (by omega)]
    exact hi.here genesis hb.root_mem
  have hf : p.number.toNat + 2 ≤ header.number.toNat + 2 := by omega
  obtain ⟨db', he, hr', hl, hu⟩ := overwriteStale_spec hs hp
    (fun a ha => (hr.getHeader _ _).trans (hd a ha)) (by omega) hf hclosed hgen
  refine ⟨db', he, hr.trans hr', ⟨?_, ?_⟩⟩
  case refine_1 =>
    refine List.forall_mem_cons.mpr ⟨?_, fun a ha => ?_⟩
    case refine_1 => rw [Canonical, getCanonicalHash_writeCanonicalHash, if_pos rfl]
    case refine_2 =>
      have : a.number.toNat ≤ p.number.toNat := hp.height_le a ha
      rw [Canonical, getCanonicalHash_writeCanonicalHash, if_neg]
      case hnc => rintro he; rw [he] at this; omega
      exact hl a ha
  case refine_2 =>
    intro n hne
    obtain ⟨hne, hnl⟩ := List.forall_mem_cons.mp hne
    have hgt : header.number.toNat < n.toNat := by
      by_contra hle
      have hne' : header.number.toNat ≠ n.toNat := fun he => hne (UInt64.toNat_inj.mp he)
      have hle' : n.toNat ≤ p.number.toNat := by omega
      obtain ⟨a, ha, he⟩ := hp.exists_height hs.proper hle'
      exact hnl a ha (UInt64.toNat_inj.mp he)
    rw [getCanonicalHash_writeCanonicalHash, if_neg hne.symm, hu n (by omega), habove n hgt]

-- Total difficulty and header are stored together, under the header's own hash and number.
structure Sound (H : Hashes) (db : ChainDb) : Prop where
  key : ∀ {k n h}, db.getHeader k n = some h → k = H.header h ∧ n = h.number
  td  : ∀ k n, (db.getTd k n).isSome = (db.getHeader k n).isSome

theorem Sound.congr {db' : ChainDb} (hs : db.Sound H)
    (hh : ∀ k n, db'.getHeader k n = db.getHeader k n)
    (ht : ∀ k n, db'.getTd k n = db.getTd k n) : db'.Sound H where
  key := fun hg => hs.key (hh _ _ ▸ hg)
  td  := fun k n => by rw [hh, ht, hs.td]

theorem stored_congr {db' : ChainDb} (hh : ∀ k n, db'.getHeader k n = db.getHeader k n) :
    db'.stored H = db.stored H := by
  ext a
  exact Eq.congr_left (hh _ _)

def addHeader (H : Hashes) (db : ChainDb) (header : Header) (td : Nat) : ChainDb :=
  (db.writeTd (H.header header) header.number td).writeHeader H header

variable {td : Nat} {k : Hash} {n : UInt64}

theorem getHeader_addHeader : (db.addHeader H header td).getHeader k n =
    if n = header.number ∧ k = H.header header then some header else db.getHeader k n := by
  simp only [getHeader, addHeader, writeHeader, GoMap.lookup_insert_eq_ite, Prod.mk.injEq]
  rfl

theorem getTd_addHeader : (db.addHeader H header td).getTd k n =
    if n = header.number ∧ k = H.header header then some td else db.getTd k n := by
  simp only [getTd, addHeader, writeHeader, writeTd, GoMap.lookup_insert_eq_ite, Prod.mk.injEq]

theorem Sound.addHeader (hs : db.Sound H) : (db.addHeader H header td).Sound H where
  key := by
    intro k n h hg
    rw [getHeader_addHeader] at hg
    split at hg
    case isTrue he =>
      obtain rfl := Option.some.inj hg
      exact he.symm
    case isFalse => exact hs.key hg
  td := by
    intro k n
    rw [getTd_addHeader, getHeader_addHeader]
    split
    case isTrue  => rfl
    case isFalse => exact hs.td k n

theorem stored_addHeader {W : Set Header} (td : Nat) (hw : Set.InjOn H.header W) (hs : db.stored H ⊆ W)
    (hh : header ∈ W) : (db.addHeader H header td).stored H = insert header (db.stored H) := by
  ext a
  change (db.addHeader H header td).getHeader _ _ = _ ↔ _
  rw [getHeader_addHeader]
  constructor
  case mp =>
    intro ha
    split at ha
    case isTrue  => exact .inl (Option.some.inj ha).symm
    case isFalse => exact .inr ha
  case mpr =>
    rintro (rfl | ha)
    case inl => rw [if_pos ⟨rfl, rfl⟩]
    case inr =>
      split
      case isTrue he  => rw [hw (hs ha) hh he.right]
      case isFalse    => exact ha

end ChainDb

-- The headers that may be written: every one but the genesis header stands on another.
def Rooted (H : Hashes) (genesis : Header) (W : Set Header) : Prop :=
  ∀ h ∈ W, h = genesis ∨ ∃ p ∈ W, (headerTree H genesis).On h p

namespace HeaderChain

variable {hc : HeaderChain} {W : Set Header} {header : Header} {l : List Header} {coin : Bool}

-- The current header stands on a branch of stored headers, and the canonical index is this branch.
structure Inv (H : Hashes) (genesis : Header) (hc : HeaderChain) (l : List Header) : Prop where
  sound  : hc.chainDb.Sound H
  hash   : hc.currentHeaderHash = H.header hc.currentHeader
  branch : HeaderBranch H genesis (hc.chainDb.stored H) hc.currentHeader l
  index  : hc.chainDb.Indexed H l

def Complete (H : Hashes) (genesis : Header) (hc : HeaderChain) (header : Header) : Prop :=
  ∀ p, hc.chainDb.getHeader header.parentHash (header.number - 1) = some p →
    ∃ lp, HeaderBranch H genesis (hc.chainDb.stored H) p lp

-- The head moves onto the header, which stands on the branch `lp`, or stays. Nothing else is
-- stored.
structure Written (H : Hashes) (genesis : Header) (hc : HeaderChain) (l : List Header)
    (header : Header) (lp : List Header) (localTd externTd : Nat) (hc' : HeaderChain) : Prop where
  head    : localTd ≤ externTd ∧ hc'.currentHeader = header ∧ hc'.Inv H genesis (header :: lp) ∨
    externTd ≤ localTd ∧ hc'.currentHeader = hc.currentHeader ∧ hc'.Inv H genesis l
  headers : ∀ k n,
    hc'.chainDb.getHeader k n = (hc.chainDb.addHeader H header externTd).getHeader k n
  tds     : ∀ k n, hc'.chainDb.getTd k n = (hc.chainDb.addHeader H header externTd).getTd k n

theorem Inv.currentTd (hi : hc.Inv H genesis l) :
    ∃ td, hc.chainDb.getTd hc.currentHeaderHash hc.currentHeader.number = some td := by
  apply Option.isSome_iff_exists.mp
  rw [hi.sound.td, hi.hash]
  have : hc.chainDb.getHeader _ _ = some _ := hi.branch.mem
  rw [this, Option.isSome_some]

theorem Inv.parent (hw : Headers H genesis W) (hr : Rooted H genesis W)
    (hs : hc.chainDb.stored H ⊆ W) (hh : header ∈ W) (hi : hc.Inv H genesis l) {ptd : Nat}
    (ht : hc.chainDb.getTd header.parentHash (header.number - 1) = some ptd) :
    ∃ p, hc.chainDb.getHeader header.parentHash (header.number - 1) = some p ∧
      p ∈ hc.chainDb.stored H ∧ (headerTree H genesis).On header p := by
  have hp := hi.sound.td header.parentHash (header.number - 1)
  rw [ht] at hp
  obtain ⟨p, hp⟩ := Option.isSome_iff_exists.mp hp.symm
  obtain ⟨hk, hn⟩ := hi.sound.key hp
  have hst : p ∈ hc.chainDb.stored H := by
    change hc.chainDb.getHeader _ _ = _
    rw [← hk, ← hn, hp]
  refine ⟨p, hp, hst, ?_⟩
  obtain rfl | ⟨p', hp', ho⟩ := hr header hh
  case inl => exact absurd (hk.symm.trans hw.origin) (hw.nonzero p (hs hst))
  case inr =>
    obtain rfl : p' = p := hw.proper.inj hp' (hs hst) (ho.parent.symm.trans hk)
    exact ho

theorem Inv.addHeader (hw : Headers H genesis W) (hs : hc.chainDb.stored H ⊆ W) (hh : header ∈ W)
    (hi : hc.Inv H genesis l) (td : Nat) :
    Inv H genesis { hc with chainDb := hc.chainDb.addHeader H header td } l where
  sound  := hi.sound.addHeader
  hash   := hi.hash
  branch := hi.branch.mono (ChainDb.stored_addHeader td hw.proper.inj hs hh ▸ Set.subset_insert _ _)
  index  := ⟨hi.index.here, hi.index.blank⟩

theorem Inv.setHeadHeader (hw : Headers H genesis (hc.chainDb.stored H)) (hi : hc.Inv H genesis l)
    (hh : header ∈ hc.chainDb.stored H) {p : Header} {lp : List Header}
    (ho : (headerTree H genesis).On header p)
    (hp : HeaderBranch H genesis (hc.chainDb.stored H) p lp) :
    ∃ hc', setHeadHeader H header hc = (.ok .canonStatTy, hc') ∧ hc'.currentHeader = header ∧
      hc'.Inv H genesis (header :: lp) ∧
      (∀ k n, hc'.chainDb.getHeader k n = hc.chainDb.getHeader k n) ∧
      ∀ k n, hc'.chainDb.getTd k n = hc.chainDb.getTd k n := by
  obtain ⟨db, he, hr, hx⟩ := hi.index.setHead hw hi.branch ho hp fun a ha => hp.subset a ha
  have hget : (hc.chainDb.deleteAbove (hc.chainDb.canonical.entries.length + 1)
      (header.number + 1)).getHeader (H.header p) p.number = some p :=
    (ChainDb.deleteAbove_reindexed.getHeader _ _).trans hp.mem
  have hpar : header.parentHash = H.header p := ho.parent
  refine ⟨{ hc with
    chainDb           := (db.writeCanonicalHash (H.header header) header.number).writeHeadHeaderHash
      (H.header header)
    currentHeader     := header
    currentHeaderHash := H.header header }, ?_, rfl, ?_, hr.getHeader, hr.getTd⟩
  case refine_1 => simp only [HeaderChain.setHeadHeader, hpar, pred_of_succ ho.height, hget, he]
  case refine_2 =>
    have hst : (db.writeCanonicalHash (H.header header) header.number).stored H =
        hc.chainDb.stored H := ChainDb.stored_congr hr.getHeader
    exact {
      sound  := hi.sound.congr hr.getHeader hr.getTd
      hash   := rfl
      branch := hst ▸ .step hh ho hp
      index  := ⟨hx.here, hx.blank⟩ }

theorem Inv.writeHeader (hw : Headers H genesis W) (hs : hc.chainDb.stored H ⊆ W) (hh : header ∈ W)
    (hi : hc.Inv H genesis l) {p : Header} {lp : List Header}
    (ho : (headerTree H genesis).On header p)
    (hlp : HeaderBranch H genesis (hc.chainDb.stored H) p lp) {ptd : Nat}
    (ht : hc.chainDb.getTd (H.header p) p.number = some ptd) (coin : Bool) :
    ∃ localTd st hc',
      hc.chainDb.getTd (H.header hc.currentHeader) hc.currentHeader.number = some localTd ∧
      writeHeader H header coin hc = (.ok st, hc') ∧
      hc.Written H genesis l header lp localTd (header.difficulty + ptd) hc' := by
  obtain ⟨localTd, hlocal⟩ := hi.currentTd
  have hst := ChainDb.stored_addHeader (header.difficulty + ptd) hw.proper.inj hs hh
  have hadd := hi.addHeader hw hs hh (header.difficulty + ptd)
  have hpar : header.parentHash = H.header p := ho.parent
  rw [← hpar, ← pred_of_succ ho.height] at ht
  by_cases hcan : localTd < header.difficulty + ptd ∨ header.difficulty + ptd = localTd ∧ coin = true
  case pos =>
    obtain ⟨hc', he, hcur, hi', hd, htd⟩ := hadd.setHeadHeader
      (hw.mono (hst ▸ Set.insert_subset hh hs)) (hst ▸ Set.mem_insert _ _) ho
      (hlp.mono (hst ▸ Set.subset_insert _ _))
    refine ⟨localTd, .canonStatTy, hc', hi.hash ▸ hlocal, ?_, ?_⟩
    case refine_1 =>
      simp only [HeaderChain.writeHeader, ht, hlocal, if_pos hcan]
      exact he
    case refine_2 => exact ⟨.inl ⟨by omega, hcur, hi'⟩, hd, htd⟩
  case neg =>
    refine ⟨localTd, .sideStatTy,
      { hc with chainDb := hc.chainDb.addHeader H header (header.difficulty + ptd) },
      hi.hash ▸ hlocal, ?_, ?_⟩
    case refine_1 =>
      simp only [HeaderChain.writeHeader, ht, hlocal, if_neg hcan]
      rfl
    case refine_2 => exact ⟨.inr ⟨by omega, rfl, hadd⟩, fun _ _ => rfl, fun _ _ => rfl⟩

section

variable {S : Set Header} {db : ChainDb} {h : Header} {i : UInt64} {fuel : Nat}

theorem getHeader_delete {k k' : Hash} {n n' : UInt64} :
    ((db.deleteHeader k n).deleteTd k n).getHeader k' n' =
      if n' = n ∧ k' = k then none else db.getHeader k' n' := by
  simp only [ChainDb.getHeader, ChainDb.deleteHeader, ChainDb.deleteTd, GoMap.lookup_erase_eq_ite,
    Prod.mk.injEq]

theorem getTd_delete {k k' : Hash} {n n' : UInt64} :
    ((db.deleteHeader k n).deleteTd k n).getTd k' n' =
      if n' = n ∧ k' = k then none else db.getTd k' n' := by
  simp only [ChainDb.getTd, ChainDb.deleteHeader, ChainDb.deleteTd, GoMap.lookup_erase_eq_ite,
    Prod.mk.injEq]

theorem sound_delete (hs : db.Sound H) (k : Hash) (n : UInt64) :
    ((db.deleteHeader k n).deleteTd k n).Sound H where
  key := by
    intro k' n' h hg
    rw [getHeader_delete] at hg
    split at hg
    case isTrue  => cases hg
    case isFalse => exact hs.key hg
  td := by
    intro k' n'
    rw [getHeader_delete, getTd_delete]
    split
    case isTrue  => rfl
    case isFalse => exact hs.td k' n'

-- The headers above the new head are the first ones of the branch, and the loop ends on the first
-- header that is not above it.
theorem deleteHeaders_spec (head : UInt64) (hw : Headers H genesis S) (hb : HeaderBranch H genesis S h l)
    (hd : ∀ a ∈ l, a ∈ db.stored H) (hs : db.Sound H) (hf : h.number.toNat < fuel) :
    ∃ h' l₁ l' db', deleteHeaders H head fuel (some h) db = (some h', db') ∧ l = l₁ ++ l' ∧
      HeaderBranch H genesis S h' l' ∧ (∀ a ∈ l', a ∈ db'.stored H) ∧ db'.Sound H ∧
      db'.canonical = db.canonical ∧ db'.stored H ⊆ db.stored H ∧
      (∀ a ∈ l₁, head < a.number) ∧ h'.number ≤ head := by
  induction hb generalizing db fuel
  case root hr =>
    obtain ⟨fuel, rfl⟩ : ∃ k, fuel = k + 1 := ⟨fuel - 1, by omega⟩
    have h₀ : genesis.number = 0 := UInt64.toNat_inj.mp hw.proper.base
    have hn : ¬ head < genesis.number := by simp [h₀]
    refine ⟨genesis, [], _, db, ?_, rfl, .root hr, hd, hs, rfl, subset_rfl, by simp, ?_⟩
    case refine_1 =>
      exact if_neg hn
    case refine_2 => simp [h₀]
  case step h p l hh ho hb hi =>
    obtain ⟨fuel, rfl⟩ : ∃ k, fuel = k + 1 := ⟨fuel - 1, by omega⟩
    have hp : h.number.toNat = p.number.toNat + 1 := ho.height
    by_cases hlt : head < h.number
    case pos =>
      have hpar : h.parentHash = H.header p := ho.parent
      -- What is left of the branch has lower numbers than the header that is deleted.
      have hd' : ∀ a ∈ l, a ∈ ((db.deleteHeader (H.header h) h.number).deleteTd (H.header h)
          h.number).stored H := by
        intro a ha
        have hle : a.number.toNat ≤ p.number.toNat := hb.height_le a ha
        change ChainDb.getHeader _ _ _ = _
        rw [getHeader_delete, if_neg]
        case hnc =>
          rintro ⟨he, -⟩
          rw [he] at hle
          omega
        exact hd a (List.mem_cons_of_mem h ha)
      have hget : ((db.deleteHeader (H.header h) h.number).deleteTd (H.header h) h.number).getHeader
          (H.header p) p.number = some p := hd' p hb.mem_head
      obtain ⟨h', l₁, l', db', he, rfl, hb', hd', hs', hc, hsub, hl, hn⟩ :=
        hi hd' (sound_delete hs _ _) (Nat.lt_of_succ_lt_succ (hp ▸ hf))
      refine ⟨h', h :: l₁, l', db', ?_, rfl, hb', hd', hs', hc, ?_, ?_, hn⟩
      case refine_1 => simp only [deleteHeaders, if_pos hlt, hpar, pred_of_succ hp, hget, he]
      case refine_2 =>
        intro a ha
        have hg : ChainDb.getHeader _ _ _ = _ := hsub ha
        rw [getHeader_delete] at hg
        split at hg
        case isTrue  => cases hg
        case isFalse => exact hg
      case refine_3 => exact List.forall_mem_cons.mpr ⟨hlt, hl⟩
    case neg =>
      refine ⟨h, [], _, db, ?_, rfl, .step hh ho hb, hd, hs, rfl, subset_rfl, by simp, ?_⟩
      case refine_1 => simp only [deleteHeaders, if_neg hlt]
      case refine_2 => exact UInt64.not_lt.mp hlt

theorem rollBack_spec (db : ChainDb) (head : UInt64) (hf : i.toNat ≤ fuel) (n : UInt64) :
    (rollBack head fuel i db).getCanonicalHash n =
      if head < n ∧ n ≤ i then Hash.zero else db.getCanonicalHash n := by
  induction fuel generalizing db i
  case zero =>
    rw [rollBack, if_neg]
    rw [UInt64.lt_iff_toNat_lt, UInt64.le_iff_toNat_le] at *
    omega
  case succ fuel hi =>
    rw [rollBack]
    split
    case isTrue hlt =>
      have hlt' := UInt64.lt_iff_toNat_lt.mp hlt
      have hp : (i - 1).toNat = i.toNat - 1 :=
        UInt64.toNat_sub_of_le _ _ (UInt64.le_iff_toNat_le.mpr (by simp; omega))
      rw [hi _ (by omega), ChainDb.getCanonicalHash_deleteCanonicalHash]
      by_cases hn : n = i
      case pos =>
        rw [if_pos hn, ite_self, if_pos ⟨hn ▸ hlt, hn ▸ UInt64.le_refl _⟩]
      case neg =>
        have hne : n.toNat ≠ i.toNat := fun he => hn (UInt64.toNat_inj.mp he)
        have : (head < n ∧ n ≤ i - 1) ↔ (head < n ∧ n ≤ i) := by
          rw [UInt64.le_iff_toNat_le, UInt64.le_iff_toNat_le]
          exact and_congr_right fun _ => by omega
        simp only [this, if_neg hn]
    case isFalse hlt =>
      rw [if_neg]
      rintro ⟨h₁, h₂⟩
      exact hlt (UInt64.lt_of_lt_of_le h₁ h₂)

theorem rollBack_reindexed (db : ChainDb) (head i : UInt64) (fuel : Nat) :
    db.Reindexed (rollBack head fuel i db) := by
  induction fuel generalizing db i
  case zero => rfl
  case succ fuel hi =>
    rw [rollBack]
    split
    case isTrue =>
      have hd : db.Reindexed (db.deleteCanonicalHash i) := rfl
      exact hd.trans (hi _ _)
    case isFalse => rfl

theorem Inv.setHead (hw : Headers H genesis (hc.chainDb.stored H)) (hi : hc.Inv H genesis l)
    (head : UInt64) : ∃ l', (hc.setHead H head).Inv H genesis l' ∧
      (hc.setHead H head).chainDb.stored H ⊆ hc.chainDb.stored H := by
  obtain ⟨h', l₁, l', db, he, rfl, hb, hd, hs, hc', hsub, hl, hn⟩ :=
    deleteHeaders_spec head hw hi.branch hi.branch.subset hi.sound (Nat.lt_succ_self _)
  have hr : db.Reindexed (rollBack head hc.currentHeader.number.toNat hc.currentHeader.number db) :=
    rollBack_reindexed _ _ _ _
  have hroll := rollBack_spec db head (le_refl hc.currentHeader.number.toNat)
  generalize hdb : rollBack head hc.currentHeader.number.toNat hc.currentHeader.number db = db' at *
  have hset : hc.setHead H head = { hc with
      chainDb           := db'.writeHeadHeaderHash (H.header h')
      currentHeader     := h'
      currentHeaderHash := H.header h' } := by
    rw [HeaderChain.setHead, he, ← hdb]
    rfl
  have hst : (db'.writeHeadHeaderHash (H.header h')).stored H = db.stored H :=
    ChainDb.stored_congr hr.getHeader
  rw [hset]
  refine ⟨l', ⟨hs.congr hr.getHeader hr.getTd, rfl, ?_, ⟨fun a ha => ?_, fun n hnl => ?_⟩⟩, ?_⟩
  case refine_1 => exact hst ▸ hb.restrict hd
  case refine_2 =>
    have hle : a.number ≤ head := UInt64.le_trans (UInt64.le_iff_toNat_le.mpr (hb.height_le a ha)) hn
    change db'.getCanonicalHash _ = _
    rw [hroll, if_neg fun h => UInt64.not_lt.mpr hle h.left, ChainDb.getCanonicalHash, hc']
    exact hi.index.here a (List.mem_append_right l₁ ha)
  case refine_3 =>
    change db'.getCanonicalHash _ = _
    rw [hroll]
    split
    case isTrue => rfl
    case isFalse hn' =>
      rw [ChainDb.getCanonicalHash, hc']
      apply hi.index.blank
      intro a ha he
      obtain ha | ha := List.mem_append.mp ha
      case inl =>
        exact hn' ⟨he ▸ hl a ha, he ▸ UInt64.le_iff_toNat_le.mpr
          (hi.branch.height_le a (List.mem_append_left l' ha))⟩
      case inr => exact hnl a ha he
  case refine_4 => exact hst ▸ hsub

def writeHeaders (H : Hashes) : List (Header × Bool) → Act HeaderChain ChainError Unit
  | []      => pure ()
  | h :: hs => do
    let _ ← writeHeader H h.1 h.2
    writeHeaders H hs

-- All headers of `S` are stored, with the total difficulties of their branches. No branch is
-- heavier than `l`, that of the current header.
structure Settled (H : Hashes) (genesis : Header) (hc : HeaderChain) (S : Set Header)
    (l : List Header) : Prop where
  inv : hc.Inv H genesis l
  all : hc.chainDb.stored H = S
  td  : ∀ h ∈ S, ∃ lh, HeaderBranch H genesis S h lh ∧
    hc.chainDb.getTd (H.header h) h.number = some ((headerTree H genesis).total lh) ∧
    (headerTree H genesis).total lh ≤ (headerTree H genesis).total l

theorem stored_new : (new H genesis).chainDb.stored H = {genesis} := by
  ext a
  change (ChainDb.empty.addHeader H genesis genesis.difficulty).getHeader _ _ = _ ↔ _
  rw [ChainDb.getHeader_addHeader]
  constructor
  case mp =>
    intro ha
    split at ha
    case isTrue  => exact (Option.some.inj ha).symm
    case isFalse => cases ha
  case mpr =>
    rintro rfl
    exact if_pos ⟨rfl, rfl⟩

theorem Inv.new : (new H genesis).Inv H genesis [genesis] where
  sound  := by
    have he : ChainDb.empty.Sound H := { key := fun h => (by cases h), td := fun _ _ => rfl }
    exact he.addHeader.congr (fun _ _ => rfl) fun _ _ => rfl
  hash   := rfl
  branch := by
    rw [stored_new]
    exact .root rfl
  index  := by
    refine ⟨List.forall_mem_singleton.mpr ?_, fun n hn => ?_⟩
    case refine_1 =>
      exact ChainDb.getCanonicalHash_writeCanonicalHash.trans (if_pos rfl)
    case refine_2 =>
      exact ChainDb.getCanonicalHash_writeCanonicalHash.trans
        (if_neg fun he => hn genesis List.mem_cons_self he.symm)

theorem Settled.new : (new H genesis).Settled H genesis {genesis} [genesis] where
  inv := .new
  all := stored_new
  td  := by
    rintro h rfl
    refine ⟨[h], .root rfl, ?_, le_rfl⟩
    refine ChainDb.getTd_addHeader.trans ((if_pos ⟨rfl, rfl⟩).trans ?_)
    simp [BlockTree.total]

theorem Settled.writeHeader (hw : Headers H genesis (insert header S))
    (hs : hc.Settled H genesis S l) {p : Header} (hp : p ∈ S)
    (ho : (headerTree H genesis).On header p) (coin : Bool) :
    ∃ st hc' l', writeHeader H header coin hc = (.ok st, hc') ∧
      hc'.Settled H genesis (insert header S) l' := by
  obtain ⟨lp, hlp, htd, -⟩ := hs.td p hp
  have hsub : S ⊆ insert header S := Set.subset_insert _ _
  obtain ⟨localTd, st, hc', hlocal, he, hwr⟩ := hs.inv.writeHeader hw (hs.all ▸ hsub)
    (Set.mem_insert _ _) ho (hs.all ▸ hlp) htd coin
  have hb : HeaderBranch H genesis (insert header S) header (header :: lp) :=
    .step (Set.mem_insert _ _) ho (hlp.mono hsub)
  have hall : hc'.chainDb.stored H = insert header S := by
    rw [ChainDb.stored_congr hwr.headers,
      ChainDb.stored_addHeader _ hw.proper.inj (hs.all ▸ hsub) (Set.mem_insert _ _), hs.all]
  have hloc : localTd = (headerTree H genesis).total l := by
    have hcb := hs.all ▸ hs.inv.branch
    obtain ⟨lc, hlc, htdc, -⟩ := hs.td _ hcb.mem
    rw [hlc.unique (hw.proper.mono hsub) hcb, hlocal] at htdc
    exact Option.some.inj htdc
  -- The branches known before are at most as heavy as the one of the old head.
  have hall' (l' : List Header) (hle : (headerTree H genesis).total l ≤ (headerTree H genesis).total l')
      (hle' : (headerTree H genesis).total (header :: lp) ≤ (headerTree H genesis).total l') :
      ∀ h ∈ insert header S, ∃ lh, HeaderBranch H genesis (insert header S) h lh ∧
        hc'.chainDb.getTd (H.header h) h.number = some ((headerTree H genesis).total lh) ∧
        (headerTree H genesis).total lh ≤ (headerTree H genesis).total l' := by
    intro h hh
    by_cases hhe : h = header
    case pos =>
      subst hhe
      refine ⟨h :: lp, hb, ?_, hle'⟩
      rw [hwr.tds, ChainDb.getTd_addHeader, if_pos ⟨rfl, rfl⟩]
      rfl
    case neg =>
      obtain ⟨lh, hlh, htdh, hlt⟩ := hs.td h (hh.resolve_left hhe)
      refine ⟨lh, hlh.mono hsub, ?_, hlt.trans hle⟩
      rw [hwr.tds, ChainDb.getTd_addHeader, if_neg, htdh]
      exact fun hk => hhe (hw.proper.inj hh (Set.mem_insert _ _) hk.right)
  obtain ⟨hle, -, hi⟩ | ⟨hle, -, hi⟩ := hwr.head
  case inl => exact ⟨st, hc', _, he, hi, hall, hall' _ (hloc ▸ hle) le_rfl⟩
  case inr => exact ⟨st, hc', _, he, hi, hall, hall' _ le_rfl (hloc ▸ hle)⟩

theorem Settled.writeHeaders {hs : List (Header × Bool)} (hi : hc.Settled H genesis S l)
    (hw : Headers H genesis (S ∪ { h | h ∈ hs.map Prod.fst }))
    (ho : (headerTree H genesis).Ordered S (hs.map Prod.fst)) :
    ∃ hc' l', writeHeaders H hs hc = (.ok (), hc') ∧
      hc'.Settled H genesis (S ∪ { h | h ∈ hs.map Prod.fst }) l' := by
  induction hs generalizing hc S l
  case nil => exact ⟨hc, l, rfl, by simpa using hi⟩
  case cons h hs ih =>
    obtain ⟨⟨p, hp, hon⟩, ho⟩ := ho
    have hS : S ∪ { a | a ∈ (h :: hs).map Prod.fst } = insert h.1 S ∪ { a | a ∈ hs.map Prod.fst } := by
      ext a
      change a ∈ S ∨ a ∈ h.1 :: hs.map Prod.fst ↔ (a = h.1 ∨ a ∈ S) ∨ a ∈ hs.map Prod.fst
      rw [List.mem_cons]
      tauto
    rw [hS] at hw ⊢
    obtain ⟨st, hc₁, l₁, he, hi₁⟩ := hi.writeHeader (hw.mono Set.subset_union_left) hp hon h.2
    obtain ⟨hc', l', he', hi'⟩ := ih hi₁ hw ho
    refine ⟨hc', l', ?_, hi'⟩
    rw [HeaderChain.writeHeaders, Act.bind_ok he, he']

-- Writing headers, each after its parent: the canonical index is the branch of the current header,
-- every header has the total difficulty of its branch, and the current header has the greatest.
theorem writeHeaders_canonical {hs : List (Header × Bool)}
    (hw : Headers H genesis ({genesis} ∪ { h | h ∈ hs.map Prod.fst }))
    (ho : (headerTree H genesis).Ordered {genesis} (hs.map Prod.fst)) :
    ∃ hc l, writeHeaders H hs (new H genesis) = (.ok (), hc) ∧
      HeaderBranch H genesis ({genesis} ∪ { h | h ∈ hs.map Prod.fst }) hc.currentHeader l ∧
      (∀ n ≤ hc.currentHeader.number,
        ∃ a ∈ l, a.number = n ∧ hc.chainDb.getCanonicalHash n = H.header a) ∧
      (∀ n > hc.currentHeader.number, hc.chainDb.getCanonicalHash n = Hash.zero) ∧
      hc.chainDb.getTd (H.header hc.currentHeader) hc.currentHeader.number =
        some ((l.map Header.difficulty).sum) ∧
      ∀ h ∈ ({genesis} ∪ { h | h ∈ hs.map Prod.fst } : Set Header), ∃ lh,
        HeaderBranch H genesis ({genesis} ∪ { h | h ∈ hs.map Prod.fst }) h lh ∧
        hc.chainDb.getTd (H.header h) h.number = some ((lh.map Header.difficulty).sum) ∧
        (lh.map Header.difficulty).sum ≤ (l.map Header.difficulty).sum := by
  obtain ⟨hc, l, he, hi⟩ := Settled.new.writeHeaders hw ho
  have hb := hi.all ▸ hi.inv.branch
  refine ⟨hc, l, he, hb, fun n hn => ?_, fun n hn => ?_, ?_, hi.td⟩
  case refine_1 =>
    obtain ⟨a, ha, hn⟩ := hb.exists_height hw.proper (UInt64.le_iff_toNat_le.mp hn)
    obtain rfl := UInt64.toNat_inj.mp hn
    exact ⟨a, ha, rfl, hi.inv.index.here a ha⟩
  case refine_2 =>
    apply hi.inv.index.blank
    intro a ha he
    exact UInt64.not_lt.mpr (UInt64.le_iff_toNat_le.mpr (hb.height_le a ha)) (he ▸ hn)
  case refine_3 =>
    obtain ⟨lc, hlc, htd, -⟩ := hi.td _ hb.mem
    rw [htd, hlc.unique hw.proper hb]
    rfl

def sampleHashes : Hashes where
  keccak      := bytesToHash
  header      := fun h => bytesToHash h.extra
  transaction := fun tx => bytesToHash tx.payload
  uncles      := fun us => bytesToHash (us.flatMap Header.extra)
  txRoot      := fun txs => bytesToHash (txs.flatMap Transaction.payload)

def sampleHeader (name parent : UInt8) (number : UInt64) (difficulty : Nat) : Header where
  parentHash  := bytesToHash [parent]
  uncleHash   := Hash.zero
  coinbase    := Address.zero
  root        := Hash.zero
  txHash      := Hash.zero
  receiptHash := Hash.zero
  bloom       := 0
  difficulty  := difficulty
  number      := number
  gasLimit    := 0
  gasUsed     := 0
  time        := 0
  extra       := [name]
  mixDigest   := Hash.zero
  nonce       := 0

def sampleGenesis : Header :=
  sampleHeader 1 0 0 1

def sampleFork : List (Header × Bool) :=
  [(sampleHeader 2 1 1 1, false), (sampleHeader 3 1 1 2, true), (sampleHeader 4 3 2 1, false)]

theorem sampleFork_canonical : ∃ hc l,
    writeHeaders sampleHashes sampleFork (new sampleHashes sampleGenesis) = (.ok (), hc) ∧
    HeaderBranch sampleHashes sampleGenesis
      ({sampleGenesis} ∪ { h | h ∈ sampleFork.map Prod.fst }) hc.currentHeader l ∧
    ∀ n ≤ hc.currentHeader.number,
      ∃ a ∈ l, a.number = n ∧ hc.chainDb.getCanonicalHash n = sampleHashes.header a := by
  have hw : Headers sampleHashes sampleGenesis
      ({sampleGenesis} ∪ { h | h ∈ sampleFork.map Prod.fst }) :=
    .ofList rfl (by decide) (by decide +kernel) (by decide +kernel)
  have ho : (headerTree sampleHashes sampleGenesis).Ordered {sampleGenesis}
      (sampleFork.map Prod.fst) :=
    ⟨⟨_, rfl, rfl, rfl⟩, ⟨_, .inr rfl, rfl, rfl⟩, ⟨_, .inl rfl, rfl, rfl⟩, trivial⟩
  obtain ⟨hc, l, he, hb, hn, -⟩ := writeHeaders_canonical hw ho
  exact ⟨hc, l, he, hb, hn⟩

end

-- The chains that writing and rewinding lead to, as long as no header is written that has lost an
-- ancestor.
inductive Reached (H : Hashes) (genesis : Header) (W : Set Header) : HeaderChain → Prop
  | new : Reached H genesis W (new H genesis)
  | writeHeader {hc : HeaderChain} {header : Header} (coin : Bool) : Reached H genesis W hc → header ∈ W →
    hc.Complete H genesis header → Reached H genesis W (HeaderChain.writeHeader H header coin hc).2
  | setHead {hc : HeaderChain} (head : UInt64) : Reached H genesis W hc → Reached H genesis W (hc.setHead H head)

-- The canonical index is a chain of stored headers from the current one down to genesis.
def Linked (H : Hashes) (genesis : Header) (hc : HeaderChain) : Prop :=
  ∃ l, HeaderBranch H genesis (hc.chainDb.stored H) hc.currentHeader l ∧ hc.chainDb.Indexed H l

theorem Inv.writeHeader_complete (hw : Headers H genesis W) (hr : Rooted H genesis W)
    (hs : hc.chainDb.stored H ⊆ W) (hi : hc.Inv H genesis l) (hh : header ∈ W)
    (hcpl : hc.Complete H genesis header) (coin : Bool) :
    HeaderChain.writeHeader H header coin hc = (Go.fail (.parent header.parentHash), hc) ∨
      ∃ st hc' l', HeaderChain.writeHeader H header coin hc = (.ok st, hc') ∧ hc'.Inv H genesis l' ∧
        hc'.chainDb.stored H ⊆ W := by
  cases ht : hc.chainDb.getTd header.parentHash (header.number - 1)
  case none =>
    left
    simp only [HeaderChain.writeHeader, ht]
  case some ptd =>
    right
    obtain ⟨p, hp, hps, ho⟩ := hi.parent hw hr hs hh ht
    obtain ⟨lp, hlp⟩ := hcpl p hp
    have hpar : header.parentHash = H.header p := ho.parent
    rw [hpar, pred_of_succ ho.height] at ht
    obtain ⟨localTd, st, hc', -, he, hwr⟩ := hi.writeHeader hw hs hh ho hlp ht coin
    have hst : hc'.chainDb.stored H ⊆ W := by
      rw [ChainDb.stored_congr hwr.headers, ChainDb.stored_addHeader _ hw.proper.inj hs hh]
      exact Set.insert_subset hh hs
    obtain ⟨-, -, hi'⟩ | ⟨-, -, hi'⟩ := hwr.head
    case inl => exact ⟨st, hc', _, he, hi', hst⟩
    case inr => exact ⟨st, hc', _, he, hi', hst⟩

theorem Reached.inv (hw : Headers H genesis W) (hr : Rooted H genesis W) (hg : genesis ∈ W)
    (h : Reached H genesis W hc) : ∃ l, hc.Inv H genesis l ∧ hc.chainDb.stored H ⊆ W := by
  induction h
  case new => exact ⟨_, .new, by simpa [stored_new] using hg⟩
  case writeHeader coin _ hh hcpl hi =>
    obtain ⟨l, hi, hs⟩ := hi
    obtain he | ⟨st, hc', l', he, hi'⟩ := hi.writeHeader_complete hw hr hs hh hcpl coin
    case inl => rw [he]; exact ⟨l, hi, hs⟩
    case inr => rw [he]; exact ⟨l', hi'⟩
  case setHead head _ hi =>
    obtain ⟨l, hi, hs⟩ := hi
    obtain ⟨l', hi', hs'⟩ := hi.setHead (hw.mono hs) head
    exact ⟨l', hi', hs'.trans hs⟩

-- Three headers on top of each other, and one on a side branch that leaves them at the first.
def sampleSide : List (Header × Bool) :=
  [(sampleHeader 2 1 1 1, false), (sampleHeader 3 2 2 1, false), (sampleHeader 4 3 3 1, false),
    (sampleHeader 5 2 2 1, false)]

end HeaderChain

end Core
