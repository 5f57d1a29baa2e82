import GoEthereum.Core.BlockChain

-- What writing a block does, in terms of the branches of the tree of blocks.

namespace Core

open Common

variable {H : Hashes} {genesis : Block} {S : Set Block}

abbrev BlockBranch (H : Hashes) (genesis : Block) (S : Set Block) (b : Block) (l : List Block) : Prop :=
  (blockTree H genesis).Branch S b l

abbrev BlockFork (H : Hashes) (genesis : Block) (S : Set Block) (b b' : Block)
    (old new common : List Block) : Prop :=
  (blockTree H genesis).Fork S b b' old new common

namespace ChainDb

variable {db : ChainDb} {b o n : Block} {l lo ln : List Block} {fuel : Nat}

def HasBlock (H : Hashes) (db : ChainDb) (b : Block) : Prop :=
  db.getBlock (b.hash H) b.number = some b

theorem reduceChain_spec (acc : List Block) {number : UInt64} (hp : (blockTree H genesis).Proper S)
    (hb : BlockBranch H genesis S b l) (hd : ∀ a ∈ l, db.HasBlock H a)
    (hn : number.toNat ≤ b.number.toNat) (hf : b.number.toNat < fuel) :
    ∃ c l₁ l₂, db.reduceChain number fuel (some b) acc = (some c, acc ++ l₁) ∧ l = l₁ ++ l₂ ∧
      BlockBranch H genesis S c l₂ ∧ c.number = number ∧
      ∀ a ∈ l₁, number.toNat < a.number.toNat := by
  obtain ⟨fuel, rfl⟩ : ∃ k, fuel = k + 1 := ⟨fuel - 1, by omega⟩
  induction hb generalizing fuel acc
  case root hr =>
    have h₀ : genesis.number.toNat = 0 := hp.base
    have he : genesis.number = number := UInt64.toNat_inj.mp (by simp at hn; omega)
    refine ⟨genesis, [], _, ?_, rfl, .root hr, he, by simp⟩
    rw [List.append_nil]
    exact if_pos he
  case step b p l hbS ho hb hi =>
    have hh : b.number.toNat = p.number.toNat + 1 := ho.height
    by_cases he : b.number = number
    case pos =>
      refine ⟨b, [], _, ?_, rfl, .step hbS ho hb, he, by simp⟩
      rw [reduceChain, if_pos he, List.append_nil]
    case neg =>
      have hne : number.toNat ≠ b.number.toNat := fun h => he (UInt64.toNat_inj.mp h.symm)
      obtain ⟨fuel, rfl⟩ : ∃ k, fuel = k + 1 := ⟨fuel - 1, by omega⟩
      obtain ⟨hd₀, hd⟩ := List.forall_mem_cons.mp hd
      obtain ⟨c, l₁, l₂, hr, rfl, hc, hcn, hl⟩ := hi (acc ++ [b]) hd (by omega) fuel (by omega)
      refine ⟨c, b :: l₁, l₂, ?_, rfl, hc, hcn, ?_⟩
      case refine_1 =>
        have hpar : b.parentHash = p.hash H := ho.parent
        have hget : db.getBlock (p.hash H) p.number = some p := hd p hb.mem_head
        rw [reduceChain, if_neg he, hpar, pred_of_succ hh, hget, hr, List.append_assoc]
        rfl
      case refine_2 => exact List.forall_mem_cons.mpr ⟨by omega, hl⟩

theorem findCommon_spec (acc acc' : List Block) (hp : (blockTree H genesis).Proper S)
    (ho : BlockBranch H genesis S o lo) (hn : BlockBranch H genesis S n ln) (hd : ∀ a ∈ lo, db.HasBlock H a)
    (hd' : ∀ a ∈ ln, db.HasBlock H a) (he : o.number = n.number) (hf : o.number.toNat < fuel) :
    ∃ l₁ l₂ c, db.findCommon H fuel o n acc acc' = .ok (acc ++ l₁, acc' ++ l₂) ∧ lo = l₁ ++ c ∧
      ln = l₂ ++ c ∧ ∀ a ∈ l₁, a ∉ l₂ := by
  obtain ⟨fuel, rfl⟩ : ∃ k, fuel = k + 1 := ⟨fuel - 1, by omega⟩
  induction ho generalizing n ln fuel acc acc'
  case root hr =>
    have h₀ : n.number.toNat = 0 := by
      rw [← he]
      exact hp.base
    obtain ⟨rfl, rfl⟩ := hn.eq_root h₀
    exact ⟨[], [], _, by simp [findCommon], rfl, rfl, by simp⟩
  case step o p lo hoS hop ho hi =>
    have hoh : o.number.toNat = p.number.toNat + 1 := hop.height
    by_cases hh : o.hash H = n.hash H
    case pos =>
      obtain rfl : o = n := hp.inj hoS hn.mem hh
      refine ⟨[], [], _, by simp [findCommon], rfl, ?_, by simp⟩
      exact hn.unique hp (.step hoS hop ho)
    case neg =>
      cases hn
      case root =>
        have h₀ : (blockTree H genesis).root.number.toNat = 0 := hp.base
        rw [← he] at h₀
        omega
      case step q ln hn _ hnq =>
        have hnh : n.number.toNat = q.number.toNat + 1 := hnq.height
        obtain ⟨hd₀, hd⟩ := List.forall_mem_cons.mp hd
        obtain ⟨hd₀', hd'⟩ := List.forall_mem_cons.mp hd'
        have hpq : p.number = q.number := UInt64.toNat_inj.mp (by rw [he] at hoh; omega)
        obtain ⟨fuel, rfl⟩ : ∃ k, fuel = k + 1 := ⟨fuel - 1, by omega⟩
        obtain ⟨l₁, l₂, c, hr, rfl, rfl, hl⟩ :=
          hi (acc ++ [o]) (acc' ++ [n]) hn hd hd' hpq fuel (by omega)
        refine ⟨o :: l₁, n :: l₂, c, ?_, rfl, rfl, ?_⟩
        case refine_1 =>
          have hgo : db.getBlock o.parentHash (o.number - 1) = some p := by
            rw [show o.parentHash = p.hash H from hop.parent, pred_of_succ hoh]
            exact hd p ho.mem_head
          have hgn : db.getBlock n.parentHash (n.number - 1) = some q := by
            rw [show n.parentHash = q.hash H from hnq.parent, pred_of_succ hnh]
            exact hd' q hn.mem_head
          rw [findCommon, if_neg hh, hgo, hgn]
          simp only [hr, List.append_assoc, List.singleton_append]
        case refine_2 =>
          -- The two heads differ, and either is higher than what is below the other.
          have hlo (a : Block) (ha : a ∈ l₁) : a.number.toNat < o.number.toNat := by
            have : a.number.toNat ≤ p.number.toNat := ho.height_le a (List.mem_append_left c ha)
            omega
          have hln (a : Block) (ha : a ∈ l₂) : a.number.toNat < n.number.toNat := by
            have : a.number.toNat ≤ q.number.toNat := hn.height_le a (List.mem_append_left c ha)
            omega
          rw [List.forall_mem_cons]
          refine ⟨fun ho₂ => ?_, fun a ha hm => ?_⟩
          case refine_1 =>
            obtain rfl | ho₂ := List.mem_cons.mp ho₂
            case inl => exact hh rfl
            case inr => exact absurd (hln o ho₂) (by rw [he]; omega)
          case refine_2 =>
            obtain rfl | hm := List.mem_cons.mp hm
            case inl => exact absurd (hlo a ha) (by rw [he]; omega)
            case inr => exact hl a ha hm

structure SameBlocks (db db' : ChainDb) : Prop where
  headers  : db'.headers = db.headers
  bodies   : db'.bodies = db.bodies
  tds      : db'.tds = db.tds
  receipts : db'.blockReceipts = db.blockReceipts

-- The canonical index and the heads are the same in both databases.
structure SameIndex (db db' : ChainDb) : Prop where
  canonical     : db'.canonical = db.canonical
  headHeader    : db'.headHeader = db.headHeader
  headBlock     : db'.headBlock = db.headBlock
  headFastBlock : db'.headFastBlock = db.headFastBlock

structure SameLookups (db db' : ChainDb) : Prop where
  transactions : db'.transactions = db.transactions
  txMetas      : db'.txMetas = db.txMetas
  receipts     : db'.receipts = db.receipts

variable {db₁ db₂ db₃ : ChainDb}

theorem SameBlocks.refl (db : ChainDb) : db.SameBlocks db :=
  ⟨rfl, rfl, rfl, rfl⟩

theorem SameBlocks.trans (h : db₁.SameBlocks db₂) (h' : db₂.SameBlocks db₃) : db₁.SameBlocks db₃ where
  headers  := h'.headers.trans h.headers
  bodies   := h'.bodies.trans h.bodies
  tds      := h'.tds.trans h.tds
  receipts := h'.receipts.trans h.receipts

theorem SameIndex.refl (db : ChainDb) : db.SameIndex db :=
  ⟨rfl, rfl, rfl, rfl⟩

theorem SameIndex.trans (h : db₁.SameIndex db₂) (h' : db₂.SameIndex db₃) : db₁.SameIndex db₃ where
  canonical     := h'.canonical.trans h.canonical
  headHeader    := h'.headHeader.trans h.headHeader
  headBlock     := h'.headBlock.trans h.headBlock
  headFastBlock := h'.headFastBlock.trans h.headFastBlock

section

variable (h : db₁.SameBlocks db₂)
include h

theorem SameBlocks.hasBlock : db₂.HasBlock H b ↔ db₁.HasBlock H b := by
  rw [HasBlock, getBlock, getHeader, getBody, h.headers, h.bodies]
  rfl

theorem SameBlocks.getTd (k : Hash) (n : UInt64) :
    db₂.getTd k n = db₁.getTd k n := by
  rw [ChainDb.getTd, h.tds]
  rfl

theorem SameBlocks.getBlockReceipts (k : Hash) (n : UInt64) :
    db₂.getBlockReceipts k n = db₁.getBlockReceipts k n := by
  rw [ChainDb.getBlockReceipts, h.receipts]
  rfl

end

theorem SameIndex.getCanonicalHash (h : db₁.SameIndex db₂) (n : UInt64) :
    db₂.getCanonicalHash n = db₁.getCanonicalHash n := by
  rw [ChainDb.getCanonicalHash, h.canonical]
  rfl

-- Writing and deleting lookups leaves the blocks and the index alone.
def Kept (db db' : ChainDb) : Prop :=
  db.SameBlocks db' ∧ db.SameIndex db'

theorem Kept.foldl {α : Type} {f : ChainDb → α → ChainDb} (h : ∀ (db : ChainDb) a, db.Kept (f db a))
    (l : List α) (db : ChainDb) : db.Kept (l.foldl f db) := by
  induction l generalizing db
  case nil => exact ⟨.refl db, .refl db⟩
  case cons a l hi => exact ⟨(h db a).left.trans (hi _).left, (h db a).right.trans (hi _).right⟩

theorem Kept.trans (h : db₁.Kept db₂) (h' : db₂.Kept db₃) : db₁.Kept db₃ :=
  ⟨h.left.trans h'.left, h.right.trans h'.right⟩

theorem kept_writeLookups (block : Block) (receipts : List Receipt) :
    db.Kept (db.writeLookups H block receipts) := by
  have h₁ : db.Kept (db.writeTransactions H block) :=
    .foldl (by exact fun _ _ => ⟨⟨rfl, rfl, rfl, rfl⟩, ⟨rfl, rfl, rfl, rfl⟩⟩) _ _
  have h₂ (db : ChainDb) : db.Kept (db.writeReceipts receipts) :=
    .foldl (by exact fun _ _ => ⟨⟨rfl, rfl, rfl, rfl⟩, ⟨rfl, rfl, rfl, rfl⟩⟩) _ _
  have h₃ (db : ChainDb) : db.Kept (db.writeMipmapBloom H block.number receipts) :=
    .foldl (by exact fun _ _ => ⟨⟨rfl, rfl, rfl, rfl⟩, ⟨rfl, rfl, rfl, rfl⟩⟩) _ _
  exact h₁.trans ((h₂ _).trans (h₃ _))

theorem kept_dropTxs (txs : List Transaction) : db.Kept (db.dropTxs H txs) :=
  .foldl (by exact fun _ _ => ⟨⟨rfl, rfl, rfl, rfl⟩, ⟨rfl, rfl, rfl, rfl⟩⟩) _ _

-- What `WriteBlock` stores before it looks at the canonical chain.
def addBlock (H : Hashes) (db : ChainDb) (block : Block) (td : Nat) : ChainDb :=
  (db.writeTd (block.hash H) block.number td).writeBlock H block

variable {block : Block} {td : Nat} {k : Hash} {m : UInt64}

theorem getTd_addBlock : (db.addBlock H block td).getTd k m =
    if m = block.number ∧ k = block.hash H then some td else db.getTd k m := by
  simp only [getTd, addBlock, writeBlock, writeBody, writeHeader, writeTd,
    GoMap.lookup_insert_eq_ite, Prod.mk.injEq]

theorem getBlock_addBlock : (db.addBlock H block td).getBlock k m =
    if m = block.number ∧ k = block.hash H then some block else db.getBlock k m := by
  have hn : block.header.number = block.number := rfl
  have hh : H.header block.header = block.hash H := rfl
  simp only [getBlock, getHeader, getBody, addBlock, writeBlock, writeBody, writeHeader, writeTd,
    GoMap.lookup_insert_eq_ite, Prod.mk.injEq, hn, hh]
  split <;> rfl

theorem hasBlock_addBlock {W : Set Block} (hw : Set.InjOn (fun b : Block => b.hash H) W)
    (hb : block ∈ W) {b : Block} (hbW : b ∈ W) (h : b = block ∨ db.HasBlock H b) :
    (db.addBlock H block td).HasBlock H b := by
  rw [HasBlock, getBlock_addBlock]
  split
  case isTrue he => rw [hw hbW hb he.right]
  case isFalse he =>
    obtain rfl | h := h
    case inl => exact absurd ⟨rfl, rfl⟩ he
    case inr => exact h

end ChainDb

namespace BlockChain

variable {bc : BlockChain} {block b : Block} {l lp : List Block} {coin : Bool}

@[simp]
theorem updateDb_chainDb (f : ChainDb → ChainDb) : (bc.updateDb f).chainDb = f bc.chainDb :=
  rfl

@[simp]
theorem updateDb_currentBlock (f : ChainDb → ChainDb) :
    (bc.updateDb f).currentBlock = bc.currentBlock :=
  rfl

@[simp]
theorem insert_currentBlock : (bc.insert H block).currentBlock = block := by
  rw [insert]
  split <;> rfl

theorem insert_sameBlocks : bc.chainDb.SameBlocks (bc.insert H block).chainDb := by
  rw [insert]
  split <;> exact ⟨rfl, rfl, rfl, rfl⟩

theorem insert_sameLookups : bc.chainDb.SameLookups (bc.insert H block).chainDb := by
  rw [insert]
  split <;> exact ⟨rfl, rfl, rfl⟩

theorem insert_canonical (n : UInt64) : (bc.insert H block).chainDb.getCanonicalHash n =
    if n = block.number then block.hash H else bc.chainDb.getCanonicalHash n := by
  have h : (bc.insert H block).chainDb.canonical =
      bc.chainDb.canonical.insert block.number (block.hash H) := by
    rw [insert]
    split <;> rfl
  rw [ChainDb.getCanonicalHash, h, GoMap.lookup_insert_eq_ite]
  split <;> rfl

theorem adopt_sameBlocks : bc.chainDb.SameBlocks (bc.adopt H block).chainDb :=
  insert_sameBlocks.trans (ChainDb.kept_writeLookups _ _).left

theorem adopt_canonical (n : UInt64) : (bc.adopt H block).chainDb.getCanonicalHash n =
    if n = block.number then block.hash H else bc.chainDb.getCanonicalHash n :=
  ((ChainDb.kept_writeLookups _ _).right.getCanonicalHash n).trans (insert_canonical n)

section

variable {new : List Block}

theorem adoptAll_sameBlocks (new : List Block) (bc : BlockChain) :
    bc.chainDb.SameBlocks (bc.adoptAll H new).chainDb := by
  induction new generalizing bc
  case nil           => exact .refl _
  case cons b new hi => exact adopt_sameBlocks.trans (hi _)

theorem adoptAll_canonical_of_ne {n : UInt64} (hn : ∀ b ∈ new, b.number ≠ n) :
    (bc.adoptAll H new).chainDb.getCanonicalHash n = bc.chainDb.getCanonicalHash n := by
  induction new generalizing bc
  case nil => rfl
  case cons b new hi =>
    obtain ⟨hb, hn⟩ := List.forall_mem_cons.mp hn
    exact (hi hn).trans ((adopt_canonical n).trans (if_neg hb.symm))

theorem adoptAll_canonical_of_mem (hu : ∀ a ∈ new, ∀ b ∈ new, a.number = b.number → a = b)
    (hb : b ∈ new) : (bc.adoptAll H new).chainDb.getCanonicalHash b.number = b.hash H := by
  induction new generalizing bc
  case nil => cases hb
  case cons a new hi =>
    have hu' : ∀ a ∈ new, ∀ b ∈ new, a.number = b.number → a = b :=
      fun a ha b hb => hu a (List.mem_cons_of_mem _ ha) b (List.mem_cons_of_mem _ hb)
    by_cases hm : b ∈ new
    case pos => exact hi hu' hm
    case neg =>
      -- No block that comes later has the number of this one.
      have hne : ∀ c ∈ new, c.number ≠ b.number := by
        intro c hc he
        exact hm (hu c (List.mem_cons_of_mem _ hc) b hb he ▸ hc)
      obtain rfl : b = a := (List.mem_cons.mp hb).resolve_right hm
      exact (adoptAll_canonical_of_ne hne).trans ((adopt_canonical _).trans (if_pos rfl))

end

section

variable (new : List Block) (txs : List Transaction)

theorem switch_sameBlocks : bc.chainDb.SameBlocks
    (((bc.adoptAll H new).updateDb fun db => db.dropTxs H txs).insert H block).chainDb := by
  have h : (bc.adoptAll H new).chainDb.SameBlocks
      ((bc.adoptAll H new).updateDb fun db => db.dropTxs H txs).chainDb :=
    (ChainDb.kept_dropTxs txs).left
  exact (adoptAll_sameBlocks new bc).trans (h.trans insert_sameBlocks)

theorem switch_canonical (n : UInt64) :
    (((bc.adoptAll H new).updateDb fun db => db.dropTxs H txs).insert H
      block).chainDb.getCanonicalHash n =
      if n = block.number then block.hash H
      else (bc.adoptAll H new).chainDb.getCanonicalHash n := by
  rw [insert_canonical, updateDb_chainDb, (ChainDb.kept_dropTxs txs).right.getCanonicalHash]

end

-- A reorganisation adopts the part of the new branch that the two branches do not share.
theorem reorg_spec (hp : (blockTree H genesis).Proper S) {old new : Block} {lo ln : List Block}
    (ho : BlockBranch H genesis S old lo) (hn : BlockBranch H genesis S new ln)
    (hd : ∀ b ∈ S, bc.chainDb.HasBlock H b) :
    ∃ oldChain newChain common, BlockFork H genesis S old new oldChain newChain common ∧
      bc.reorg H old new = (.ok (bc.reorgEvents H oldChain newChain),
        (bc.adoptAll H newChain).updateDb fun db =>
          db.dropTxs H (bc.reorgEvents H oldChain newChain).removedTxs) := by
  by_cases hlt : new.number < old.number
  case pos =>
    have hlt' := UInt64.lt_iff_toNat_lt.mp hlt
    obtain ⟨c, l₁, l₂, hr, rfl, hc, hcn, hl⟩ := ChainDb.reduceChain_spec [] hp ho
      (fun a ha => hd a (ho.subset a ha)) (le_of_lt hlt') (Nat.lt_succ_self _)
    obtain ⟨l₃, l₄, common, hf, rfl, rfl, hap⟩ := ChainDb.findCommon_spec ([] ++ l₁) [] hp hc hn
      (fun a ha => hd a (hc.subset a ha)) (fun a ha => hd a (hn.subset a ha)) hcn
      (Nat.lt_succ_self _)
    refine ⟨l₁ ++ l₃, l₄, common, ⟨by simpa using ho, hn, ?_⟩, ?_⟩
    case refine_1 =>
      intro a ha hm
      obtain ha | ha := List.mem_append.mp ha
      case inl =>
        have hle : a.number.toNat ≤ new.number.toNat := hn.height_le a (List.mem_append_left _ hm)
        have := hl a ha
        omega
      case inr => exact hap a ha hm
    case refine_2 =>
      simp only [List.nil_append, Nat.succ_eq_add_one] at hr hf
      simp only [reorg, if_pos hlt, hr, hf]
  case neg =>
    have hle : old.number.toNat ≤ new.number.toNat := by
      rw [UInt64.lt_iff_toNat_lt] at hlt
      omega
    obtain ⟨c, l₁, l₂, hr, rfl, hc, hcn, hl⟩ := ChainDb.reduceChain_spec [] hp hn
      (fun a ha => hd a (hn.subset a ha)) hle (Nat.lt_succ_self _)
    obtain ⟨l₃, l₄, common, hf, rfl, rfl, hap⟩ := ChainDb.findCommon_spec [] ([] ++ l₁) hp ho hc
      (fun a ha => hd a (ho.subset a ha)) (fun a ha => hd a (hc.subset a ha)) hcn.symm
      (Nat.lt_succ_self _)
    refine ⟨l₃, l₁ ++ l₄, common, ⟨ho, by simpa using hn, ?_⟩, ?_⟩
    case refine_1 =>
      intro a ha hm
      obtain hm | hm := List.mem_append.mp hm
      case inl =>
        have hle : a.number.toNat ≤ old.number.toNat := ho.height_le a (List.mem_append_left _ ha)
        have := hl a hm
        omega
      case inr => exact hap a ha hm
    case refine_2 =>
      simp only [List.nil_append, Nat.succ_eq_add_one] at hr hf
      simp only [reorg, if_neg hlt, hr, hf]

-- The blocks in `S` with their total difficulties, the branch `l` of the current block, and the
-- branch `lp` of the parent.
structure Ready (H : Hashes) (genesis : Block) (bc : BlockChain) (S : Set Block) (l : List Block)
    (block : Block) (lp : List Block) (localTd ptd : Nat) : Prop where
  proper : (blockTree H genesis).Proper (Insert.insert block S)
  blocks : ∀ b ∈ S, bc.chainDb.HasBlock H b
  branch : BlockBranch H genesis S bc.currentBlock l
  on     : ∃ p, (blockTree H genesis).On block p ∧ BlockBranch H genesis S p lp ∧
    bc.chainDb.getTd (p.hash H) p.number = some ptd
  td     : bc.chainDb.getTd (bc.currentBlock.hash H) bc.currentBlock.number = some localTd

def addBlock (H : Hashes) (bc : BlockChain) (block : Block) (td : Nat) : BlockChain :=
  bc.updateDb fun db => db.addBlock H block td

inductive Outcome (H : Hashes) (genesis : Block) (bc : BlockChain) (S : Set Block) (block : Block)
    (localTd td : Nat) : WriteStatus → ReorgEvents → BlockChain → Prop
  | side : td ≤ localTd →
    Outcome H genesis bc S block localTd td .sideStatTy .none (bc.addBlock H block td)
  | extend : localTd ≤ td → block.parentHash = bc.currentBlock.hash H →
    Outcome H genesis bc S block localTd td .canonStatTy .none
      ((bc.addBlock H block td).insert H block)
  | reorg {old new common : List Block} : localTd ≤ td →
    block.parentHash ≠ bc.currentBlock.hash H →
    BlockFork H genesis (Insert.insert block S) bc.currentBlock block old new common →
    Outcome H genesis bc S block localTd td .canonStatTy
      ((bc.addBlock H block td).reorgEvents H old new)
      ((((bc.addBlock H block td).adoptAll H new).updateDb fun db =>
        db.dropTxs H ((bc.addBlock H block td).reorgEvents H old new).removedTxs).insert H block)

theorem writeBlock_eq {localTd ptd : Nat}
    (hptd : bc.chainDb.getTd block.parentHash (block.number - 1) = some ptd)
    (htd : bc.chainDb.getTd (bc.currentBlock.hash H) bc.currentBlock.number = some localTd) :
    writeBlock H block coin bc =
      if localTd < block.difficulty + ptd ∨ block.difficulty + ptd = localTd ∧ coin = true then
        if block.parentHash ≠ bc.currentBlock.hash H then
          match (bc.addBlock H block (block.difficulty + ptd)).reorg H bc.currentBlock block with
          | (.error e, bc)   => (.error e, bc)
          | (.ok events, bc) => (.ok (.canonStatTy, events), bc.insert H block)
        else
          (.ok (.canonStatTy, .none), (bc.addBlock H block (block.difficulty + ptd)).insert H block)
      else (.ok (.sideStatTy, .none), bc.addBlock H block (block.difficulty + ptd)) := by
  simp only [writeBlock, hptd, htd]
  rfl

theorem Ready.writeBlock {localTd ptd : Nat} (hr : bc.Ready H genesis S l block lp localTd ptd)
    (coin : Bool) : ∃ st events bc', writeBlock H block coin bc = (.ok (st, events), bc') ∧
      bc.Outcome H genesis S block localTd (block.difficulty + ptd) st events bc' := by
  obtain ⟨p, hon, hlp, hptd⟩ := hr.on
  have hpar : block.parentHash = p.hash H := hon.parent
  rw [← hpar, ← pred_of_succ hon.height] at hptd
  by_cases hcan : localTd < block.difficulty + ptd ∨ block.difficulty + ptd = localTd ∧ coin = true
  case pos =>
    have hle : localTd ≤ block.difficulty + ptd := by omega
    by_cases hext : block.parentHash = bc.currentBlock.hash H
    case pos =>
      refine ⟨_, _, _, ?_, .extend hle hext⟩
      rw [writeBlock_eq hptd hr.td, if_pos hcan, if_neg (not_not.mpr hext)]
    case neg =>
      have hsub : S ⊆ Insert.insert block S := Set.subset_insert _ _
      have hb : BlockBranch H genesis (Insert.insert block S) block (block :: lp) :=
        .step (Set.mem_insert _ _) hon (hlp.mono hsub)
      have hd : ∀ b ∈ Insert.insert block S,
          (bc.addBlock H block (block.difficulty + ptd)).chainDb.HasBlock H b := by
        intro b hb
        exact ChainDb.hasBlock_addBlock hr.proper.inj (Set.mem_insert _ _) hb
          (hb.imp_right (hr.blocks b))
      obtain ⟨old, new, common, hf, he⟩ := reorg_spec hr.proper (hr.branch.mono hsub) hb hd
      refine ⟨_, _, _, ?_, .reorg hle hext hf⟩
      rw [writeBlock_eq hptd hr.td, if_pos hcan, if_pos hext, he]
  case neg =>
    refine ⟨_, _, _, ?_, .side (by omega)⟩
    rw [writeBlock_eq hptd hr.td, if_neg hcan]

end BlockChain

end Core
