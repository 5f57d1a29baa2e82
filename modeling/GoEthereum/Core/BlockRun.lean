import GoEthereum.Core.HeaderRun
import GoEthereum.Core.Reorg

-- The block chain over whole runs.

namespace Core

open Common

namespace BlockChain

variable {H : Hashes} {genesis block : Block} {bc bc' : BlockChain} {S : Set Block}
variable {l : List Block} {coin : Bool} {localTd td : Nat} {st : WriteStatus} {events : ReorgEvents}

-- What writing a block makes of the index: the blocks of `new` replace what stood at their numbers.
structure Rewritten (H : Hashes) (bc : BlockChain) (new : List Block) (bc' : BlockChain) : Prop where
  here  : ∀ b ∈ new, bc'.chainDb.getCanonicalHash b.number = b.hash H
  other : ∀ n, (∀ b ∈ new, b.number ≠ n) →
    bc'.chainDb.getCanonicalHash n = bc.chainDb.getCanonicalHash n

-- The current block has a branch, to which the index leads. Every block in `S` is stored with the
-- total difficulty of its branch, and no branch is heavier than that of the current block.
structure Inv (H : Hashes) (genesis : Block) (bc : BlockChain) (S : Set Block) (l : List Block) :
    Prop where
  branch : BlockBranch H genesis S bc.currentBlock l
  index  : ∀ b ∈ l, bc.chainDb.getCanonicalHash b.number = b.hash H
  blocks : ∀ b ∈ S, bc.chainDb.HasBlock H b
  td     : ∀ b ∈ S, ∃ lb, BlockBranch H genesis S b lb ∧
    bc.chainDb.getTd (b.hash H) b.number = some ((blockTree H genesis).total lb) ∧
    (blockTree H genesis).total lb ≤ (blockTree H genesis).total l

variable {p : Block}

-- A block that becomes the head: its branch forks off from that of the old head, and the index
-- follows it.
theorem Outcome.canon (hp : (blockTree H genesis).Proper (Insert.insert block S))
    (hi : bc.Inv H genesis S l) {lp : List Block}
    (hon : (blockTree H genesis).On block p) (hlp : BlockBranch H genesis S p lp)
    (ho : bc.Outcome H genesis S block localTd td .canonStatTy events bc') :
    ∃ old new common, localTd ≤ td ∧ bc'.currentBlock = block ∧
      BlockFork H genesis (Insert.insert block S) bc.currentBlock block old new common ∧
      events.removedTxs = txDifference H (old.flatMap Block.transactions)
        (new.flatMap Block.transactions) ∧
      (bc.addBlock H block td).chainDb.SameBlocks bc'.chainDb ∧ bc.Rewritten H new bc' := by
  have hsub : S ⊆ Insert.insert block S := Set.subset_insert _ _
  cases ho
  case extend hle hpar =>
    obtain rfl : p = bc.currentBlock :=
      hp.inj (hsub hlp.mem) (hsub hi.branch.mem) (hon.parent.symm.trans hpar)
    refine ⟨[], [block], l, hle, insert_currentBlock, ⟨hi.branch.mono hsub, ?_, by simp⟩, rfl,
      insert_sameBlocks, ?_, fun n hn => ?_⟩
    case refine_1 => exact .step (Set.mem_insert _ _) hon (hi.branch.mono hsub)
    case refine_2 =>
      rw [List.forall_mem_singleton, insert_canonical, if_pos rfl]
    case refine_3 =>
      rw [insert_canonical, if_neg (List.forall_mem_singleton.mp hn).symm]
      rfl
  case reorg old new common hle hne hf =>
    have hb : block ∈ new ++ common := hf.right.mem_head
    refine ⟨old, new, common, hle, insert_currentBlock, hf, rfl, switch_sameBlocks _ _,
      fun b hbn => ?_, fun n hn => ?_⟩
    case refine_1 =>
      rw [switch_canonical]
      split
      case isTrue he =>
        rw [hf.right.eq_of_height (List.mem_append_left _ hbn) hb (congrArg UInt64.toNat he)]
      case isFalse =>
        refine adoptAll_canonical_of_mem (fun a ha b hb he => ?_) hbn
        exact hf.right.eq_of_height (List.mem_append_left _ ha) (List.mem_append_left _ hb)
          (congrArg UInt64.toNat he)
    case refine_2 =>
      rw [switch_canonical]
      split
      case isTrue he =>
        -- A block that is not new is on the branch of the old head.
        have hc : block ∈ common := (List.mem_append.mp hb).resolve_left fun h => hn block h he.symm
        have hl : old ++ common = l := hf.left.unique hp (hi.branch.mono hsub)
        rw [he, hi.index block (hl ▸ List.mem_append_right old hc)]
      case isFalse => exact adoptAll_canonical_of_ne hn

theorem Inv.index_of_rewritten (hp : (blockTree H genesis).Proper (Insert.insert block S))
    (hi : bc.Inv H genesis S l) {old new common : List Block}
    (hf : BlockFork H genesis (Insert.insert block S) bc.currentBlock block old new common)
    (hr : bc.Rewritten H new bc') :
    ∀ b ∈ new ++ common, bc'.chainDb.getCanonicalHash b.number = b.hash H := by
  intro b hb
  by_cases hn : ∀ a ∈ new, a.number ≠ b.number
  case pos =>
    have hc : b ∈ common := (List.mem_append.mp hb).resolve_left fun h => hn b h rfl
    have hl : old ++ common = l := hf.left.unique hp (hi.branch.mono (Set.subset_insert _ _))
    rw [hr.other _ hn, hi.index b (hl ▸ List.mem_append_right old hc)]
  case neg =>
    simp only [not_forall, not_not] at hn
    obtain ⟨a, ha, he⟩ := hn
    obtain rfl : a = b := hf.right.eq_of_height (List.mem_append_left _ ha) hb
      (congrArg UInt64.toNat he)
    exact hr.here a ha

theorem Inv.getTd (hp : (blockTree H genesis).Proper S) (hi : bc.Inv H genesis S l) {b : Block}
    {lb : List Block} (hb : BlockBranch H genesis S b lb) :
    bc.chainDb.getTd (b.hash H) b.number = some ((blockTree H genesis).total lb) := by
  obtain ⟨lc, hlc, htd, -⟩ := hi.td b hb.mem
  rw [htd, hlc.unique hp hb]

theorem Inv.parentTd (hp : (blockTree H genesis).Proper S) (hi : bc.Inv H genesis S l)
    {lp : List Block} (hon : (blockTree H genesis).On block p) (hb : BlockBranch H genesis S p lp) :
    bc.chainDb.getTd block.parentHash (block.number - 1) =
      some ((blockTree H genesis).total lp) := by
  rw [show block.parentHash = p.hash H from hon.parent, pred_of_succ hon.height, hi.getTd hp hb]

theorem Inv.writeBlock (hp : (blockTree H genesis).Proper (Insert.insert block S))
    (hi : bc.Inv H genesis S l) (hpS : p ∈ S) (hon : (blockTree H genesis).On block p)
    (coin : Bool) : ∃ lp st events bc' l', BlockBranch H genesis S p lp ∧
      writeBlock H block coin bc = (.ok (st, events), bc') ∧
      bc.Outcome H genesis S block ((blockTree H genesis).total l)
        (block.difficulty + (blockTree H genesis).total lp) st events bc' ∧
      bc'.Inv H genesis (Insert.insert block S) l' ∧
      (blockTree H genesis).total l ≤ (blockTree H genesis).total l' := by
  have hsub : S ⊆ Insert.insert block S := Set.subset_insert _ _
  obtain ⟨lp, hlp, hptd, -⟩ := hi.td p hpS
  have hready : bc.Ready H genesis S l block lp ((blockTree H genesis).total l)
      ((blockTree H genesis).total lp) :=
    ⟨hp, hi.blocks, hi.branch, ⟨p, hon, hlp, hptd⟩, hi.getTd (hp.mono hsub) hi.branch⟩
  obtain ⟨st, events, bc', he, ho⟩ := hready.writeBlock coin
  have hb : BlockBranch H genesis (Insert.insert block S) block (block :: lp) :=
    .step (Set.mem_insert _ _) hon (hlp.mono hsub)
  have hblocks : ∀ b ∈ Insert.insert block S, (bc.addBlock H block
      (block.difficulty + (blockTree H genesis).total lp)).chainDb.HasBlock H b := by
    intro b hb
    exact ChainDb.hasBlock_addBlock hp.inj (Set.mem_insert _ _) hb (hb.imp_right (hi.blocks b))
  -- The branches known before are at most as heavy as the one of the old head.
  have htd (l' : List Block) (hle : (blockTree H genesis).total l ≤ (blockTree H genesis).total l')
      (hle' : (blockTree H genesis).total (block :: lp) ≤ (blockTree H genesis).total l') :
      ∀ b ∈ Insert.insert block S, ∃ lb, BlockBranch H genesis (Insert.insert block S) b lb ∧
        (bc.addBlock H block (block.difficulty + (blockTree H genesis).total lp)).chainDb.getTd
          (b.hash H) b.number = some ((blockTree H genesis).total lb) ∧
        (blockTree H genesis).total lb ≤ (blockTree H genesis).total l' := by
    intro b hbS
    by_cases hbe : b = block
    case pos =>
      subst hbe
      refine ⟨b :: lp, hb, ?_, hle'⟩
      rw [addBlock, updateDb_chainDb, ChainDb.getTd_addBlock, if_pos ⟨rfl, rfl⟩]
      rfl
    case neg =>
      obtain ⟨lb, hlb, htdb, hlt⟩ := hi.td b (hbS.resolve_left hbe)
      refine ⟨lb, hlb.mono hsub, ?_, hlt.trans hle⟩
      rw [addBlock, updateDb_chainDb, ChainDb.getTd_addBlock, if_neg, htdb]
      exact fun hk => hbe (hp.inj hbS (Set.mem_insert _ _) hk.right)
  cases st
  case nonStatTy => cases ho
  case sideStatTy =>
    have hinv : bc'.Inv H genesis (Insert.insert block S) l := by
      cases ho
      case side hle =>
        exact ⟨hi.branch.mono hsub, hi.index, hblocks, htd l le_rfl (by simpa using hle)⟩
    exact ⟨lp, _, events, bc', l, hlp, he, ho, hinv, le_rfl⟩
  case canonStatTy =>
    obtain ⟨old, new, common, hle, hcur, hf, hev, hsame, hrew⟩ := ho.canon hp hi hon hlp
    have hbr : new ++ common = block :: lp := hf.right.unique hp hb
    refine ⟨lp, _, events, bc', block :: lp, hlp, he, ho, ⟨?_, ?_, ?_, ?_⟩, by simpa using hle⟩
    case refine_1 => exact hcur ▸ hb
    case refine_2 => exact hbr ▸ hi.index_of_rewritten hp hf hrew
    case refine_3 => exact fun b hb => hsame.hasBlock.mpr (hblocks b hb)
    case refine_4 =>
      intro b hbS
      obtain ⟨lb, hlb, htdb, hlt⟩ := htd (block :: lp) (by simpa using hle) le_rfl b hbS
      exact ⟨lb, hlb, (hsame.getTd _ _).trans htdb, hlt⟩

-- The chains that writing blocks leads to, each after its parent. The condition `C` holds in every
-- step.
inductive Run (H : Hashes) (genesis : Block) (C : BlockChain → Block → Prop) (S₀ : Set Block)
    (bc₀ : BlockChain) : Set Block → BlockChain → Prop
  | start : Run H genesis C S₀ bc₀ S₀ bc₀
  | write {S : Set Block} {bc : BlockChain} {block p : Block} (coin : Bool) :
    Run H genesis C S₀ bc₀ S bc → p ∈ S → (blockTree H genesis).On block p → C bc block →
    Run H genesis C S₀ bc₀ (Insert.insert block S) (writeBlock H block coin bc).2

section

variable {C : BlockChain → Block → Prop} {S₀ : Set Block} {bc₀ : BlockChain}

-- What every step keeps holds in the end. A step may use what is known of every chain.
theorem Run.induct {P : Set Block → List Block → BlockChain → Prop}
    (hp : (blockTree H genesis).Proper S) {l₀ : List Block} (h₀ : bc₀.Inv H genesis S₀ l₀)
    (hP : P S₀ l₀ bc₀)
    (hs : ∀ {S l bc block p coin lp st events bc' l'},
      (blockTree H genesis).Proper (Insert.insert block S) → bc.Inv H genesis S l → P S l bc →
      (blockTree H genesis).On block p → BlockBranch H genesis S p lp → C bc block →
      writeBlock H block coin bc = (.ok (st, events), bc') →
      bc.Outcome H genesis S block ((blockTree H genesis).total l)
        (block.difficulty + (blockTree H genesis).total lp) st events bc' →
      bc'.Inv H genesis (Insert.insert block S) l' → P (Insert.insert block S) l' bc')
    (h : Run H genesis C S₀ bc₀ S bc) : ∃ l, bc.Inv H genesis S l ∧ P S l bc := by
  induction h
  case start => exact ⟨l₀, h₀, hP⟩
  case write S bc block p coin _ hpS hon hC hi =>
    obtain ⟨l, hi, hl⟩ := hi (hp.mono (Set.subset_insert _ _))
    obtain ⟨lp, st, events, bc', l', hlp, he, ho, hi', -⟩ := hi.writeBlock hp hpS hon coin
    rw [he]
    exact ⟨l', hi', hs hp hi hl hon hlp hC he ho hi'⟩

theorem Run.subset (h : Run H genesis C S₀ bc₀ S bc) : S₀ ⊆ S := by
  induction h
  case start    => exact subset_rfl
  case write hi => exact hi.trans (Set.subset_insert _ _)

theorem Run.inv (hp : (blockTree H genesis).Proper S) {l₀ : List Block}
    (h₀ : bc₀.Inv H genesis S₀ l₀) (h : Run H genesis C S₀ bc₀ S bc) :
    ∃ l, bc.Inv H genesis S l := by
  obtain ⟨l, hi, -⟩ := h.induct (P := fun _ _ _ => True) hp h₀ trivial fun _ _ _ _ _ _ _ _ _ => trivial
  exact ⟨l, hi⟩

theorem Inv.new : (new H genesis).Inv H genesis {genesis} [genesis] where
  branch := by
    rw [BlockChain.new, insert_currentBlock]
    exact .root rfl
  index  := by
    rw [List.forall_mem_singleton, BlockChain.new, insert_canonical, if_pos rfl]
  blocks := by
    rintro b rfl
    rw [BlockChain.new, insert_sameBlocks.hasBlock]
    exact ChainDb.getBlock_addBlock.trans (if_pos ⟨rfl, rfl⟩)
  td     := by
    rintro b rfl
    refine ⟨[b], .root rfl, ?_, le_rfl⟩
    rw [BlockChain.new, insert_sameBlocks.getTd]
    refine ChainDb.getTd_addBlock.trans ((if_pos ⟨rfl, rfl⟩).trans ?_)
    simp [BlockTree.total]

-- The stored total difficulty of every block is that of its path from genesis. The one of the
-- current block never decreases, and it is the greatest of all.
theorem Run.writeBlock_heaviest
    (h : Run H genesis (fun _ _ => True) {genesis} (new H genesis) S bc) {p : Block} (hpS : p ∈ S)
    (hon : (blockTree H genesis).On block p)
    (hp : (blockTree H genesis).Proper (Insert.insert block S)) (coin : Bool) :
    ∃ st events bc' td td', writeBlock H block coin bc = (.ok (st, events), bc') ∧
      bc.chainDb.getTd (bc.currentBlock.hash H) bc.currentBlock.number = some td ∧
      bc'.chainDb.getTd (bc'.currentBlock.hash H) bc'.currentBlock.number = some td' ∧ td ≤ td' ∧
      ∀ b ∈ Insert.insert block S, ∃ lb, BlockBranch H genesis (Insert.insert block S) b lb ∧
        bc'.chainDb.getTd (b.hash H) b.number = some ((lb.map Block.difficulty).sum) ∧
        (lb.map Block.difficulty).sum ≤ td' := by
  have hps := hp.mono (Set.subset_insert block S)
  obtain ⟨l, hi⟩ := h.inv hps .new
  obtain ⟨lp, st, events, bc', l', -, he, -, hi', hle⟩ := hi.writeBlock hp hpS hon coin
  exact ⟨st, events, bc', _, _, he, hi.getTd hps hi.branch, hi'.getTd hp hi'.branch, hle,
    hi'.td⟩

def sampleBlock (name parent : UInt8) (number : UInt64) (difficulty : Nat) : Block where
  header       := HeaderChain.sampleHeader name parent number difficulty
  transactions := []
  uncles       := []

def sampleOrigin : Block :=
  sampleBlock 1 0 0 1

def sampleFirst : Block :=
  sampleBlock 2 1 1 1

theorem sampleFirst_on :
    (blockTree HeaderChain.sampleHashes sampleOrigin).On sampleFirst sampleOrigin :=
  ⟨rfl, rfl⟩

theorem sampleFirst_proper :
    (blockTree HeaderChain.sampleHashes sampleOrigin).Proper {sampleFirst, sampleOrigin} where
  inj  := by
    have h : ∀ a ∈ [sampleFirst, sampleOrigin], ∀ b ∈ [sampleFirst, sampleOrigin],
        a.hash HeaderChain.sampleHashes = b.hash HeaderChain.sampleHashes → a = b := by
      decide +kernel
    exact fun a ha b hb => h a (by simpa using ha) b (by simpa using hb)
  base := rfl

theorem sampleFirst_heaviest : ∃ st events bc' td td',
    writeBlock HeaderChain.sampleHashes sampleFirst false
      (new HeaderChain.sampleHashes sampleOrigin) = (.ok (st, events), bc') ∧
    (new HeaderChain.sampleHashes sampleOrigin).chainDb.getTd
      (sampleOrigin.hash HeaderChain.sampleHashes) 0 = some td ∧
    bc'.chainDb.getTd (bc'.currentBlock.hash HeaderChain.sampleHashes) bc'.currentBlock.number =
      some td' ∧ td ≤ td' := by
  obtain ⟨st, events, bc', td, td', he, htd, htd', hle, -⟩ :=
    Run.start.writeBlock_heaviest rfl sampleFirst_on sampleFirst_proper false
  exact ⟨st, events, bc', td, td', he, htd, htd', hle⟩

end

-- Whether a block that becomes the head is at least as high as the head before it.
def Rises (H : Hashes) (bc : BlockChain) (block : Block) : Prop :=
  ∀ ptd localTd, bc.chainDb.getTd block.parentHash (block.number - 1) = some ptd →
    bc.chainDb.getTd (bc.currentBlock.hash H) bc.currentBlock.number = some localTd →
    localTd ≤ block.difficulty + ptd → bc.currentBlock.number ≤ block.number

-- As long as the head never goes down, the canonical index is exactly the branch of the current
-- block.
theorem Run.index_exact (hp : (blockTree H genesis).Proper S)
    (h : Run H genesis (Rises H) {genesis} (new H genesis) S bc) :
    ∃ l, BlockBranch H genesis S bc.currentBlock l ∧
      (∀ n ≤ bc.currentBlock.number,
        ∃ a ∈ l, a.number = n ∧ bc.chainDb.getCanonicalHash n = a.hash H) ∧
      ∀ n, bc.currentBlock.number < n → bc.hc.currentHeader.number < n →
        bc.chainDb.getCanonicalHash n = Hash.zero := by
  have hblank : ∃ l, bc.Inv H genesis S l ∧ ∀ n, bc.currentBlock.number < n →
      bc.chainDb.getCanonicalHash n = Hash.zero := by
    refine h.induct (P := fun _ _ bc => ∀ n, bc.currentBlock.number < n →
      bc.chainDb.getCanonicalHash n = Hash.zero) hp .new ?_ ?_
    case refine_1 =>
      intro n hn
      rw [BlockChain.new, insert_currentBlock] at hn
      rw [BlockChain.new, insert_canonical, if_neg]
      case hnc => rintro rfl; exact UInt64.lt_irrefl _ hn
      rfl
    case refine_2 =>
      intro S l bc block p coin lp st events bc' l' hp hi hb hon hlp hC he ho hi' n hn
      cases st
      case nonStatTy => cases ho
      case sideStatTy =>
        cases ho
        exact hb n hn
      case canonStatTy =>
        obtain ⟨old, new, common, hle, hcur, hf, -, -, hrew⟩ := ho.canon hp hi hon hlp
        have hps := hp.mono (Set.subset_insert block S)
        have hrise := hC _ _ (hi.parentTd hps hon hlp) (hi.getTd hps hi.branch) hle
        rw [hcur] at hn
        rw [hrew.other n, hb n (UInt64.lt_of_le_of_lt hrise hn)]
        intro b hbn he
        have hbl : b.number ≤ block.number :=
          UInt64.le_iff_toNat_le.mpr (hf.right.height_le b (List.mem_append_left _ hbn))
        exact UInt64.not_lt.mpr hbl (he ▸ hn)
  obtain ⟨l, hi, hb⟩ := hblank
  refine ⟨l, hi.branch, fun n hn => ?_, fun n hn _ => hb n hn⟩
  obtain ⟨a, ha, he⟩ := hi.branch.exists_height hp (UInt64.le_iff_toNat_le.mp hn)
  obtain rfl := UInt64.toNat_inj.mp he
  exact ⟨a, ha, rfl, hi.index a ha⟩

theorem sampleFirst_index : ∃ l,
    BlockBranch HeaderChain.sampleHashes sampleOrigin {sampleFirst, sampleOrigin}
      (writeBlock HeaderChain.sampleHashes sampleFirst false
        (new HeaderChain.sampleHashes sampleOrigin)).2.currentBlock l := by
  obtain ⟨l, hb, -⟩ := Run.index_exact sampleFirst_proper
    (.write false .start rfl sampleFirst_on fun _ _ _ _ _ => by decide +kernel)
  exact ⟨l, hb⟩

-- Three blocks on top of each other, and a heavier one on genesis.
def sampleShort : List Block :=
  [sampleBlock 2 1 1 1, sampleBlock 3 2 2 1, sampleBlock 4 3 3 1, sampleBlock 5 1 1 10]

def writeBlocks (H : Hashes) (bs : List Block) (bc : BlockChain) : BlockChain :=
  bs.foldl (fun bc b => (writeBlock H b false bc).2) bc

-- The reorganisation to the shorter branch leaves the numbers above it as they were.
theorem writeBlocks_short_stale :
    (writeBlocks HeaderChain.sampleHashes sampleShort
      (new HeaderChain.sampleHashes sampleOrigin)).currentBlock = sampleBlock 5 1 1 10 ∧
    (writeBlocks HeaderChain.sampleHashes sampleShort
      (new HeaderChain.sampleHashes sampleOrigin)).hc.currentHeader = (sampleBlock 5 1 1 10).header ∧
    (writeBlocks HeaderChain.sampleHashes sampleShort
      (new HeaderChain.sampleHashes sampleOrigin)).chainDb.getCanonicalHash 2 =
        (sampleBlock 3 2 2 1).hash HeaderChain.sampleHashes := by
  decide +kernel

-- All heads are the block, both in memory and in the stored head hashes.
structure HeadsAt (H : Hashes) (bc : BlockChain) (b : Block) : Prop where
  block      : bc.currentBlock = b
  fastBlock  : bc.currentFastBlock = b
  header     : bc.hc.currentHeader = b.header
  headerHash : bc.hc.currentHeaderHash = b.hash H
  headHeader : bc.chainDb.headHeader = b.hash H
  headBlock  : bc.chainDb.headBlock = b.hash H
  headFast   : bc.chainDb.headFastBlock = b.hash H

variable {new : List Block} {txs : List Transaction}

theorem insert_headsAt_of_ne (h : bc.chainDb.getCanonicalHash block.number ≠ block.hash H) :
    (bc.insert H block).HeadsAt H block := by
  rw [insert]
  simp only [h, ne_eq, not_false_eq_true, if_true]
  exact ⟨rfl, rfl, rfl, rfl, rfl, rfl, rfl⟩

theorem HeadsAt.insert (hb : bc.HeadsAt H block)
    (h : bc.chainDb.getCanonicalHash block.number = block.hash H) :
    (bc.insert H block).HeadsAt H block := by
  rw [BlockChain.insert]
  simp only [h, ne_eq, not_true_eq_false, if_false]
  exact ⟨rfl, hb.fastBlock, hb.header, hb.headerHash, hb.headHeader, rfl, hb.headFast⟩

theorem HeadsAt.updateDb {b : Block} (hb : bc.HeadsAt H b) {f : ChainDb → ChainDb}
    (hf : ∀ db : ChainDb, db.SameIndex (f db)) : (bc.updateDb f).HeadsAt H b where
  block      := hb.block
  fastBlock  := hb.fastBlock
  header     := hb.header
  headerHash := hb.headerHash
  headHeader := (hf _).headHeader.trans hb.headHeader
  headBlock  := (hf _).headBlock.trans hb.headBlock
  headFast   := (hf _).headFastBlock.trans hb.headFast

theorem adopt_headsAt_of_ne (h : bc.chainDb.getCanonicalHash block.number ≠ block.hash H) :
    (bc.adopt H block).HeadsAt H block := by
  apply (insert_headsAt_of_ne h).updateDb
  intro db
  exact (ChainDb.kept_writeLookups block _).right

-- Whether a block that becomes the head is the head already, or is not canonical and stands on a
-- canonical block of the current chain.
def Direct (H : Hashes) (bc : BlockChain) (block : Block) : Prop :=
  ∀ ptd localTd, bc.chainDb.getTd block.parentHash (block.number - 1) = some ptd →
    bc.chainDb.getTd (bc.currentBlock.hash H) bc.currentBlock.number = some localTd →
    localTd ≤ block.difficulty + ptd → block = bc.currentBlock ∨
    bc.chainDb.getCanonicalHash block.number ≠ block.hash H ∧
    bc.chainDb.getCanonicalHash (block.number - 1) = block.parentHash ∧
    block.number - 1 ≤ bc.currentBlock.number

theorem new_eq_singleton (hp : (blockTree H genesis).Proper S) {b p : Block}
    {old new common lp : List Block} (hf : BlockFork H genesis S b block old new common)
    (hb : BlockBranch H genesis S block (block :: lp)) (hlp : BlockBranch H genesis S p lp)
    (hpo : p ∈ old ++ common) (hbo : block ∉ old ++ common) : new = [block] := by
  have hn : new ++ common = block :: lp := hf.right.unique hp hb
  cases new
  case nil =>
    have hc : block ∈ common := by
      rw [List.nil_append] at hn
      exact hn ▸ List.mem_cons_self
    exact absurd (List.mem_append_right old hc) hbo
  case cons a new =>
    obtain ⟨rfl, rfl⟩ := List.cons.inj hn
    cases new
    case nil => rfl
    case cons c new =>
      obtain ⟨t, ht⟩ := hlp.eq_cons
      obtain ⟨rfl, -⟩ := List.cons.inj ht
      obtain hpo | hpc := List.mem_append.mp hpo
      case inl => exact absurd (List.mem_cons_of_mem _ List.mem_cons_self) (hf.apart c hpo)
      case inr => exact absurd (hlp.height_lt c (List.mem_append_right new hpc)) (lt_irrefl _)

theorem Outcome.headsAt (hp : (blockTree H genesis).Proper (Insert.insert block S))
    (hi : bc.Inv H genesis S l) {p : Block} {lp : List Block}
    (hon : (blockTree H genesis).On block p) (hlp : BlockBranch H genesis S p lp)
    (hd : bc.Direct H block) (hh : bc.HeadsAt H bc.currentBlock)
    (ho : bc.Outcome H genesis S block ((blockTree H genesis).total l)
      (block.difficulty + (blockTree H genesis).total lp) .canonStatTy events bc') :
    bc'.HeadsAt H block := by
  have hsub : S ⊆ Insert.insert block S := Set.subset_insert _ _
  have hps := hp.mono hsub
  have hadd : ∀ td, (bc.addBlock H block td).HeadsAt H bc.currentBlock :=
    fun td => hh.updateDb fun _ => ⟨rfl, rfl, rfl, rfl⟩
  have hb : BlockBranch H genesis (Insert.insert block S) block (block :: lp) :=
    .step (Set.mem_insert _ _) hon (hlp.mono hsub)
  have hd := hd _ _ (hi.parentTd hps hon hlp) (hi.getTd hps hi.branch)
  cases ho
  case extend hle hpar =>
    obtain rfl | ⟨hne, -⟩ := hd hle
    case inl =>
      have hpb : p = bc.currentBlock :=
        hp.inj (hsub hlp.mem) (Set.mem_insert _ _) (hon.parent.symm.trans hpar)
      exact absurd hon.height (by rw [hpb]; omega)
    case inr => exact insert_headsAt_of_ne hne
  case reorg old new common hle hpar hf =>
    have hl : old ++ common = l := hf.left.unique hp (hi.branch.mono hsub)
    obtain rfl | ⟨hne, hcan, hnum⟩ := hd hle
    case inl =>
      have hon' : old = new :=
        List.append_cancel_right (hl.trans (hf.right.unique hp (hi.branch.mono hsub)).symm)
      obtain rfl : new = [] := by
        apply List.eq_nil_iff_forall_not_mem.mpr
        exact fun a ha => hf.apart a (hon' ▸ ha) ha
      refine ((hadd _).updateDb fun _ => (ChainDb.kept_dropTxs _).right).insert ?_
      rw [updateDb_chainDb, (ChainDb.kept_dropTxs _).right.getCanonicalHash]
      exact hi.index _ hi.branch.mem_head
    case inr =>
      have hpl : p ∈ l := by
        rw [show block.parentHash = p.hash H from hon.parent, pred_of_succ hon.height] at hcan
        rw [pred_of_succ hon.height] at hnum
        obtain ⟨a, ha, he⟩ := hi.branch.exists_height hps (UInt64.le_iff_toNat_le.mp hnum)
        have hash := hi.index a ha
        rw [UInt64.toNat_inj.mp he, hcan] at hash
        exact hps.inj hlp.mem (hi.branch.subset a ha) hash ▸ ha
      obtain rfl := new_eq_singleton hp hf hb (hlp.mono hsub) (hl ▸ hpl)
        (hl ▸ fun h => hne (hi.index block h))
      have hne' : (bc.addBlock H block (block.difficulty +
          (blockTree H genesis).total lp)).chainDb.getCanonicalHash block.number ≠ block.hash H := hne
      refine ((adopt_headsAt_of_ne hne').updateDb fun _ => (ChainDb.kept_dropTxs _).right).insert ?_
      exact ((ChainDb.kept_dropTxs _).right.getCanonicalHash _).trans
        ((adopt_canonical _).trans (if_pos rfl))

theorem Outcome.headsAt_current (hp : (blockTree H genesis).Proper (Insert.insert block S))
    (hi : bc.Inv H genesis S l) {p : Block} {lp : List Block}
    (hon : (blockTree H genesis).On block p) (hlp : BlockBranch H genesis S p lp)
    (hd : bc.Direct H block) (hh : bc.HeadsAt H bc.currentBlock)
    (ho : bc.Outcome H genesis S block ((blockTree H genesis).total l)
      (block.difficulty + (blockTree H genesis).total lp) st events bc') :
    bc'.HeadsAt H bc'.currentBlock := by
  cases st
  case nonStatTy => cases ho
  case sideStatTy =>
    cases ho
    exact hh.updateDb fun _ => ⟨rfl, rfl, rfl, rfl⟩
  case canonStatTy =>
    have h := ho.headsAt hp hi hon hlp hd hh
    rw [h.block]
    exact h

-- From a chain whose heads coincide, as long as no reorganisation adopts more than one block, a
-- block that becomes the head takes all heads with it.
theorem Run.writeBlock_heads {S₀ : Set Block} {bc₀ : BlockChain}
    (hp : (blockTree H genesis).Proper (Insert.insert block S))
    (h₀ : Run H genesis (fun _ _ => True) {genesis} (BlockChain.new H genesis) S₀ bc₀)
    (hh : bc₀.HeadsAt H bc₀.currentBlock) (h : Run H genesis (Direct H) S₀ bc₀ S bc) {p : Block}
    (hpS : p ∈ S) (hon : (blockTree H genesis).On block p) (hd : bc.Direct H block)
    (he : writeBlock H block coin bc = (.ok (.canonStatTy, events), bc')) :
    bc'.HeadsAt H block := by
  have hps := hp.mono (Set.subset_insert block S)
  obtain ⟨l₀, hi₀⟩ := h₀.inv (hps.mono h.subset) .new
  obtain ⟨l, hi, hh⟩ := h.induct (P := fun _ _ bc => bc.HeadsAt H bc.currentBlock) hps hi₀ hh
    fun hp hi hh hon hlp hd _ ho _ => ho.headsAt_current hp hi hon hlp hd hh
  obtain ⟨lp, st, events', bc'', l', hlp, he', ho, -⟩ := hi.writeBlock hp hpS hon coin
  rw [he] at he'
  cases he'
  exact ho.headsAt hp hi hon hlp hd hh

theorem sampleFirst_heads : HeadsAt HeaderChain.sampleHashes
    (writeBlock HeaderChain.sampleHashes sampleFirst false
      (BlockChain.new HeaderChain.sampleHashes sampleOrigin)).2 sampleFirst := by
  have he : (writeBlock HeaderChain.sampleHashes sampleFirst false
      (BlockChain.new HeaderChain.sampleHashes sampleOrigin)).1 =
        .ok (.canonStatTy, .none) := by
    decide +kernel
  have hd : Direct HeaderChain.sampleHashes (BlockChain.new HeaderChain.sampleHashes sampleOrigin)
      sampleFirst := by
    refine fun _ _ _ _ _ => .inr ⟨?_, ?_, ?_⟩ <;> decide +kernel
  have hh : HeadsAt HeaderChain.sampleHashes (BlockChain.new HeaderChain.sampleHashes sampleOrigin)
      (BlockChain.new HeaderChain.sampleHashes sampleOrigin).currentBlock := by
    constructor <;> decide +kernel
  exact Run.writeBlock_heads sampleFirst_proper .start hh .start rfl sampleFirst_on hd
    (Prod.ext he rfl)

def sampleLong : List Block :=
  [sampleFirst, sampleBlock 3 1 1 1, sampleBlock 4 3 2 1]

-- The reorganisation adopts two blocks, the lower one last, and the head header and the head fast
-- block stay on that.
theorem writeBlocks_long_heads :
    (writeBlocks HeaderChain.sampleHashes sampleLong
      (BlockChain.new HeaderChain.sampleHashes sampleOrigin)).currentBlock = sampleBlock 4 3 2 1 ∧
    (writeBlocks HeaderChain.sampleHashes sampleLong
      (BlockChain.new HeaderChain.sampleHashes sampleOrigin)).hc.currentHeader =
        (sampleBlock 3 1 1 1).header ∧
    (writeBlocks HeaderChain.sampleHashes sampleLong
      (BlockChain.new HeaderChain.sampleHashes sampleOrigin)).chainDb.headFastBlock =
        (sampleBlock 3 1 1 1).hash HeaderChain.sampleHashes := by
  decide +kernel

end BlockChain

end Core
