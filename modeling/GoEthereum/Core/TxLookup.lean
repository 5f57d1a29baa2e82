import GoEthereum.Core.BlockRun

-- Where the database says the transactions of the canonical chain are.

namespace Core

open Common

variable {H : Hashes}

def Block.txHashes (b : Block) (H : Hashes) : List Hash :=
  b.transactions.map H.transaction

namespace ChainDb

variable {db : ChainDb} {block b : Block} {k : Hash} {i : Nat} {tx : Transaction}
variable {receipts : List Receipt}

-- What the database says about the transaction with the given hash.
def lookup (db : ChainDb) (k : Hash) : Option (Transaction × TxMeta) × Option Receipt :=
  (db.getTransaction k, db.getReceipt k)

theorem SameLookups.lookup {db' : ChainDb} (h : db.SameLookups db') (k : Hash) :
    db'.lookup k = db.lookup k := by
  rw [ChainDb.lookup, getTransaction, getReceipt, h.transactions, h.txMetas, h.receipts]
  rfl

theorem getTransaction_writeTransaction (j : Nat) :
    (db.writeTransaction H block j tx).getTransaction k =
      if k = H.transaction tx then
        some (tx, { blockHash := block.hash H, blockIndex := block.number, index := j })
      else db.getTransaction k := by
  simp only [getTransaction, writeTransaction, GoMap.lookup_insert_eq_ite]
  split <;> rfl

theorem foldl_writeTransaction_of_notMem {txs : List Transaction} {n : Nat}
    (h : k ∉ txs.map H.transaction) :
    ((txs.zipIdx n).foldl (fun db tx => db.writeTransaction H block tx.2 tx.1) db).getTransaction k =
      db.getTransaction k := by
  induction txs generalizing db n
  case nil => rfl
  case cons tx txs hi =>
    obtain ⟨hk, h⟩ := List.ne_and_not_mem_of_not_mem_cons h
    rw [List.zipIdx_cons, List.foldl_cons, hi h, getTransaction_writeTransaction, if_neg hk]

theorem foldl_writeTransaction_of_mem {txs : List Transaction} {n : Nat}
    (hn : (txs.map H.transaction).Nodup) (h : txs[i]? = some tx) :
    ((txs.zipIdx n).foldl (fun db tx => db.writeTransaction H block tx.2 tx.1) db).getTransaction
      (H.transaction tx) =
        some (tx, { blockHash := block.hash H, blockIndex := block.number, index := n + i }) := by
  induction txs generalizing db n i
  case nil => cases h
  case cons t txs hi =>
    obtain ⟨ht, hn⟩ := List.nodup_cons.mp hn
    rw [List.zipIdx_cons, List.foldl_cons]
    cases i
    case zero =>
      obtain rfl := Option.some.inj h
      rw [foldl_writeTransaction_of_notMem ht, getTransaction_writeTransaction, if_pos rfl,
        Nat.add_zero]
    case succ i =>
      rw [hi hn h, Nat.add_right_comm]
      rfl

theorem getReceipt_writeReceipt (r : Receipt) :
    (db.writeReceipt r).getReceipt k = if k = r.txHash then some r else db.getReceipt k := by
  simp only [getReceipt, writeReceipt, GoMap.lookup_insert_eq_ite]

theorem getReceipt_writeReceipts_of_notMem (h : k ∉ receipts.map Receipt.txHash) :
    (db.writeReceipts receipts).getReceipt k = db.getReceipt k := by
  induction receipts generalizing db
  case nil => rfl
  case cons r receipts hi =>
    obtain ⟨hk, h⟩ := List.ne_and_not_mem_of_not_mem_cons h
    exact (hi h).trans ((getReceipt_writeReceipt r).trans (if_neg hk))

theorem getReceipt_writeReceipts_of_mem (hn : (receipts.map Receipt.txHash).Nodup) {r : Receipt}
    (h : r ∈ receipts) : (db.writeReceipts receipts).getReceipt r.txHash = some r := by
  induction receipts generalizing db
  case nil => cases h
  case cons t receipts hi =>
    obtain ⟨ht, hn⟩ := List.nodup_cons.mp hn
    cases h
    case head =>
      exact (getReceipt_writeReceipts_of_notMem ht).trans
        ((getReceipt_writeReceipt r).trans (if_pos rfl))
    case tail h => exact hi hn h

structure Receipted (H : Hashes) (b : Block) (receipts : List Receipt) : Prop where
  hashes : receipts.map Receipt.txHash = b.txHashes H
  nodup  : (b.txHashes H).Nodup

theorem writeMipmapBloom_sameLookups (n : UInt64) :
    db.SameLookups (db.writeMipmapBloom H n receipts) := by
  rw [writeMipmapBloom]
  generalize mipMapLevels = levels
  induction levels generalizing db
  case nil => exact ⟨rfl, rfl, rfl⟩
  case cons level levels hi =>
    exact ⟨hi.transactions, hi.txMetas, hi.receipts⟩

theorem writeTransactions_receipts (block : Block) :
    (db.writeTransactions H block).receipts = db.receipts := by
  rw [writeTransactions]
  generalize block.transactions.zipIdx = txs
  induction txs generalizing db
  case nil => rfl
  case cons tx txs hi => exact hi

theorem getTransaction_writeReceipts (k : Hash) :
    (db.writeReceipts receipts).getTransaction k = db.getTransaction k := by
  induction receipts generalizing db
  case nil => rfl
  case cons r receipts hi => exact hi

theorem lookup_writeLookups (k : Hash) : (db.writeLookups H block receipts).lookup k =
    ((db.writeTransactions H block).getTransaction k,
      ((db.writeTransactions H block).writeReceipts receipts).getReceipt k) := by
  rw [writeLookups, (writeMipmapBloom_sameLookups block.number).lookup, lookup,
    getTransaction_writeReceipts]

theorem lookup_writeLookups_of_notMem (hr : Receipted H block receipts)
    (h : k ∉ block.txHashes H) : (db.writeLookups H block receipts).lookup k = db.lookup k := by
  rw [lookup_writeLookups, getReceipt_writeReceipts_of_notMem (hr.hashes ▸ h), getReceipt,
    writeTransactions_receipts]
  exact congrArg (·, _) (foldl_writeTransaction_of_notMem h)

theorem lookup_writeLookups_of_mem (hr : Receipted H block receipts)
    (h : block.transactions[i]? = some tx) :
    (db.writeLookups H block receipts).lookup (H.transaction tx) =
      (some (tx, { blockHash := block.hash H, blockIndex := block.number, index := i }),
        receipts[i]?) := by
  have hk : (receipts.map Receipt.txHash)[i]? = some (H.transaction tx) := by
    rw [hr.hashes, Block.txHashes, List.getElem?_map, h, Option.map_some]
  obtain ⟨r, hri, hrh⟩ := List.getElem?_map .. ▸ hk |> Option.map_eq_some_iff.mp
  rw [lookup_writeLookups, hri, ← hrh, getReceipt_writeReceipts_of_mem (hr.hashes ▸ hr.nodup)
    (List.mem_of_getElem? hri), hrh]
  refine congrArg (·, _) ((foldl_writeTransaction_of_mem hr.nodup h).trans ?_)
  rw [Nat.zero_add]

theorem lookup_delete (k' : Hash) : ((db.deleteReceipt k').deleteTransaction k').lookup k =
    if k = k' then (none, none) else db.lookup k := by
  simp only [lookup, getTransaction, getReceipt, deleteReceipt, deleteTransaction,
    GoMap.lookup_erase_eq_ite]
  split <;> rfl

theorem lookup_dropTxs (txs : List Transaction) : (db.dropTxs H txs).lookup k =
    if k ∈ txs.map H.transaction then (none, none) else db.lookup k := by
  induction txs generalizing db
  case nil => rfl
  case cons tx txs hi =>
    refine hi.trans ?_
    rw [lookup_delete]
    by_cases hk : k = H.transaction tx
    case pos => simp [hk]
    case neg => simp [hk]

-- Every transaction of the blocks in `l` is found in its block, at its index and with its receipt,
-- and no other transaction is found.
structure Lookups (H : Hashes) (R : Block → List Receipt) (db : ChainDb) (l : List Block) : Prop where
  here : ∀ b ∈ l, ∀ i tx, b.transactions[i]? = some tx → db.lookup (H.transaction tx) =
    (some (tx, { blockHash := b.hash H, blockIndex := b.number, index := i }), (R b)[i]?)
  only : ∀ k, k ∉ l.flatMap (Block.txHashes · H) → db.lookup k = (none, none)

variable {R : Block → List Receipt} {l : List Block}

theorem mem_txHashes (h : b.transactions[i]? = some tx) : H.transaction tx ∈ b.txHashes H :=
  List.mem_map_of_mem (List.mem_of_getElem? h)

variable (hn : (l.flatMap (Block.txHashes · H)).Nodup)
include hn

theorem notMem_txHashes (hb : b ∈ l)
    (hbl : block ∈ l) (hne : b ≠ block) (hk : k ∈ b.txHashes H) : k ∉ block.txHashes H := by
  have hs : Std.Symm (Function.onFun List.Disjoint (Block.txHashes · H)) :=
    ⟨fun _ _ h => List.disjoint_symm h⟩
  exact (List.nodup_flatMap.mp hn).right.forall hb hbl hne hk

theorem Lookups.write (hb : block ∈ l)
    (hr : (R block).map Receipt.txHash = block.txHashes H)
    (hh : ∀ b ∈ l, b ≠ block → ∀ i tx, b.transactions[i]? = some tx →
      db.lookup (H.transaction tx) =
        (some (tx, { blockHash := b.hash H, blockIndex := b.number, index := i }), (R b)[i]?))
    (ho : ∀ k, k ∉ l.flatMap (Block.txHashes · H) → db.lookup k = (none, none)) :
    (db.writeLookups H block (R block)).Lookups H R l := by
  have hrec : Receipted H block (R block) := ⟨hr, (List.nodup_flatMap.mp hn).left block hb⟩
  constructor
  case here =>
    intro b hbl i tx h
    by_cases he : b = block
    case pos =>
      subst he
      exact lookup_writeLookups_of_mem hrec h
    case neg =>
      rw [lookup_writeLookups_of_notMem hrec (notMem_txHashes hn hbl hb he (mem_txHashes h))]
      exact hh b hbl he i tx h
  case only =>
    intro k hk
    rw [lookup_writeLookups_of_notMem hrec fun h => hk (List.mem_flatMap.mpr ⟨block, hb, h⟩), ho k hk]

end ChainDb

namespace BlockChain

variable {genesis block b : Block} {bc bc' : BlockChain} {S : Set Block} {R : Block → List Receipt}
variable {l : List Block} {k : Hash} {events : ReorgEvents}

theorem adopt_chainDb (h : bc.chainDb.getBlockReceipts (b.hash H) b.number = R b) :
    (bc.adopt H b).chainDb = (bc.insert H b).chainDb.writeLookups H b (R b) := by
  rw [adopt, updateDb_chainDb, insert_sameBlocks.getBlockReceipts, h]

theorem lookup_adoptAll_of_notMem {new : List Block} (hn : (new.flatMap (Block.txHashes · H)).Nodup)
    (hr : ∀ b ∈ new, (R b).map Receipt.txHash = b.txHashes H)
    (hR : ∀ b ∈ new, bc.chainDb.getBlockReceipts (b.hash H) b.number = R b)
    (h : k ∉ new.flatMap (Block.txHashes · H)) :
    (bc.adoptAll H new).chainDb.lookup k = bc.chainDb.lookup k := by
  induction new generalizing bc
  case nil => rfl
  case cons b new hi =>
    simp only [List.flatMap_cons, List.mem_append, not_or] at hn h
    obtain ⟨hnb, hn, -⟩ := List.nodup_append.mp hn
    obtain ⟨hrb, hr⟩ := List.forall_mem_cons.mp hr
    obtain ⟨hRb, hR⟩ := List.forall_mem_cons.mp hR
    refine (hi hn hr (fun c hc => ?_) h.right).trans ?_
    case refine_1 => rw [adopt_sameBlocks.getBlockReceipts, hR c hc]
    case refine_2 =>
      rw [adopt_chainDb hRb, ChainDb.lookup_writeLookups_of_notMem ⟨hrb, hnb⟩ h.left,
        insert_sameLookups.lookup]

theorem lookup_adoptAll_of_mem {new : List Block} (hn : (new.flatMap (Block.txHashes · H)).Nodup)
    (hr : ∀ b ∈ new, (R b).map Receipt.txHash = b.txHashes H)
    (hR : ∀ b ∈ new, bc.chainDb.getBlockReceipts (b.hash H) b.number = R b) (hb : b ∈ new) {i : Nat}
    {tx : Transaction} (h : b.transactions[i]? = some tx) :
    (bc.adoptAll H new).chainDb.lookup (H.transaction tx) =
      (some (tx, { blockHash := b.hash H, blockIndex := b.number, index := i }), (R b)[i]?) := by
  induction new generalizing bc
  case nil => cases hb
  case cons c new hi =>
    obtain ⟨hnc, hn', hd⟩ := List.nodup_append.mp hn
    obtain ⟨hrc, hr'⟩ := List.forall_mem_cons.mp hr
    obtain ⟨hRc, hR'⟩ := List.forall_mem_cons.mp hR
    replace hR' : ∀ b ∈ new, (bc.adopt H c).chainDb.getBlockReceipts (b.hash H) b.number = R b :=
      fun b hb => (adopt_sameBlocks.getBlockReceipts _ _).trans (hR' b hb)
    obtain rfl | hb := List.mem_cons.mp hb
    case inl =>
      have hk := ChainDb.mem_txHashes (H := H) h
      refine (lookup_adoptAll_of_notMem hn' hr' hR' fun hk' => hd _ hk _ hk' rfl).trans ?_
      rw [adopt_chainDb hRc, ChainDb.lookup_writeLookups_of_mem ⟨hrc, hnc⟩ h]
    case inr => exact hi hn' hr' hR' hb

-- What is known of blocks that have been processed: their receipts belong to their transactions,
-- and no transaction is on a branch twice.
structure Processed (H : Hashes) (genesis : Block) (R : Block → List Receipt) (S : Set Block) :
    Prop where
  proper   : (blockTree H genesis).Proper S
  receipts : ∀ b ∈ S, (R b).map Receipt.txHash = b.txHashes H
  once     : ∀ b l, BlockBranch H genesis S b l → (l.flatMap (Block.txHashes · H)).Nodup
  origin   : genesis.transactions = []

-- The chain of a node that inserts processed blocks: the receipts of all blocks are stored, and the
-- transactions of the canonical blocks are found.
structure Booked (H : Hashes) (genesis : Block) (R : Block → List Receipt) (bc : BlockChain)
    (S : Set Block) (l : List Block) : Prop where
  inv      : bc.Inv H genesis S l
  receipts : ∀ b ∈ S, bc.chainDb.getBlockReceipts (b.hash H) b.number = R b
  lookups  : bc.chainDb.Lookups H R l

theorem mem_txDifference {old new : List Block} :
    k ∈ (txDifference H (old.flatMap Block.transactions) (new.flatMap Block.transactions)).map
      H.transaction ↔
    k ∈ old.flatMap (Block.txHashes · H) ∧ k ∉ new.flatMap (Block.txHashes · H) := by
  have hm (bs : List Block) : (bs.flatMap Block.transactions).map H.transaction =
      bs.flatMap (Block.txHashes · H) := List.map_flatMap
  rw [← hm, ← hm]
  simp only [txDifference, List.mem_map, List.mem_filter, decide_eq_true_eq]
  constructor
  case mp =>
    rintro ⟨tx, ⟨ho, hn⟩, rfl⟩
    exact ⟨⟨tx, ho, rfl⟩, hn⟩
  case mpr =>
    rintro ⟨⟨tx, ho, rfl⟩, hn⟩
    exact ⟨tx, ⟨ho, hn⟩, rfl⟩

-- After the new chain is adopted and what was only on the old one is deleted, the transactions of
-- the new branch are found, and no others.
theorem lookups_switch {o : Block} {old new common : List Block}
    (hP : Processed H genesis R S) (hf : BlockFork H genesis S o block old new common)
    (hR : ∀ b ∈ new, bc.chainDb.getBlockReceipts (b.hash H) b.number = R b)
    (hl : bc.chainDb.Lookups H R (old ++ common)) :
    ((bc.adoptAll H new).chainDb.dropTxs H (txDifference H (old.flatMap Block.transactions)
      (new.flatMap Block.transactions))).Lookups H R (new ++ common) := by
  have hnew := hP.once _ _ hf.right
  have hold := hP.once _ _ hf.left
  rw [List.flatMap_append] at hnew hold
  obtain ⟨hn, -, hnc⟩ := List.nodup_append.mp hnew
  obtain ⟨-, -, hoc⟩ := List.nodup_append.mp hold
  have hr : ∀ b ∈ new, (R b).map Receipt.txHash = b.txHashes H :=
    fun b hb => hP.receipts b (hf.right.subset b (List.mem_append_left _ hb))
  constructor
  case here =>
    intro b hb i tx h
    rw [ChainDb.lookup_dropTxs]
    have hk := ChainDb.mem_txHashes (H := H) h
    obtain hb | hb := List.mem_append.mp hb
    case inl =>
      rw [if_neg fun hd => (mem_txDifference.mp hd).right (List.mem_flatMap.mpr ⟨b, hb, hk⟩)]
      exact lookup_adoptAll_of_mem hn hr hR hb h
    case inr =>
      -- A transaction of a common block is neither on the old chain nor on the new one.
      have hkc : H.transaction tx ∈ common.flatMap (Block.txHashes · H) :=
        List.mem_flatMap.mpr ⟨b, hb, hk⟩
      rw [if_neg fun hd => hoc _ (mem_txDifference.mp hd).left _ hkc rfl,
        lookup_adoptAll_of_notMem hn hr hR fun hd => hnc _ hd _ hkc rfl]
      exact hl.here b (List.mem_append_right old hb) i tx h
  case only =>
    intro k hk
    simp only [List.flatMap_append, List.mem_append, not_or] at hk
    rw [ChainDb.lookup_dropTxs]
    split
    case isTrue => rfl
    case isFalse hd =>
      rw [lookup_adoptAll_of_notMem hn hr hR hk.left]
      apply hl.only
      simp only [List.flatMap_append, List.mem_append, not_or]
      exact ⟨fun ho => hd (mem_txDifference.mpr ⟨ho, hk.left⟩), hk.right⟩

theorem Booked.writeBlockReceipts (hw : (blockTree H genesis).Proper (Insert.insert block S))
    (hb : bc.Booked H genesis R S l) :
    ∃ bc₁, (bc.updateDb fun db => db.writeBlockReceipts (block.hash H) block.number (R block)) = bc₁ ∧
      bc₁.currentBlock = bc.currentBlock ∧ bc₁.Inv H genesis S l ∧ bc₁.chainDb.Lookups H R l ∧
      ∀ b ∈ Insert.insert block S, bc₁.chainDb.getBlockReceipts (b.hash H) b.number = R b := by
  refine ⟨_, rfl, rfl, ⟨hb.inv.branch, hb.inv.index, hb.inv.blocks, hb.inv.td⟩,
    ⟨hb.lookups.here, hb.lookups.only⟩, fun b hbS => ?_⟩
  rw [updateDb_chainDb, ChainDb.getBlockReceipts, ChainDb.writeBlockReceipts,
    GoMap.lookup_insert_eq_ite]
  split
  case isTrue he =>
    rw [hw.inj hbS (Set.mem_insert _ _) (Prod.mk.inj he).right]
    rfl
  case isFalse he =>
    obtain rfl | hbS := hbS
    case inl => exact absurd rfl he
    case inr => exact hb.receipts b hbS

variable {localTd td : Nat} {st : WriteStatus} {coin : Bool}

theorem Outcome.lookups (hP : Processed H genesis R (Insert.insert block S))
    (hi : bc.Inv H genesis S l) (hl : bc.chainDb.Lookups H R l)
    (hR : ∀ b ∈ Insert.insert block S, bc.chainDb.getBlockReceipts (b.hash H) b.number = R b)
    {p : Block} {lp : List Block} (hon : (blockTree H genesis).On block p)
    (hlp : BlockBranch H genesis S p lp)
    (ho : bc.Outcome H genesis S block localTd td .canonStatTy events bc') :
    ∃ old new common,
      BlockFork H genesis (Insert.insert block S) bc.currentBlock block old new common ∧
      events.removedTxs = txDifference H (old.flatMap Block.transactions)
        (new.flatMap Block.transactions) ∧
      (bc'.chainDb.writeLookups H block (R block)).Lookups H R (new ++ common) := by
  have hsub : S ⊆ Insert.insert block S := Set.subset_insert _ _
  have hr := hP.receipts block (Set.mem_insert _ _)
  cases ho
  case extend hle hpar =>
    obtain rfl : p = bc.currentBlock :=
      hP.proper.inj (hsub hlp.mem) (hsub hi.branch.mem) (hon.parent.symm.trans hpar)
    have hb : BlockBranch H genesis (Insert.insert block S) block ([block] ++ l) :=
      .step (Set.mem_insert _ _) hon (hi.branch.mono hsub)
    refine ⟨[], [block], l, ⟨hi.branch.mono hsub, hb, by simp⟩, rfl, ?_⟩
    refine .write (hP.once _ _ hb) List.mem_cons_self hr (fun b hb hne i tx h => ?_) fun k hk => ?_
    case refine_1 =>
      rw [insert_sameLookups.lookup]
      exact hl.here b ((List.mem_cons.mp hb).resolve_left hne) i tx h
    case refine_2 =>
      rw [insert_sameLookups.lookup]
      exact hl.only k fun h => hk (List.mem_append_right _ h)
  case reorg old new common hle hpar hf =>
    refine ⟨old, new, common, hf, rfl, ?_⟩
    have hold : old ++ common = l := hf.left.unique hP.proper (hi.branch.mono hsub)
    have hR' : ∀ b ∈ new,
        (bc.addBlock H block td).chainDb.getBlockReceipts (b.hash H) b.number = R b :=
      fun b hb => hR b (hf.right.subset b (List.mem_append_left _ hb))
    have hsw := lookups_switch hP hf hR' (⟨hold ▸ hl.here, hold ▸ hl.only⟩)
    refine .write (hP.once _ _ hf.right) hf.right.mem_head hr (fun b hb _ i tx h => ?_) fun k hk => ?_
    case refine_1 =>
      rw [insert_sameLookups.lookup]
      exact hsw.here b hb i tx h
    case refine_2 =>
      rw [insert_sameLookups.lookup]
      exact hsw.only k hk

theorem Outcome.sameReceipts (ho : bc.Outcome H genesis S block localTd td st events bc')
    (k : Hash) (n : UInt64) : bc'.chainDb.getBlockReceipts k n = bc.chainDb.getBlockReceipts k n := by
  cases ho
  case side   => rfl
  case extend => exact insert_sameBlocks.getBlockReceipts k n
  case reorg  => exact (switch_sameBlocks _ _).getBlockReceipts k n

theorem Inv.updateDb (hi : bc.Inv H genesis S l) {f : ChainDb → ChainDb}
    (hf : ∀ db : ChainDb, db.Kept (f db)) : (bc.updateDb f).Inv H genesis S l where
  branch := hi.branch
  index  := fun b hb => ((hf _).right.getCanonicalHash _).trans (hi.index b hb)
  blocks := fun b hb => (hf _).left.hasBlock.mpr (hi.blocks b hb)
  td     := by
    intro b hb
    obtain ⟨lb, hlb, htd, hle⟩ := hi.td b hb
    exact ⟨lb, hlb, ((hf _).left.getTd _ _).trans htd, hle⟩

theorem insertBlock_eq {receipts : List Receipt} (he : writeBlock H block coin
      (bc.updateDb fun db => db.writeBlockReceipts (block.hash H) block.number receipts) =
        (.ok (st, events), bc')) :
    insertBlock H block receipts coin bc = (.ok (st, events),
      if st = .canonStatTy then bc'.updateDb fun db => db.writeLookups H block receipts
      else bc') := by
  simp only [insertBlock, he]

theorem Booked.insertBlock (hP : Processed H genesis R (Insert.insert block S))
    (hb : bc.Booked H genesis R S l) {p : Block} (hpS : p ∈ S)
    (hon : (blockTree H genesis).On block p) (coin : Bool) :
    ∃ st events bc' l', insertBlock H block (R block) coin bc = (.ok (st, events), bc') ∧
      bc'.Booked H genesis R (Insert.insert block S) l' ∧
      (st = .canonStatTy → ∃ old new common,
        BlockFork H genesis (Insert.insert block S) bc.currentBlock block old new common ∧
        l' = new ++ common ∧ events.removedTxs = txDifference H (old.flatMap Block.transactions)
          (new.flatMap Block.transactions)) := by
  obtain ⟨bc₁, hbc₁, hcur, hi₁, hl₁, hR₁⟩ := hb.writeBlockReceipts hP.proper
  obtain ⟨lp, st, events, bc', l', hlp, he, ho, hi', -⟩ := hi₁.writeBlock hP.proper hpS hon coin
  have hrec : ∀ b ∈ Insert.insert block S, bc'.chainDb.getBlockReceipts (b.hash H) b.number = R b :=
    fun b hb => (ho.sameReceipts _ _).trans (hR₁ b hb)
  have hins := insertBlock_eq (hbc₁ ▸ he)
  cases st
  case nonStatTy => cases ho
  case sideStatTy =>
    refine ⟨_, _, _, l', hins, ⟨hi', hrec, ?_⟩, by simp⟩
    cases ho
    case side =>
      have hll : l' = l := hi'.branch.unique hP.proper (hi₁.branch.mono (Set.subset_insert _ _))
      exact hll ▸ ⟨hl₁.here, hl₁.only⟩
  case canonStatTy =>
    obtain ⟨old, new, common, hf, hev, hlk⟩ := ho.lookups hP hi₁ hl₁ hR₁ hon hlp
    have hcur' : bc'.currentBlock = block := by
      obtain ⟨-, -, -, -, h, -⟩ := ho.canon hP.proper hi₁ hon hlp
      exact h
    have hll : l' = new ++ common := (hcur' ▸ hi'.branch).unique hP.proper hf.right
    have hkept (db : ChainDb) : db.Kept (db.writeLookups H block (R block)) :=
      ChainDb.kept_writeLookups _ _
    refine ⟨_, _, _, l', hins, ⟨hi'.updateDb hkept, fun b hb => ?_, ?_⟩, fun _ => ?_⟩
    case refine_1 => exact ((hkept _).left.getBlockReceipts _ _).trans (hrec b hb)
    case refine_2 => exact hll ▸ hlk
    case refine_3 => exact ⟨old, new, common, hcur ▸ hf, hll, hev⟩

-- The chains that inserting processed blocks leads to, each block after its parent.
inductive Inserted (H : Hashes) (genesis : Block) (R : Block → List Receipt) :
    Set Block → BlockChain → Prop
  | new : Inserted H genesis R {genesis} (new H genesis)
  | insert {S : Set Block} {bc : BlockChain} {block p : Block} (coin : Bool) :
    Inserted H genesis R S bc → p ∈ S → (blockTree H genesis).On block p →
    Inserted H genesis R (Insert.insert block S) (insertBlock H block (R block) coin bc).2

theorem Processed.mono {S' : Set Block} (hP : Processed H genesis R S') (hs : S ⊆ S') :
    Processed H genesis R S where
  proper   := hP.proper.mono hs
  receipts := fun b hb => hP.receipts b (hs hb)
  once     := fun b l hb => hP.once b l (hb.mono hs)
  origin   := hP.origin

theorem Booked.new (hP : Processed H genesis R {genesis}) :
    (new H genesis).Booked H genesis R {genesis} [genesis] := by
  have ht : genesis.txHashes H = [] := by rw [Block.txHashes, hP.origin, List.map_nil]
  refine ⟨.new, ?_, ⟨?_, fun k _ => ?_⟩⟩
  case refine_1 =>
    rintro b rfl
    rw [List.map_eq_nil_iff.mp ((hP.receipts b rfl).trans ht), BlockChain.new,
      insert_sameBlocks.getBlockReceipts]
    rfl
  case refine_2 =>
    rw [List.forall_mem_singleton, hP.origin]
    intro i tx h
    cases h
  case refine_3 =>
    rw [BlockChain.new, insert_sameLookups.lookup]
    rfl

theorem Inserted.booked (hP : Processed H genesis R S) (h : Inserted H genesis R S bc) :
    ∃ l, bc.Booked H genesis R S l := by
  induction h
  case new => exact ⟨_, .new hP⟩
  case insert coin _ hpS hon hi =>
    obtain ⟨l, hb⟩ := hi (hP.mono (Set.subset_insert _ _))
    obtain ⟨st, events, bc', l', he, hb', -⟩ := hb.insertBlock hP hpS hon coin
    rw [he]
    exact ⟨l', hb'⟩

def sampleTx : Transaction where
  accountNonce := 0
  price        := 1
  gasLimit     := 21000
  recipient    := none
  amount       := 0
  payload      := [1]
  v            := 27
  r            := 1
  s            := 1

def sampleTxBlock : Block :=
  { sampleFirst with transactions := [sampleTx] }

def sampleReceipts (b : Block) : List Receipt :=
  b.transactions.map fun tx =>
    { postState         := []
      cumulativeGasUsed := 21000
      bloom             := 0
      logs              := []
      txHash            := HeaderChain.sampleHashes.transaction tx
      contractAddress   := Address.zero
      gasUsed           := 21000 }

theorem sampleTxBlock_on :
    (blockTree HeaderChain.sampleHashes sampleOrigin).On sampleTxBlock sampleOrigin :=
  ⟨rfl, rfl⟩

theorem sampleTxBlock_processed : Processed HeaderChain.sampleHashes sampleOrigin sampleReceipts
    {sampleTxBlock, sampleOrigin} where
  proper   := by
    have h : ∀ a ∈ [sampleTxBlock, sampleOrigin], ∀ b ∈ [sampleTxBlock, sampleOrigin],
        a.hash HeaderChain.sampleHashes = b.hash HeaderChain.sampleHashes → a = b := by
      decide +kernel
    exact ⟨fun a ha b hb => h a (by simpa using ha) b (by simpa using hb), rfl⟩
  receipts := fun b _ => by simp [sampleReceipts, Block.txHashes]
  once     := by
    intro b l hb
    cases hb
    case root => exact List.nodup_nil
    case step p l hl hb ho =>
      -- Only the block on top of genesis has a parent.
      have hp : p.number.toNat = 0 := by
        have := ho.height
        obtain rfl | rfl := hb
        case inl => exact (Nat.succ.inj this).symm
        case inr => cases this
      obtain ⟨rfl, rfl⟩ := hl.eq_root hp
      obtain rfl | rfl := hb
      case inl => exact List.nodup_singleton _
      case inr => exact List.nodup_nil
  origin   := rfl

end BlockChain

end Core
