import GoEthereum.Core.Validator
import GoEthereum.Core.BlockRun

-- Uncles along a chain of accepted blocks.

namespace Core

open Common

variable {H : Hashes} {v : Validator} {bc : BlockChain} {genesis block parent : Block}
variable {l : List Block}

theorem mapError_eq_ok {ε ε' : Type} {f : ε → ε'} {x : Except ε Unit} :
    x.mapError f = .ok () ↔ x = .ok () := by
  cases x <;> simp [Except.mapError]

theorem validateHeader_number {header parent : Header} {checkPow uncle : Bool}
    (h : validateHeader H v header parent checkPow uncle = .ok ()) :
    header.number.toNat = parent.number.toNat + 1 := by
  simp only [validateHeader, seq_eq_ok, failIf_eq_ok, not_not] at h
  omega

namespace BlockChain

-- The database holds the blocks of the list, every block that it holds stands under its own hash
-- and number, and there is none below the genesis block.
structure Holds (H : Hashes) (genesis : Block) (bc : BlockChain) (l : List Block) : Prop where
  blocks  : ∀ b ∈ l, bc.chainDb.HasBlock H b
  numbers : ∀ b ∈ l, bc.chainDb.getBlockNumber (b.hash H) = b.number
  sound   : ∀ {k n b}, bc.chainDb.getBlock k n = some b → b.hash H = k ∧ b.number = n
  root    : ∀ n, bc.chainDb.getBlock genesis.parentHash n = none

theorem Holds.getBlocks_below (hh : bc.Holds H genesis l) {n : Nat} {m : UInt64} :
    bc.getBlocks n genesis.parentHash m = [] := by
  cases n
  case zero => rfl
  case succ => rw [BlockChain.getBlocks, hh.root]

theorem Holds.getBlocks {S : Set Block} {b : Block} {n : Nat} (hh : bc.Holds H genesis l)
    (hb : BlockBranch H genesis S b l) : bc.getBlocks n (b.hash H) b.number = l.take n := by
  have hl := hh.blocks
  generalize hl' : l = l' at hb hl ⊢
  clear hl'
  induction hb generalizing n
  case root =>
    cases n
    case zero => rfl
    case succ =>
      have hg : bc.chainDb.getBlock (genesis.hash H) genesis.number = some genesis :=
        hl _ List.mem_cons_self
      simp only [blockTree_root, BlockChain.getBlocks, hg, hh.getBlocks_below, List.take_succ_cons,
        List.take_nil]
  case step b p l _ ho _ hi =>
    cases n
    case zero => rfl
    case succ n =>
      have hg : bc.chainDb.getBlock (b.hash H) b.number = some b := hl _ List.mem_cons_self
      have hp : b.parentHash = p.hash H := ho.parent
      have hn : b.number - 1 = p.number := pred_of_succ ho.height
      simp only [BlockChain.getBlocks, hg, hp, hn, List.take_succ_cons]
      rw [hi fun a ha => hl a (List.mem_cons_of_mem b ha)]

end BlockChain

namespace Validator

structure Verified (H : Hashes) (ancestors : GoMap Hash Block) (parent : Block) (u : Header) : Prop where
  notAncestor : ancestors.lookup (H.header u) = none
  onAncestor  : ∃ a, ancestors.lookup u.parentHash = some a ∧ u.number.toNat = a.number.toNat + 1
  notSibling  : u.parentHash ≠ parent.hash H

theorem verifyUncle_spec {ancestors : GoMap Hash Block} {i : Nat} {seen : List Hash}
    {us : List Header} (h : v.verifyUncle H ancestors parent i seen us = .ok ()) :
    (us.map H.header).Nodup ∧
      ∀ u ∈ us, H.header u ∉ seen ∧ Verified H ancestors parent u := by
  induction us generalizing i seen
  case nil => simp
  case cons u us hi =>
    simp only [verifyUncle, seq_eq_ok, failIf_eq_ok] at h
    obtain ⟨hs, hn, h⟩ := h
    cases ha : ancestors.lookup u.parentHash
    case none => simp [ha, throw, throwThe, MonadExceptOf.throw] at h
    case some a =>
      simp only [ha, seq_eq_ok, failIf_eq_ok, mapError_eq_ok] at h
      obtain ⟨hp, hv, h⟩ := h
      obtain ⟨hd, hu⟩ := hi h
      have hv : Verified H ancestors parent u :=
        ⟨by simpa using hn, ⟨a, ha, validateHeader_number hv⟩, hp⟩
      simp only [List.map_cons, List.nodup_cons, List.mem_map, List.forall_mem_cons, not_exists,
        not_and]
      refine ⟨⟨fun u' hu' he => ?_, hd⟩, ⟨hs, hv⟩, fun u' hu' => ?_⟩
      case refine_1 => exact (hu u' hu').left (by simp [he])
      case refine_2 =>
        obtain ⟨hm, hv'⟩ := hu u' hu'
        exact ⟨fun hm' => hm (List.mem_cons_of_mem _ hm'), hv'⟩

theorem lookup_ancestors (blocks : List Block) (m : GoMap Hash Block) (k : Hash) :
    (blocks.foldl (fun m b => m.insert (b.hash H) b) m).lookup k =
      ((blocks.reverse.find? fun b => b.hash H = k).or (m.lookup k)) := by
  induction blocks generalizing m
  case nil => simp
  case cons b bs hi =>
    rw [List.foldl_cons, hi, List.reverse_cons]
    by_cases hb : b.hash H = k
    case pos => simp [hb]
    case neg => simp [hb, Ne.symm hb]

-- What acceptance says about the uncles of a block, in terms of the blocks right below it.
structure Included (H : Hashes) (block parent : Block) (near : List Block) (u : Header) : Prop where
  notUncle    : ∀ a ∈ near, H.header u ∉ a.uncles.map H.header
  notAncestor : ∀ a ∈ near, H.header u ≠ a.hash H
  onAncestor  : ∃ a ∈ block :: near, u.parentHash = a.hash H ∧ u.number.toNat = a.number.toNat + 1
  notSibling  : u.parentHash ≠ parent.hash H

theorem verifyUncles_spec (h : v.verifyUncles H bc block parent = .ok ()) :
    (block.uncles.map H.header).Nodup ∧
      ∀ u ∈ block.uncles, Included H block parent (bc.getBlocksFromHash block.parentHash 7) u := by
  simp only [verifyUncles, seq_eq_ok] at h
  obtain ⟨hd, hu⟩ := verifyUncle_spec h.right
  refine ⟨hd, fun u hm => ?_⟩
  obtain ⟨hs, hn, ⟨a, ha, hh⟩, hp⟩ := hu u hm
  rw [GoMap.lookup_insert_eq_ite, lookup_ancestors] at hn ha
  simp only [List.mem_cons, List.mem_flatMap, not_or, not_exists, not_and] at hs
  refine ⟨hs.right, fun b hb he => ?_, ⟨a, ?_⟩, hp⟩
  case refine_1 =>
    rw [if_neg hs.left, Option.or_eq_none_iff, List.find?_eq_none] at hn
    exact hn.left b (List.mem_reverse.mpr hb) (by simp [he])
  case refine_2 =>
    split at ha
    case isTrue he =>
      cases ha
      exact ⟨List.mem_cons_self, he, hh⟩
    case isFalse =>
      have hf : (bc.getBlocksFromHash block.parentHash 7).reverse.find?
          (fun b => b.hash H = u.parentHash) = some a := by simpa using ha
      refine ⟨List.mem_cons_of_mem _ (List.mem_reverse.mp (List.mem_of_find?_eq_some hf)), ?_, hh⟩
      simpa [eq_comm] using List.find?_some hf

theorem validateBlock_spec (hp : bc.chainDb.getBlock block.parentHash (block.number - 1) = some parent)
    (h : v.validateBlock H bc block = .ok ()) :
    block.number.toNat = parent.number.toNat + 1 ∧
      v.verifyUncles H bc block parent = .ok () ∧ H.uncles block.uncles = block.header.uncleHash := by
  simp only [validateBlock, hp, seq_eq_ok, failIf_eq_ok, mapError_eq_ok, not_not] at h
  exact ⟨validateHeader_number h.right.right.left, h.right.right.right.left,
    h.right.right.right.right.left⟩

end Validator

-- A chain of blocks down to the genesis block. Every other block was accepted on its parent, over a
-- block chain that held the blocks below it.
inductive Accepted (H : Hashes) (genesis : Block) : List Block → Prop
  | genesis : Accepted H genesis [genesis]
  | accept {block parent : Block} {l : List Block} (v : Validator) (bc : BlockChain) :
    Accepted H genesis (parent :: l) → bc.Holds H genesis (parent :: l) →
    bc.chainDb.getBlock block.parentHash (block.number - 1) = some parent →
    v.validateBlock H bc block = .ok () → Accepted H genesis (block :: parent :: l)

-- No block has an uncle that names the block itself as its parent, as the hash of the block covers
-- that of its uncles.
def Acyclic (H : Hashes) (l : List Block) : Prop :=
  ∀ b ∈ l, b.header.uncleHash = H.uncles b.uncles → ∀ u ∈ b.uncles, u.parentHash ≠ b.hash H

namespace Accepted

theorem branch {b : Block} (h : Accepted H genesis (b :: l)) :
    BlockBranch H genesis Set.univ b (b :: l) := by
  generalize hl : b :: l = l' at h
  induction h generalizing b l
  case genesis =>
    cases hl
    exact .root trivial
  case accept block parent l' v bc ha hh hp hv hi =>
    cases hl
    obtain ⟨hn, -⟩ := Validator.validateBlock_spec hp hv
    exact .step trivial ⟨(hh.sound hp).left.symm, hn⟩ (hi rfl)

theorem head_uncles {rest : List Block} (h : Accepted H genesis (block :: rest))
    (hf : Acyclic H (block :: rest)) (hg : genesis.uncles = []) :
    (block.uncles.map H.header).Nodup ∧ ∀ u ∈ block.uncles,
      (∀ a ∈ rest.take 7, H.header u ∉ a.uncles.map H.header ∧ H.header u ≠ a.hash H) ∧
      (∃ a ∈ rest.take 7, u.parentHash = a.hash H) ∧
      block.number.toNat ≤ u.number.toNat + 6 ∧ u.number.toNat + 1 ≤ block.number.toNat := by
  cases h
  case genesis => simp [hg]
  case accept parent l v bc ha hh hp hv =>
    have hb := ha.branch
    obtain ⟨hn, hu, hs⟩ := Validator.validateBlock_spec hp hv
    obtain ⟨hd, hu⟩ := Validator.verifyUncles_spec hu
    have hnear : bc.getBlocksFromHash block.parentHash 7 = (parent :: l).take 7 := by
      rw [BlockChain.getBlocksFromHash, ← (hh.sound hp).left, hh.numbers _ List.mem_cons_self]
      exact hh.getBlocks hb
    refine ⟨hd, fun u hm => ?_⟩
    obtain ⟨h₁, h₂, ⟨a, ham, hap, han⟩, h₃⟩ := hu u hm
    rw [hnear] at h₁ h₂ ham
    have ham : a ∈ (parent :: l).take 7 := by
      cases ham
      case head    => exact absurd hap (hf block List.mem_cons_self hs.symm u hm)
      case tail ha => exact ha
    obtain ⟨hal, hlt⟩ := hb.mem_take_iff.mp ham
    have hlt' : a.number.toNat < parent.number.toNat := by
      cases hal
      case head    => exact absurd hap h₃
      case tail ha => exact hb.height_lt a ha
    simp only [blockTree_height] at hlt
    exact ⟨fun a ha => ⟨h₁ a ha, h₂ a ha⟩, ⟨a, ham, hap⟩, by omega, by omega⟩

theorem number_lt_uncle {rest : List Block} (h : Accepted H genesis (block :: rest))
    (hf : Acyclic H (block :: rest)) (hg : genesis.uncles = []) {a : Block} {u : Header}
    (hu : u ∈ block.uncles) (ha : a ∈ rest) (hn : a ∉ rest.take 7) :
    a.number.toNat < u.number.toNat := by
  obtain ⟨-, -, hle, -⟩ := (h.head_uncles hf hg).right u hu
  cases h.branch
  case root => cases ha
  case step p _ ho hb =>
    have hlow : ¬ p.number.toNat < a.number.toNat + 7 := fun hlt => hn (hb.mem_take_iff.mpr ⟨ha, hlt⟩)
    have hs : block.number.toNat = p.number.toNat + 1 := ho.height
    omega

end Accepted

def headers (l : List Block) : List Header :=
  l.flatMap fun b => b.header :: b.uncles

variable {b : Block}

theorem header_mem_headers (h : b ∈ l) : b.header ∈ headers l :=
  List.mem_flatMap_of_mem h List.mem_cons_self

theorem uncle_mem_headers {u : Header} (h : b ∈ l) (hu : u ∈ b.uncles) : u ∈ headers l :=
  List.mem_flatMap_of_mem h (List.mem_cons_of_mem _ hu)

theorem Acyclic.tail (hf : Acyclic H (b :: l)) : Acyclic H l :=
  fun a ha => hf a (List.mem_cons_of_mem b ha)

theorem uncleReward_bounds {header uncle : Header}
    (h : header.number.toNat ≤ uncle.number.toNat + 6)
    (h' : uncle.number.toNat + 1 ≤ header.number.toNat) :
    2 * blockReward / 8 ≤ uncleReward header uncle ∧
      uncleReward header uncle ≤ 7 * blockReward / 8 := by
  simp only [uncleReward, blockReward]
  omega

namespace Accepted

theorem uncle_ne_ancestor {rest : List Block} (h : Accepted H genesis (block :: rest))
    (hj : Set.InjOn H.header {h | h ∈ headers (block :: rest)}) (hf : Acyclic H (block :: rest))
    (hg : genesis.uncles = []) {a : Block} {u : Header} (hu : u ∈ block.uncles) (ha : a ∈ rest) :
    H.header u ≠ a.hash H := by
  by_cases hn : a ∈ rest.take 7
  case pos => exact (((h.head_uncles hf hg).right u hu).left a hn).right
  case neg =>
    intro he
    have hlt := h.number_lt_uncle hf hg hu ha hn
    have hh : u = a.header := hj (uncle_mem_headers List.mem_cons_self hu)
      (header_mem_headers (List.mem_cons_of_mem _ ha)) he
    exact absurd hlt (by rw [hh]; exact lt_irrefl _)

-- Every uncle that is included along a chain is included once only. It is no ancestor of the block,
-- it stands on one of the seven blocks below it, and its reward is a part of the block reward.
theorem uncles_once (h : Accepted H genesis l) (hj : Set.InjOn H.header {h | h ∈ headers l})
    (hf : Acyclic H l) (hg : genesis.uncles = []) :
    (l.flatMap fun b => b.uncles.map H.header).Nodup ∧
      ∀ b rest, b :: rest <:+ l → ∀ u ∈ b.uncles,
        (∀ a ∈ rest, H.header u ≠ a.hash H) ∧ (∃ a ∈ rest.take 7, u.parentHash = a.hash H) ∧
        b.number.toNat ≤ u.number.toNat + 6 ∧ u.number.toNat + 1 ≤ b.number.toNat ∧
        0 < uncleReward b.header u ∧ 2 * blockReward / 8 ≤ uncleReward b.header u ∧
        uncleReward b.header u ≤ 7 * blockReward / 8 := by
  induction h
  case genesis =>
    refine ⟨by simp [hg], fun b rest hs => ?_⟩
    obtain ⟨hb, -⟩ : b = genesis ∧ rest = [] := by simpa [List.suffix_cons_iff] using hs
    simp [hb, hg]
  case accept block parent l v bc ha hh hp hv hi =>
    have h := ha.accept v bc hh hp hv
    obtain ⟨hn, hr⟩ := hi (hj.mono fun h hm => List.mem_append_right _ hm) hf.tail
    obtain ⟨hd, hu⟩ := h.head_uncles hf hg
    constructor
    case left =>
      rw [List.flatMap_cons, List.nodup_append]
      refine ⟨hd, hn, fun k hk k' hk' he => ?_⟩
      obtain ⟨u, hm, rfl⟩ := List.mem_map.mp hk
      obtain ⟨a, ham, hau⟩ := List.mem_flatMap.mp hk'
      by_cases hw : a ∈ (parent :: l).take 7
      case pos => exact ((hu u hm).left a hw).left (he ▸ hau)
      case neg =>
        -- The uncles of a block behind the window are lower than the block.
        obtain ⟨u', hm', rfl⟩ := List.mem_map.mp hau
        have hlt := h.number_lt_uncle hf hg hm ham hw
        obtain ⟨s, t, hs⟩ := List.append_of_mem ham
        obtain ⟨-, -, -, hlt', -⟩ := hr a t ⟨s, hs.symm⟩ u' hm'
        have heq : u = u' := hj (uncle_mem_headers List.mem_cons_self hm)
          (uncle_mem_headers (List.mem_cons_of_mem _ ham) hm') he
        rw [heq] at hlt
        omega
    case right =>
      intro b rest hs
      obtain he | hs := List.suffix_cons_iff.mp hs
      case inl =>
        cases he
        intro u hm
        obtain ⟨-, hp, hlo, hhi⟩ := hu u hm
        obtain ⟨h₂, h₇⟩ := uncleReward_bounds hlo hhi
        refine ⟨fun a ha => h.uncle_ne_ancestor hj hf hg hm ha, hp, hlo, hhi, ?_, h₂, h₇⟩
        exact lt_of_lt_of_le (by decide) h₂
      case inr => exact hr b rest hs

def sampleTimed (name parent : UInt8) (number : UInt64) (difficulty time : Nat) : Header :=
  { HeaderChain.sampleHeader name parent number difficulty with time := time, gasLimit := 5000 }

def sampleRoot : Block where
  header       := sampleTimed 1 0 0 131072 0
  transactions := []
  uncles       := []

def sampleNephewParent : Block where
  header       := sampleTimed 2 1 1 131136 1
  transactions := []
  uncles       := []

def sampleUncle : Header :=
  sampleTimed 3 1 1 131136 2

def sampleNephew : Block where
  header       := { sampleTimed 4 2 2 131200 3 with uncleHash := bytesToHash [3] }
  transactions := []
  uncles       := [sampleUncle]

def holding (H : Hashes) (l : List Block) : BlockChain :=
  (BlockChain.new H BlockChain.sampleOrigin).updateDb fun _ =>
    l.foldr (fun b db => db.addBlock H b 0) .empty

theorem getBlock_holding {k : Hash} {n : UInt64} {b : Block}
    (h : (holding H l).chainDb.getBlock k n = some b) : b ∈ l ∧ b.hash H = k ∧ b.number = n := by
  rw [holding, BlockChain.updateDb_chainDb] at h
  induction l
  case nil => cases h
  case cons a l hi =>
    rw [List.foldr_cons, ChainDb.getBlock_addBlock] at h
    split at h
    case isTrue he =>
      cases h
      exact ⟨List.mem_cons_self, he.right.symm, he.left.symm⟩
    case isFalse =>
      obtain ⟨hm, hk⟩ := hi h
      exact ⟨List.mem_cons_of_mem a hm, hk⟩

theorem holding_holds (hb : ∀ b ∈ l, (holding H l).chainDb.getBlock (b.hash H) b.number = some b)
    (hn : ∀ b ∈ l, (holding H l).chainDb.getBlockNumber (b.hash H) = b.number)
    (hg : ∀ b ∈ l, b.hash H ≠ genesis.parentHash) : (holding H l).Holds H genesis l where
  blocks  := hb
  numbers := hn
  sound   := fun h => (getBlock_holding h).right
  root    := by
    intro n
    cases h : (holding H l).chainDb.getBlock genesis.parentHash n
    case none => rfl
    case some b =>
      obtain ⟨hm, hk, -⟩ := getBlock_holding h
      exact absurd hk (hg b hm)

def sampleValidator : Validator where
  config   := ⟨none, none, false, none, Hash.zero⟩
  verify   := fun _ => true
  now      := 10
  hasState := fun _ => true

theorem sampleNephew_accepted : Accepted HeaderChain.sampleHashes sampleRoot
    [sampleNephew, sampleNephewParent, sampleRoot] :=
  .accept sampleValidator (holding HeaderChain.sampleHashes [sampleNephewParent, sampleRoot])
    (.accept sampleValidator (holding HeaderChain.sampleHashes [sampleRoot]) .genesis
      (holding_holds (by decide +kernel) (by decide +kernel) (by decide +kernel))
      (by decide +kernel) (by decide +kernel))
    (holding_holds (by decide +kernel) (by decide +kernel) (by decide +kernel))
    (by decide +kernel) (by decide +kernel)

theorem sampleNephew_once : 0 < uncleReward sampleNephew.header sampleUncle ∧
    uncleReward sampleNephew.header sampleUncle ≤ 7 * blockReward / 8 := by
  have hj : Set.InjOn HeaderChain.sampleHashes.header
      {h | h ∈ headers [sampleNephew, sampleNephewParent, sampleRoot]} := by
    have h : ∀ a ∈ headers [sampleNephew, sampleNephewParent, sampleRoot],
        ∀ b ∈ headers [sampleNephew, sampleNephewParent, sampleRoot],
        HeaderChain.sampleHashes.header a = HeaderChain.sampleHashes.header b → a = b := by
      decide +kernel
    exact fun a ha b hb => h a ha b hb
  have hf : Acyclic HeaderChain.sampleHashes [sampleNephew, sampleNephewParent, sampleRoot] := by
    unfold Acyclic
    decide +kernel
  obtain ⟨-, h⟩ := sampleNephew_accepted.uncles_once hj hf rfl
  obtain ⟨-, -, -, -, hr, -, hr'⟩ := h _ _ (List.suffix_refl _) sampleUncle List.mem_cons_self
  exact ⟨hr, hr'⟩

end Accepted

end Core
