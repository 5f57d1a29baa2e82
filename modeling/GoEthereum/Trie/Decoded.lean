import GoEthereum.Trie.Wire

-- What `decodeNode` accepts.

namespace Trie

open Common

namespace Node

variable {κ : Type}

-- The hashes and the leaves of a node and of the nodes that are embedded in it.
def hashes : Node κ → List Hash
  | nil         => []
  | value _     => []
  | hash h      => [h]
  | short _ n _ => n.hashes
  | full cs _   => (List.finRange 17).flatMap fun i => (cs i).hashes

def leaves : Node κ → List Bytes
  | nil         => []
  | value v     => [v]
  | hash _      => []
  | short _ n _ => n.leaves
  | full cs _   => (List.finRange 17).flatMap fun i => (cs i).leaves

def isNode : Node κ → Bool
  | short _ _ _ => true
  | full _ _    => true
  | _           => false

-- A node that was decoded from fewer bytes than a hash has.
structure Small (n : Node κ) : Prop where
  hashes : n.hashes = []
  leaves : ∀ v ∈ n.leaves, v.length < 32

theorem Small.nil : Small (nil : Node κ) :=
  ⟨rfl, by simp [Node.leaves]⟩

theorem Small.value {v : Bytes} (h : v.length < 32) : Small (value v : Node κ) :=
  ⟨rfl, by simpa [Node.leaves] using h⟩

theorem Small.full {cs : Nibble → Node κ} (flags : NodeFlag) (h : ∀ i, Small (cs i)) :
    Small (full cs flags) where
  hashes := by
    rw [Node.hashes, List.flatMap_eq_nil_iff]
    exact fun i _ => (h i).hashes
  leaves := by
    intro v hv
    rw [Node.leaves, List.mem_flatMap] at hv
    obtain ⟨i, _, hv⟩ := hv
    exact (h i).leaves v hv

-- What can stand in a full node at one of the first sixteen places, or in a short node in the place
-- of a leaf.
def Ref (n : Node κ) : Prop :=
  n = nil ∨ (∃ h, n = hash h) ∨ n.isNode = true ∧ Small n

end Node

section

open Rlp

variable {gen : UInt16}

theorem Parses.isNode {hash : Option Hash} {elems : Bytes} {n : Node Key}
    (h : Parses gen hash elems n) : n.isNode = true := by
  cases h <;> rfl

mutual

theorem Parses.small : ∀ {hash : Option Hash} {elems : Bytes} {n : Node Key},
    Parses gen hash elems n → elems.length < 32 → n.Small
  | _, _, _, .leaf _ _ _ _ _ _, hl => by
    simp only [List.length_append] at hl
    refine ⟨rfl, fun v hv => ?_⟩
    obtain rfl := List.mem_singleton.mp hv
    omega
  | _, _, _, .extension _ _ _ _ hp, hl => by
    have h := hp.small (by rw [List.length_append] at hl; omega)
    exact ⟨h.hashes, h.leaves⟩
  | _, _, _, .branch hp _ _ ht, hl => by
    simp only [List.length_append] at hl
    refine .full _ fun i => Fin.lastCases ?_ (fun j => (hp j).small ?_) i
    · rw [show Fin.last 16 = terminator from rfl, ht, valueSlot]
      split_ifs
      · exact .value (by omega)
      · exact .nil
    · refine lt_of_le_of_lt (List.sublist_flatten_of_mem (List.mem_ofFn.mpr ⟨j, rfl⟩)).length_le ?_
      omega

theorem ParsesRef.small : ∀ {v : Bytes} {n : Node Key}, ParsesRef gen v n → v.length < 32 → n.Small
  | _, _, .nil, _            => .nil
  | _, _, .hash h, hl        => by
    rw [List.length_cons, h.bytes_length] at hl
    omega
  | _, _, .embedded hf _ hp, hl => hp.small (hf.content_lt.trans hl)

end

theorem ParsesRef.ref {v : Bytes} {n : Node Key} (h : ParsesRef gen v n) : n.Ref := by
  cases h
  case nil               => exact .inl rfl
  case hash h            => exact .inr (.inl ⟨h, rfl⟩)
  case embedded hf hl hp => exact .inr (.inr ⟨hp.isNode, hp.small (hf.content_lt.trans_le hl)⟩)

end

-- A decoded node has a value at most in one place, and what is embedded in it is small.
inductive WellFormed : Node Key → Prop
  | short {key : Key} {m : Node Key} {flags : NodeFlag} (h : (∃ v, m = .value v) ∨ m.Ref) :
      WellFormed (.short key m flags)
  | full {cs : Nibble → Node Key} {flags : NodeFlag} (h : ∀ i, i ≠ terminator → (cs i).Ref)
      (hv : cs terminator = .nil ∨ ∃ v, cs terminator = .value v) : WellFormed (.full cs flags)

theorem decodeNode_wellFormed {hash : Option Hash} {buf : Bytes} {gen : UInt16} {n : Node Key}
    (h : decodeNode hash buf gen = .ok n) : WellFormed n := by
  obtain ⟨head, elems, rest, -, -, hp⟩ := decodeNode_eq_ok_iff.mp h
  cases hp
  case leaf                    => exact .short (.inl ⟨_, rfl⟩)
  case extension hp            => exact .short (.inr hp.ref)
  case branch hp hf hk ht =>
    refine .full (fun i hi => ?_) ?_
    · obtain ⟨j, rfl⟩ := Fin.exists_castSucc_eq.mpr hi
      exact (hp j).ref
    · rw [ht, valueSlot]
      split_ifs
      · exact .inr ⟨_, rfl⟩
      · exact .inl rfl

end Trie
