import GoEthereum.Common

-- The node table of the discovery protocol.

namespace P2p

open Common

-- `discover.Node`, with the hash of the identity that distances are taken of.
structure Node where
  id  : { b : Bytes // b.length = 64 }
  sha : Hash
  deriving DecidableEq

-- The buckets with their entries. A node is in the table once.
structure Table where
  self    : Node
  buckets : List (List Node)
  nodup   : (buckets.flatten.map Node.id).Nodup

namespace Table

def nodes (tab : Table) : List Node :=
  tab.buckets.flatten

theorem nodes_nodup (tab : Table) : tab.nodes.Nodup :=
  tab.nodup.of_map

def randUint (draw max : Nat) : Nat :=
  if max = 0 then 0 else draw % max

def swap (buckets : List (List Node)) (i j : Nat) : Option (List (List Node)) := do
  let b ← buckets[i]?
  let b' ← buckets[j]?
  return (buckets.set i b').set j b

-- The loop that swaps the bucket at `i` with one before it, down to the one at 1. `draws` are the
-- numbers that are read from the random source.
def shuffle (draws : Nat → Nat) : Nat → List (List Node) → Option (List (List Node))
  | 0,     buckets => some buckets
  | i + 1, buckets => do
    shuffle draws i (← swap buckets (i + 1) (randUint (draws (i + 1)) (i + 1)))

-- The head of the bucket at `j` is removed, and the bucket if it becomes empty.
def behead (buckets : List (List Node)) (j : Nat) (b : List Node) : List (List Node) :=
  if b.length = 1 then buckets.eraseIdx j else buckets.set j b.tail

-- The loop that moves the heads of the buckets to the slots of `buf` from `i` on. An index that is
-- out of range is `none`.
def fill : List (Option Node) → List (List Node) → Nat → Nat → Option (List (Option Node) × Nat)
  | [],       _,       i, _ => some ([], i + 1)
  | _ :: buf, buckets, i, j => do
    let b ← buckets[j]?
    let n ← b[0]?
    let buckets := behead buckets j b
    if buckets.length = 0 then
      return (some n :: buf, i + 1)
    let (buf, count) ← fill buf buckets (i + 1) ((j + 1) % buckets.length)
    return (some n :: buf, count)

def nonEmpty (tab : Table) : List (List Node) :=
  tab.buckets.filter (0 < ·.length)

def readRandomNodes (tab : Table) (draws : Nat → Nat) (buf : List (Option Node)) :
    Option (List (Option Node) × Nat) := do
  if tab.nonEmpty.length = 0 then
    return (buf, 0)
  fill buf (← shuffle draws (tab.nonEmpty.length - 1) tab.nonEmpty) 0 0

theorem flatten_nonEmpty (tab : Table) : tab.nonEmpty.flatten = tab.nodes := by
  simpa [nonEmpty, nodes, List.length_pos_iff] using List.flatten_filter_ne_nil (L := tab.buckets)

variable {buckets : List (List Node)}

theorem swap_perm {i j : Nat} (hi : i < buckets.length) (hj : j < buckets.length) :
    ∃ buckets', swap buckets i j = some buckets' ∧ buckets'.Perm buckets := by
  refine ⟨(buckets.set i buckets[j]).set j buckets[i], ?_, List.set_set_perm hi hj⟩
  simp [swap, hi, hj]

theorem shuffle_perm (draws : Nat → Nat) {i : Nat} (hi : i < buckets.length) :
    ∃ buckets', shuffle draws i buckets = some buckets' ∧ buckets'.Perm buckets := by
  induction i generalizing buckets
  case zero => exact ⟨buckets, rfl, List.Perm.refl _⟩
  case succ i hr =>
    have hj : randUint (draws (i + 1)) (i + 1) < i + 1 := Nat.mod_lt _ i.succ_pos
    obtain ⟨swapped, hs, hp⟩ := swap_perm hi (hj.trans hi)
    obtain ⟨shuffled, hs', hp'⟩ := hr (show i < swapped.length by rw [hp.length_eq]; omega)
    exact ⟨shuffled, by rw [shuffle, hs]; exact hs', hp'.trans hp⟩

section

variable {j : Nat} {n : Node} {b : List Node}

theorem behead_perm (hj : buckets[j]? = some (n :: b)) :
    (n :: (behead buckets j (n :: b)).flatten).Perm buckets.flatten := by
  obtain ⟨hlt, hj⟩ := List.getElem?_eq_some_iff.mp hj
  have hb : buckets = buckets.take j ++ (n :: b) :: buckets.drop (j + 1) := by
    rw [← hj, List.getElem_cons_drop, List.take_append_drop]
  have hs : (behead buckets j (n :: b)).flatten =
      (buckets.take j).flatten ++ (b ++ (buckets.drop (j + 1)).flatten) := by
    rw [behead]
    split
    case isTrue h =>
      have hb : b = [] := by simpa using h
      simp [List.eraseIdx_eq_take_drop_succ, hb]
    case isFalse => simp [List.set_eq_take_append_cons_drop, hlt]
  rw [hs]
  conv_rhs => rw [hb]
  simpa using List.perm_middle.symm

theorem ne_nil_of_mem_behead (hne : ∀ b ∈ buckets, b ≠ []) :
    ∀ c ∈ behead buckets j (n :: b), c ≠ [] := by
  intro c hc
  rw [behead] at hc
  split at hc
  case isTrue => exact hne c (List.mem_of_mem_eraseIdx hc)
  case isFalse h =>
    rcases List.mem_or_eq_of_mem_set hc with hc | rfl
    · exact hne c hc
    · simpa using h

end

-- The heads are taken until the buffer is full or the buckets are empty. In the first case the
-- count is one too many.
theorem fill_spec (buf : List (Option Node)) {i j : Nat} (hne : ∀ b ∈ buckets, b ≠ [])
    (hj : j < buckets.length) :
    ∃ read : List Node, read.length = min buf.length buckets.flatten.length ∧
      read.Subperm buckets.flatten ∧
      fill buf buckets i j = some (read.map some ++ buf.drop read.length,
        i + read.length + if buckets.flatten.length ≤ buf.length then 0 else 1) := by
  induction buf generalizing buckets i j
  case nil =>
    have hpos : ¬ buckets.flatten.length ≤ 0 := by
      rw [Nat.le_zero, List.length_eq_zero_iff, List.flatten_eq_nil_iff]
      exact fun h => hne _ (List.getElem_mem hj) (h _ (List.getElem_mem hj))
    exact ⟨[], by simp, List.nil_subperm, (if_neg hpos ▸ rfl)⟩
  case cons slot buf hi =>
    obtain ⟨n, b, hb⟩ := List.exists_cons_of_ne_nil (hne _ (List.getElem_mem hj))
    have hj' : buckets[j]? = some (n :: b) := by rw [List.getElem?_eq_getElem hj, hb]
    have hp := behead_perm hj'
    have hne' := ne_nil_of_mem_behead (j := j) (n := n) (b := b) hne
    rw [fill, hj']
    simp only [Option.bind_eq_bind, Option.bind_some, List.getElem?_cons_zero]
    have hl := hp.length_eq
    rw [List.length_cons] at hl
    split
    case isTrue h =>
      rw [List.eq_nil_of_length_eq_zero h] at hp hl
      have hl : buckets.flatten.length = 1 := hl.symm
      exact ⟨[n], by simp [hl], hp.subperm, by simp [hl]⟩
    case isFalse h =>
      obtain ⟨read, hr, hs, hf⟩ := hi (i := i + 1) hne' (Nat.mod_lt (j + 1) (by omega))
      refine ⟨n :: read, by simp only [List.length_cons]; omega,
        ((List.subperm_cons n).mpr hs).trans hp.subperm, ?_⟩
      rw [hf, ← hl]
      simp only [Option.bind_some, List.length_cons, add_le_add_iff_right, add_right_comm i 1,
        add_assoc]
      rfl

-- Distinct nodes of the table are in the first slots of the buffer, as many as there can be, and
-- their number is returned.
def Reads (tab : Table) (buf : List (Option Node)) (r : Option (List (Option Node) × Nat)) : Prop :=
  ∃ (buf' : List (Option Node)) (read : List Node), r = some (buf', read.length) ∧
    read.length = min buf.length tab.nodes.length ∧
    buf'.take read.length = read.map some ∧ read.Nodup ∧ ∀ n ∈ read, n ∈ tab.nodes

-- The loop has two exits. Where the buffer is full first, `i` is its length already.
theorem reads_readRandomNodes_iff (tab : Table) (draws : Nat → Nat) (buf : List (Option Node)) :
    Reads tab buf (tab.readRandomNodes draws buf) ↔ tab.nodes.length ≤ buf.length := by
  have hflat := tab.flatten_nonEmpty
  rw [readRandomNodes]
  split
  case isTrue h =>
    rw [List.eq_nil_of_length_eq_zero h] at hflat
    exact iff_of_true ⟨buf, [], rfl, by simp [← hflat], by simp⟩ (by simp [← hflat])
  case isFalse h =>
    obtain ⟨shuffled, hs, hp⟩ := shuffle_perm draws (Nat.sub_one_lt h)
    have hne : ∀ b ∈ shuffled, b ≠ [] := by
      intro b hb
      simpa [List.length_pos_iff] using (List.mem_filter.mp (hp.subset hb)).right
    obtain ⟨read, hr, hsub, hf⟩ := fill_spec buf (i := 0) (j := 0) hne
      (by rw [hp.length_eq]; omega)
    have hp := hp.flatten
    rw [hflat] at hp
    rw [hp.length_eq] at hr hf
    have hsub := hsub.trans hp.subperm
    rw [hs, Option.bind_eq_bind, Option.bind_some, hf]
    constructor
    case mp =>
      rintro ⟨buf', read', he, hr', -⟩
      by_contra hk
      rw [if_neg hk] at he
      have := congrArg Prod.snd (Option.some.inj he)
      omega
    case mpr =>
      intro hk
      rw [if_pos hk, zero_add]
      obtain ⟨l, hl, hs⟩ := hsub
      exact ⟨_, read, rfl, hr, by simp, hl.nodup_iff.mp (hs.nodup tab.nodes_nodup),
        fun n hn => hs.subset (hl.symm.subset hn)⟩

def sampleNode (c : UInt8) : Node :=
  ⟨⟨List.replicate 64 c, List.length_replicate⟩, Hash.zero⟩

theorem sampleNodes_nodup : ([[sampleNode 0, sampleNode 1]].flatten.map Node.id).Nodup := by
  decide

def sampleTable : Table where
  self    := sampleNode 2
  buckets := [[sampleNode 0, sampleNode 1]]
  nodup   := sampleNodes_nodup

theorem readRandomNodes_counts_past_buffer :
    sampleTable.readRandomNodes id [none] = some ([some (sampleNode 0)], 2) ∧
      ¬ Reads sampleTable [none] (sampleTable.readRandomNodes id [none]) := by
  refine ⟨by rfl, ?_⟩
  rintro ⟨buf, read, h, hr, -⟩
  have hr' : 2 = read.length := congrArg Prod.snd (Option.some.inj h)
  rw [← hr'] at hr
  contradiction

end Table

end P2p
