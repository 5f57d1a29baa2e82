import GoEthereum.Trie.Simulation

-- What the methods of a trie do if its database is missing some of its nodes.

namespace Trie

open Common Merkle

def Database.Part (D W : Database) : Prop :=
  ∀ b, D b = none ∨ D b = W b

def nodeHashes (keccak : Bytes → Hash) : Tree → List Hash
  | .nil       => []
  | .value _   => []
  | .short k t => keccak (enc keccak (.short k t)) :: nodeHashes keccak t
  | .full cs   => keccak (enc keccak (.full cs)) ::
      (List.finRange 17).flatMap fun i => nodeHashes keccak (cs i)

-- What a call that does `x` on the whole database does on a part of it: the same, or it stops at one
-- of the nodes `N`, which is not there. It panics if `P`, and only then.
inductive Falls {α : Type} (D W : Database) (N : List Hash) (P : Prop) (x : Go MissingNodeError α) :
    Go MissingNodeError α → Prop
  | same : ¬P → Falls D W N P x x
  | missing {e : MissingNodeError} : ¬P →
    D e.nodeHash.bytes = none → W e.nodeHash.bytes ≠ none → e.nodeHash ∈ N →
    Falls D W N P x (Go.fail e)
  | panic : P → Falls D W N P x Go.panics

namespace Falls

variable {α β : Type} {D W : Database} {N N' : List Hash} {P Q : Prop} {x y : Go MissingNodeError α}

section

variable (h : Falls D W N P x y)
include h

theorem bind {f g : α → Go MissingNodeError β}
    (hf : ¬P → ∀ a, x = .ok a → y = .ok a → Falls D W N P (f a) (g a)) :
    Falls D W N P (x >>= f) (y >>= g) := by
  cases h
  case same hp =>
    cases hx : x
    case error e => exact .same hp
    case ok a    => exact hf hp a hx hx
  case missing hp h₁ h₂ h₃ => exact .missing hp h₁ h₂ h₃
  case panic h             => exact .panic h

theorem andThen (f : α → Go MissingNodeError β) :
    Falls D W N P (x >>= f) (y >>= f) :=
  h.bind fun hp _ _ _ => .same hp

theorem mono (hN : N ⊆ N') (hP : P ↔ Q) : Falls D W N' Q x y := by
  cases h
  case same hp             => exact .same (mt hP.mpr hp)
  case missing hp h₁ h₂ h₃ => exact .missing (mt hP.mpr hp) h₁ h₂ (hN h₃)
  case panic h             => exact .panic (hP.mp h)

theorem panics (hp : P) : y = Go.panics := by
  cases h
  case same hn          => exact absurd hp hn
  case missing hn _ _ _ => exact absurd hp hn
  case panic            => rfl

end

theorem of_fail {a : α} {e : MissingNodeError} (h : Falls D W N P (.ok a) (Go.fail e)) :
    D e.nodeHash.bytes = none ∧ W e.nodeHash.bytes ≠ none ∧ e.nodeHash ∈ N := by
  generalize hy : (Go.fail e : Go MissingNodeError α) = y at h
  cases h
  case same                => simp [Go.fail] at hy
  case panic               => simp [Go.fail, Go.panics] at hy
  case missing _ h₁ h₂ h₃  =>
    obtain rfl : e = _ := by simpa [Go.fail] using hy
    exact ⟨h₁, h₂, h₃⟩

theorem of_panics {a : α} (h : Falls D W N P (.ok a) Go.panics) : P := by
  generalize hy : (Go.panics : Go MissingNodeError α) = y at h
  cases h
  case same    => simp [Go.panics] at hy
  case missing => simp [Go.fail, Go.panics] at hy
  case panic h => exact h

theorem of_ok {a b : α} (h : Falls D W N P (.ok a) (.ok b)) : a = b := by
  generalize hy : (.ok b : Go MissingNodeError α) = y at h
  cases h
  case same    => exact (Except.ok.inj hy).symm
  case missing => simp [Go.fail] at hy
  case panic   => simp [Go.panics] at hy

end Falls

section

variable {keccak : Bytes → Hash} {D W : Database} {S : Set Bytes} {p k : Key} {t : Tree} {r : Bool}
variable {n : Node Key} {P : Prop} (tr : Trie)

theorem mem_nodeHashes (hn : t.isNode = true) : keccak (enc keccak t) ∈ nodeHashes keccak t := by
  cases t <;> simp [Patricia.Tree.isNode] at hn <;> simp [nodeHashes]

theorem nodeHashes_short_subset : nodeHashes keccak t ⊆ nodeHashes keccak (.short k t) := by
  exact List.subset_cons_self ..

theorem nodeHashes_full_subset (ts : Nibble → Tree) (i : Nibble) :
    nodeHashes keccak (ts i) ⊆ nodeHashes keccak (.full ts) := by
  intro h hh
  exact List.mem_cons_of_mem _ <| List.mem_flatMap.mpr ⟨i, by simp, hh⟩

theorem compactHexEncode_isSome (hk : k ∈ hexKeys) : ∃ b, compactHexEncode k = some b := by
  obtain ⟨b, -, rfl⟩ := hk
  exact ⟨compactHexEncode.go (nibbles b), by simp [compactHexEncode, compactHexDecode]⟩

variable {h : Hash}

theorem Rep.hash_mem (hr : Rep keccak W S r (.hash h) t) :
    W h.bytes ≠ none ∧ h ∈ nodeHashes keccak t := by
  cases hr
  case hash hn hw hh => exact ⟨by simp [hh.eq, hw.self.right], hh.eq ▸ mem_nodeHashes hn⟩

theorem resolveHash_part (hD : D.Part W) (hd : D h.bytes ≠ none) (pre suffix : Key) :
    tr.resolveHash D h pre suffix = tr.resolveHash W h pre suffix := by
  simp only [Trie.resolveHash, (hD h.bytes).resolve_left hd]

theorem resolveHash_falls (hD : D.Part W) (hr : Rep keccak W S r (.hash h) t) (pre suffix : Key) :
    Falls D W (nodeHashes keccak t) (D h.bytes = none ∧ compactHexEncode (pre ++ suffix) = none)
      (tr.resolveHash W h pre suffix) (tr.resolveHash D h pre suffix) := by
  obtain ⟨hw, hN⟩ := hr.hash_mem
  by_cases hnone : D h.bytes = none
  case pos =>
    rw [Trie.resolveHash.eq_def tr D]
    simp only [hnone]
    cases hc : compactHexEncode (pre ++ suffix)
    case none     => exact .panic ⟨trivial, rfl⟩
    case some key => exact .missing (by simp) hnone hw hN
  case neg =>
    rw [resolveHash_part tr hD hnone]
    exact .same fun h => hnone h.left

-- A node on the way to a key is loaded. The key has an encoding, so that this cannot panic.
theorem hash_falls {α : Type} {f g : Node Key → Go MissingNodeError α} (hD : D.Part W)
    (ht : Wf p t) (hr : Rep keccak W S r (.hash h) t) (hk : p ++ k ∈ hexKeys)
    (hP : D h.bytes = none → ¬P)
    (hf : ∀ c, Rep keccak W S r c t → c.isHash = false → tr.resolveHash D h p k = .ok c →
      Falls D W (nodeHashes keccak t) P (f c) (g c)) :
    Falls D W (nodeHashes keccak t) P (tr.resolveHash W h p k >>= f) (tr.resolveHash D h p k >>= g) := by
  obtain ⟨c, hres, hrc, hnh⟩ := resolveHash_spec tr ht hr p k
  obtain ⟨hw, hN⟩ := hr.hash_mem
  by_cases hnone : D h.bytes = none
  case pos =>
    obtain ⟨key, hkey⟩ := compactHexEncode_isSome hk
    rw [Trie.resolveHash.eq_def tr D]
    simp only [hnone, hkey]
    exact .missing (hP hnone) hnone hw hN
  case neg =>
    have he := (resolveHash_part tr hD hnone p k).trans hres
    rw [he, hres]
    exact hf c hrc hnh he

variable {keccak : Bytes → Hash} {D W : Database} {S : Set Bytes} {p k : Key} {t : Tree} {r : Bool}
theorem tryGetNode_falls {fuel : Nat} (hD : D.Part W) (ht : Wf p t) (hr : Rep keccak W S r n t)
    (hk : p ++ k ∈ hexKeys) :
    Falls D W (nodeHashes keccak t) False (tr.tryGetNode W (p ++ k) fuel n p.length)
      (tr.tryGetNode D (p ++ k) fuel n p.length) := by
  induction fuel generalizing p t r n k
  case zero => exact .same id
  case succ fuel hi =>
    cases hr
    case nil   => exact .same id
    case value => exact .same id
    case short k₀ c flags t hr hc =>
      simp only [Trie.tryGetNode]
      split_ifs with hcond
      · exact .same id
      · push Not at hcond
        obtain ⟨l, rfl⟩ : k₀ <+: k := List.prefix_iff_eq_take.mpr (by simpa using hcond.right)
        have := hi (k := l) ht.of_short hr (by simpa using hk)
        rw [List.append_assoc, List.length_append] at this
        exact (this.mono nodeHashes_short_subset Iff.rfl).andThen _
    case full cs flags ts hrs hc =>
      simp only [Trie.tryGetNode]
      cases k
      case nil => simpa [Patricia.Tree.isNode] using ht.isNode_of_mem (by simpa using hk)
      case cons a l =>
        have := hi (k := l) (ht.of_full a) (hrs a) (by simpa using hk)
        rw [List.append_assoc, List.length_append] at this
        have hpos : (p ++ a :: l)[p.length]? = some a := by simp
        simp only [hpos]
        exact (this.mono (nodeHashes_full_subset ts a) Iff.rfl).andThen _
    case hash h hn hw hh =>
      simp only [Trie.tryGetNode, List.take_left, List.drop_left]
      exact hash_falls tr hD ht (.hash hn hh hw) hk (fun _ => id) fun c hr _ _ => (hi ht hr hk).andThen _

variable {keccak : Bytes → Hash} {D W : Database} {S : Set Bytes} {p k : Key} {t : Tree} {r : Bool}
theorem insert_nil_eq (fuel : Nat) (pre k : Key) (n : Node Key) :
    tr.insert D fuel .nil pre k n = tr.insert W fuel .nil pre k n := by
  cases fuel
  case zero => rfl
  case succ => cases k <;> rfl

theorem insert_falls {fuel : Nat} (hD : D.Part W) (ht : Wf p t) (hr : Rep keccak W S r n t)
    (hk : p ++ k ∈ hexKeys) (v : Node Key) :
    Falls D W (nodeHashes keccak t) False (tr.insert W fuel n p k v) (tr.insert D fuel n p k v) := by
  induction fuel generalizing p t r n k
  case zero => exact .same id
  case succ fuel hi =>
    cases k
    case nil => exact .same id
    case cons a as =>
      cases hr
      case nil   => exact .same id
      case value => exact .same id
      case short k₀ c flags t hr hc =>
        rcases Patricia.append_or_branch (a :: as) k₀ with ⟨l, hl⟩ | ⟨b, bs, rfl⟩ | ⟨q, b, bs, d, l, rfl, hl, h⟩
        · have := hi (k := l) ht.of_short hr (by rwa [List.append_assoc, ← hl])
          rw [hl, insert_short_append tr ht.reduced.left, insert_short_append tr ht.reduced.left]
          exact (this.mono nodeHashes_short_subset Iff.rfl).andThen _
        · exact absurd hk (ht.reduced.not_prefix_key (hexKeys_prefixFree.suffixes p) ht.within)
        · -- The short node is split in memory.
          have hm : prefixLen (a :: as) (q ++ b :: bs) ≠ (q ++ b :: bs).length := by
            rw [hl, prefixLen, Patricia.prefixLen_branch h]
            simp
          simp only [Trie.insert, insert_nil_eq (D := D) (W := W)]
          rw [if_neg hm, if_neg hm]
          exact .same id
      case full cs flags ts hrs hc =>
        exact ((hi (ht.of_full a) (hrs a) (by simpa using hk)).mono (nodeHashes_full_subset ts a)
          Iff.rfl).andThen _
      case hash h hn hw hh =>
        exact hash_falls tr hD ht (.hash hn hh hw) hk (fun _ => id) fun c hr _ _ =>
          (hi ht hr hk).andThen _

end

section

variable (tr : Trie) (D : Database)

-- The node that a child stands for, if it is loaded or in the database.
def peek (n : Node Key) : Option (Node Key) :=
  (tr.resolve D n [] []).toOption

def holdsOnly (key : Key) : Node Key → Bool
  | .value _     => key = []
  | .short k _ _ => k = key
  | _            => false

-- A single child that is not loaded. The full node is merged with what it turns out to be.
def loneRef (cs : Nibble → Node Key) : Option (Nibble × Hash) :=
  match singleChild cs with
  | none     => none
  | some pos =>
    match cs pos with
    | .hash h => if pos = terminator then none else some (pos, h)
    | _       => none

-- The reference that the deletion of a key has to follow to merge a full node with its last child,
-- and where the node is.
def lastChild : Nat → Node Key → Key → Key → Option (Key × Hash)
  | 0, _, _, _ => none
  | fuel + 1, n, pre, key =>
    match tr.peek D n, key with
    | some (.short k val _), key =>
      if k <+: key then lastChild fuel val (pre ++ k) (key.drop k.length) else none
    | some (.full cs _), a :: as =>
      if (tr.peek D (cs a)).any (holdsOnly as) then
        (loneRef (Function.update cs a .nil)).map fun (pos, h) => (pre ++ [pos], h)
      else
        lastChild fuel (cs a) (pre ++ [a]) as
    | _, _ => none

-- The reference leads to a node that is not there, in an odd depth.
def Stuck (fuel : Nat) (n : Node Key) (pre key : Key) : Prop :=
  ∃ l h, tr.lastChild D fuel n pre key = some (l, h) ∧ D h.bytes = none ∧ l.length % 2 = 1

variable {tr D} {keccak : Bytes → Hash} {W : Database} {S : Set Bytes} {p k : Key} {t : Tree} {r : Bool}
variable {n : Node Key}

theorem peek_of_not_isHash (hn : n.isHash = false) : tr.peek D n = some n := by
  cases n <;> first | rfl | simp [Node.isHash] at hn

variable {h : Hash} {c : Node Key} {fuel : Nat} {cs : Nibble → Node Key} {pre : Key}
  {flags : NodeFlag}

theorem peek_hash {pre suffix : Key}
    (hres : tr.resolveHash D h pre suffix = .ok c) : tr.peek D (.hash h) = some c := by
  unfold Trie.resolveHash at hres
  simp only [peek, Trie.resolve, Trie.resolveHash]
  cases hD : D h.bytes
  case none =>
    simp only [hD] at hres
    split at hres <;> simp [Go.panics, Go.fail] at hres
  case some e =>
    simp only [hD] at hres
    simp [hres, Except.toOption]

theorem resolveHash_of_peek (hp : tr.peek D (.hash h) = some c)
    (pre suffix : Key) : tr.resolveHash D h pre suffix = .ok c := by
  simp only [peek, Trie.resolve, Trie.resolveHash] at hp ⊢
  cases hD : D h.bytes
  case none => simp [hD, Except.toOption, compactHexEncode, Go.fail] at hp
  case some e =>
    simp only [hD] at hp ⊢
    cases hm : (mustDecodeNode h e tr.cachegen : Go MissingNodeError _) <;> simp [hm, Except.toOption] at hp ⊢
    exact hp

theorem Rep.peek (hD : D.Part W) (ht : Wf p t) (hr : Rep keccak W S r n t)
    (hp : tr.peek D n = some c) : Rep keccak W S r c t ∧ c.isHash = false := by
  cases hn : n.isHash
  case false =>
    obtain rfl : n = c := by simpa [peek_of_not_isHash hn] using hp
    exact ⟨hr, hn⟩
  case true =>
    cases n <;> simp [Node.isHash] at hn
    case hash h =>
      have hres := resolveHash_of_peek hp [] []
      obtain ⟨c', hres', hr', hnh⟩ := resolveHash_spec tr ht hr [] []
      have hsome : D h.bytes ≠ none := by
        intro hnone
        simp [Trie.resolveHash, hnone, compactHexEncode, Go.fail] at hres
      rw [resolveHash_part tr hD hsome] at hres
      obtain rfl : c' = c := Except.ok.inj (hres'.symm.trans hres)
      exact ⟨hr', hnh⟩

theorem lastChild_congr {m : Node Key} (h : tr.peek D n = tr.peek D m) (pre key : Key) :
    tr.lastChild D fuel n pre key = tr.lastChild D fuel m pre key := by
  cases fuel <;> simp only [lastChild, h]

theorem loneRef_eq_some {pos : Nibble} :
    loneRef cs = some (pos, h) ↔
      singleChild cs = some pos ∧ cs pos = .hash h ∧ pos ≠ terminator := by
  unfold loneRef
  split
  case h_1 hs => simp [hs]
  case h_2 i hs =>
    simp only [hs, Option.some.injEq]
    split
    case h_1 g hg =>
      split_ifs with hi
      · constructor
        · simp
        · rintro ⟨rfl, _, hne⟩
          exact absurd hi hne
      · simp only [Option.some.injEq, Prod.mk.injEq]
        constructor
        · rintro ⟨rfl, rfl⟩
          exact ⟨rfl, hg, hi⟩
        · rintro ⟨rfl, hg', _⟩
          exact ⟨rfl, Node.hash.inj (hg.symm.trans hg')⟩
    case h_2 hno =>
      constructor
      · simp
      · rintro ⟨rfl, hg, _⟩
        exact absurd hg (hno h)

theorem compactHexEncode_concat {pos : Nibble} (hp : pos ≠ terminator) :
    compactHexEncode (pre ++ [pos]) = none ↔ (pre ++ [pos]).length % 2 = 1 := by
  simp only [compactHexEncode, List.getLast?_append, List.getLast?_singleton, Option.some_or,
    Option.some.injEq, hp, if_false]
  split_ifs with h <;> simp <;> simp at h <;> omega

theorem reduceFull_falls (tr : Trie) {N : List Hash} (hD : D.Part W) {ts : Nibble → Tree}
    (hrs : ∀ i, Rep keccak W S false (cs i) (ts i))
    (hN : ∀ i, (cs i).isHash = true → nodeHashes keccak (ts i) ⊆ N) (pre : Key) :
    Falls D W N (∃ pos h, loneRef cs = some (pos, h) ∧ D h.bytes = none ∧ (pre ++ [pos]).length % 2 = 1)
      (tr.reduceFull W cs pre) (tr.reduceFull D cs pre) := by
  simp only [Trie.reduceFull]
  cases hl : loneRef cs
  case some r =>
    obtain ⟨pos, h⟩ := r
    obtain ⟨hs, hc, hp⟩ := loneRef_eq_some.mp hl
    have hN := hN pos (by simp [hc, Node.isHash])
    simp only [hs, hp, ne_eq, not_false_eq_true, if_true, hc]
    refine ((resolveHash_falls tr hD (hc ▸ hrs pos) pre [pos]).mono hN ?_).andThen _
    simp [compactHexEncode_concat hp]
  case none =>
    have hnot : ¬∃ pos h, (none : Option (Nibble × Hash)) = some (pos, h) ∧ D h.bytes = none ∧
        (pre ++ [pos]).length % 2 = 1 := by simp
    cases hs : singleChild cs
    case none => exact .same hnot
    case some pos =>
      by_cases hp : pos = terminator
      case pos =>
        simp only [hp, ne_eq, not_true_eq_false, if_false]
        exact .same hnot
      case neg =>
        simp only
        cases hc : cs pos
        case hash h => simp [loneRef_eq_some.mpr ⟨hs, hc, hp⟩] at hl
        all_goals exact .same hnot

theorem stuck_short {k₀ l pre : Key} :
    Stuck tr D (fuel + 1) (.short k₀ c flags) pre (k₀ ++ l) ↔ Stuck tr D fuel c (pre ++ k₀) l := by
  simp only [Stuck, lastChild, peek_of_not_isHash (n := .short k₀ c flags) rfl]
  simp

theorem delete_hash :
    tr.delete D (fuel + 1) (.hash h) pre k = (tr.resolveHash D h pre k >>= fun rn =>
      tr.delete D fuel rn pre k >>= fun (dirty, nn) =>
        if dirty then pure (true, nn) else pure (false, rn)) :=
  rfl

theorem delete_full {a : Nibble} {l pre : Key} :
    tr.delete D (fuel + 1) (.full cs flags) pre (a :: l) =
      (tr.delete D fuel (cs a) (pre ++ [a]) l >>= fun (dirty, nn) =>
        if dirty then tr.reduceFull D (Function.update cs a nn) pre >>= fun n => pure (true, n)
        else pure (false, .full cs flags)) :=
  rfl

theorem delete_short_append {k₀ l pre : Key} (hl : l ≠ []) :
    tr.delete D (fuel + 1) (.short k₀ c flags) pre (k₀ ++ l) =
      (tr.delete D fuel c (pre ++ k₀) l >>= fun (dirty, child) =>
        if dirty then
          match child with
          | .short k' val' _ => pure (true, .short (k₀ ++ k') val' tr.newFlag)
          | child            => pure (true, .short k₀ child tr.newFlag)
        else
          pure (false, .short k₀ c flags)) := by
  have hm : prefixLen (k₀ ++ l) k₀ = k₀.length := Patricia.prefixLen_append_left k₀ l
  have hne : k₀.length ≠ (k₀ ++ l).length := by simpa using hl
  simp only [Trie.delete, hm, lt_irrefl, if_false, if_neg hne, List.take_left, List.drop_left]
  all_goals rfl

theorem delete_short_self {k₀ pre : Key} :
    tr.delete D (fuel + 1) (.short k₀ c flags) pre k₀ = .ok (true, .nil) := by
  have hm : prefixLen (k₀ ++ []) k₀ = k₀.length := Patricia.prefixLen_append_left k₀ []
  rw [List.append_nil] at hm
  simp only [Trie.delete, hm, lt_irrefl, if_false, if_true]
  rfl

theorem exists_peek_of_delete {x : Bool × Node Key}
    (h : tr.delete D fuel n pre k = .ok x) : ∃ c, tr.peek D n = some c := by
  cases n
  case hash g =>
    cases fuel
    case zero => simp [Trie.delete, Go.panics] at h
    case succ =>
      rw [delete_hash, Go.bind_eq_ok] at h
      obtain ⟨c, hc, -⟩ := h
      exact ⟨c, peek_hash hc⟩
  all_goals exact ⟨_, rfl⟩

theorem holdsOnly_of_delete (ht : Wf p t) (hr : Rep keccak W S r n t) (hn : n.isHash = false)
    (hk : p ++ k ∈ hexKeys) (hnil : t ≠ .nil) (hdel : t.delete k = .nil) : holdsOnly k n = true := by
  rcases Patricia.Tree.delete_eq_nil hdel with rfl | ⟨v, rfl⟩ | ⟨t, rfl⟩
  · contradiction
  · obtain rfl := hr.eq_value
    simpa [holdsOnly] using eq_nil_of_mem ht.value hk
  · cases hr
    case short => simp [holdsOnly]
    case hash  => simp [Node.isHash] at hn

theorem delete_of_holdsOnly (h : (tr.peek D n).any (holdsOnly k) = true)
    (hf : need n k ≤ fuel) (pre : Key) : tr.delete D fuel n pre k = .ok (true, .nil) := by
  have hloaded {m : Node Key} (fuel : Nat) (hm : holdsOnly k m = true) :
      tr.delete D (fuel + 1) m pre k = .ok (true, .nil) := by
    cases m <;> simp [holdsOnly] at hm
    case value => rfl
    case short k₀ c flags =>
      subst hm
      exact delete_short_self
  cases hh : n.isHash
  case false =>
    simp only [need, hh] at hf
    obtain ⟨fuel, rfl⟩ : ∃ f, fuel = f + 1 := ⟨fuel - 1, by simp at hf; omega⟩
    exact hloaded fuel (by simpa [peek_of_not_isHash hh] using h)
  case true =>
    simp only [need, hh] at hf
    obtain ⟨fuel, rfl⟩ : ∃ f, fuel = f + 2 := ⟨fuel - 2, by simp at hf; omega⟩
    cases n <;> simp [Node.isHash] at hh
    case hash g =>
      cases hp : tr.peek D (.hash g)
      case none => simp [hp] at h
      case some c =>
        have hc := hloaded fuel (m := c) (by simpa [hp] using h)
        simp only [delete_hash, resolveHash_of_peek hp, hc, bind, Except.bind]
        rfl

theorem stuck_full {a : Nibble} {l pre : Key} :
    Stuck tr D (fuel + 1) (.full cs flags) pre (a :: l) ↔
      if (tr.peek D (cs a)).any (holdsOnly l) then
        ∃ pos h, loneRef (Function.update cs a .nil) = some (pos, h) ∧ D h.bytes = none ∧
          (pre ++ [pos]).length % 2 = 1
      else Stuck tr D fuel (cs a) (pre ++ [a]) l := by
  simp only [Stuck, lastChild, peek_of_not_isHash (n := .full cs flags) rfl]
  split_ifs with h
  · simp only [Option.map_eq_some_iff, Prod.exists, Prod.mk.injEq]
    constructor
    · rintro ⟨_, _, ⟨pos, h, hl, rfl, rfl⟩, hD, ho⟩
      exact ⟨pos, h, hl, hD, ho⟩
    · rintro ⟨pos, h, hl, hD, ho⟩
      exact ⟨_, _, ⟨pos, h, hl, rfl, rfl⟩, hD, ho⟩
  · rfl

theorem not_stuck_value {v : Bytes} : ¬Stuck tr D fuel (.value v) pre k := by
  cases fuel <;> simp [Stuck, lastChild, peek_of_not_isHash (n := .value v) rfl]

theorem not_stuck_leaf {v : Bytes} :
    ¬Stuck tr D fuel (.short k (.value v) flags) pre k := by
  intro hs
  cases fuel
  case zero => simp [Stuck, lastChild] at hs
  case succ fuel =>
    have hs : Stuck tr D (fuel + 1) (.short k (.value v) flags) pre (k ++ []) := by
      rwa [List.append_nil]
    exact not_stuck_value (stuck_short.mp hs)

theorem delete_falls {fuel fuel' : Nat} (hD : D.Part W) (ht : Wf p t) (hr : Rep keccak W S r n t)
    (hk : p ++ k ∈ hexKeys) (hf : need n k ≤ fuel) (hf' : k.length < fuel') :
    Falls D W (nodeHashes keccak t) (Stuck tr D fuel' n p k) (tr.delete W fuel n p k)
      (tr.delete D fuel n p k) := by
  induction fuel generalizing fuel' p t r n k
  case zero => exact absurd hf need_ne_zero
  case succ fuel hi =>
    obtain ⟨fuel', rfl⟩ : ∃ f, fuel' = f + 1 := ⟨fuel' - 1, by omega⟩
    cases hr
    case nil   => exact .same (by simp [Stuck, lastChild, peek_of_not_isHash (n := .nil) rfl])
    case value => exact .same not_stuck_value
    case short k₀ c flags t hr hc =>
      have hpos := List.length_pos_iff.mpr ht.reduced.left
      rcases Patricia.append_or_branch k k₀ with ⟨l, rfl⟩ | ⟨b, bs, rfl⟩ | ⟨q, b, bs, d, l, rfl, rfl, h⟩
      · by_cases hl : l = []
        · subst hl
          rw [List.append_nil] at hk ⊢
          rw [delete_short_self, delete_short_self]
          obtain ⟨v, rfl⟩ := ht.of_short.eq_value hk ht.reduced.right.left
          obtain rfl := hr.eq_value
          exact .same not_stuck_leaf
        · rw [delete_short_append hl, delete_short_append hl, stuck_short]
          have := hi (k := l) ht.of_short hr (by rwa [List.append_assoc])
            (need_child hf (by simp; omega)) (show l.length < fuel' by simp at hf'; omega)
          exact (this.mono nodeHashes_short_subset Iff.rfl).andThen _
      · exact absurd hk (ht.reduced.not_prefix_key (hexKeys_prefixFree.suffixes p) ht.within)
      · have hm : prefixLen (q ++ d :: l) (q ++ b :: bs) = q.length := Patricia.prefixLen_branch h q bs l
        simp only [Trie.delete, hm]
        rw [if_pos (by simp), if_pos (by simp)]
        refine .same ?_
        simp [Stuck, lastChild, peek_of_not_isHash (n := .short (q ++ b :: bs) c flags) rfl, h.symm]
    case full cs flags ts hrs hc =>
      cases k
      case nil => simpa [Patricia.Tree.isNode] using ht.isNode_of_mem (by simpa using hk)
      case cons a l =>
        have hka : p ++ [a] ++ l ∈ hexKeys := by simpa using hk
        have hfa : need (cs a) l ≤ fuel := need_child hf (by simp)
        have hchild := hi (k := l) (ht.of_full a) (hrs a) hka hfa
          (show l.length < fuel' by simp at hf'; omega)
        obtain ⟨b, n', hdel, hr', -, hnh⟩ := delete_spec tr (k := l) (ht.of_full a) (hrs a) hka hfa (p ++ [a])
        have hreduce (htrue : b = true) := by
          refine reduceFull_falls tr (N := nodeHashes keccak (.full ts)) hD
            (Rep.update (a := a) hrs hr') (fun i hi => ?_) p
          by_cases hia : i = a
          · subst hia
            simp [hnh htrue] at hi
          · simpa [hia] using nodeHashes_full_subset ts i
        rw [delete_full, delete_full, stuck_full]
        split_ifs with honly
        case pos =>
          rw [delete_of_holdsOnly honly hfa] at hchild ⊢
          rw [hdel] at hchild ⊢
          cases hchild.of_ok
          exact (hreduce rfl).andThen _
        case neg =>
          refine (hchild.mono (nodeHashes_full_subset ts a) Iff.rfl).bind fun hstuck x hx hx' => ?_
          obtain rfl : (b, n') = x := Except.ok.inj (hdel.symm.trans hx)
          cases b
          case false => exact .same hstuck
          case true =>
            refine ((hreduce rfl).mono (List.Subset.refl _) (iff_of_false ?_ hstuck)).andThen _
            rintro ⟨pos, h, hl, -, -⟩
            obtain ⟨hs, hc, -⟩ := loneRef_eq_some.mp hl
            have hpos : pos ≠ a := by
              rintro rfl
              rw [Function.update_self] at hc
              simp [hc, Node.isHash] at hnh
            -- The child that the key led to is gone.
            obtain rfl : n' = .nil := by
              have := (singleChild_eq_some.mp hs a).not.mpr hpos.symm
              cases n' <;> first | rfl | simp [Node.isNil] at this
            obtain ⟨c, hpeek⟩ := exists_peek_of_delete hx'
            obtain ⟨hrc, hnh⟩ := (hrs a).peek hD (ht.of_full a) hpeek
            refine honly ?_
            rw [hpeek]
            refine holdsOnly_of_delete (ht.of_full a) hrc hnh hka (fun hn => ?_) (hr'.isNil_iff.mp rfl)
            have hra := hrs a
            rw [hn] at hra
            rw [hra.eq_nil] at hdel
            cases fuel <;> simp [Trie.delete, Go.panics, pure, Except.pure] at hdel
    case hash h hn hw hh =>
      refine hash_falls tr hD ht (.hash hn hh hw) hk (fun hnone => ?_) fun c hr hnh hc => ?_
      · have hpeek : tr.peek D (.hash h) = none := by
          simp [peek, Trie.resolve, Trie.resolveHash, hnone, compactHexEncode, Go.fail, Except.toOption]
        simp [Stuck, lastChild, hpeek]
      · have hpeek : tr.peek D (.hash h) = tr.peek D c := by rw [peek_hash hc, peek_of_not_isHash hnh]
        rw [Stuck, lastChild_congr hpeek]
        exact (hi ht hr hk (need_resolved hf hnh) hf').andThen _

end

inductive Access
  | tryGet (key : ByteKey)
  | tryUpdate (key : ByteKey) (value : Slice)
  | tryDelete (key : ByteKey)

-- The root of the trie is only replaced if the call succeeds.
def access (tr : Trie) (D : Database) : Access → Go MissingNodeError (Option Bytes × Trie)
  | .tryGet key => tr.tryGet D key.val
  | .tryUpdate key value => do
    let tr ← tr.tryUpdate D key.val value.val
    pure (none, tr)
  | .tryDelete key => do
    let tr ← tr.tryDelete D key.val
    pure (none, tr)

def Access.deletes : Access → Option ByteKey
  | .tryGet _            => none
  | .tryUpdate key value => if value.val = [] then some key else none
  | .tryDelete key       => some key

-- The call has to merge a full node in an even depth with a last child that is not loaded and not
-- in the database.
def Blocked (tr : Trie) (D : Database) (x : Access) : Prop :=
  ∃ key, x.deletes = some key ∧
    Stuck tr D (levels (compactHexDecode key.val)) tr.root [] (compactHexDecode key.val)

variable {keccak : Bytes → Hash} {D W : Database} {S : Set Bytes} {t : Tree} {tr : Trie}

theorem tryDelete_falls (hD : D.Part W) (ht : Wf [] t) (hr : Rep keccak W S true tr.root t)
    (key : ByteKey) :
    Falls D W (nodeHashes keccak t)
      (Stuck tr D (levels (compactHexDecode key.val)) tr.root [] (compactHexDecode key.val))
      (tr.tryDelete W key.val) (tr.tryDelete D key.val) :=
  (delete_falls (k := compactHexDecode key.val) hD ht hr (mem_hexKeys key) (need_le_levels tr.root _)
    (by simp only [levels]; omega)).andThen _

theorem access_falls (hD : D.Part W) (ht : Wf [] t) (hr : Rep keccak W S true tr.root t) (x : Access) :
    Falls D W (nodeHashes keccak t) (Blocked tr D x) (tr.access W x) (tr.access D x) := by
  cases x
  case tryGet key =>
    refine Falls.andThen (.mono (tryGetNode_falls tr hD ht hr (mem_hexKeys key)) (List.Subset.refl _) ?_) _
    simp [Blocked, Access.deletes]
  case tryDelete key =>
    refine Falls.andThen (.mono (tryDelete_falls hD ht hr key) (List.Subset.refl _) ?_) _
    simp [Blocked, Access.deletes]
  case tryUpdate key value =>
    by_cases hv : value.val = []
    case pos =>
      simp only [access, tryUpdate_empty _ hv]
      refine Falls.andThen (.mono (tryDelete_falls hD ht hr key) (List.Subset.refl _) ?_) _
      simp [Blocked, Access.deletes, hv]
    case neg =>
      have hlen : value.val.length ≠ 0 := by simpa using hv
      simp only [access, Trie.tryUpdate, hlen, ne_eq, not_false_eq_true, if_true]
      refine Falls.andThen (.andThen (.mono (insert_falls tr hD ht hr (mem_hexKeys key) _)
        (List.Subset.refl _) ?_) _) _
      simp [Blocked, Access.deletes, hv]

theorem access_spec (ht : Wf [] t) (hr : Rep keccak W S true tr.root t) (x : Access) :
    ∃ v tr', tr.access W x = .ok (v, tr') := by
  cases x
  case tryGet key =>
    obtain ⟨tr', h, _⟩ := tryGet_spec (k := key) ht hr
    exact ⟨_, _, h⟩
  case tryDelete key =>
    obtain ⟨tr', h, _⟩ := tryDelete_spec (k := key) ht hr
    exact ⟨none, tr', by simp only [access, h]; rfl⟩
  case tryUpdate key value =>
    by_cases hv : value.val = []
    case pos =>
      obtain ⟨tr', h, _⟩ := tryDelete_spec (k := key) ht hr
      exact ⟨none, tr', by simp only [access, tryUpdate_empty _ hv, h]; rfl⟩
    case neg =>
      obtain ⟨tr', h, _⟩ := tryUpdate_spec (k := key) ht hr ⟨value.val, hv, value.property⟩
      exact ⟨none, tr', by simp only [access, h]; rfl⟩

end Trie
