import GoEthereum.Trie.Codec
import GoEthereum.Trie.Merkle

-- When a node of the trie, whose parts may be in memory, embedded or in the database, represents
-- a tree.

namespace Trie

open Common Merkle

section

variable (keccak : Bytes → Hash) (D : Database) (S : Set Bytes)

def Has (e : Bytes) : Prop :=
  e ∈ S ∧ D (keccak e).bytes = some e

-- The root is hashed whatever its size, other nodes only if they are not embedded.
structure HashOf (root : Bool) (h : Hash) (t : Tree) : Prop where
  eq   : h = keccak (enc keccak t)
  size : root = false → 32 ≤ (enc keccak t).length

-- The nodes that are replaced by their hash.
def Big (root : Bool) (t : Tree) : Prop :=
  root = true ∨ 32 ≤ (enc keccak t).length

-- All of `t` is in the database, `t` itself unless it is embedded.
def Stored (root : Bool) (t : Tree) : Prop :=
  Under keccak (Has keccak D S) t ∧ (Big keccak root t → Has keccak D S (enc keccak t))

-- What a cached hash and a cleared dirty flag promise.
structure Cached (root : Bool) (flags : NodeFlag) (t : Tree) : Prop where
  hash   {h : Hash} : flags.hash = some h → HashOf keccak root h t
  known  {h : Hash} : flags.hash = some h → Whole keccak (· ∈ S) t
  stored            : flags.dirty = false → Stored keccak D S root t

inductive Rep : Bool → Node Key → Tree → Prop
  | nil   {r : Bool} : Rep r .nil .nil
  | value {r : Bool} (v : Value) : Rep r (.value v.val) (.value v)
  | short {r : Bool} {k : Key} {n : Node Key} {flags : NodeFlag} {t : Tree} :
    Rep false n t → Cached keccak D S r flags (.short k t) → Rep r (.short k n flags) (.short k t)
  | full  {r : Bool} {cs : Nibble → Node Key} {flags : NodeFlag} {ts : Nibble → Tree} :
    (∀ i, Rep false (cs i) (ts i)) → Cached keccak D S r flags (.full ts) →
    Rep r (.full cs flags) (.full ts)
  | hash  {r : Bool} {h : Hash} {t : Tree} :
    t.isNode = true → HashOf keccak r h t → Whole keccak (Has keccak D S) t → Rep r (.hash h) t

end

section

variable {keccak : Bytes → Hash} {D D' : Database} {S S' : Set Bytes} {r : Bool} {n : Node Key}
variable {t : Tree}

theorem Under.mono {A B : Bytes → Prop} (h : ∀ e, A e → B e) (ht : Under keccak A t) :
    Under keccak B t := by
  induction t
  case nil            => trivial
  case value          => trivial
  case short k t hi   => exact ⟨fun hn hl => h _ (ht.left hn hl), hi ht.right⟩
  case full cs hi     => exact fun i => ⟨fun hn hl => h _ ((ht i).left hn hl), hi i (ht i).right⟩

theorem Whole.mono {A B : Bytes → Prop} (h : ∀ e, A e → B e) (ht : Whole keccak A t) :
    Whole keccak B t :=
  ⟨h _ ht.self, Under.mono h ht.under⟩

theorem HashOf.big {h : Hash} (hh : HashOf keccak r h t) : Big keccak r t := by
  cases r
  case false => exact .inr (hh.size rfl)
  case true  => exact .inl rfl

theorem Cached.newFlag (tr : Trie) : Cached keccak D S r tr.newFlag t where
  hash h   := by simp [Trie.newFlag] at h
  known h  := by simp [Trie.newFlag] at h
  stored h := by simp [Trie.newFlag] at h

theorem Cached.embedded {gen : UInt16} (hu : Under keccak (Has keccak D S) t)
    (hl : (enc keccak t).length < 32) : Cached keccak D S false ⟨none, gen, false⟩ t where
  hash h   := by simp at h
  known h  := by simp at h
  stored _ := ⟨hu, fun hb => by simp [Big] at hb; omega⟩

theorem Cached.gen {flags : NodeFlag} (h : Cached keccak D S r flags t) (g : UInt16) :
    Cached keccak D S r { flags with gen := g } t :=
  ⟨h.hash, h.known, h.stored⟩

theorem Rep.mono (hS : S ⊆ S') (hD : ∀ e, Has keccak D S e → Has keccak D' S' e)
    (h : Rep keccak D S r n t) : Rep keccak D' S' r n t := by
  have hc {r flags t} (hc : Cached keccak D S r flags t) : Cached keccak D' S' r flags t :=
    ⟨hc.hash, fun h => Whole.mono hS (hc.known h), fun h =>
      ⟨Under.mono hD (hc.stored h).left, fun hb => hD _ ((hc.stored h).right hb)⟩⟩
  induction h
  case nil          => exact .nil
  case value v      => exact .value v
  case short h hi   => exact .short hi (hc h)
  case full h hi    => exact .full hi (hc h)
  case hash hn hh h => exact .hash hn hh (Whole.mono hD h)

theorem Rep.eq_nil (h : Rep keccak D S r n .nil) : n = .nil := by
  cases h
  case nil         => rfl
  case hash hn _ _ => simp [Patricia.Tree.isNode] at hn

theorem Rep.eq_value {v : Value} (h : Rep keccak D S r n (.value v)) : n = .value v.val := by
  cases h
  case value       => rfl
  case hash hn _ _ => simp [Patricia.Tree.isNode] at hn

theorem Rep.isNil_iff (h : Rep keccak D S r n t) : n.isNil = true ↔ t = .nil := by
  cases h <;> simp [Node.isNil]
  case hash hn _ _ => rintro rfl; simp [Patricia.Tree.isNode] at hn

end

-- A node that was decoded as part of another one: a reference to a node in the database, or a node
-- that is embedded.
inductive Child (keccak : Bytes → Hash) (gen : UInt16) : Node Key → Tree → Prop
  | nil : Child keccak gen .nil .nil
  | value (v : Value) : Child keccak gen (.value v.val) (.value v)
  | hash {t : Tree} : t.isNode = true → 32 ≤ (enc keccak t).length →
    Child keccak gen (.hash (keccak (enc keccak t))) t
  | short {k : Key} {n : Node Key} {t : Tree} : (enc keccak (.short k t)).length < 32 →
    Child keccak gen n t → Child keccak gen (.short k n ⟨none, gen, false⟩) (.short k t)
  | full {cs : Nibble → Node Key} {ts : Nibble → Tree} : (enc keccak (.full ts)).length < 32 →
    (∀ i, Child keccak gen (cs i) (ts i)) → Child keccak gen (.full cs ⟨none, gen, false⟩) (.full ts)

inductive Decoded (keccak : Bytes → Hash) (gen : UInt16) (hash : Option Hash) :
    Node Key → Tree → Prop
  | short {k : Key} {n : Node Key} {t : Tree} : Child keccak gen n t →
    Decoded keccak gen hash (.short k n ⟨hash, gen, false⟩) (.short k t)
  | full {cs : Nibble → Node Key} {ts : Nibble → Tree} : (∀ i, Child keccak gen (cs i) (ts i)) →
    Decoded keccak gen hash (.full cs ⟨hash, gen, false⟩) (.full ts)

variable {keccak : Bytes → Hash} {D : Database} {S : Set Bytes} {p : Key} {t : Tree} {n : Node Key}
variable {gen : UInt16}

theorem Decoded.child (h : Decoded keccak gen none n t) (hl : (enc keccak t).length < 32) :
    Child keccak gen n t := by
  cases h
  case short h => exact .short hl h
  case full h  => exact .full hl h

theorem Child.rep (h : Child keccak gen n t)
    (hh : t.isNode → 32 ≤ (enc keccak t).length → Has keccak D S (enc keccak t))
    (hu : Under keccak (Has keccak D S) t) : Rep keccak D S false n t := by
  induction h
  case nil        => exact .nil
  case value v    => exact .value v
  case hash hn hl => exact .hash hn ⟨rfl, fun _ => hl⟩ ⟨hh hn hl, hu⟩
  case short hl _ hi => exact .short (hi hu.left hu.right) (.embedded hu hl)
  case full hl _ hi  => exact .full (fun i => hi i (hu i).left (hu i).right) (.embedded hu hl)

theorem Decoded.rep {r : Bool} {hash : Option Hash} (h : Decoded keccak gen hash n t)
    (hu : Under keccak (Has keccak D S) t) (hc : Cached keccak D S r ⟨hash, gen, false⟩ t) :
    Rep keccak D S r n t ∧ n.isHash = false := by
  cases h
  case short h => exact ⟨.short (h.rep hu.left hu.right) hc, rfl⟩
  case full h  => exact ⟨.full (fun i => (h i).rep (hu i).left (hu i).right) hc, rfl⟩

theorem exists_item_eq_list (keccak : Bytes → Hash) (h : t.isNode = true) :
    ∃ xs, item keccak t = .list xs := by
  cases t <;> simp [Patricia.Tree.isNode] at h <;> simp [item]

section

variable (keccak gen)

-- How a child stands in its parent, if `n` is what it is loaded as.
def link (t : Tree) (n : Node Key) : Node Key :=
  if t.isNode ∧ 32 ≤ (enc keccak t).length then .hash (keccak (enc keccak t)) else n

-- The node that the encoding of a tree is decoded into.
def load (hash : Option Hash) : Tree → Node Key
  | .nil       => .nil
  | .value v   => .value v.val
  | .short k t => .short k (link keccak t (load none t)) ⟨hash, gen, false⟩
  | .full ts   => .full (fun i => link keccak (ts i) (load none (ts i))) ⟨hash, gen, false⟩

theorem item_link {n : Node Key} (h : n.collapse.item = item keccak t) :
    (link keccak t n).collapse.item = ref keccak t := by
  rw [link, ref, refItem, enc, h.symm]
  split_ifs
  · rfl
  · rfl

theorem item_load (hash : Option Hash) (t : Tree) :
    (load keccak gen hash t).collapse.item = item keccak t := by
  induction t generalizing hash
  case nil          => rfl
  case value v      => rfl
  case short k t hi =>
    simp only [load, Node.collapse, Node.item, item, item_link keccak (hi none)]
    rfl
  case full ts hi =>
    simp only [load, Node.collapse, Node.item, item, item_link keccak (hi _ none)]
    rfl

theorem referred_link (h : t.isNode = true) (hf : Formed gen none (load keccak gen none t)) :
    Referred gen (link keccak t (load keccak gen none t)) := by
  unfold link
  split_ifs with hl
  · exact .hash _
  · refine .embedded hf ?_
    rw [Node.rlp, item_load]
    simp only [h, true_and, enc] at hl
    omega

theorem formed_load (hash : Option Hash) (ht : Wf p t) (hn : t.isNode = true) :
    Formed gen hash (load keccak gen hash t) := by
  induction t generalizing p hash
  case nil   => simp [Patricia.Tree.isNode] at hn
  case value => simp [Patricia.Tree.isNode] at hn
  case short k t hi =>
    have hk := ht.short_key.left
    rw [load]
    by_cases hl : k.getLast? = some terminator
    · obtain ⟨v, rfl⟩ := ht.short_value_iff.mp hl
      exact .leaf v.val hk hl
    · have hn := ht.short_isNode hl
      exact .extension hk hl (referred_link keccak gen hn (hi none ht.of_short hn))
  case full ts hi =>
    refine .branch (fun i hne hnil => ?_) ?_
    · have hts : ts i ≠ .nil := by
        intro h
        rw [h] at hnil
        exact hnil rfl
      have hn := ht.full_isNode hne hts
      exact referred_link keccak gen hn (hi i none (ht.of_full i) hn)
    · obtain hl | ⟨v, hl⟩ := ht.full_last
      · exact .inl (by rw [hl]; rfl)
      · exact .inr ⟨v.val, v.property.left, by rw [hl]; rfl⟩

theorem child_link (h : t.isNode = true → (enc keccak t).length < 32 →
    Child keccak gen (load keccak gen none t) t) :
    Child keccak gen (link keccak t (load keccak gen none t)) t := by
  unfold link
  split_ifs with hl
  · exact .hash hl.left hl.right
  · cases t
    case nil     => exact .nil
    case value v => exact .value v
    all_goals exact h rfl (by simpa [Patricia.Tree.isNode] using hl)

theorem decoded_load (hash : Option Hash) (hn : t.isNode = true) :
    Decoded keccak gen hash (load keccak gen hash t) t := by
  induction t generalizing hash
  case nil          => simp [Patricia.Tree.isNode] at hn
  case value        => simp [Patricia.Tree.isNode] at hn
  case short k t hi => exact .short (child_link keccak gen fun hn hl => (hi none hn).child hl)
  case full ts hi   => exact .full fun i => child_link keccak gen fun hn hl => (hi i none hn).child hl

theorem decodeNode_enc (hash : Option Hash) (ht : Wf p t) (hn : t.isNode = true) :
    ∃ n, decodeNode hash (enc keccak t) gen = .ok n ∧ Decoded keccak gen hash n t := by
  refine ⟨load keccak gen hash t, ?_, decoded_load keccak gen hash hn⟩
  have hl := content_item_lt keccak ht
  rw [← item_load keccak gen hash] at hl
  have hd := (formed_load keccak gen hash ht hn).decodeNode hl
  rwa [Node.rlp, item_load] at hd

end

theorem resolveHash_spec (tr : Trie) {r : Bool} {h : Hash} (ht : Wf p t)
    (hrep : Rep keccak D S r (.hash h) t) (pre suffix : Key) :
    ∃ n, tr.resolveHash D h pre suffix = .ok n ∧ Rep keccak D S r n t ∧ n.isHash = false := by
  obtain ⟨hn, hh, hw⟩ : t.isNode = true ∧ HashOf keccak r h t ∧ Whole keccak (Has keccak D S) t :=
    match hrep with
    | .hash hn hh hw => ⟨hn, hh, hw⟩
  have hc : Cached keccak D S r ⟨some h, tr.cachegen, false⟩ t := {
    hash h'  := by simpa [← Option.some.inj h'] using hh
    known _  := Whole.mono (fun _ h => h.left) hw
    stored _ := ⟨hw.under, fun _ => hw.self⟩ }
  obtain ⟨n, hd, hr⟩ := decodeNode_enc keccak tr.cachegen (some h) ht hn
  refine ⟨n, ?_, hr.rep hw.under hc⟩
  rw [Trie.resolveHash, hh.eq, hw.self.right, ← hh.eq]
  simp only [mustDecodeNode, hd]
  rfl

end Trie
