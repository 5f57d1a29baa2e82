import GoEthereum.Trie.Hashing

-- Sequences of calls on a trie and its database.

namespace Trie

open Common Merkle

-- A key as the exported methods take it. Its hex encoding is a Go slice, too.
abbrev ByteKey := { b : Bytes // 2 * b.length + 1 < 2 ^ 63 }

inductive Op
  | tryUpdate (key : ByteKey) (value : Slice)
  | tryDelete (key : ByteKey)
  | tryGet (key : ByteKey)
  | hash
  | commit
  | setCacheLimit (l : UInt16)
  -- Drops the trie and opens the one whose root was returned by the commit `i` commits ago.
  | reopen (i : Nat)

inductive Output
  | none
  | value (v : Option Bytes)
  | root (h : Hash)

structure Session where
  trie    : Trie
  db      : Database
  commits : List Hash
  hashed  : List Bytes

def Event.shas (es : List Event) : List Bytes :=
  es.filterMap fun
    | .sha e   => some e
    | .put _ _ => none

-- `New(common.Hash{}, db)`
def Session.start (db : Database) : Session where
  trie    := { root := .nil, originalRoot := Hash.zero, cachegen := 0, cachelimit := 0 }
  db      := db
  commits := []
  hashed  := []

section

variable (keccak : Bytes → Hash)

def Session.step (s : Session) : Op → Go MissingNodeError (Session × Output)
  | .tryUpdate key value => do
    let t ← s.trie.tryUpdate s.db key.val value.val
    pure ({ s with trie := t }, .none)
  | .tryDelete key => do
    let t ← s.trie.tryDelete s.db key.val
    pure ({ s with trie := t }, .none)
  | .tryGet key => do
    let (v, t) ← s.trie.tryGet s.db key.val
    pure ({ s with trie := t }, .value v)
  | .hash => do
    let (h, t, es) ← s.trie.hash keccak
    pure ({ s with trie := t, hashed := s.hashed ++ Event.shas es }, .root h)
  | .commit => do
    let (h, t, es) ← s.trie.commitTo keccak
    pure ({ trie := t, db := Database.write s.db es, commits := h :: s.commits,
            hashed := s.hashed ++ Event.shas es }, .root h)
  | .setCacheLimit l => pure ({ s with trie := s.trie.setCacheLimit l }, .none)
  | .reopen i =>
    match s.commits[i]? with
    | none      => pure (s, .none)
    | some root => do
      let t ← Trie.new root s.db
      pure ({ s with trie := t }, .none)

def Session.run (s : Session) : List Op → Go MissingNodeError (Session × List Output)
  | []        => pure (s, [])
  | op :: ops => do
    let (s, out) ← s.step keccak op
    let (s, outs) ← s.run ops
    pure (s, out :: outs)

def hashedIn (db : Database) (ops : List Op) : Set Bytes :=
  { e | ∃ pre s outs, pre <+: ops ∧ (Session.start db).run keccak pre = .ok (s, outs) ∧ e ∈ s.hashed }

-- The same, to be evaluated.
def Session.hashedBy (s : Session) (ops : List Op) : List Bytes :=
  match s.run keccak ops with
  | .ok (s, _) => s.hashed
  | .error _   => []

theorem hashedIn_subset {db : Database} {ops : List Op} {S : Set Bytes}
    (h : ∀ pre ∈ ops.inits, ∀ e ∈ (Session.start db).hashedBy keccak pre, e ∈ S) :
    hashedIn keccak db ops ⊆ S := by
  rintro e ⟨pre, s, outs, hp, hr, he⟩
  exact h pre (List.mem_inits .. |>.mpr hp) e (by simpa [Session.hashedBy, hr] using he)

theorem Session.run_concat (s : Session) (ops : List Op) (op : Op) :
    s.run keccak (ops ++ [op]) = (s.run keccak ops >>= fun (s', outs) =>
      s'.step keccak op >>= fun (s'', out) => pure (s'', outs ++ [out])) := by
  induction ops generalizing s
  case nil =>
    simp only [List.nil_append, Session.run, bind, Except.bind, pure, Except.pure]
  case cons o ops hi =>
    simp only [List.cons_append, Session.run, hi, bind, Except.bind]
    cases s.step keccak o
    case error e => rfl
    case ok r =>
      simp only
      cases r.fst.run keccak ops
      case error e => rfl
      case ok r' =>
        simp only [pure, Except.pure]
        cases r'.fst.step keccak op <;> rfl

end

-- What the trie is for: a map from keys to values that can be committed and reopened.
abbrev Contents := ByteKey → Option Bytes

structure Spec where
  cur     : Contents
  commits : List Contents

namespace Spec

def start : Spec where
  cur     := fun _ => none
  commits := []

def step (m : Spec) : Op → Spec
  | .tryUpdate key value =>
    { m with cur := Function.update m.cur key (if value.val = [] then none else some value.val) }
  | .tryDelete key => { m with cur := Function.update m.cur key none }
  | .commit        => { m with commits := m.cur :: m.commits }
  | .reopen i      => { m with cur := m.commits[i]?.getD m.cur }
  | _              => m

def run (m : Spec) (ops : List Op) : Spec :=
  ops.foldl step m

end Spec

def contents (t : Tree) : Contents :=
  fun k => (t.lookup (compactHexDecode k.val)).map (·.val)

theorem mem_hexKeys (k : ByteKey) : compactHexDecode k.val ∈ hexKeys :=
  ⟨k.val, k.property, rfl⟩

theorem contents_nil : contents .nil = fun _ => none := by
  funext k
  simp [contents]

variable {t s : Tree}

theorem contents_insert (ht : Wf [] t) (k : ByteKey) (v : Value) :
    contents (t.insert (compactHexDecode k.val) v) = Function.update (contents t) k (some v.val) := by
  funext l
  have hl := Patricia.Tree.lookup_insert (hexKeys_prefixFree.suffixes []) ht.reduced ht.within
    (mem_hexKeys k) (v := v) (compactHexDecode l.val)
  by_cases h : l = k
  · subst h
    simp [contents, hl]
  · have hne : compactHexDecode l.val ≠ compactHexDecode k.val := fun he =>
      h <| Subtype.ext <| compactHexDecode_injective he
    simp [contents, hl, h, hne]

theorem contents_delete (ht : Wf [] t) (k : ByteKey) :
    contents (t.delete (compactHexDecode k.val)) = Function.update (contents t) k none := by
  funext l
  have hl := Patricia.Tree.lookup_delete (hexKeys_prefixFree.suffixes []) ht.reduced ht.within
    (mem_hexKeys k) (compactHexDecode l.val)
  by_cases h : l = k
  · subst h
    simp [contents, hl]
  · have hne : compactHexDecode l.val ≠ compactHexDecode k.val := fun he =>
      h <| Subtype.ext <| compactHexDecode_injective he
    simp [contents, hl, h, hne]

theorem eq_of_contents_eq (hs : Wf [] s) (ht : Wf [] t) (h : contents s = contents t) : s = t := by
  apply hs.reduced.ext ht.reduced
  funext w
  by_cases hw : w ∈ hexKeys
  · obtain ⟨b, hb, rfl⟩ := hw
    have := congrFun h ⟨b, hb⟩
    simpa [contents, Option.map_inj_right] using Option.map_injective Subtype.val_injective this
  · have hnone {t} (ht : Wf [] t) : t.lookup w = none := by
      cases hv : t.lookup w
      case none   => rfl
      case some v => exact absurd (ht.within w v hv) hw
    rw [hnone hs, hnone ht]

end Trie
