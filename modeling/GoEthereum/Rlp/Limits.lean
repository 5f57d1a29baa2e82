import GoEthereum.Rlp.Cursor

-- A stream stays inside its open lists and its limit, whatever is called on it.

namespace Rlp.Stream

-- Reads a raw encoded value including its header. A new header is put in front of the content.
def raw : Read Bytes := do
  let (kind, size) ← kindOf
  match kind with
  | .byte => do
    let s ← Act.get
    rearm
    pure [s.byteval]
  | .string => rawOf 0x80 0xB8 size
  | .list   => rawOf 0xC0 0xF7 size
where
  rawOf (smalltag largetag size : Nat) : Read Bytes := do
    -- The slice must be of a length that `make` accepts, and the sum is of type `uint64`.
    if headsize size + size ≥ 2 ^ 63 then Act.panics else do
    let b ← readFull size
    pure (puthead smalltag largetag size ++ b.val)

-- `NewStream` on a reader with the given content, and with a limit if there is one.
def newStream (b : Bytes) (limit : Option Nat) : Stream where
  input     := b
  remaining := limit.getD 0
  limited   := limit.isSome
  kind      := none
  size      := 0
  byteval   := 0
  kinderr   := none
  stack     := []

inductive Call
  | kind
  | bytes
  | uint
  | bool
  | list
  | listEnd
  | raw

-- A stream and, innermost first, where the lists that are open on it end, counted from the start of
-- the input.
structure Walk where
  stream : Stream
  ends   : List Nat

section

variable (total : Nat)

def position (s : Stream) : Nat :=
  total - s.input.length

-- A call, whatever it returns. A list that is opened ends where its header says.
def Walk.step (w : Walk) : Call → Walk
  | .kind  => { w with stream := (kindOf w.stream).snd }
  | .bytes => { w with stream := (Stream.bytes w.stream).snd }
  | .uint  => { w with stream := (Stream.uint 64 w.stream).snd }
  | .bool  => { w with stream := (Stream.bool w.stream).snd }
  | .raw   => { w with stream := (Stream.raw w.stream).snd }
  | .list  =>
    match Stream.list w.stream with
    | (.ok size, s) => ⟨s, (position total s + size) :: w.ends⟩
    | (.error _, s) => ⟨s, w.ends⟩
  | .listEnd =>
    match Stream.listEnd w.stream with
    | (.ok _, s)    => ⟨s, w.ends.tail⟩
    | (.error _, s) => ⟨s, w.ends⟩

def Walk.run (w : Walk) (calls : List Call) : Walk :=
  calls.foldl (Walk.step total) w

end

section

-- The open lists are nested: `n` more bytes of the innermost one are spoken for, up to the position
-- `c`, and each list ends before the one around it.
def Nested : Nat → Nat → List ListPos → List Nat → Prop
  | _, _, [],      []      => True
  | c, n, p :: ps, e :: es => p.pos + n ≤ p.size ∧ p.size < 2 ^ 64 ∧ c + (p.size - (p.pos + n)) ≤ e ∧
      Nested e p.size ps es
  | _, _, _,       _       => False

def Room : List ListPos → Nat → Prop
  | [],     _ => True
  | p :: _, n => p.pos + n ≤ p.size

variable {total : Nat} {limit : Option Nat} {ends : List Nat} {s s' : Stream} {c n : Nat}
variable {stack : List ListPos}

section

variable (h : Nested c n stack ends)
include h

theorem Nested.mono {c' : Nat} (hc : c' ≤ c) : Nested c' n stack ends := by
  cases stack <;> cases ends
  case nil.nil   => trivial
  case nil.cons  => exact h
  case cons.nil  => exact h
  case cons.cons => exact ⟨h.left, h.right.left, by have := h.right.right.left; omega, h.right.right.right⟩

theorem Nested.length_eq : ends.length = stack.length := by
  induction stack generalizing c n ends
  case nil =>
    cases ends
    case nil  => rfl
    case cons => exact absurd h id
  case cons p ps ih =>
    cases ends
    case nil       => exact absurd h id
    case cons e es => simpa using ih h.right.right.right

theorem Nested.le_size : ∀ p ∈ stack, p.pos ≤ p.size ∧ p.size < 2 ^ 64 := by
  induction stack generalizing c n ends
  case nil => simp
  case cons p ps ih =>
    cases ends
    case nil => exact absurd h id
    case cons e es =>
      have := h.left
      simp only [List.mem_cons, forall_eq_or_imp]
      exact ⟨⟨by omega, h.right.left⟩, ih h.right.right.right⟩

theorem Nested.le_ends : ∀ e ∈ ends, c ≤ e := by
  induction stack generalizing c n ends
  case nil =>
    cases ends
    case nil  => simp
    case cons => exact absurd h id
  case cons p ps ih =>
    cases ends
    case nil => exact absurd h id
    case cons e es =>
      have hc : c ≤ e := by have := h.right.right.left; omega
      simp only [List.mem_cons, forall_eq_or_imp]
      exact ⟨hc, fun e' he => hc.trans (ih h.right.right.right e' he)⟩

end

theorem Nested.advance {p : ListPos} {ps : List ListPos} (h : Nested c 0 (p :: ps) ends)
    (hn : n ≤ p.left) : Nested (c + n) 0 (p.advance n :: ps) ends := by
  cases ends
  case nil => exact absurd h id
  case cons e es =>
    obtain ⟨h₁, h₂, h₃, h₄⟩ := h
    have hl : p.left = p.size - p.pos := by unfold ListPos.left; omega
    have ha : (p.advance n).pos = p.pos + n := by
      simp only [ListPos.advance]
      omega
    refine ⟨?_, h₂, ?_, h₄⟩
    · simp only [ListPos.advance]
      omega
    · simp only [ListPos.advance]
      omega

structure Inv (total : Nat) (limit : Option Nat) (ends : List Nat) (s : Stream) : Prop where
  input   : s.input.length ≤ total
  nested  : Nested (position total s) 0 s.stack ends
  limited : s.limited = limit.isSome
  limit   : ∀ l ∈ limit, position total s + s.remaining ≤ l
  ahead   : s.kind ≠ none → s.kinderr = none → Room s.stack s.size ∧ s.size < 2 ^ 64

def Keeps {α : Type} (x : Read α) : Prop :=
  ∀ ⦃total limit ends s⦄, Inv total limit ends s → Inv total limit ends (x s).snd

namespace Keeps

variable {α β : Type}

theorem pure (a : α) : Keeps (pure a : Read α) :=
  fun _ _ _ _ h => h

theorem fail (e : StreamError) : Keeps (Act.fail e : Read α) :=
  fun _ _ _ _ h => h

theorem panics : Keeps (Act.panics : Read α) :=
  fun _ _ _ _ h => h

theorem get : Keeps (Act.get : Read Stream) :=
  fun _ _ _ _ h => h

theorem bind {x : Read α} {f : α → Read β} (hx : Keeps x) (hf : ∀ a, Keeps (f a)) :
    Keeps (x >>= f) := by
  intro total limit ends s h
  have hs := hx h
  cases hr : x s with
  | mk r t =>
    rw [hr] at hs
    cases r
    case ok a    => rw [Act.bind_ok hr]; exact hf a hs
    case error e => rw [Act.bind_error hr]; exact hs

end Keeps

theorem Inv.rearm (h : Inv total limit ends s) : Inv total limit ends { s with kind := none } :=
  ⟨h.input, h.nested, h.limited, h.limit, by simp⟩

theorem keeps_rearm : Keeps Stream.rearm :=
  fun _ _ _ _ h => h.rearm

theorem willReadList_cases (h : Nested c 0 s.stack ends) (n : Nat) :
    (∃ e, willReadList n s = (Go.fail e, s)) ∨
    ∃ stack, willReadList n s = (.ok (), { s with stack := stack }) ∧ Nested (c + n) 0 stack ends := by
  unfold willReadList
  cases hs : s.stack
  case nil =>
    rw [hs] at h
    refine .inr ⟨[], by cases s; cases hs; rfl, ?_⟩
    cases ends
    case nil  => trivial
    case cons => exact absurd h id
  case cons tos stack =>
    rw [hs] at h
    dsimp only
    split_ifs with hl
    case pos => exact .inl ⟨_, rfl⟩
    case neg => exact .inr ⟨_, rfl, h.advance (Nat.not_lt.mp hl)⟩

theorem willReadLimit_cases (hl : s.limited = limit.isSome) (h : ∀ l ∈ limit, c + s.remaining ≤ l)
    (n : Nat) :
    (∃ e, willReadLimit n s = (Go.fail e, s)) ∨
    ∃ r, willReadLimit n s = (.ok (), { s with remaining := r }) ∧ ∀ l ∈ limit, c + n + r ≤ l := by
  unfold willReadLimit
  cases limit
  case none =>
    refine .inr ⟨s.remaining, ?_, by simp⟩
    rw [if_neg (by simp [hl])]
  case some l =>
    rw [hl]
    simp only [Option.isSome_some, if_true]
    split_ifs with hn
    case pos => exact .inl ⟨_, rfl⟩
    case neg =>
      refine .inr ⟨_, rfl, fun l' hl' => ?_⟩
      have := h l' hl'
      omega

structure Counted (total : Nat) (limit : Option Nat) (ends : List Nat) (n : Nat) (s : Stream) : Prop where
  input   : s.input.length ≤ total
  nested  : Nested (position total s + n) 0 s.stack ends
  limited : s.limited = limit.isSome
  limit   : ∀ l ∈ limit, position total s + n + s.remaining ≤ l
  kind    : s.kind = none

theorem willRead_cases (h : Inv total limit ends s) (n : Nat) :
    (∃ e t, willRead n s = (Go.fail e, t) ∧ Inv total limit ends t) ∨
    ∃ t, willRead n s = (.ok (), t) ∧ Counted total limit ends n t := by
  have hr := h.rearm
  have hrearm : Stream.rearm s = (.ok (), { s with kind := none }) := rfl
  rw [willRead, Act.bind_ok hrearm]
  rcases willReadList_cases hr.nested n with ⟨e, he⟩ | ⟨stack, hl, hs⟩
  · exact .inl ⟨e, _, Act.bind_error he, hr⟩
  · rw [Act.bind_ok hl]
    have hmono := hs.mono (Nat.le_add_right _ n)
    rcases willReadLimit_cases (s := { s with kind := none, stack := stack }) hr.limited hr.limit n with
      ⟨e, he⟩ | ⟨r, hr', hle⟩
    · exact .inl ⟨e, _, he, hr.input, hmono, hr.limited, hr.limit, by simp⟩
    · exact .inr ⟨_, hr', hr.input, hs, hr.limited, hle, rfl⟩

theorem Counted.fill (h : Counted total limit ends n s) : Inv total limit ends (Stream.fill n s).snd := by
  have hf : (Stream.fill n s).snd = { s with input := (Stream.fill n s).snd.input } := by
    unfold Stream.fill
    split_ifs <;> rfl
  have hpos : (Stream.fill n s).snd.input.length ≤ total ∧
      total - (Stream.fill n s).snd.input.length ≤ position total s + n := by
    unfold Stream.fill position
    have := h.input
    split_ifs <;> simp only [List.length_drop, List.length_nil] <;> omega
  rw [hf]
  exact {
    input   := hpos.left
    nested  := h.nested.mono hpos.right
    limited := h.limited
    limit   := fun l hl => (Nat.add_le_add_right hpos.right _).trans (h.limit l hl)
    ahead   := fun hk => absurd h.kind hk }

theorem keeps_readFull (n : Nat) : Keeps (readFull n) := by
  intro total limit ends s h
  rw [readFull]
  rcases willRead_cases h n with ⟨e, t, hw, ht⟩ | ⟨t, hw, ht⟩
  · rw [Act.bind_error hw]
    exact ht
  · rw [Act.bind_ok hw]
    exact ht.fill

theorem keeps_readByte : Keeps readByte := by
  rw [readByte_eq]
  exact (keeps_readFull 1).bind fun _ => .pure _

theorem keeps_readUint (n : Nat) : Keeps (readUint n) := by
  unfold readUint
  split
  · exact keeps_rearm.bind fun _ => .pure _
  · exact keeps_readByte.bind fun _ => .pure _
  · refine (keeps_readFull _).bind fun b => ?_
    split_ifs
    · exact .fail _
    · exact .pure _

theorem keeps_readSizeOf (k : Kind) (n : Nat) : Keeps (readSizeOf k n) := by
  intro total limit ends s h
  have hs := keeps_readUint n h
  unfold readSizeOf
  split
  all_goals
    rename_i hr
    rw [hr] at hs
    exact hs

-- The kind that is kept only matters together with the error.
theorem Inv.withByteval (h : Inv total limit ends s) (c : UInt8) :
    Inv total limit ends { s with byteval := c } :=
  ⟨h.input, h.nested, h.limited, h.limit, h.ahead⟩

theorem keeps_readKind : Keeps readKind := by
  intro total limit ends s h
  have hs := keeps_readByte h
  unfold readKind
  split
  case h_1 hr => rw [hr] at hs; exact hs
  case h_2 hr => rw [hr] at hs; exact hs
  case h_3 b t hr =>
    rw [hr] at hs
    split_ifs
    · exact hs.withByteval b
    · exact hs.withByteval 0
    · exact keeps_readSizeOf _ _ (hs.withByteval 0)
    · exact hs.withByteval 0
    · exact keeps_readSizeOf _ _ (hs.withByteval 0)

theorem readUint_lt {v : Nat} (h : readUint n s = (.ok v, s')) : v < 256 ^ n := by
  unfold readUint at h
  split at h
  · obtain rfl : 0 = v := Except.ok.inj (congrArg Prod.fst h)
    simp
  · obtain ⟨b, _, _, h⟩ := Act.bind_eq_ok.mp h
    obtain rfl : b.toNat = v := Except.ok.inj (congrArg Prod.fst h)
    simpa using b.toNat_lt
  · obtain ⟨b, t, _, h⟩ := Act.bind_eq_ok.mp h
    split_ifs at h
    · simp [Go.fail] at h
    · obtain rfl : ofBigEndian b.val = v := Except.ok.inj (congrArg Prod.fst h)
      have := ofBigEndian_lt b.val
      rwa [b.property] at this

theorem readSizeOf_lt {k k' : Kind} {m size : Nat} {e : Option StreamError} (hm : m ≤ 8)
    (h : readSizeOf k m s = (.ok (k', size, e), s')) : size < 2 ^ 64 := by
  unfold readSizeOf at h
  split at h
  case h_1 v t hv =>
    obtain ⟨⟨-, rfl, -⟩, -⟩ : (k = k' ∧ v = size ∧ _) ∧ _ := by simpa using h
    calc v < 256 ^ m := readUint_lt hv
      _ ≤ 256 ^ 8 := Nat.pow_le_pow_right (by omega) hm
      _ = 2 ^ 64 := by norm_num
  case h_2 =>
    obtain ⟨⟨-, rfl, -⟩, -⟩ : (k = k' ∧ 0 = size ∧ _) ∧ _ := by simpa using h
    norm_num
  case h_3 => simp [Go.panics] at h

theorem readKind_lt {k : Kind} {size : Nat} {e : Option StreamError}
    (h : readKind s = (.ok (k, size, e), s')) : size < 2 ^ 64 := by
  unfold readKind at h
  split at h
  case h_1 =>
    obtain ⟨⟨-, rfl, -⟩, -⟩ : (Kind.byte = k ∧ 0 = size ∧ _) ∧ _ := by simpa using h
    norm_num
  case h_2 => simp [Go.panics] at h
  case h_3 b t hb =>
    have hlt := b.toNat_lt
    split_ifs at h
    · obtain ⟨⟨-, rfl, -⟩, -⟩ : (Kind.byte = k ∧ 0 = size ∧ _) ∧ _ := by simpa using h
      norm_num
    · obtain ⟨⟨-, rfl, -⟩, -⟩ : (Kind.string = k ∧ b.toNat - 0x80 = size ∧ _) ∧ _ := by simpa using h
      omega
    · exact readSizeOf_lt (by omega) h
    · obtain ⟨⟨-, rfl, -⟩, -⟩ : (Kind.list = k ∧ b.toNat - 0xC0 = size ∧ _) ∧ _ := by simpa using h
      omega
    · exact readSizeOf_lt (by omega) h

theorem room_of_checkSize (h : Nested c 0 s.stack ends) (hc : checkSize s n = none) : Room s.stack n := by
  have hsize := h.le_size
  unfold checkSize at hc
  cases hs : s.stack
  case nil => trivial
  case cons tos stack =>
    rw [hs] at hsize
    obtain ⟨h₁, h₂⟩ := hsize tos (by simp)
    have hl : tos.left = tos.size - tos.pos := by unfold ListPos.left; omega
    simp only [hs, hl, ite_eq_right_iff, reduceCtorEq, imp_false] at hc
    change tos.pos + n ≤ tos.size
    omega

theorem keeps_cacheKind : Keeps cacheKind := by
  intro total limit ends s h
  have hs := keeps_readKind h
  unfold cacheKind
  split
  case h_1 hr =>
    rw [hr] at hs
    exact hs
  case h_2 k size e t hr =>
    rw [hr] at hs
    have hinv : Inv total limit ends
        { t with kind := some k, size := size, kinderr := e.or (checkSize t size) } := by
      refine ⟨hs.input, hs.nested, hs.limited, hs.limit, fun _ he => ⟨?_, readKind_lt hr⟩⟩
      exact room_of_checkSize hs.nested (Option.or_eq_none_iff.mp he).right
    dsimp only
    split <;> exact hinv

theorem keeps_kindOf : Keeps kindOf := by
  intro total limit ends s h
  unfold kindOf
  split
  case h_1 => split <;> exact h
  case h_2 hk =>
    have hn : Inv total limit ends { s with kinderr := none } :=
      ⟨h.input, h.nested, h.limited, h.limit, fun hne => absurd hk hne⟩
    dsimp only
    split_ifs
    · exact hn
    · exact keeps_cacheKind hn

theorem keeps_bytes : Keeps bytes := by
  refine keeps_kindOf.bind fun r => ?_
  obtain ⟨kind, size⟩ := r
  cases kind <;> dsimp only
  case byte => exact Keeps.get.bind fun _ => keeps_rearm.bind fun _ => .pure _
  case string =>
    split_ifs
    · exact .panics
    · refine (keeps_readFull _).bind fun b => ?_
      split_ifs
      · exact .fail _
      · exact .pure _
  case list => exact .fail _

theorem keeps_readInt (n : Nat) : Keeps (readInt n) := by
  intro total limit ends s h
  have hs := keeps_readUint n h
  unfold readInt
  split
  case h_1 hr => rw [hr] at hs; exact hs
  case h_2    => exact hs

theorem keeps_uint (maxbits : Nat) : Keeps (uint maxbits) := by
  refine keeps_kindOf.bind fun r => ?_
  obtain ⟨kind, size⟩ := r
  cases kind <;> dsimp only
  case byte =>
    refine Keeps.get.bind fun s => ?_
    split_ifs
    · exact .fail _
    · exact keeps_rearm.bind fun _ => .pure _
  case string =>
    split_ifs
    · exact .fail _
    · refine (keeps_readInt _).bind fun v => ?_
      split_ifs
      · exact .fail _
      · exact .pure _
  case list => exact .fail _

theorem keeps_bool : Keeps bool := by
  refine (keeps_uint 8).bind fun num => ?_
  split
  · exact .pure _
  · exact .pure _
  · exact .fail _

theorem keeps_rawOf (lo hi size : Nat) : Keeps (raw.rawOf lo hi size) := by
  unfold raw.rawOf
  split_ifs
  · exact .panics
  · exact (keeps_readFull _).bind fun _ => .pure _

theorem keeps_raw : Keeps raw := by
  refine keeps_kindOf.bind fun r => ?_
  obtain ⟨kind, size⟩ := r
  cases kind <;> dsimp only
  case byte => exact Keeps.get.bind fun _ => keeps_rearm.bind fun _ => .pure _
  case string => exact keeps_rawOf ..
  case list => exact keeps_rawOf ..

theorem Nested.reserve (h : Nested c 0 stack ends) (hr : Room stack n) : Nested (c + n) n stack ends := by
  cases stack <;> cases ends
  case nil.nil  => trivial
  case nil.cons => exact h
  case cons.nil => exact h
  case cons.cons p ps e es =>
    obtain ⟨h₁, h₂, h₃, h₄⟩ := h
    have hr : p.pos + n ≤ p.size := hr
    exact ⟨hr, h₂, by omega, h₄⟩

theorem Nested.settle {p : ListPos} {ps : List ListPos} {e : Nat} (h : Nested e n (p :: ps) ends)
    (hc : c ≤ e) : Nested c 0 (p.advance n :: ps) ends := by
  cases ends
  case nil => exact absurd h id
  case cons e' es =>
    obtain ⟨h₁, h₂, h₃, h₄⟩ := h
    have ha : p.advance n = ⟨p.pos + n, p.size⟩ := by
      simp only [ListPos.advance, ListPos.mk.injEq, and_true]
      omega
    rw [ha]
    exact ⟨h₁, h₂, by dsimp only; omega, h₄⟩

theorem kindOf_fields {k : Kind} (h : kindOf s = (.ok (k, n), s')) :
    s'.kind = some k ∧ s'.size = n ∧ s'.kinderr = none := by
  unfold kindOf at h
  split at h
  case h_1 k' hk =>
    split at h
    case h_1 => simp [Go.fail] at h
    case h_2 he =>
      obtain ⟨⟨rfl, rfl⟩, rfl⟩ : (k' = k ∧ s.size = n) ∧ s = s' := by simpa using h
      exact ⟨hk, rfl, he⟩
  case h_2 =>
    dsimp only at h
    split_ifs at h
    · simp [Go.fail] at h
    · unfold cacheKind at h
      split at h
      case h_1 => simp at h
      case h_2 k' size e t hr =>
        cases he : e.or (checkSize t size)
        case some => simp [he, Go.fail] at h
        case none =>
          simp only [he, Prod.mk.injEq, Except.ok.injEq] at h
          obtain ⟨⟨rfl, rfl⟩, rfl⟩ := h
          exact ⟨rfl, rfl, rfl⟩

variable {w : Walk}

section

variable (h : Inv total limit w.ends w.stream)
include h

theorem Walk.inv_list :
    Inv total limit (w.step total .list).ends (w.step total .list).stream := by
  have hk := keeps_kindOf h
  simp only [Walk.step, list]
  cases hr : kindOf w.stream with
  | mk r t =>
    rw [hr] at hk
    cases r
    case error e =>
      simp only [Act.bind_error hr]
      exact hk
    case ok r =>
      obtain ⟨k, n⟩ := r
      simp only [Act.bind_ok hr]
      by_cases hl : k = .list
      case neg =>
        simp only [hl, ne_eq, not_false_eq_true, if_true]
        exact hk
      case pos =>
        obtain ⟨hkind, hsize, herr⟩ := kindOf_fields hr
        obtain ⟨hroom, hlt⟩ := hk.ahead (by simp [hkind]) herr
        rw [hsize] at hroom hlt
        simp only [hl, ne_eq, not_true, if_false]
        refine ⟨hk.input, ⟨Nat.zero_le _, hlt, ?_, hk.nested.reserve hroom⟩, hk.limited, hk.limit, ?_⟩
        · exact Nat.le_refl _
        · intro hne
          exact absurd rfl hne

theorem Walk.inv_listEnd :
    Inv total limit (w.step total .listEnd).ends (w.step total .listEnd).stream := by
  have hn := h.nested
  simp only [Walk.step, listEnd]
  cases hs : w.stream.stack
  case nil => exact h
  case cons tos stack =>
    by_cases hp : tos.pos = tos.size
    case neg =>
      simp only [hp, ne_eq, not_false_eq_true, if_true]
      exact h
    case pos =>
      simp only [hp, ne_eq, not_true, if_false]
      rw [hs] at hn
      cases he : w.ends
      case nil =>
        rw [he] at hn
        exact absurd hn id
      case cons e es =>
        rw [he] at hn
        obtain ⟨-, -, hle, hout⟩ := hn
        refine ⟨h.input, ?_, h.limited, h.limit, fun hne => absurd rfl hne⟩
        cases stack
        case nil =>
          cases es
          case nil  => trivial
          case cons => exact absurd hout id
        case cons outer stack => exact hout.settle (by unfold position at hle ⊢; dsimp only; omega)

theorem Walk.inv_step (call : Call) :
    Inv total limit (w.step total call).ends (w.step total call).stream := by
  cases call
  case kind    => exact keeps_kindOf h
  case bytes   => exact keeps_bytes h
  case uint    => exact keeps_uint 64 h
  case bool    => exact keeps_bool h
  case raw     => exact keeps_raw h
  case list    => exact inv_list h
  case listEnd => exact inv_listEnd h

theorem Walk.inv_run (calls : List Call) :
    Inv total limit (w.run total calls).ends (w.run total calls).stream := by
  induction calls generalizing w
  case nil           => exact h
  case cons call _ ih => exact ih (inv_step h call)

end

theorem inv_newStream (b : Bytes) (limit : Option Nat) : Inv b.length limit [] (newStream b limit) where
  input   := Nat.le_refl _
  nested  := trivial
  limited := rfl
  limit l hl := by
    obtain rfl : limit = some l := hl
    simp [position, newStream]
  ahead h := absurd rfl h

end

-- In any sequence of calls, whatever they return, the position in an open list is at most its size,
-- and no call reads beyond the end of an open list or beyond the limit.
theorem run_within (b : Bytes) (limit : Option Nat) (calls : List Call) :
    let w := (Walk.mk (newStream b limit) []).run b.length calls
    (∀ p ∈ w.stream.stack, p.pos ≤ p.size ∧ p.left = p.size - p.pos) ∧
      w.ends.length = w.stream.stack.length ∧ (∀ e ∈ w.ends, position b.length w.stream ≤ e) ∧
      ∀ l ∈ limit, position b.length w.stream ≤ l := by
  intro w
  have h : Inv b.length limit w.ends w.stream := Walk.inv_run (inv_newStream b limit) calls
  refine ⟨fun p hp => ?_, h.nested.length_eq, h.nested.le_ends, fun l hl => ?_⟩
  · obtain ⟨h₁, h₂⟩ := h.nested.le_size p hp
    exact ⟨h₁, by unfold ListPos.left; omega⟩
  · have := h.limit l hl
    omega

end Rlp.Stream
