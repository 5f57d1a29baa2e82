import GoEthereum.Rlp.Item

-- The three ways in which the content of an encoder's buffer gets out.

namespace Rlp

namespace Encbuf

-- The writes that `toWriter` makes, one after another. `strpos` is where the string data goes on.
def toWriter.go (str : Bytes) : Nat → List ListHead → List Bytes
  | strpos, []            => if strpos < str.length then [str.drop strpos] else []
  | strpos, head :: heads =>
    -- write string data before header
    let before :=
      if head.offset - strpos > 0 then [(str.drop strpos).take (head.offset - strpos)] else []
    before ++ head.encode :: toWriter.go str (strpos + before.flatten.length) heads

def toWriter (w : Encbuf) : List Bytes :=
  toWriter.go w.str 0 w.lheads

end Encbuf

-- The reader that `EncodeToReader` returns.
structure EncReader where
  -- the buffer we're reading from. this is nil when we're at EOF.
  buf    : Option Encbuf
  -- index of list header that we're reading
  lhpos  : Nat
  -- current position in string buffer
  strpos : Nat
  -- next piece to be read
  piece  : Option Bytes

namespace EncReader

def new (w : Encbuf) : EncReader where
  buf    := some w
  lhpos  := 0
  strpos := 0
  piece  := none

def next (r : EncReader) : Option Bytes × EncReader :=
  match r.buf, r.piece with
  | none,     _          => (none, r)
  -- There is still data available for reading.
  | some _,   some piece => (some piece, r)
  | some buf, none       =>
    match buf.lheads[r.lhpos]? with
    | some head =>
      -- We're before the last list header.
      let sizebefore := head.offset - r.strpos
      if sizebefore > 0 then
        (some ((buf.str.drop r.strpos).take sizebefore), { r with strpos := r.strpos + sizebefore })
      else
        (some head.encode, { r with lhpos := r.lhpos + 1 })
    | none =>
      -- String data at the end, after all list headers.
      if r.strpos < buf.str.length then
        (some (buf.str.drop r.strpos), { r with strpos := buf.str.length })
      else
        (none, r)

-- The loop of `Read`, for a slice with room for `room` bytes. Returns what is copied, and whether
-- the end was reached.
def read.loop : Nat → EncReader → Nat → Bytes × Bool × EncReader
  | 0,          r, _    => ([], false, r)
  | rounds + 1, r, room =>
    match r.next with
    | (none, r)       => ([], true, { r with buf := none, piece := none })
    | (some piece, r) =>
      if min room piece.length < piece.length then
        -- piece didn't fit, see you next time.
        (piece.take room, false, { r with piece := some (piece.drop room) })
      else
        let (out, eof, r) := read.loop rounds { r with piece := none } (room - piece.length)
        (piece ++ out, eof, r)

-- A piece is a header or has a byte of the string data at least, one may have been cut, and the
-- loop ends in the round after the last one.
def rounds (r : EncReader) : Nat :=
  match r.buf with
  | some buf => buf.lheads.length + buf.str.length + 2
  | none     => 1

def read (r : EncReader) (room : Nat) : Bytes × Bool × EncReader :=
  read.loop r.rounds r room

-- Reads into slices of the given lengths. Gives what was read, and whether the end was reported.
def readAll (r : EncReader) : List Nat → List (Bytes × Bool)
  | []            => []
  | room :: rooms =>
    let (out, eof, r) := r.read room
    (out, eof) :: r.readAll rooms

end EncReader

-- A call on the buffer. `listEnd` closes the list that was opened last.
inductive BufCall
  | write (b : Bytes)
  | list
  | listEnd

-- The handles of the open lists, the innermost first, are with the callers.
def BufCall.run : List BufCall → Encbuf → List Nat → Encbuf
  | [],                    w, _        => w
  | .write b :: calls,     w, lhs      => run calls (w.write b) lhs
  | .list :: calls,        w, lhs      => run calls w.list.fst (w.list.snd :: lhs)
  | .listEnd :: calls,     w, lh :: lhs => run calls (w.listEnd lh) lhs
  | .listEnd :: calls,     w, []       => run calls w []

-- A sequence of calls in which the lists are nested, and what it stands for.
inductive BufCall.Nested : List BufCall → Bytes → Prop
  | nil : Nested [] []
  | write {calls out} (b : Bytes) : Nested calls out → Nested (.write b :: calls) (b ++ out)
  | list {calls content rest out} : Nested calls content → Nested rest out →
      Nested (.list :: calls ++ .listEnd :: rest) (puthead 0xC0 0xF7 content.length ++ content ++ out)

theorem BufCall.Nested.run {calls : List BufCall} {out : Bytes} (h : BufCall.Nested calls out) :
    ∃ c : Chunk, c.Renders out ∧ ∀ w lhs rest,
      BufCall.run (calls ++ rest) w lhs = BufCall.run rest (w.append c) lhs := by
  induction h
  case nil => exact ⟨.nil, .nil, fun w lhs rest => by rw [Encbuf.append_nil]; rfl⟩
  case write calls out b _ hi =>
    obtain ⟨c, hc, hrun⟩ := hi
    refine ⟨_, (Chunk.Renders.bytes b).append hc, fun w lhs rest => ?_⟩
    rw [List.cons_append, BufCall.run, hrun, Encbuf.write_eq, Encbuf.append_append]
  case list calls content rest out _ _ hi hi' =>
    obtain ⟨c, hc, hrun⟩ := hi
    obtain ⟨d, hd, hrun'⟩ := hi'
    refine ⟨_, hc.list.append hd, fun w lhs more => ?_⟩
    rw [List.append_assoc, List.cons_append, List.cons_append, BufCall.run, hrun, BufCall.run,
      Encbuf.listEnd_append, hrun', Encbuf.append_append]

section

open Encbuf

theorem toWriter_go_eq {str : Bytes} {strpos : Nat} {heads : List ListHead}
    (h : Ordered str.length strpos heads) :
    (toWriter.go str strpos heads).flatten = pieces str strpos heads := by
  induction heads generalizing strpos
  case nil =>
    rw [toWriter.go, pieces]
    split_ifs with hlt
    · simp
    · rw [List.drop_eq_nil_of_le (by omega)]
      rfl
  case cons head heads hi =>
    have hle := h.right.le
    have hlen : ((str.drop strpos).take (head.offset - strpos)).length = head.offset - strpos := by
      simp
      omega
    have hoff : strpos + (head.offset - strpos) = head.offset := by have := h.left; omega
    simp only [toWriter.go, pieces]
    split_ifs with hlt
    · simp only [List.flatten_cons, List.flatten_nil, List.append_nil, List.cons_append,
        List.nil_append, hlen, hoff, hi h.right, List.append_assoc]
    · have hpos : strpos = head.offset := by omega
      subst hpos
      simp [hi h.right]

end

namespace EncReader

def left (r : EncReader) : Nat :=
  match r.buf with
  | none   => 0
  | some w => (w.lheads.length - r.lhpos) + (w.str.length - r.strpos) + r.piece.toList.length

theorem left_lt_rounds (r : EncReader) : r.left < r.rounds := by
  unfold left rounds
  cases r.buf
  case none => simp
  case some w =>
    have : r.piece.toList.length ≤ 1 := by cases r.piece <;> simp
    dsimp only
    omega

structure Pending (r : EncReader) (w : Encbuf) (out : Bytes) : Prop where
  buf     : r.buf = some w
  ordered : Ordered w.str.length r.strpos (w.lheads.drop r.lhpos)
  piece   : ∀ p, r.piece = some p → p ≠ []
  out     : out = r.piece.getD [] ++ Encbuf.pieces w.str r.strpos (w.lheads.drop r.lhpos)

def Unread (r : EncReader) (out : Bytes) : Prop :=
  r.buf = none ∧ out = [] ∨ ∃ w, r.Pending w out

variable {r : EncReader} {w : Encbuf} {out : Bytes}

theorem Unread.new (h : Ordered w.str.length 0 w.lheads) :
    (new w).Unread (Encbuf.pieces w.str 0 w.lheads) :=
  .inr ⟨w, rfl, h, nofun, rfl⟩

-- The piece that `next` returns is what is to be read first, and then comes what `r'` has left.
structure Piece (r r' : EncReader) (out piece rest : Bytes) : Prop where
  next  : r.next = (some piece, r')
  out   : out = piece ++ rest
  ne    : piece ≠ []
  done  : { r' with piece := none }.Unread rest
  left  : { r' with piece := none }.left < r.left
  part  : ∀ p ≠ [], { r' with piece := some p }.Unread (p ++ rest)

theorem Pending.piece_eq {p : Bytes} (h : r.Pending w out) (hp : r.piece = some p) :
    ∃ rest, r.Piece r out p rest := by
  refine ⟨_, ?_, by rw [h.out, hp]; rfl, h.piece p hp, ?_, ?_, fun q hq => ?_⟩
  · simp [next, h.buf, hp]
  · exact .inr ⟨w, h.buf, h.ordered, by rintro _ ⟨⟩, rfl⟩
  · simp [left, h.buf, hp]
  · exact .inr ⟨w, h.buf, h.ordered, by rintro _ ⟨⟩; exact hq, rfl⟩

theorem Pending.data {pos : Nat} (h : r.Pending w out) (hp : r.piece = none) (hlt : r.strpos < pos)
    (hle : pos ≤ w.str.length)
    (hnext : r.next = (some ((w.str.drop r.strpos).take (pos - r.strpos)), { r with strpos := pos }))
    (ho : Ordered w.str.length pos (w.lheads.drop r.lhpos))
    (hout : out = (w.str.drop r.strpos).take (pos - r.strpos) ++
      Encbuf.pieces w.str pos (w.lheads.drop r.lhpos)) :
    ∃ r' piece rest, r.Piece r' out piece rest := by
  refine ⟨_, _, _, hnext, hout, ?_, ?_, ?_, fun q hq => ?_⟩
  · intro hnil
    have := congrArg List.length hnil
    simp at this
    omega
  · exact .inr ⟨w, h.buf, ho, by rintro _ ⟨⟩, rfl⟩
  · simp only [left, h.buf, hp, Option.toList_none, List.length_nil]
    omega
  · exact .inr ⟨w, h.buf, ho, by rintro _ ⟨⟩; exact hq, rfl⟩

theorem Pending.next_cases (h : r.Pending w out) :
    out = [] ∧ r.next = (none, r) ∨ ∃ r' piece rest, r.Piece r' out piece rest := by
  cases hp : r.piece
  case some p => exact .inr ⟨r, p, h.piece_eq hp⟩
  have hout := h.out
  have ho := h.ordered
  have hget : w.lheads[r.lhpos]? = (w.lheads.drop r.lhpos).head? := List.head?_drop.symm
  rw [hp, Option.getD_none, List.nil_append] at hout
  cases hheads : w.lheads.drop r.lhpos
  case nil =>
    rw [hheads] at hout ho hget
    have hnext : r.next = if r.strpos < w.str.length then
        (some (w.str.drop r.strpos), { r with strpos := w.str.length }) else (none, r) := by
      simp [next, h.buf, hp, hget]
    by_cases hlt : r.strpos < w.str.length
    · rw [if_pos hlt] at hnext
      have htake : (w.str.drop r.strpos).take (w.str.length - r.strpos) = w.str.drop r.strpos := by
        rw [List.take_of_length_le (by simp)]
      refine .inr (h.data hp hlt (Nat.le_refl _) (htake.symm ▸ hnext) ?_ ?_)
      · rw [hheads]
        exact Nat.le_refl _
      · rw [hheads, htake, hout, Encbuf.pieces, Encbuf.pieces, List.drop_length, List.append_nil]
    · rw [if_neg hlt] at hnext
      refine .inl ⟨?_, hnext⟩
      rw [hout, Encbuf.pieces, List.drop_eq_nil_of_le (by omega)]
  case cons head heads =>
    have htail : w.lheads.drop (r.lhpos + 1) = heads := by
      rw [← List.tail_drop, hheads, List.tail_cons]
    rw [hheads] at hout ho hget
    obtain ⟨hle, ho⟩ := ho
    by_cases hlt : r.strpos < head.offset
    · have hnext : r.next = (some ((w.str.drop r.strpos).take (head.offset - r.strpos)),
          { r with strpos := head.offset }) := by
        have hpos : r.strpos + (head.offset - r.strpos) = head.offset := by omega
        simp [next, h.buf, hp, hget, hlt, hpos]
      refine .inr (h.data hp hlt ho.le hnext ?_ ?_)
      · rw [hheads]
        exact ⟨Nat.le_refl _, ho⟩
      · rw [hheads, hout, Encbuf.pieces, Encbuf.pieces, Nat.sub_self, List.take_zero,
          List.nil_append, List.append_assoc]
    · have hpos : r.strpos = head.offset := by omega
      have hlen : r.lhpos < w.lheads.length := by
        by_contra hge
        rw [List.drop_eq_nil_of_le (by omega)] at hheads
        cases hheads
      have hnext : r.next = (some head.encode, { r with lhpos := r.lhpos + 1 }) := by
        simp [next, h.buf, hp, hget, hpos]
      rw [Encbuf.pieces, hpos, Nat.sub_self, List.take_zero] at hout
      rw [← hpos, ← htail] at hout ho
      refine .inr ⟨_, _, _, hnext, hout, ?_, ?_, ?_, fun q hq => ?_⟩
      · intro hnil
        have := congrArg List.length hnil
        rw [ListHead.encode, puthead_length, headsize] at this
        split_ifs at this
        simp at this
      · exact .inr ⟨w, h.buf, ho, by rintro _ ⟨⟩, rfl⟩
      · simp only [left, h.buf, hp, Option.toList_none, List.length_nil]
        omega
      · exact .inr ⟨w, h.buf, ho, by rintro _ ⟨⟩; exact hq, rfl⟩

variable (h : r.Unread out)
include h

theorem Unread.next_cases :
    out = [] ∧ r.next = (none, r) ∨ ∃ r' piece rest, r.Piece r' out piece rest := by
  obtain ⟨hbuf, rfl⟩ | ⟨w, hw⟩ := h
  · exact .inl ⟨rfl, by simp [next, hbuf]⟩
  · exact hw.next_cases

theorem Unread.read_loop {rounds : Nat} (hr : r.left < rounds) (room : Nat) :
    ∃ r', read.loop rounds r room = (out.take room, decide (out.length ≤ room), r') ∧
      r'.Unread (out.drop room) := by
  induction rounds generalizing r out room
  case zero => omega
  case succ rounds hi =>
    obtain ⟨rfl, hnext⟩ | ⟨r', piece, rest, hp⟩ := h.next_cases
    · refine ⟨_, by simp [read.loop, hnext]; rfl, .inl ⟨rfl, by simp⟩⟩
    · rw [read.loop, hp.next]
      dsimp only
      split_ifs with hlt
      · have hroom : room < piece.length := by omega
        have hdrop : piece.drop room ≠ [] := by simpa using hroom
        have hlong : ¬out.length ≤ room := by simp [hp.out]; omega
        refine ⟨{ r' with piece := some (piece.drop room) }, ?_, ?_⟩
        · rw [hp.out, List.take_append_of_le_length hroom.le, ← hp.out, decide_eq_false hlong]
        · rw [hp.out, List.drop_append_of_le_length hroom.le]
          exact hp.part _ hdrop
      · have hroom : piece.length ≤ room := by omega
        obtain ⟨s, hs, hu⟩ := hi hp.done (by have := hp.left; omega) (room - piece.length)
        refine ⟨s, ?_, ?_⟩
        · rw [hs, hp.out, List.take_append, List.take_of_length_le hroom]
          simp only [List.length_append, Prod.mk.injEq, true_and, and_true, decide_eq_decide]
          omega
        · rw [hp.out, List.drop_append, List.drop_eq_nil_of_le hroom]
          exact hu

theorem Unread.read (room : Nat) :
    ∃ r', r.read room = (out.take room, decide (out.length ≤ room), r') ∧
      r'.Unread (out.drop room) :=
  h.read_loop r.left_lt_rounds room

theorem Unread.flatten_readAll (rooms : List Nat) :
    ((r.readAll rooms).map Prod.fst).flatten = out.take rooms.sum := by
  induction rooms generalizing r out
  case nil => simp [readAll]
  case cons room rooms hi =>
    obtain ⟨r', hr, hu⟩ := h.read room
    rw [readAll, hr]
    simp [hi hu, List.take_add]

theorem Unread.eof_readAll (rooms : List Nat) :
    (∃ p ∈ r.readAll rooms, p.snd = true) ↔ rooms ≠ [] ∧ out.length ≤ rooms.sum := by
  induction rooms generalizing r out
  case nil => simp [readAll]
  case cons room rooms hi =>
    obtain ⟨r', hr, hu⟩ := h.read room
    rw [readAll, hr]
    simp only [List.mem_cons, exists_eq_or_imp, decide_eq_true_eq, hi hu, List.length_drop,
      List.sum_cons, ne_eq, reduceCtorEq, not_false_eq_true, true_and]
    cases rooms
    case nil  => simp
    case cons => simp; omega

end EncReader

-- The buffer yields `out` in each of the three ways.
structure Encbuf.Yields (w : Encbuf) (out : Bytes) : Prop where
  size     : w.size = out.length
  toBytes  : w.toBytes = out
  toWriter : w.toWriter.flatten = out
  reader   : ∀ rooms, (∃ p ∈ (EncReader.new w).readAll rooms, p.snd = true) →
    (((EncReader.new w).readAll rooms).map Prod.fst).flatten = out
  eof      : ∀ rooms, rooms ≠ [] → out.length ≤ rooms.sum →
    ∃ p ∈ (EncReader.new w).readAll rooms, p.snd = true

theorem Chunk.Renders.yields {c : Chunk} {out : Bytes} (hc : c.Renders out) :
    (Encbuf.reset.append c).Yields out := by
  have hshift : c.heads.map (ListHead.shift 0) = c.heads :=
    (List.map_congr_left fun head _ => by simp [ListHead.shift]).trans (List.map_id _)
  have hw : Encbuf.reset.append c = ⟨c.str, c.heads, c.headsize⟩ := by
    simp [Encbuf.reset, Encbuf.append, hshift]
  have hbytes := hc.toBytes
  rw [hw] at hbytes ⊢
  have hr : (EncReader.new ⟨c.str, c.heads, c.headsize⟩).Unread out :=
    hc.pieces ▸ .new hc.ordered
  refine ⟨hc.size, hbytes, ?_, fun rooms hend => ?_, fun rooms hne hle => ?_⟩
  · exact (toWriter_go_eq hc.ordered).trans hc.pieces
  · rw [hr.flatten_readAll, List.take_of_length_le ((hr.eof_readAll rooms).mp hend).right]
  · exact (hr.eof_readAll rooms).mpr ⟨hne, hle⟩

section

variable {w w' : Encbuf}

theorem writeList_eq_ok {write : Encbuf → Go EncodeError Encbuf}
    (h : writeList write w = .ok w') : ∃ v v', write v = .ok v' := by
  obtain ⟨v, hv, -⟩ := Go.bind_eq_ok.mp h
  exact ⟨_, v, hv⟩

theorem writeElems_eq_ok {α : Type} {elem : α → Encbuf → Go EncodeError Encbuf} {vs : List α} (h : writeElems elem vs w = .ok w') {v : α} (hv : v ∈ vs) :
    ∃ u u', elem v u = .ok u' := by
  induction vs generalizing w
  case nil => cases hv
  case cons x xs hi =>
    obtain ⟨u, hu, hrest⟩ := Go.bind_eq_ok.mp h
    obtain rfl | hv := List.mem_cons.mp hv
    · exact ⟨w, u, hu⟩
    · exact hi hrest hv

theorem writeBigInt_eq_ok {i : Int} (h : writeBigInt i w = .ok w') :
    NonNegative i := by
  by_contra hn
  rw [writeBigInt, if_pos (Int.not_le.mp hn)] at h
  cases h

mutual

theorem encodable_of_ok : (T : Ty) → (tags : Tags) → (v : T.Val) → (w w' : Encbuf) →
    writer T tags v w = .ok w' → Encodable T v
  | .uint _, _, _, _, _, _      => trivial
  | .bool, _, _, _, _, _        => trivial
  | .bigInt, _, _, _, _, h      => writeBigInt_eq_ok h
  | .bigIntPtr, _, none, _, _, _   => nofun
  | .bigIntPtr, _, some _, _, _, h => by
    rintro _ ⟨⟩
    exact writeBigInt_eq_ok h
  | .string, _, _, _, _, _      => trivial
  | .byteSlice, _, _, _, _, _   => trivial
  | .byteArray _, _, _, _, _, _ => trivial
  | .slice elem, tags, vs, w, w', h => by
    intro v hv
    have helems : ∃ u u', writeElems (writer elem .none) vs u = .ok u' := by
      rw [writer] at h
      split_ifs at h
      · exact ⟨w, w', h⟩
      · exact writeList_eq_ok h
    obtain ⟨_, _, helems⟩ := helems
    obtain ⟨_, _, hu⟩ := writeElems_eq_ok helems hv
    exact encodable_of_ok elem .none v _ _ hu
  | .array _ e, _, vs, w, w', h => by
    intro v hv
    obtain ⟨_, _, helems⟩ := writeList_eq_ok h
    obtain ⟨_, _, hu⟩ := writeElems_eq_ok helems hv
    exact encodable_of_ok e .none v _ _ hu
  | .struct fs, _, vs, w, w', h => by
    obtain ⟨_, _, hfs⟩ := writeList_eq_ok h
    exact encodableFields_of_ok fs vs _ _ hfs
  | .ptr _, _, none, _, _, _      => nofun
  | .ptr elem, _, some v, w, w', h => by
    rintro _ ⟨⟩
    exact encodable_of_ok elem .none v w w' h
  | .interface, _, _, _, _, _   => trivial

theorem encodableFields_of_ok : (fs : Fields) → (vs : fs.Val) → (w w' : Encbuf) →
    writeFields fs vs w = .ok w' → EncodableFields fs vs
  | .nil, _, _, _, _                       => trivial
  | .cons _ tags T rest, (v, vs), w, w', h => by
    obtain ⟨u, hu, hrest⟩ := Go.bind_eq_ok.mp h
    exact ⟨encodable_of_ok T tags v w u hu, encodableFields_of_ok rest vs u w' hrest⟩

end

end

-- Whatever nested calls have been made, and whatever value the writer of its type has written.
theorem Encbuf.outputs_agree :
    (∀ calls out, BufCall.Nested calls out → (BufCall.run calls .reset []).Yields out) ∧
    ∀ (T : Ty) (v : T.Val) (w : Encbuf), T.check = .ok () → writer T .none v .reset = .ok w →
      w.Yields (encode (item T v)) := by
  constructor
  · intro calls out hcalls
    obtain ⟨c, hc, hrun⟩ := hcalls.run
    have h := hrun .reset [] []
    rw [List.append_nil] at h
    exact h ▸ hc.yields
  · intro T v w hcheck hw
    have hv := encodable_of_ok T .none v .reset w hw
    obtain ⟨c, hc, hrun⟩ := writer_spec T .none v hcheck Tags.none_tail hv
    rw [splice_none, encodeList, encodeList, List.append_nil] at hc
    obtain rfl : Encbuf.reset.append c = w := Except.ok.inj ((hrun .reset).symm.trans hw)
    exact hc.yields

-- A list of a string and an empty list, read in cuts of two bytes.
example : (EncReader.new (BufCall.run [.list, .write [0x82, 0x61, 0x62], .list, .listEnd, .listEnd]
    .reset [])).readAll [2, 2, 0, 2] =
      [([0xC4, 0x82], false), ([0x61, 0x62], false), ([], false), ([0xC0], true)] := by
  decide

end Rlp
