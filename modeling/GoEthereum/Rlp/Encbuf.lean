import GoEthereum.Rlp.Encode

-- The buffer of the encoder. List headers are kept apart from the string data, because the size of
-- a list is not known when it starts.

namespace Rlp

structure ListHead where
  offset : Nat -- index of this header in string data
  size   : Nat -- total size of encoded data (including list headers)

def ListHead.encode (head : ListHead) : Bytes :=
  puthead 0xC0 0xF7 head.size

structure Encbuf where
  str    : Bytes         -- string data, contains everything except list headers
  lheads : List ListHead -- all list headers
  lhsize : Nat           -- sum of sizes of all encoded list headers

namespace Encbuf

def reset : Encbuf where
  str    := []
  lheads := []
  lhsize := 0

def write (w : Encbuf) (b : Bytes) : Encbuf :=
  { w with str := w.str ++ b }

def encodeString (w : Encbuf) (b : Bytes) : Encbuf :=
  w.write (Rlp.encodeString b)

def list (w : Encbuf) : Encbuf × Nat :=
  ({ w with lheads := w.lheads ++ [⟨w.str.length, w.lhsize⟩] }, w.lheads.length)

def size (w : Encbuf) : Nat :=
  w.str.length + w.lhsize

def listEnd (w : Encbuf) (lh : Nat) : Encbuf :=
  match w.lheads[lh]? with
  | none      => w
  | some head =>
    let size := w.size - head.offset - head.size
    { w with lheads := w.lheads.set lh { head with size := size }, lhsize := w.lhsize + headsize size }

-- The string data from `strpos` on, with the headers between it.
def pieces (str : Bytes) : Nat → List ListHead → Bytes
  | strpos, []            => str.drop strpos
  | strpos, head :: heads =>
    (str.drop strpos).take (head.offset - strpos) ++ head.encode ++ pieces str head.offset heads

-- The pieces are copied into a slice of the size that was counted.
def toBytes (w : Encbuf) : Bytes :=
  let out := pieces w.str 0 w.lheads
  out.take w.size ++ List.replicate (w.size - out.length) 0

mutual

-- `writeInterface` for byte slices and slices of interfaces.
def writeItem : Item → Encbuf → Encbuf
  | .str b,   w => w.encodeString b
  | .list xs, w => (writeItems xs w.list.fst).listEnd w.list.snd

def writeItems : List Item → Encbuf → Encbuf
  | [],      w => w
  | x :: xs, w => writeItems xs (writeItem x w)

end

end Encbuf

def encodeToBytes (x : Item) : Bytes :=
  (Encbuf.reset.writeItem x).toBytes

-- What a finished value adds to the buffer, with the offsets of its headers counted from its start.
structure Chunk where
  str   : Bytes
  heads : List ListHead

def ListHead.shift (n : Nat) (head : ListHead) : ListHead :=
  { head with offset := n + head.offset }

namespace Chunk

def headsize (c : Chunk) : Nat :=
  (c.heads.map fun head => Rlp.headsize head.size).sum

def size (c : Chunk) : Nat :=
  c.str.length + c.headsize

def nil : Chunk := ⟨[], []⟩

def append (c d : Chunk) : Chunk :=
  ⟨c.str ++ d.str, c.heads ++ d.heads.map (ListHead.shift c.str.length)⟩

def list (c : Chunk) : Chunk :=
  ⟨c.str, ⟨0, c.size⟩ :: c.heads⟩

end Chunk

def Encbuf.append (w : Encbuf) (c : Chunk) : Encbuf where
  str    := w.str ++ c.str
  lheads := w.lheads ++ c.heads.map (ListHead.shift w.str.length)
  lhsize := w.lhsize + c.headsize

theorem Encbuf.append_append (w : Encbuf) (c d : Chunk) :
    (w.append c).append d = w.append (c.append d) := by
  simp [Encbuf.append, Chunk.append, Chunk.headsize, Function.comp_def, ListHead.shift,
    Nat.add_assoc]

theorem Encbuf.append_nil (w : Encbuf) : w.append .nil = w := by
  simp [Encbuf.append, Chunk.nil, Chunk.headsize]

theorem Encbuf.write_eq (w : Encbuf) (b : Bytes) : w.write b = w.append ⟨b, []⟩ := by
  simp [Encbuf.write, Encbuf.append, Chunk.headsize]

theorem Encbuf.listEnd_append (w : Encbuf) (c : Chunk) :
    (w.list.fst.append c).listEnd w.list.snd = w.append c.list := by
  have hget : (w.list.fst.append c).lheads[w.list.snd]? = some ⟨w.str.length, w.lhsize⟩ := by
    simp [Encbuf.list, Encbuf.append]
  have hsize : (w.list.fst.append c).size - w.str.length - w.lhsize = c.size := by
    simp only [Encbuf.size, Encbuf.append, Encbuf.list, Chunk.size, List.length_append]
    omega
  simp only [Encbuf.listEnd, hget, hsize]
  simp [Encbuf.list, Encbuf.append, Chunk.list, Chunk.headsize, ListHead.shift]
  omega

section

-- The headers are in order, from `pos` to the end of the string data.
def Ordered (n : Nat) : Nat → List ListHead → Prop
  | pos, []            => pos ≤ n
  | pos, head :: heads => pos ≤ head.offset ∧ Ordered n head.offset heads

theorem Ordered.le {n pos : Nat} {heads : List ListHead} (h : Ordered n pos heads) : pos ≤ n := by
  induction heads generalizing pos
  case nil            => exact h
  case cons head _ hi => exact h.left.trans (hi h.right)

theorem Ordered.append {m n pos : Nat} {hs gs : List ListHead} (h : Ordered m pos hs)
    (hg : Ordered n 0 gs) : Ordered (m + n) pos (hs ++ gs.map (ListHead.shift m)) := by
  have hshift {pos : Nat} {gs : List ListHead} (hg : Ordered n pos gs) :
      Ordered (m + n) (m + pos) (gs.map (ListHead.shift m)) := by
    induction gs generalizing pos
    case nil            => simp [Ordered] at hg ⊢; omega
    case cons head _ hi => exact ⟨by have := hg.left; simp [ListHead.shift]; omega, hi hg.right⟩
  induction hs generalizing pos
  case nil =>
    have hpos : pos ≤ m := h
    cases gs
    case nil         => simp [Ordered]; omega
    case cons g gs   => exact ⟨by simp [ListHead.shift]; omega, hshift hg.right⟩
  case cons head _ hi => exact ⟨h.left, hi h.right⟩

open Encbuf

theorem pieces_shift (a s : Bytes) (pos : Nat) (hs : List ListHead) :
    pieces (a ++ s) (a.length + pos) (hs.map (ListHead.shift a.length)) = pieces s pos hs := by
  induction hs generalizing pos
  case nil => simp [pieces]
  case cons head hs hi =>
    have hsub : a.length + head.offset - (a.length + pos) = head.offset - pos := by omega
    simp [pieces, ListHead.shift, hi, hsub, ListHead.encode]

theorem pieces_append {a s : Bytes} {pos : Nat} {hs gs : List ListHead} (h : Ordered a.length pos hs) :
    pieces (a ++ s) pos (hs ++ gs.map (ListHead.shift a.length)) =
      pieces a pos hs ++ pieces s 0 gs := by
  induction hs generalizing pos
  case nil =>
    have hpos : pos ≤ a.length := h
    cases gs
    case nil => simp [pieces, List.drop_append_of_le_length hpos]
    case cons head gs =>
      have hrest := pieces_shift a s head.offset gs
      have htake : ((a ++ s).drop pos).take (a.length + head.offset - pos) =
          a.drop pos ++ s.take head.offset := by
        rw [List.drop_append_of_le_length hpos, List.take_append, List.length_drop]
        rw [List.take_of_length_le (by simp; omega)]
        congr 2
        omega
      simp [pieces, ListHead.shift, htake, hrest, ListHead.encode]
  case cons head hs hi =>
    have hle := h.right.le
    have htake : ((a ++ s).drop pos).take (head.offset - pos) =
        (a.drop pos).take (head.offset - pos) := by
      rw [List.drop_append_of_le_length (h.left.trans hle), List.take_append_of_le_length (by simp; omega)]
    simp [pieces, htake, hi h.right]

-- A chunk whose headers are in order, and the bytes it stands for.
structure Chunk.Renders (c : Chunk) (b : Bytes) : Prop where
  ordered : Ordered c.str.length 0 c.heads
  pieces  : pieces c.str 0 c.heads = b
  size    : c.size = b.length

namespace Chunk.Renders

variable {c d : Chunk} {b e : Bytes}

theorem nil : Chunk.nil.Renders [] where
  ordered := by simp [Chunk.nil, Ordered]
  pieces  := rfl
  size    := rfl

theorem bytes (b : Bytes) : Chunk.Renders ⟨b, []⟩ b where
  ordered := by simp [Ordered]
  pieces  := by simp [Encbuf.pieces]
  size    := by simp [Chunk.size, Chunk.headsize]

theorem append (hc : c.Renders b) (hd : d.Renders e) : (c.append d).Renders (b ++ e) where
  ordered := by
    rw [Chunk.append, List.length_append]
    exact hc.ordered.append hd.ordered
  pieces  := by rw [Chunk.append, pieces_append hc.ordered, hc.pieces, hd.pieces]
  size    := by
    rw [List.length_append, ← hc.size, ← hd.size]
    simp [Chunk.size, Chunk.headsize, Chunk.append, Function.comp_def, ListHead.shift]
    omega

theorem list (hc : c.Renders b) : c.list.Renders (puthead 0xC0 0xF7 b.length ++ b) where
  ordered := ⟨Nat.le_refl _, hc.ordered⟩
  pieces  := by simp [Chunk.list, Encbuf.pieces, ListHead.encode, hc.pieces, hc.size]
  size    := by
    rw [List.length_append, puthead_length, ← hc.size]
    simp [Chunk.list, Chunk.size, Chunk.headsize]
    omega

theorem toBytes (hc : c.Renders b) : (Encbuf.reset.append c).toBytes = b := by
  have hpieces : Encbuf.pieces (Encbuf.reset.append c).str 0 (Encbuf.reset.append c).lheads = b := by
    have hshift : c.heads.map (ListHead.shift 0) = c.heads :=
      (List.map_congr_left fun head _ => by simp [ListHead.shift]).trans (List.map_id _)
    simp [Encbuf.reset, Encbuf.append, hshift, hc.pieces]
  have hsize : (Encbuf.reset.append c).size = b.length := by
    rw [← hc.size]
    simp [Encbuf.reset, Encbuf.append, Encbuf.size, Chunk.size]
  simp [Encbuf.toBytes, hpieces, hsize]

end Chunk.Renders

end

mutual

theorem writeItem_spec (x : Item) :
    ∃ c : Chunk, c.Renders (encode x) ∧ ∀ w, Encbuf.writeItem x w = w.append c := by
  cases x
  case str b =>
    exact ⟨⟨encodeString b, []⟩, .bytes _, fun w => by
      rw [Encbuf.writeItem, Encbuf.encodeString, Encbuf.write_eq]⟩
  case list xs =>
    obtain ⟨c, hc, hw⟩ := writeItems_spec xs
    exact ⟨c.list, hc.list, fun w => by rw [Encbuf.writeItem, hw, Encbuf.listEnd_append]⟩

theorem writeItems_spec (xs : List Item) :
    ∃ c : Chunk, c.Renders (encodeList xs) ∧ ∀ w, Encbuf.writeItems xs w = w.append c := by
  cases xs
  case nil => exact ⟨.nil, .nil, fun w => by rw [Encbuf.writeItems, Encbuf.append_nil]⟩
  case cons x xs =>
    obtain ⟨c, hc, hw⟩ := writeItem_spec x
    obtain ⟨d, hd, hws⟩ := writeItems_spec xs
    exact ⟨c.append d, hc.append hd, fun w => by
      rw [Encbuf.writeItems, hw, hws, Encbuf.append_append]⟩

end

-- The buffer yields the encoding that is defined by recursion on the value.
theorem encodeToBytes_eq (x : Item) : encodeToBytes x = encode x := by
  obtain ⟨c, hc, hw⟩ := writeItem_spec x
  rw [encodeToBytes, hw, hc.toBytes]

end Rlp
