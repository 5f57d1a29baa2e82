import GoEthereum.Rlp.Write

-- The item that a value is written as.

namespace Rlp

-- Elements of a slice with "tail" tag are elements of the list that the slice is in.
def splice (tags : Tags) : Item → List Item
  | .list xs => if tags.tail then xs else [.list xs]
  | x        => [x]

def boolItem (b : Bool) : Item :=
  .str (if b then [1] else [])

def intItem (i : Int) : Item :=
  .str (leastBigEndian i.toNat)

def nilItem (elem : Ty) (zero : Item) : Item :=
  match elem with
  | .byteArray _ => .str []
  | .struct _    => .list []
  | .array _ _   => .list []
  | _            => zero

mutual

def item : (T : Ty) → T.Val → Item
  | .uint _,      i  => .str (leastBigEndian (i : Fin _).val)
  | .bool,        b  => boolItem b
  | .bigInt,      i  => intItem i
  | .bigIntPtr,   p  => intItem ((p : Option Int).getD 0)
  | .string,      s  => .str s
  | .byteSlice,   b  => .str b
  | .byteArray _, b  => .str b.val
  | .slice elem,  vs => .list (List.map (item elem) vs)
  | .array _ e,   vs => .list (vs.val.map (item e))
  | .struct fs,   vs => .list (fieldItems fs vs)
  | .ptr elem,    p  =>
    match (p : Option elem.Val) with
    | some v => item elem v
    | none   => nilItem elem (item elem elem.zero)
  | .interface,   p  => (p : Option Item).getD (.list [])

def fieldItems : (fs : Fields) → fs.Val → List Item
  | .nil,                _       => []
  | .cons _ tags T rest, (v, vs) => splice tags (item T v) ++ fieldItems rest vs

end

section

variable {α : Type} (P : α → Prop)

def Each (vs : List α) : Prop :=
  ∀ v ∈ vs, P v

def Held (p : Option α) : Prop :=
  ∃ v, p = some v ∧ P v

def NonNegative (i : Int) : Prop :=
  0 ≤ i

mutual

def Whole : (T : Ty) → T.Val → Prop
  | .bigInt,     i  => NonNegative i
  | .bigIntPtr,  p  => Held NonNegative p
  | .slice elem, vs => Each (Whole elem) vs
  | .array _ e,  vs => Each (Whole e) vs.val
  | .struct fs,  vs => WholeFields fs vs
  | .ptr elem,   p  => Held (Whole elem) p
  | .interface,  p  => Held (fun _ : Item => True) p
  | _,           _  => True

def WholeFields : (fs : Fields) → fs.Val → Prop
  | .nil,             _       => True
  | .cons _ _ T rest, (v, vs) => Whole T v ∧ WholeFields rest vs

end

end

def Appends (write : Encbuf → Go EncodeError Encbuf) (out : Bytes) : Prop :=
  ∃ c : Chunk, c.Renders out ∧ ∀ w, write w = .ok (w.append c)

namespace Appends

variable {write write' : Encbuf → Go EncodeError Encbuf} {out out' : Bytes}

theorem of_write {f : Encbuf → Encbuf} (hf : ∀ w, f w = w.write out) :
    Appends (fun w => pure (f w)) out := by
  refine ⟨⟨out, []⟩, .bytes out, fun w => ?_⟩
  simp only [hf, Encbuf.write_eq]
  rfl

theorem writeList (h : Appends write out) :
    Appends (writeList write) (puthead 0xC0 0xF7 out.length ++ out) := by
  obtain ⟨c, hc, hw⟩ := h
  refine ⟨c.list, hc.list, fun w => ?_⟩
  simp only [Rlp.writeList, hw, bind, Except.bind, Encbuf.listEnd_append]
  rfl

theorem append (h : Appends write out) (h' : Appends write' out') :
    Appends (fun w => write w >>= write') (out ++ out') := by
  obtain ⟨c, hc, hw⟩ := h
  obtain ⟨d, hd, hw'⟩ := h'
  refine ⟨c.append d, hc.append hd, fun w => ?_⟩
  simp only [hw, hw', bind, Except.bind, Encbuf.append_append]

theorem nil : Appends pure [] :=
  ⟨.nil, .nil, fun w => by rw [Encbuf.append_nil]; rfl⟩

end Appends

def Writes (write : Encbuf → Go EncodeError Encbuf) (xs : List Item) : Prop :=
  ∃ c : Chunk, c.Renders (encodeList xs) ∧ ∀ w, write w = .ok (w.append c)

namespace Writes

variable {write : Encbuf → Go EncodeError Encbuf} {xs : List Item}

theorem of_write {f : Encbuf → Encbuf} {b : Bytes} (hf : ∀ w, f w = w.write b)
    (hb : encodeList xs = b) : Writes (fun w => pure (f w)) xs := by
  subst hb
  exact Appends.of_write hf

theorem writeList (h : Writes write xs) : Writes (writeList write) [.list xs] := by
  have he : encodeList [.list xs] = puthead 0xC0 0xF7 (encodeList xs).length ++ encodeList xs := by
    simp [encodeList, encode]
  rw [Writes, he]
  exact Appends.writeList h

variable {write' : Encbuf → Go EncodeError Encbuf}

theorem append {ys : List Item} (h : Writes write xs)
    (h' : Writes write' ys) : Writes (fun w => write w >>= write') (xs ++ ys) := by
  have he : encodeList (xs ++ ys) = encodeList xs ++ encodeList ys := by
    simp [encodeList_eq_flatten]
  rw [Writes, he]
  exact Appends.append h h'

theorem congr (h : Writes write xs) (he : ∀ w, write' w = write w) : Writes write' xs := by
  obtain ⟨c, hc, hw⟩ := h
  exact ⟨c, hc, fun w => (he w).trans (hw w)⟩

theorem nil : Writes pure [] :=
  Appends.nil

theorem elems {α : Type} {elem : α → Encbuf → Go EncodeError Encbuf} {f : α → Item} {vs : List α}
    (h : ∀ v ∈ vs, Writes (elem v) [f v]) : Writes (writeElems elem vs) (vs.map f) := by
  induction vs
  case nil => exact nil
  case cons v vs hi =>
    exact append (h v (by simp)) (hi fun u hu => h u (by simp [hu]))

end Writes

section

theorem encodeList_str (b : Bytes) : encodeList [.str b] = encodeString b := by
  simp [encodeList, encode]

theorem writes_encodeString (b : Bytes) :
    Writes (fun w => pure (w.encodeString b)) [.str b] :=
  .of_write (fun _ => rfl) (encodeList_str b)

variable {n : Nat}

theorem leastBigEndian_eq_putint (hl : 0 < n) (hu : n < 2 ^ 64) :
    leastBigEndian n = putint n := by
  have h := eq_leastBigEndian (putint_head hl hu)
  rw [ofBigEndian_putint hu] at h
  exact h.symm

theorem encodeList_zero : encodeList [.str (leastBigEndian 0)] = [0x80] := by
  rw [leastBigEndian]
  rfl

theorem putint_of_lt (h : n < 256) : putint n = [UInt8.ofNat n] := by
  rw [putint, intsize, if_pos (by omega)]
  simp [bigEndian]

theorem writes_writeUint (h : n < 2 ^ 64) :
    Writes (fun w => pure (writeUint n w)) [.str (leastBigEndian n)] := by
  unfold writeUint
  by_cases hz : n = 0
  · subst hz
    exact .of_write (fun w => if_pos rfl) encodeList_zero
  have hl := leastBigEndian_eq_putint (Nat.pos_of_ne_zero hz) h
  obtain ⟨h₁, h₈, hlt⟩ := intsize_spec h
  by_cases hs : n < 128
  · refine .of_write (fun w => by rw [if_neg hz, if_pos hs]) ?_
    have hc : (UInt8.ofNat n).toNat < 0x80 := by simp; omega
    rw [encodeList_str, hl, putint_of_lt (by omega), encodeString_byte hc]
  · refine .of_write (fun w => by rw [if_neg hz, if_neg hs]) ?_
    have hc : ∀ c, putint n = [c] → ¬(c.toNat < 0x80) := by
      intro c hc
      have hn := ofBigEndian_putint h
      rw [hc] at hn
      simp [ofBigEndian] at hn
      omega
    rw [encodeList_str, hl, encodeString_string hc, putint_length, puthead, if_pos (by omega)]
    rfl

theorem writes_writeBool (b : Bool) : Writes (fun w => pure (writeBool b w)) [boolItem b] := by
  cases b
  case false => exact .of_write (fun w => if_neg nofun) rfl
  case true  => exact .of_write (fun w => if_pos rfl) rfl

theorem writes_writeBigInt {i : Int} (h : NonNegative i) : Writes (writeBigInt i) [intItem i] := by
  have hn : ¬(i < 0) := Int.not_lt.mpr h
  unfold writeBigInt
  split_ifs with hz
  · subst hz
    exact .of_write (fun w => rfl) encodeList_zero
  · exact writes_encodeString _

end

variable {tags : Tags} {T : Ty}

theorem isSlice_of_checkTags {name : String} {last : Bool}
    (h : checkTags name tags T last = .ok ()) :
    (tags.tail = true → last = true) ∧ (tags.tail = true → T.isSlice = true) := by
  unfold checkTags at h
  split_ifs at h with h₁ h₂
  constructor
  · intro ht
    by_contra hl
    exact h₁ ⟨ht, hl⟩
  · intro ht
    by_contra hl
    exact h₂ ⟨ht, hl⟩

theorem splice_none (x : Item) : splice .none x = [x] := by
  cases x <;> rfl

theorem splice_of_not_tail (h : tags.tail = false) (x : Item) :
    splice tags x = [x] := by
  cases x <;> simp [splice, h]

section

variable {name : String} {tags : Tags} {T : Ty} {rest : Fields}

theorem check_cons (h : (Fields.cons name tags T rest).check = .ok ()) :
    checkTags name tags T rest.isNil = .ok () ∧ T.check = .ok () ∧ rest.check = .ok () := by
  rw [Fields.check] at h
  rcases h₁ : checkTags name tags T rest.isNil with _ | ⟨⟩
  · simp [h₁, bind, Except.bind] at h
  rcases h₂ : T.check with _ | ⟨⟩
  · simp [h₁, h₂, bind, Except.bind] at h
  · exact ⟨rfl, rfl, by simpa [h₁, h₂, bind, Except.bind] using h⟩

end

theorem splice_of_not_slice (h : tags.tail = true → T.isSlice = true)
    (hT : T.isSlice = false) (x : Item) : splice tags x = [x] :=
  splice_of_not_tail (Bool.eq_false_iff.mpr fun ht => by simp [h ht] at hT) x

theorem Width.lt_of_fin (width : Width) (i : Fin (2 ^ width.bits)) : i.val < 2 ^ 64 :=
  i.isLt.trans_le (Nat.pow_le_pow_right (by omega) (by cases width <;> decide))

mutual

-- No integer that is written is negative. A pointer may be nil.
def Encodable : (T : Ty) → T.Val → Prop
  | .bigInt,     i  => NonNegative i
  | .bigIntPtr,  p  => ∀ i, p = some i → NonNegative i
  | .slice elem, vs => Each (Encodable elem) vs
  | .array _ e,  vs => Each (Encodable e) vs.val
  | .struct fs,  vs => EncodableFields fs vs
  | .ptr elem,   p  => ∀ v, p = some v → Encodable elem v
  | _,           _  => True

def EncodableFields : (fs : Fields) → fs.Val → Prop
  | .nil,             _       => True
  | .cons _ _ T rest, (v, vs) => Encodable T v ∧ EncodableFields rest vs

end

mutual

theorem Whole.encodable : (T : Ty) → (v : T.Val) → Whole T v → Encodable T v
  | .uint _, _, _      => trivial
  | .bool, _, _        => trivial
  | .bigInt, _, h      => h
  | .bigIntPtr, _, h   => by
    obtain ⟨i, rfl, hi⟩ := h
    rintro j ⟨⟩
    exact hi
  | .string, _, _      => trivial
  | .byteSlice, _, _   => trivial
  | .byteArray _, _, _ => trivial
  | .slice elem, _, h  => fun v hv => Whole.encodable elem v (h v hv)
  | .array _ e, _, h   => fun v hv => Whole.encodable e v (h v hv)
  | .struct fs, vs, h  => WholeFields.encodable fs vs h
  | .ptr elem, _, h    => by
    obtain ⟨v, rfl, hv⟩ := h
    rintro u ⟨⟩
    exact Whole.encodable elem v hv
  | .interface, _, _   => trivial

theorem WholeFields.encodable : (fs : Fields) → (vs : fs.Val) → WholeFields fs vs →
    EncodableFields fs vs
  | .nil, _, _                   => trivial
  | .cons _ _ T rest, (v, vs), h =>
    ⟨Whole.encodable T v h.left, WholeFields.encodable rest vs h.right⟩

end

mutual

theorem encodable_zero : (T : Ty) → Encodable T T.zero
  | .uint _      => trivial
  | .bool        => trivial
  | .bigInt      => Int.le_refl 0
  | .bigIntPtr   => nofun
  | .string      => trivial
  | .byteSlice   => trivial
  | .byteArray _ => trivial
  | .slice _     => nofun
  | .array _ e   => fun _ hv => List.eq_of_mem_replicate hv ▸ encodable_zero e
  | .struct fs   => encodableFields_zero fs
  | .ptr _       => nofun
  | .interface   => trivial

theorem encodableFields_zero : (fs : Fields) → EncodableFields fs fs.zero
  | .nil             => trivial
  | .cons _ _ T rest => ⟨encodable_zero T, encodableFields_zero rest⟩

end

theorem writes_nilfunc {elem : Ty} {writeZero : Encbuf → Go EncodeError Encbuf} {zero : Item}
    (h : Writes writeZero [zero]) : Writes (nilfunc elem writeZero) [nilItem elem zero] := by
  cases elem
  case byteArray => exact .of_write (fun _ => rfl) rfl
  case struct    => exact Writes.nil.writeList
  case array     => exact Writes.nil.writeList
  all_goals exact h

mutual

theorem writer_spec : (T : Ty) → (tags : Tags) → (v : T.Val) → T.check = .ok () →
    (tags.tail = true → T.isSlice = true) → Encodable T v →
    Writes (writer T tags v) (splice tags (item T v))
  | .uint width, _, i, _, _, _ => writes_writeUint (width.lt_of_fin i)
  | .bool, _, b, _, _, _ => writes_writeBool b
  | .bigInt, _, _, _, _, he => writes_writeBigInt he
  | .bigIntPtr, _, none, _, _, _ => .of_write (fun _ => rfl) encodeList_zero
  | .bigIntPtr, _, some i, _, _, he => writes_writeBigInt (he i rfl)
  | .string, tags, s, _, _, _ => writes_encodeString s
  | .byteSlice, tags, b, _, _, _ => writes_encodeString b
  | .byteArray _, tags, b, _, _, _ => writes_encodeString b.val
  | .slice elem, tags, vs, hc, _, he => by
    have h : Writes (writeElems (writer elem .none) vs) (List.map (item elem) vs) :=
      .elems fun v hv => splice_none (item elem v) ▸ writer_spec elem .none v hc nofun (he v hv)
    cases ht : tags.tail
    case false =>
      rw [splice_of_not_tail ht]
      exact h.writeList.congr fun w => by rw [writer, ht]; rfl
    case true =>
      have hx : splice tags (item (.slice elem) vs) = List.map (item elem) vs := by
        rw [item, splice, if_pos ht]
      rw [hx]
      exact h.congr fun w => by rw [writer, ht]; rfl
  | .array _ e, tags, vs, hc, hs, he => by
    rw [splice_of_not_slice hs rfl]
    have h : Writes (writeElems (writer e .none) vs.val) (vs.val.map (item e)) :=
      .elems fun v hv => splice_none (item e v) ▸ writer_spec e .none v hc nofun (he v hv)
    exact h.writeList
  | .struct fs, tags, vs, hc, hs, he => by
    rw [splice_of_not_slice hs rfl]
    exact (writeFields_spec fs vs hc he).writeList
  | .ptr elem, tags, none, hc, hs, _ => by
    rw [splice_of_not_slice hs rfl]
    have h := writer_spec elem .none elem.zero hc nofun (encodable_zero elem)
    rw [splice_none] at h
    exact writes_nilfunc h
  | .ptr elem, tags, some v, hc, hs, he => by
    rw [splice_of_not_slice hs rfl, ← splice_none]
    exact writer_spec elem .none v hc nofun (he v rfl)
  | .interface, tags, none, _, hs, _ => by
    rw [splice_of_not_slice hs rfl]
    exact .of_write (fun _ => rfl) rfl
  | .interface, tags, some x, _, hs, _ => by
    rw [splice_of_not_slice hs rfl]
    obtain ⟨c, hc, hw⟩ := writeItem_spec x
    refine ⟨c, ?_, fun w => congrArg Except.ok (hw w)⟩
    simpa [encodeList, item] using hc

theorem writeFields_spec : (fs : Fields) → (vs : fs.Val) → fs.check = .ok () →
    EncodableFields fs vs → Writes (writeFields fs vs) (fieldItems fs vs)
  | .nil, _, _, _ => .nil
  | .cons name tags T rest, (v, vs), hc, he => by
    obtain ⟨ht, hT, hr⟩ := check_cons hc
    exact .append (writer_spec T tags v hT (isSlice_of_checkTags ht).right he.left)
      (writeFields_spec rest vs hr he.right)

end

theorem Ty.encodeToBytes_eq {v : T.Val} (hc : T.check = .ok ()) (hw : Whole T v) :
    T.encodeToBytes v = .ok (encode (item T v)) := by
  obtain ⟨c, hr, h⟩ := writer_spec T .none v hc nofun (Whole.encodable T v hw)
  rw [splice_none, encodeList, encodeList, List.append_nil] at hr
  simp only [Ty.encodeToBytes, hc, h, bind, Except.bind, hr.toBytes]
  rfl

end Rlp
