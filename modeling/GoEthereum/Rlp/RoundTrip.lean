import GoEthereum.Rlp.Canonical
import GoEthereum.Rlp.Item

-- Decoding the encoding of a value gives the value back.

namespace Rlp

open Rlp.Stream

def Item.isEmpty : Item → Bool
  | .str b   => b.isEmpty
  | .list xs => xs.isEmpty

mutual

-- What is decoded from the encoding of a value: a pointer with "nil" tag to a value of size zero
-- comes back as nil.
def readBack : (T : Ty) → Tags → T.Val → T.Val
  | .slice elem,    _,    vs => List.map (readBack elem .none) vs
  | .array _ elem,  _,    vs => ⟨vs.val.map (readBack elem .none), by simp [vs.property]⟩
  | .struct fields, _,    vs => readBackFields fields vs
  | .ptr elem,      tags, p  =>
    match (p : Option elem.Val) with
    | none   => (none : Option elem.Val)
    | some v =>
      if tags.nilOK ∧ (item elem v).isEmpty then
        (none : Option elem.Val)
      else
        some (readBack elem .none v)
  | _,              _,    v  => v

def readBackFields : (fs : Fields) → fs.Val → fs.Val
  | .nil,                _       => ()
  | .cons _ tags T rest, (v, vs) => (readBack T tags v, readBackFields rest vs)

end

-- The stream still has the kind of the value cached after it is decoded: `decodeByteArray` does not
-- consume a zero byte.
def lingers : (T : Ty) → T.Val → Bool
  | .byteArray _, b => b.val = [0]
  | .ptr elem,    p => Option.any (lingers elem) p
  | _,            _ => false

mutual

-- No value that lingers is followed by another read in the same list. The end of a slice is found by
-- reading, so it has none at all.
def Consumed : (T : Ty) → T.Val → Prop
  | .slice elem,    vs => Each (fun v => lingers elem v = false ∧ Consumed elem v) vs
  | .array _ elem,  vs =>
    Each (Consumed elem) vs.val ∧ Each (fun v => lingers elem v = false) vs.val.dropLast
  | .struct fields, vs => ConsumedFields fields vs
  | .ptr elem,      p  => ∀ v, p = some v → Consumed elem v
  | _,              _  => True

def ConsumedFields : (fs : Fields) → fs.Val → Prop
  | .nil,             _       => True
  | .cons _ _ T rest, (v, vs) =>
    Consumed T v ∧ (rest.isNil = false → lingers T v = false) ∧ ConsumedFields rest vs

end

-- The decoder reads the item as `v`. The kind of the item is consumed if `fresh`.
def Reads {α : Type} (dec : Read α) (v : α) (x : Item) (fresh : Bool) : Prop :=
  ∀ ⦃s : Stream⦄ ⦃rest : Bytes⦄ ⦃stack : List ListPos⦄, Before s x rest stack →
    ∃ s', dec s = (.ok v, s') ∧ Cursor s' rest (advance stack (encode x).length) ∧
      (fresh = true → s'.kind = none)

variable {α β : Type} {dec : Read α} {v : α} {x : Item} {fresh : Bool}
variable {s : Stream} {rest : Bytes} {stack : List ListPos}

theorem Decodes.reads (h : Decodes dec v x) : Reads dec v x fresh := by
  intro s rest stack hb
  obtain ⟨s', hs, ha⟩ := h hb
  exact ⟨s', hs, ha.toCursor, fun _ => ha.kind⟩

theorem Reads.decodes (h : Reads dec v x true) : Decodes dec v x := by
  intro s rest stack hb
  obtain ⟨s', hs, hc, hk⟩ := h hb
  exact ⟨s', hs, hc, hk rfl⟩

theorem Reads.map {f : α → β} (h : Reads dec v x fresh) :
    Reads (dec >>= fun a => pure (f a)) (f v) x fresh := by
  intro s rest stack hb
  obtain ⟨s', hs, hc⟩ := h hb
  exact ⟨s', by rw [Act.bind_ok hs]; rfl, hc⟩

theorem Stops.bind {f : α → Read β} (h : Stops dec) : Stops (dec >>= f) := by
  intro s input stack ha he
  obtain ⟨s', hs, ha'⟩ := h ha he
  exact ⟨s', by rw [Act.bind_error hs]; rfl, ha'⟩

variable {f : StreamError → StreamError}

theorem Stops.mapError (h : Stops dec) (hf : f .eol = .eol) :
    Stops (dec.mapError f) := by
  intro s input stack ha he
  obtain ⟨s', hs, ha'⟩ := h ha he
  exact ⟨s', by rw [Read.mapError_fail hs, hf], ha'⟩

theorem Decodes.mapError (h : Decodes dec v x) :
    Decodes (dec.mapError f) v x := by
  intro s rest stack hb
  obtain ⟨s', hs, ha⟩ := h hb
  exact ⟨s', Read.mapError_ok hs, ha⟩

theorem stops_kindOf : Stops kindOf :=
  fun _ _ _ => kindOf_eol

theorem decodes_bytes (b : Bytes) : Decodes bytes b (.str b) :=
  fun _ _ _ => bytes_ok

theorem readInt_ok {n v : Nat} {s' : Stream} (h : readUint n s = (.ok v, s')) :
    readInt n s = (.ok v, s') := by
  simp only [readInt, h]

theorem decodes_uint {b : Bytes} (maxbits : Nat) (hz : b.head? ≠ some 0)
    (hl : b.length ≤ maxbits / 8) : Decodes (uint maxbits) (ofBigEndian b) (.str b) := by
  intro s rest stack hb
  obtain ⟨t, k, c, head, body, hp, hk, ha⟩ := hb.ahead
  have hf := hb.fits
  rw [hp.encode, List.length_append] at hf ⊢
  rw [uint, Act.bind_ok hk]
  cases hp
  case byte h =>
    obtain ⟨s', hs, ha'⟩ := rearm_ok ha.toCursor
    have hc : c ≠ 0 := by
      rintro rfl
      exact hz rfl
    refine ⟨s', ?_, ha'⟩
    simp only [Act.bind_ok (show Act.get t = (.ok t, t) from rfl), ha.byteval rfl, if_neg hc,
      Act.bind_ok hs]
    simp [ofBigEndian]
  case string h =>
    obtain ⟨s', hs, ha'⟩ := readUint_ok ha.toCursor rfl (fits_advance.mpr hf) fun _ => hz
    refine ⟨s', ?_, by simpa using ha'⟩
    have hbig : ¬(b.length > 0 ∧ ofBigEndian b < 128) := by
      rintro ⟨h₁, h₂⟩
      obtain ⟨c, b, rfl⟩ := List.exists_cons_of_length_pos h₁
      have hc : c ≠ 0 := fun hc => hz (by rw [hc]; rfl)
      have hge := ofBigEndian_ge hc b
      cases b
      case nil => exact h c rfl (by simpa [ofBigEndian] using h₂)
      case cons d b =>
        rw [List.length_cons] at hge
        have := Nat.one_le_pow b.length 256 (by omega)
        omega
    simp only [if_neg (Nat.not_lt.mpr hl), Act.bind_ok (readInt_ok hs), if_neg hbig]
    rfl

theorem decodes_decodeUint (width : Width) (i : Fin (2 ^ width.bits)) :
    Decodes (decodeUint width) i (.str (leastBigEndian i.val)) := by
  have hl : (leastBigEndian i.val).length ≤ width.bits / 8 := by
    apply leastBigEndian_length_le
    have hw : 2 ^ width.bits = 256 ^ (width.bits / 8) := by cases width <;> rfl
    exact hw ▸ i.isLt
  have hd : Decodes (uint width.bits) i.val (.str (leastBigEndian i.val)) := by
    have hd := decodes_uint width.bits (leastBigEndian_head i.val) hl
    rwa [ofBigEndian_leastBigEndian] at hd
  have hr : Reads _ _ _ true := (hd.mapError (f := (wrapStreamError · (.uint width)))).reads
  have h := hr.map (f := Fin.ofNat (2 ^ width.bits))
  rw [Fin.ofNat_val_eq_self] at h
  exact h.decodes

theorem decodes_decodeBool (b : Bool) : Decodes decodeBool b (boolItem b) := by
  apply Decodes.mapError
  intro s rest stack hb
  cases b
  case false =>
    obtain ⟨s', hs, ha⟩ := decodes_uint (b := []) 8 nofun (by simp) hb
    exact ⟨s', by rw [Stream.bool, Act.bind_ok hs]; rfl, ha⟩
  case true =>
    obtain ⟨s', hs, ha⟩ := decodes_uint (b := [1]) 8 nofun (by simp) hb
    exact ⟨s', by rw [Stream.bool, Act.bind_ok hs]; rfl, ha⟩

theorem decodes_decodeBigInt (type : Ty) {i : Int} (h : NonNegative i) :
    Decodes (decodeBigInt type) i (intItem i) := by
  intro s rest stack hb
  obtain ⟨s', hs, ha⟩ := (decodes_bytes _).mapError (f := (wrapStreamError · type)) hb
  refine ⟨s', ?_, ha⟩
  rw [decodeBigInt, Act.bind_ok hs, if_neg (leastBigEndian_head _), ofBigEndian_leastBigEndian,
    Int.toNat_of_nonneg h]
  rfl

theorem dropError_uint_zero {n : Nat} {input : Bytes} (ha : Ahead s .byte n 0 input stack) :
    dropError (uint 64) s = (.ok 0, s) := by
  rw [dropError, uint, Act.bind_ok (kindOf_ahead ha)]
  simp only [Act.bind_ok (show Act.get s = (.ok s, s) from rfl), ha.byteval rfl, if_true]
  rfl

theorem reads_decodeByteArray {n : Nat} (b : { b : Bytes // b.length = n }) :
    Reads (decodeByteArray n) b (.str b.val) (!decide (b.val = [0])) := by
  obtain ⟨b, rfl⟩ := b
  intro s rest stack hb
  obtain ⟨t, k, c, head, body, hp, hk, ha⟩ := hb.ahead
  have hf := hb.fits
  rw [hp.encode, List.length_append] at hf ⊢
  rw [decodeByteArray, Act.bind_ok hk]
  cases hp
  case byte h =>
    simp only [List.length_cons, List.length_nil, Nat.zero_add, dite_true]
    by_cases hc : c = 0
    · subst hc
      exact ⟨t, by rw [Act.bind_ok (dropError_uint_zero ha)]; rfl, ha.toCursor, nofun⟩
    · obtain ⟨s', hs, ha'⟩ := rearm_ok ha.toCursor
      have hu : dropError (uint 64) t = (.ok c.toNat, s') := by
        rw [dropError, uint, Act.bind_ok (kindOf_ahead ha)]
        simp only [Act.bind_ok (show Act.get t = (.ok t, t) from rfl), ha.byteval rfl, if_neg hc,
          Act.bind_ok hs]
        rfl
      refine ⟨s', ?_, ha'.toCursor, fun _ => ha'.kind⟩
      rw [Act.bind_ok hu]
      simp
  case string h =>
    obtain ⟨s', hs, ha'⟩ := readFull_ok ha.toCursor rfl (fits_advance.mpr hf)
    refine ⟨s', ?_, by simpa using ha'.toCursor, fun _ => ha'.kind⟩
    simp only [if_neg (Nat.lt_irrefl _), Act.bind_ok hs]
    rw [if_neg]
    · rfl
    · rintro ⟨h₁, h₂⟩
      obtain ⟨c, rfl⟩ := List.length_eq_one_iff.mp h₁
      exact h c rfl (UInt8.lt_iff_toNat_lt.mp h₂)

theorem isEmpty_iff {k : Kind} {c : UInt8} {head body : Bytes} (hp : Parts x k c head body) :
    x.isEmpty = true ↔ body.length = 0 ∧ k ≠ .byte := by
  cases hp
  case byte   => simp [Item.isEmpty]
  case string => simp [Item.isEmpty]
  case list xs =>
    cases xs
    case nil       => simp [Item.isEmpty, encodeList]
    case cons y ys => simp [Item.isEmpty, encodeList, encode_ne_nil]

theorem reads_decodeOptionalPtr (h : Reads dec v x fresh) :
    Reads (decodeOptionalPtr dec) (if x.isEmpty then none else some v) x fresh := by
  intro s rest stack hb
  obtain ⟨t, k, c, head, body, hp, hk, ha, hb'⟩ := hb.kindOf
  have he := isEmpty_iff hp
  simp only [decodeOptionalPtr, hk, ← he]
  split_ifs with hx
  · have hn := List.length_eq_zero_iff.mp (he.mp hx).left
    subst hn
    rw [hp.encode, List.append_nil]
    exact ⟨_, rfl, ⟨ha.input, ha.limited, ha.remaining, ha.stack⟩, fun _ => rfl⟩
  · obtain ⟨s', hs, hc⟩ := h hb'
    exact ⟨s', by rw [Act.bind_ok hs]; rfl, hc⟩

section

theorem Reads.weaken (h : Reads dec v x fresh) : Reads dec v x false := by
  intro s rest stack hb
  obtain ⟨s', hs, hc, _⟩ := h hb
  exact ⟨s', hs, hc, nofun⟩

-- The kind of the last element need not be consumed.
def ReadsAll (dec : Read α) : List α → List Item → Prop
  | [],      []      => True
  | v :: vs, x :: xs => Reads dec v x (!vs.isEmpty) ∧ ReadsAll dec vs xs
  | _,       _       => False

theorem readsAll_map {γ : Type} {f : γ → α} {g : γ → Item} {lingering : γ → Bool} {vs : List γ}
    (h : ∀ v ∈ vs, Reads dec (f v) (g v) (!lingering v))
    (hl : Each (fun v => lingering v = false) vs.dropLast) :
    ReadsAll dec (vs.map f) (vs.map g) := by
  induction vs
  case nil => trivial
  case cons v vs hi =>
    have hv := h v (by simp)
    cases vs
    case nil => exact ⟨hv.weaken, trivial⟩
    case cons u us =>
      rw [hl v (by simp)] at hv
      exact ⟨hv, hi (fun u hu => h u (by simp [hu])) fun u hu => hl u (by simp [hu])⟩

variable {vs : List α} {xs : List Item} {pos size : Nat}

theorem At.before_cons {x : Item} (ha : At s (encodeList (x :: xs) ++ rest) (⟨pos, size⟩ :: stack))
    (hsize : pos + (encodeList (x :: xs)).length = size) (hlt : size < 2 ^ 63) :
    Before s x (encodeList xs ++ rest) (⟨pos, size⟩ :: stack) := by
  simp only [encodeList, List.append_assoc, List.length_append] at ha hsize
  exact ha.before ⟨by dsimp only; omega, by dsimp only; omega⟩ (by omega)

theorem decodeListArray.loop_ok {i : Nat} (hd : ReadsAll dec vs xs)
    (ha : At s (encodeList xs ++ rest) (⟨pos, size⟩ :: stack))
    (hsize : pos + (encodeList xs).length = size) (hlt : size < 2 ^ 63) :
    ∃ s', loop dec vs.length i s = (.ok vs, s') ∧ Cursor s' rest (⟨size, size⟩ :: stack) := by
  induction vs generalizing s xs pos i
  case nil =>
    cases xs
    case nil =>
      obtain rfl : pos = size := by simpa [encodeList] using hsize
      exact ⟨s, rfl, ha.toCursor⟩
    case cons => exact hd.elim
  case cons v vs hi =>
    cases xs
    case nil => exact hd.elim
    case cons x xs =>
      obtain ⟨hv, hvs⟩ := hd
      obtain ⟨t, ht, hc, hk⟩ := hv (At.before_cons ha hsize hlt)
      rw [encodeList, List.length_append, ← Nat.add_assoc] at hsize
      obtain ⟨s', hs, hc'⟩ : ∃ s', loop dec vs.length (i + 1) t = (.ok vs, s') ∧
          Cursor s' rest (⟨size, size⟩ :: stack) := by
        cases vs
        case nil =>
          cases xs
          case nil =>
            obtain rfl : pos + (encode x).length = size := by simpa [encodeList] using hsize
            exact ⟨t, rfl, hc⟩
          case cons => exact hvs.elim
        case cons => exact hi hvs ⟨hc, hk rfl⟩ hsize
      refine ⟨s', ?_, hc'⟩
      rw [List.length_cons, loop, Act.bind_ok (Read.orEol_ok (Read.mapError_ok ht))]
      simp only [Act.bind_ok hs]
      rfl

theorem decodes_decodeListArray (type : Ty) {n : Nat} (hn : vs.length = n)
    (hd : ReadsAll dec vs xs) : Decodes (decodeListArray type n dec) ⟨vs, hn⟩ (.list xs) := by
  subst hn
  intro s rest stack hb
  obtain ⟨hf, hl, hadv⟩ := hb.fits_list
  obtain ⟨t, ht, hat⟩ := list_ok hb
  obtain ⟨t', ht', hc⟩ := decodeListArray.loop_ok (i := 0) hd hat (Nat.zero_add _) hl
  obtain ⟨s', hs, ha'⟩ := listEnd_ok hc hf
  refine ⟨s', ?_, hadv ▸ ha'⟩
  rw [decodeListArray, Act.bind_ok (Read.mapError_ok ht), Act.bind_ok ht', dif_pos rfl,
    Act.bind_ok (Read.mapError_ok hs)]
  rfl

theorem decodeField_ok {type : Ty} {name : String} {s' : Stream} (h : dec s = (.ok v, s')) :
    decodeField type name dec s = (.ok v, s') := by
  rw [decodeField, Act.bind_ok (Read.orEol_ok (Read.mapError_ok h))]
  rfl

end

theorem stops_list : Stops list :=
  stops_kindOf.bind

theorem stops_bytes : Stops bytes :=
  stops_kindOf.bind

theorem stops_decodeInterface : Stops decodeInterface :=
  fun s _ _ ha he => decodeInterface.stops_rec s.input.length ha he

theorem stops_decodeOptionalPtr : Stops (decodeOptionalPtr dec) := by
  intro s input stack ha he
  obtain ⟨s', hs, ha'⟩ := kindOf_eol ha he
  refine ⟨{ s' with kind := none }, ?_, ⟨ha'.input, ha'.limited, ha'.remaining, ha'.stack⟩, rfl⟩
  simp only [decodeOptionalPtr, hs, Go.fail]

theorem stops_makePtrDecoder (tags : Tags) (h : Stops dec) : Stops (makePtrDecoder tags dec) := by
  unfold makePtrDecoder
  split_ifs
  · exact stops_decodeOptionalPtr
  · exact h.bind

theorem stops_makeSliceDecoder (type : Ty) {tags : Tags} (ht : tags.tail = false) :
    Stops (makeSliceDecoder type tags dec) := by
  rw [makeSliceDecoder, if_neg (by simp [ht])]
  exact (stops_list.mapError rfl).bind

theorem stops_decoder : (T : Ty) → (tags : Tags) → (tags.tail = true → ∀ e, T ≠ .slice e) →
    Stops (decoder T tags)
  | .uint width, _, _ => by
    exact ((Stops.bind stops_kindOf).mapError rfl).bind
  | .bool, _, _ => by
    exact ((Stops.bind stops_kindOf).bind).mapError rfl
  | .bigInt, _, _ => by
    exact (stops_bytes.mapError rfl).bind
  | .bigIntPtr, _, _ => by
    exact ((stops_bytes.mapError rfl).bind).bind
  | .string, _, _ => by
    exact stops_bytes.mapError rfl
  | .byteSlice, _, _ => by
    exact stops_bytes.mapError rfl
  | .byteArray _, _, _ => by
    exact stops_kindOf.bind
  | .slice elem, tags, ht => by
    exact stops_makeSliceDecoder _ (Bool.eq_false_iff.mpr fun h => ht h elem rfl)
  | .array _ _, _, _ => by
    exact (stops_list.mapError rfl).bind
  | .struct _, _, _ => by
    exact (stops_list.mapError rfl).bind
  | .ptr elem, tags, _ => by
    exact stops_makePtrDecoder tags (stops_decoder elem .none (by simp [Tags.none]))
  | .interface, _, _ => by
    exact stops_decodeInterface.bind

theorem reads_makePtrDecoder (tags : Tags) (h : Reads dec v x fresh) :
    Reads (makePtrDecoder tags dec) (if tags.nilOK ∧ x.isEmpty then none else some v) x fresh := by
  unfold makePtrDecoder
  cases ht : tags.nilOK
  case false => simpa using h.map
  case true  => simpa using reads_decodeOptionalPtr h

theorem forall₂_decodes {γ : Type} {f : γ → α} {g : γ → Item} {lingering : γ → Bool} {vs : List γ}
    (h : ∀ v ∈ vs, Reads dec (f v) (g v) (!lingering v)) (hl : ∀ v ∈ vs, lingering v = false) :
    List.Forall₂ (Decodes dec) (vs.map f) (vs.map g) := by
  rw [List.forall₂_map_left_iff, List.forall₂_map_right_iff, List.forall₂_same]
  intro v hv
  have hr := h v hv
  rw [hl v hv] at hr
  exact hr.decodes

theorem splice_item {name : String} {tags : Tags} {T : Ty} {last : Bool} (v : T.Val)
    (hc : checkTags name tags T last = .ok ()) (ht : tags.tail = true → ∀ e, T ≠ .slice e) :
    splice tags (item T v) = [item T v] := by
  cases h : tags.tail
  case false => exact splice_of_not_tail h _
  case true =>
    have hs := (isSlice_of_checkTags hc).right h
    cases T
    case byteSlice => rfl
    case slice e   => exact absurd rfl (ht h e)
    all_goals simp [Ty.isSlice] at hs

mutual

theorem decoder_spec : (T : Ty) → (tags : Tags) → (v : T.Val) → T.check = .ok () →
    (tags.tail = true → ∀ e, T ≠ .slice e) → Whole T v → Consumed T v →
    Reads (decoder T tags) (readBack T tags v) (item T v) (!lingers T v)
  | .uint width, _, i, _, _, _, _ => (decodes_decodeUint width i).reads
  | .bool, _, b, _, _, _, _ => (decodes_decodeBool b).reads
  | .bigInt, _, i, _, _, hw, _ => (decodes_decodeBigInt .bigInt hw).reads
  | .bigIntPtr, _, p, _, _, hw, _ => by
    obtain ⟨i, rfl, hi⟩ := hw
    exact (decodes_decodeBigInt .bigIntPtr hi).reads.map
  | .string, _, s, _, _, _, _ => (decodes_bytes s).mapError.reads
  | .byteSlice, _, b, _, _, _, _ => (decodes_bytes b).mapError.reads
  | .byteArray _, _, b, _, _, _, _ => reads_decodeByteArray b
  | .slice elem, tags, vs, hc, ht, hw, hl => by
    have hd := forall₂_decodes
      (fun v hv => decoder_spec elem .none v hc nofun (hw v hv) (hl v hv).right)
      fun v hv => (hl v hv).left
    have h := decodeListSlice_ok (.slice elem) hd fun _ => stops_decoder elem .none (by simp [Tags.none])
    have he : decoder (.slice elem) tags = decodeListSlice (.slice elem) (decoder elem .none) :=
      if_neg fun h => ht h elem rfl
    rw [he]
    exact h.reads
  | .array _ e, _, vs, hc, _, hw, hl =>
    (decodes_decodeListArray _ (by simp [vs.property]) <| readsAll_map
      (fun v hv => decoder_spec e .none v hc nofun (hw v hv) (hl.left v hv)) hl.right).reads
  | .struct fs, _, vs, hc, _, hw, hl => by
    refine Decodes.reads ?_
    intro s rest stack hb
    obtain ⟨hf, hlt, hadv⟩ := hb.fits_list
    obtain ⟨t, ht, hat⟩ := list_ok hb
    obtain ⟨t', ht', hcur⟩ := decodeFields_spec (.struct fs) fs vs hc hw hl hat (Nat.zero_add _) hlt
    obtain ⟨s', hs, ha⟩ := listEnd_ok hcur hf
    refine ⟨s', ?_, hadv ▸ ha⟩
    rw [decoder, Act.bind_ok (Read.mapError_ok ht), Act.bind_ok ht',
      Act.bind_ok (Read.mapError_ok hs)]
    rfl
  | .ptr elem, tags, p, hc, _, hw, hl => by
    obtain ⟨v, rfl, hv⟩ := hw
    exact reads_makePtrDecoder tags (decoder_spec elem .none v hc nofun hv (hl v rfl))
  | .interface, _, p, _, _, hw, _ => by
    obtain ⟨x, rfl, -⟩ := hw
    exact (decodeInterface_ok x).reads.map

theorem decodeFields_spec (type : Ty) : (fs : Fields) → (vs : fs.Val) → fs.check = .ok () →
    WholeFields fs vs → ConsumedFields fs vs → ∀ {s rest stack pos size},
    At s (encodeList (fieldItems fs vs) ++ rest) (⟨pos, size⟩ :: stack) →
    pos + (encodeList (fieldItems fs vs)).length = size → size < 2 ^ 63 →
    ∃ s', decodeFields type fs s = (.ok (readBackFields fs vs), s') ∧
      Cursor s' rest (⟨size, size⟩ :: stack)
  | .nil, _, _, _, _, s, rest, stack, pos, size, ha, hsize, _ => by
    obtain rfl : pos = size := by simpa [encodeList, fieldItems] using hsize
    exact ⟨s, rfl, ha.toCursor⟩
  | .cons name tags T fs, (v, vs), hc, hw, hl, s, rest, stack, pos, size, ha, hsize, hlt => by
    obtain ⟨htag, hT, hr⟩ := check_cons hc
    rw [decodeFields]
    by_cases htail : tags.tail = true ∧ ∃ e, T = .slice e
    · -- The elements of the slice are the rest of the list.
      obtain ⟨ht, e, rfl⟩ := htail
      have hnil := (isSlice_of_checkTags htag).left ht
      cases fs
      case cons => simp [Fields.isNil] at hnil
      have hd := forall₂_decodes
        (fun v hv => decoder_spec e .none v hT nofun (hw.left v hv) (hl.left v hv).right)
        fun v hv => (hl.left v hv).left
      have hx : fieldItems (.cons name tags (.slice e) .nil) (v, vs) = List.map (item e) v := by
        rw [fieldItems, item, splice, if_pos ht, fieldItems, List.append_nil]
      rw [hx] at ha hsize
      obtain ⟨s', hs, ha'⟩ :=
        decodeSliceElems_ok hd (stops_decoder e .none nofun) ha hsize hlt
      have he : decoder (.slice e) tags = decodeSliceElems (decoder e .none) := if_pos ht
      rw [← he] at hs
      exact ⟨s', by rw [Act.bind_ok (decodeField_ok hs)]; rfl, ha'.toCursor⟩
    · have hns : tags.tail = true → ∀ e, T ≠ .slice e := fun ht e h => htail ⟨ht, e, h⟩
      have hx : fieldItems (.cons name tags T fs) (v, vs) = item T v :: fieldItems fs vs := by
        rw [fieldItems, splice_item v htag hns]
        rfl
      rw [hx] at ha hsize
      have hd := decoder_spec T tags v hT hns hw.left hl.left
      obtain ⟨t, ht, hcur, hk⟩ := hd (At.before_cons ha hsize hlt)
      rw [encodeList, List.length_append, ← Nat.add_assoc] at hsize
      have hcur : Cursor t _ (⟨pos + (encode (item T v)).length, size⟩ :: stack) := hcur
      rw [Act.bind_ok (decodeField_ok ht)]
      obtain ⟨s', hs, hcur'⟩ : ∃ s', decodeFields type fs t = (.ok (readBackFields fs vs), s') ∧
          Cursor s' rest (⟨size, size⟩ :: stack) := by
        cases hn : fs.isNil
        case false =>
          have hfresh := hk (by simp [hl.right.left hn])
          exact decodeFields_spec type fs vs hr hw.right hl.right.right ⟨hcur, hfresh⟩ hsize hlt
        case true =>
          cases fs
          case cons => simp [Fields.isNil] at hn
          obtain rfl : pos + (encode (item T v)).length = size := by
            simpa [encodeList, fieldItems] using hsize
          exact ⟨t, rfl, hcur⟩
      exact ⟨s', by rw [Act.bind_ok hs]; rfl, hcur'⟩

end

theorem decodeBytes_encode_item {T : Ty} {v : T.Val} (hT : T.check = .ok ()) (hw : Whole T v)
    (hl : Consumed T v) (h : (encode (item T v)).length < 2 ^ 63) :
    T.decodeBytes ⟨encode (item T v), h⟩ = .ok (readBack T .none v) := by
  have ha : At (Stream.new (encode (item T v))) (encode (item T v) ++ []) [] := by
    rw [List.append_nil]
    exact at_new _
  obtain ⟨s, hs, hc, _⟩ := decoder_spec T .none v hT nofun hw hl (ha.before trivial h)
  exact Ty.decodeBytes_eq_ok.mpr ⟨hT, s, hs, hc.input⟩

-- The encoding of a value is decoded to the value, up to pointers with "nil" tag.
theorem Ty.decodeBytes_encodeToBytes (T : Ty) (v : T.Val) (hT : T.check = .ok ()) (hw : Whole T v)
    (hl : Consumed T v) :
    ∃ b, T.encodeToBytes v = .ok b ∧
      ∀ h : b.length < 2 ^ 63, T.decodeBytes ⟨b, h⟩ = .ok (readBack T .none v) :=
  ⟨_, Ty.encodeToBytes_eq hT hw, decodeBytes_encode_item hT hw hl⟩

def sampleTy : Ty :=
  .struct (.cons "Flag" .none (.byteArray 1) (.cons "Rest" ⟨false, true⟩ (.slice .bigInt) .nil))

def sampleVal : sampleTy.Val :=
  (⟨[7], rfl⟩, ([0, 1024] : List Int), ())

theorem decodeBytes_encodeToBytes_sample :
    ∃ b, sampleTy.encodeToBytes sampleVal = .ok b ∧
      ∀ h : b.length < 2 ^ 63, sampleTy.decodeBytes ⟨b, h⟩ = .ok (readBack sampleTy .none sampleVal) := by
  have hw : Each NonNegative [0, 1024] := by simp [Each, NonNegative]
  exact Ty.decodeBytes_encodeToBytes sampleTy sampleVal rfl ⟨trivial, hw, trivial⟩
    ⟨trivial, fun _ => rfl, fun _ _ => ⟨rfl, trivial⟩, nofun, trivial⟩

def emptyOK : Ty :=
  .struct (.cons "Foo" ⟨true, false⟩ (.ptr .bool) .nil)

-- A pointer to `false` is not nil, but it comes back as nil.
theorem decodeBytes_nil_of_empty :
    emptyOK.encodeToBytes (some false, ()) = .ok [0xC1, 0x80] ∧
    emptyOK.decodeBytes ⟨[0xC1, 0x80], by simp⟩ = .ok (none, ()) ∧
    ((none, ()) : Option Bool × Unit) ≠ (some false, ()) := by
  have hw : Whole emptyOK (some false, ()) := ⟨⟨false, rfl, trivial⟩, trivial⟩
  have hl : Consumed emptyOK (some false, ()) := ⟨fun _ _ => trivial, nofun, trivial⟩
  exact ⟨Ty.encodeToBytes_eq rfl hw, decodeBytes_encode_item rfl hw hl (by decide), by simp⟩

end Rlp
