import GoEthereum.Rlp.Limits
import GoEthereum.Rlp.RoundTrip

-- Values that are kept in their encoding: `Raw`, and the places of type `RawValue` in a type.

namespace Rlp

open Rlp.Stream

section

def rawBytes : Item → Bytes
  | .str [c] => if c.toNat < 0x80 then [c] else puthead 0x80 0xB8 1 ++ [c]
  | .str b   => puthead 0x80 0xB8 b.length ++ b
  | .list xs => encode (.list xs)

-- A string whose length does not fit into the first byte of its encoding.
def Long (x : Item) : Prop :=
  ∃ b, x = .str b ∧ 56 ≤ b.length

variable {x : Item} {b rest : Bytes} {s : Stream} {stack : List ListPos}

theorem rawBytes_string (h : ∀ c, b = [c] → ¬(c.toNat < 0x80)) :
    rawBytes (.str b) = puthead 0x80 0xB8 b.length ++ b := by
  unfold rawBytes
  split
  case h_1 c hc =>
    obtain rfl := Item.str.inj hc
    rw [if_neg (h c rfl)]
    rfl
  case h_2 hb => rw [Item.str.inj hb]
  case h_3 hb => cases hb

theorem puthead_eq_iff (n : Nat) : puthead 0x80 0xB8 n = puthead 0x80 0xB7 n ↔ n < 56 := by
  unfold puthead
  split_ifs with h
  · simp [h]
  · simp [h]

theorem rawBytes_length (x : Item) : (rawBytes x).length = (encode x).length := by
  obtain ⟨k, c, head, body, hp⟩ := Parts.exists_of x
  rw [hp.encode]
  cases hp
  case byte h   => simp [rawBytes, h]
  case string h => rw [rawBytes_string h, List.length_append, List.length_append, puthead_length,
    puthead_length]
  case list     => rw [rawBytes, encode]

theorem rawBytes_eq_encode_iff (x : Item) : rawBytes x = encode x ↔ ¬Long x := by
  obtain ⟨k, c, head, body, hp⟩ := Parts.exists_of x
  rw [hp.encode]
  cases hp
  case byte h   => simp [rawBytes, h, Long]
  case string h => simp [rawBytes_string h, puthead_eq_iff, Long]
  case list     => simp [rawBytes, encode, Long]

theorem raw_rawOf_ok (smalltag largetag : Nat) (hc : Cursor s (b ++ rest) stack)
    (hf : Fits stack b.length) (hl : headsize b.length + b.length < 2 ^ 63) :
    ∃ s', raw.rawOf smalltag largetag b.length s =
      (.ok (puthead smalltag largetag b.length ++ b), s') ∧ At s' rest (advance stack b.length) := by
  obtain ⟨t, ht, hat⟩ := readFull_ok hc rfl hf
  refine ⟨t, ?_, hat⟩
  rw [raw.rawOf, if_neg (by omega), Act.bind_ok ht]
  rfl

theorem decodes_raw (x : Item) : Decodes raw (rawBytes x) x := by
  intro s rest stack hb
  obtain ⟨t, k, c, head, body, hp, hk, ha⟩ := hb.ahead
  have hf := hb.fits
  have hl := hb.small
  rw [hp.encode, List.length_append] at hf hl ⊢
  rw [raw, Act.bind_ok hk]
  cases hp
  case byte h =>
    obtain ⟨t', ht', hat⟩ := rearm_ok ha.toCursor
    refine ⟨t', ?_, hat⟩
    simp only [Act.bind_ok (show Act.get t = (.ok t, t) from rfl), Act.bind_ok ht', ha.byteval rfl]
    simp [rawBytes, h]
  case string h =>
    rw [puthead_length] at hl
    obtain ⟨s', hs, hat⟩ := raw_rawOf_ok 0x80 0xB8 ha.toCursor (fits_advance.mpr hf) hl
    exact ⟨s', by rw [rawBytes_string h]; exact hs, advance_advance stack _ _ ▸ hat⟩
  case list xs =>
    rw [puthead_length] at hl
    obtain ⟨s', hs, hat⟩ := raw_rawOf_ok 0xC0 0xF7 ha.toCursor (fits_advance.mpr hf) hl
    exact ⟨s', hs, advance_advance stack _ _ ▸ hat⟩

theorem stops_raw : Stops raw :=
  stops_kindOf.bind

end

mutual

-- A type with places of type `RawValue`. What is elsewhere in it is of a type without.
inductive Shape
  | raw
  | plain  (type : Ty)
  | slice  (elem : Shape)
  | array  (len : Nat) (elem : Shape)
  | struct (fields : ShapeFields)
  | ptr    (elem : Shape)

-- A slice with "tail" tag is the last field.
inductive ShapeFields
  | nil
  | tail (name : String) (elem : Shape)
  | cons (name : String) (type : Shape) (rest : ShapeFields)

end

mutual

def Shape.Val : Shape → Type
  | .raw           => Bytes
  | .plain type    => type.Val
  | .slice elem    => List elem.Val
  | .array len e   => { vs : List e.Val // vs.length = len }
  | .struct fields => fields.Val
  | .ptr elem      => Option elem.Val

def ShapeFields.Val : ShapeFields → Type
  | .nil              => Unit
  | .tail _ elem      => List elem.Val
  | .cons _ type rest => type.Val × rest.Val

end

mutual

-- The type as it is named in errors. `RawValue` is a slice of bytes.
def Shape.ty : Shape → Ty
  | .raw           => .byteSlice
  | .plain type    => type
  | .slice elem    => .slice elem.ty
  | .array len e   => .array len e.ty
  | .struct fields => .struct fields.ty
  | .ptr elem      => .ptr elem.ty

def ShapeFields.ty : ShapeFields → Fields
  | .nil                 => .nil
  | .tail name elem      => .cons name ⟨false, true⟩ (.slice elem.ty) .nil
  | .cons name type rest => .cons name .none type.ty rest.ty

end

mutual

def Shape.zero : (S : Shape) → S.Val
  | .raw           => ([] : Bytes)
  | .plain type    => type.zero
  | .slice elem    => ([] : List elem.Val)
  | .array len e   => ⟨List.replicate len e.zero, List.length_replicate⟩
  | .struct fields => fields.zero
  | .ptr elem      => (none : Option elem.Val)

def ShapeFields.zero : (fs : ShapeFields) → fs.Val
  | .nil              => ()
  | .tail _ elem      => ([] : List elem.Val)
  | .cons _ type rest => (type.zero, rest.zero)

end

namespace Shape

def decodeRawValue : Read Bytes :=
  Stream.raw

mutual

def decoder : (S : Shape) → Read S.Val
  | .raw           => decodeRawValue
  | .plain type    => Rlp.decoder type .none
  | .slice elem    => makeSliceDecoder (Shape.slice elem).ty .none (decoder elem)
  | .array len e   => decodeListArray (Shape.array len e).ty len (decoder e)
  | .struct fields => do
    let _ ← list.mapError (wrapStreamError · (Shape.struct fields).ty)
    let v ← decodeFields (Shape.struct fields).ty fields
    listEnd.mapError (wrapStreamError · (Shape.struct fields).ty)
    pure v
  | .ptr elem      => makePtrDecoder .none (decoder elem)

def decodeFields (type : Ty) : (fs : ShapeFields) → Read fs.Val
  | .nil              => pure ()
  | .tail name elem   =>
    decodeField type name (makeSliceDecoder (Shape.slice elem).ty ⟨false, true⟩ (decoder elem))
  | .cons name T rest => do
    let v ← decodeField type name (decoder T)
    let vs ← decodeFields type rest
    pure (v, vs)

end

def decodeBytes (S : Shape) (b : Slice) : Go StreamError S.Val :=
  match S.decoder.mapError (addTarget S.ty) (Stream.new b.val) with
  | (.error e, _) => .error e
  | (.ok v, s)    => if s.input ≠ [] then Go.fail .moreThanOneValue else pure v

def writeRawValue (b : Bytes) (w : Encbuf) : Encbuf :=
  w.write b

mutual

def writer : (S : Shape) → S.Val → Encbuf → Go EncodeError Encbuf
  | .raw,         b,  w => pure (writeRawValue b w)
  | .plain type,  v,  w => Rlp.writer type .none v w
  | .slice elem,  vs, w => writeList (writeElems (writer elem) vs) w
  | .array _ e,   vs, w => writeList (writeElems (writer e) vs.val) w
  | .struct fs,   vs, w => writeList (writeFields fs vs) w
  | .ptr elem,    p,  w =>
    match (p : Option elem.Val) with
    | some v => writer elem v w
    | none   => nilfunc elem.ty (writer elem elem.zero) w

def writeFields : (fs : ShapeFields) → fs.Val → Encbuf → Go EncodeError Encbuf
  | .nil,           _,       w => pure w
  | .tail _ elem,   vs,      w => writeElems (writer elem) vs w
  | .cons _ T rest, (v, vs), w => do
    let w ← writer T v w
    writeFields rest vs w

end

def encodeToBytes (S : Shape) (v : S.Val) : Go EncodeError Bytes := do
  let w ← S.writer v .reset
  pure w.toBytes

mutual

-- The contents of the places of type `RawValue`, from left to right.
def raws : (S : Shape) → S.Val → List Bytes
  | .raw,        b  => [b]
  | .plain _,    _  => []
  | .slice elem, vs => List.flatMap (raws elem) vs
  | .array _ e,  vs => vs.val.flatMap (raws e)
  | .struct fs,  vs => fieldRaws fs vs
  | .ptr elem,   p  => (p : Option elem.Val).elim [] (raws elem)

def fieldRaws : (fs : ShapeFields) → fs.Val → List Bytes
  | .nil,           _       => []
  | .tail _ elem,   vs      => List.flatMap (raws elem) vs
  | .cons _ T rest, (v, vs) => raws T v ++ fieldRaws rest vs

end

-- A value of the type that is written as `x`, and read from it.
def Plain (T : Ty) (x : Item) : Prop :=
  ∃ v : T.Val, item T v = x ∧ T.check = .ok () ∧ Whole T v ∧ Consumed T v ∧ lingers T v = false ∧
    readBack T .none v = v

mutual

-- The item has the form that the decoder expects.
def Matches : Shape → Item → Prop
  | .raw,        _ => True
  | .plain type, x => Plain type x
  | .slice elem, x => ∃ xs, x = .list xs ∧ Each (Matches elem) xs
  | .array n e,  x => ∃ xs, x = .list xs ∧ xs.length = n ∧ Each (Matches e) xs
  | .struct fs,  x => ∃ xs, x = .list xs ∧ MatchesFields fs xs
  | .ptr elem,   x => Matches elem x

def MatchesFields : ShapeFields → List Item → Prop
  | .nil,           xs => xs = []
  | .tail _ elem,   xs => Each (Matches elem) xs
  | .cons _ T rest, xs => ∃ y ys, xs = y :: ys ∧ Matches T y ∧ MatchesFields rest ys

end

def listOf (content : Bytes) : Bytes :=
  puthead 0xC0 0xF7 content.length ++ content

def elems : Item → List Item
  | .str _   => []
  | .list xs => xs

mutual

-- The items at the places of type `RawValue`.
def places : Shape → Item → List Item
  | .raw,        x => [x]
  | .plain _,    _ => []
  | .slice elem, x => (elems x).flatMap (places elem)
  | .array _ e,  x => (elems x).flatMap (places e)
  | .struct fs,  x => fieldPlaces fs (elems x)
  | .ptr elem,   x => places elem x

def fieldPlaces : ShapeFields → List Item → List Item
  | .nil,           _  => []
  | .tail _ elem,   xs => xs.flatMap (places elem)
  | .cons _ T rest, xs =>
    match xs with
    | []      => []
    | y :: ys => places T y ++ fieldPlaces rest ys

end

mutual

-- What is written for the value that was decoded from `x`.
def rewritten : Shape → Item → Bytes
  | .raw,        x => rawBytes x
  | .plain _,    x => encode x
  | .slice elem, x => listOf ((elems x).flatMap (rewritten elem))
  | .array _ e,  x => listOf ((elems x).flatMap (rewritten e))
  | .struct fs,  x => listOf (rewrittenFields fs (elems x))
  | .ptr elem,   x => rewritten elem x

def rewrittenFields : ShapeFields → List Item → Bytes
  | .nil,           _  => []
  | .tail _ elem,   xs => xs.flatMap (rewritten elem)
  | .cons _ T rest, xs =>
    match xs with
    | []      => []
    | y :: ys => rewritten T y ++ rewrittenFields rest ys

end

-- `out` has the length of `b`, and is the same if none of the items is a long string.
structure Rebuilt (out b : Bytes) (ys : List Item) : Prop where
  length : out.length = b.length
  eq_iff : out = b ↔ ∀ y ∈ ys, ¬Long y

namespace Rebuilt

variable {out out' b b' : Bytes} {xs ys zs : List Item}

theorem refl (b : Bytes) : Rebuilt b b [] :=
  ⟨rfl, by simp⟩

theorem raw (x : Item) : Rebuilt (rawBytes x) (encode x) [x] :=
  ⟨rawBytes_length x, by simpa using rawBytes_eq_encode_iff x⟩

theorem append (h : Rebuilt out b ys) (h' : Rebuilt out' b' zs) :
    Rebuilt (out ++ out') (b ++ b') (ys ++ zs) where
  length := by rw [List.length_append, List.length_append, h.length, h'.length]
  eq_iff := by
    have hinj : out ++ out' = b ++ b' ↔ out = b ∧ out' = b' :=
      ⟨fun he => List.append_inj he h.length, fun he => by rw [he.left, he.right]⟩
    rw [hinj, h.eq_iff, h'.eq_iff, List.forall_mem_append]

theorem listOf (h : Rebuilt out b ys) : Rebuilt (listOf out) (listOf b) ys where
  length := by simp [Shape.listOf, h.length]
  eq_iff := by simp [Shape.listOf, h.length, h.eq_iff]

theorem flatMap {f : Item → Bytes} {g : Item → List Item}
    (h : ∀ x ∈ xs, Rebuilt (f x) (encode x) (g x)) :
    Rebuilt (xs.flatMap f) (encodeList xs) (xs.flatMap g) := by
  induction xs
  case nil => exact refl []
  case cons x xs hi => exact (h x (by simp)).append (hi fun y hy => h y (by simp [hy]))

end Rebuilt

mutual

theorem rebuilt : (S : Shape) → (x : Item) → Matches S x →
    Rebuilt (rewritten S x) (encode x) (places S x)
  | .raw, x, _     => .raw x
  | .plain _, x, _ => .refl (encode x)
  | .slice elem, _, h => by
    obtain ⟨xs, rfl, hxs⟩ := h
    rw [encode]
    exact (Rebuilt.flatMap fun x hx => rebuilt elem x (hxs x hx)).listOf
  | .array _ e, _, h => by
    obtain ⟨xs, rfl, -, hxs⟩ := h
    rw [encode]
    exact (Rebuilt.flatMap fun x hx => rebuilt e x (hxs x hx)).listOf
  | .struct fs, _, h => by
    obtain ⟨xs, rfl, hxs⟩ := h
    rw [encode]
    exact (rebuiltFields fs xs hxs).listOf
  | .ptr elem, x, h => rebuilt elem x h

theorem rebuiltFields : (fs : ShapeFields) → (xs : List Item) → MatchesFields fs xs →
    Rebuilt (rewrittenFields fs xs) (encodeList xs) (fieldPlaces fs xs)
  | .nil, _, h => by
    obtain rfl := h
    exact .refl []
  | .tail _ elem, _, h => .flatMap fun x hx => rebuilt elem x (h x hx)
  | .cons _ T rest, _, h => by
    obtain ⟨y, ys, rfl, hy, hys⟩ := h
    rw [encodeList]
    exact (rebuilt T y hy).append (rebuiltFields rest ys hys)

end

theorem stops_decoder : (S : Shape) → Stops S.decoder
  | .raw        => stops_raw
  | .plain type => Rlp.stops_decoder type .none Tags.none_tail
  | .slice _    => stops_makeSliceDecoder _ rfl
  | .array _ _  => (stops_list.mapError rfl).bind
  | .struct _   => (stops_list.mapError rfl).bind
  | .ptr elem   => stops_makePtrDecoder .none (stops_decoder elem)

structure Carries (S : Shape) (v : S.Val) (x : Item) : Prop where
  decodes : Decodes S.decoder v x
  raws    : S.raws v = (S.places x).map rawBytes
  appends : Appends (S.writer v) (S.rewritten x)

-- The elements `vs` of a slice of type `S` are what the items are decoded into.
structure CarriesAll (S : Shape) (vs : List S.Val) (xs : List Item) : Prop where
  decodes : List.Forall₂ (Decodes S.decoder) vs xs
  raws    : vs.flatMap S.raws = (xs.flatMap S.places).map rawBytes
  appends : Appends (writeElems S.writer vs) (xs.flatMap S.rewritten)

variable {xs : List Item}

theorem carriesAll {S : Shape} (h : ∀ x ∈ xs, ∃ v, S.Carries v x) :
    ∃ vs, S.CarriesAll vs xs := by
  induction xs
  case nil => exact ⟨[], .nil, rfl, .nil⟩
  case cons x xs hi =>
    obtain ⟨v, hv⟩ := h x (by simp)
    obtain ⟨vs, hvs⟩ := hi fun y hy => h y (by simp [hy])
    exact ⟨v :: vs, .cons hv.decodes hvs.decodes, by simp [hv.raws, hvs.raws],
      hv.appends.append hvs.appends⟩

theorem readsAll_of_forall₂ {α : Type} {dec : Read α} {vs : List α}
    (h : List.Forall₂ (Decodes dec) vs xs) : ReadsAll dec vs xs := by
  induction h
  case nil          => trivial
  case cons hv _ hi => exact ⟨hv.reads, hi⟩

-- The fields of a struct, with the end of the list that they are in.
structure CarriesFields (fs : ShapeFields) (vs : fs.Val) (xs : List Item) : Prop where
  decodes : ∀ (type : Ty) ⦃s : Stream⦄ ⦃rest : Bytes⦄ ⦃stack : List ListPos⦄ ⦃pos size : Nat⦄,
    At s (encodeList xs ++ rest) (⟨pos, size⟩ :: stack) → pos + (encodeList xs).length = size →
    size < 2 ^ 63 →
    ∃ s', decodeFields type fs s = (.ok vs, s') ∧ At s' rest (⟨size, size⟩ :: stack)
  raws    : fieldRaws fs vs = (fieldPlaces fs xs).map rawBytes
  appends : Appends (writeFields fs vs) (rewrittenFields fs xs)

theorem CarriesFields.struct {fs : ShapeFields} {vs : fs.Val}
    (h : CarriesFields fs vs xs) : Carries (.struct fs) vs (.list xs) := by
  refine ⟨?_, h.raws, h.appends.writeList⟩
  intro s rest stack hb
  obtain ⟨hf, hlt, hadv⟩ := hb.fits_list
  obtain ⟨t, ht, hat⟩ := list_ok hb
  obtain ⟨t', ht', hat'⟩ := h.decodes (Shape.struct fs).ty hat (Nat.zero_add _) hlt
  obtain ⟨s', hs, ha⟩ := listEnd_ok hat'.toCursor hf
  refine ⟨s', ?_, hadv ▸ ha⟩
  rw [decoder, Act.bind_ok (Read.mapError_ok ht), Act.bind_ok ht', Act.bind_ok (Read.mapError_ok hs)]
  rfl

theorem CarriesFields.cons {name : String} {T : Shape} {rest : ShapeFields} {v : T.Val}
    {vs : rest.Val} {y : Item} {ys : List Item} (h : T.Carries v y) (hs : CarriesFields rest vs ys) :
    CarriesFields (.cons name T rest) (v, vs) (y :: ys) := by
  refine ⟨?_, ?_, h.appends.append hs.appends⟩
  · intro type s more stack pos size ha hsize hlt
    obtain ⟨t, ht, hat⟩ := h.decodes (At.before_cons ha hsize hlt)
    rw [encodeList, List.length_append, ← Nat.add_assoc] at hsize
    obtain ⟨s', hs', ha'⟩ := hs.decodes type hat hsize hlt
    refine ⟨s', ?_, ha'⟩
    rw [decodeFields, Act.bind_ok (decodeField_ok ht), Act.bind_ok hs']
    rfl
  · rw [fieldRaws, fieldPlaces, h.raws, hs.raws, List.map_append]

theorem CarriesAll.tail {name : String} {elem : Shape} {vs : List elem.Val}
    (h : elem.CarriesAll vs xs) : CarriesFields (.tail name elem) vs xs := by
  refine ⟨?_, h.raws, h.appends⟩
  intro type s rest stack pos size ha hsize hlt
  obtain ⟨s', hs, ha'⟩ := decodeSliceElems_ok h.decodes (stops_decoder elem) ha hsize hlt
  refine ⟨s', ?_, ha'⟩
  exact decodeField_ok hs

theorem carries_raw (x : Item) : Shape.raw.Carries (rawBytes x) x :=
  ⟨decodes_raw x, rfl, .of_write fun _ => rfl⟩

mutual

theorem carries : (S : Shape) → (x : Item) → Matches S x → ∃ v, S.Carries v x
  | .raw, x, _ => ⟨rawBytes x, carries_raw x⟩
  | .plain T, x, h => by
    obtain ⟨v, rfl, hc, hw, hl, hf, hr⟩ := h
    have hd := decoder_spec T .none v hc Tags.none_tail hw hl
    rw [hf, hr] at hd
    have hs := writer_spec T .none v hc Tags.none_tail (Whole.encodable T v hw)
    rw [splice_none, Writes, encodeList, encodeList, List.append_nil] at hs
    exact ⟨v, hd.decodes, rfl, hs⟩
  | .slice elem, _, h => by
    obtain ⟨xs, rfl, hxs⟩ := h
    obtain ⟨vs, hvs⟩ := carriesAll fun x hx => carries elem x (hxs x hx)
    exact ⟨vs, decodeListSlice_ok _ hvs.decodes fun _ => stops_decoder elem, hvs.raws,
      hvs.appends.writeList⟩
  | .array n e, _, h => by
    obtain ⟨xs, rfl, hn, hxs⟩ := h
    obtain ⟨vs, hvs⟩ := carriesAll fun x hx => carries e x (hxs x hx)
    have hlen : vs.length = n := hvs.decodes.length_eq.trans hn
    exact ⟨⟨vs, hlen⟩, decodes_decodeListArray _ hlen (readsAll_of_forall₂ hvs.decodes), hvs.raws,
      hvs.appends.writeList⟩
  | .struct fs, _, h => by
    obtain ⟨xs, rfl, hxs⟩ := h
    obtain ⟨vs, hvs⟩ := carriesFields fs xs hxs
    exact ⟨vs, hvs.struct⟩
  | .ptr elem, x, h => by
    obtain ⟨v, hv⟩ := carries elem x h
    exact ⟨some v, hv.decodes.reads.map.decodes, hv.raws, hv.appends⟩

theorem carriesFields : (fs : ShapeFields) → (xs : List Item) → MatchesFields fs xs →
    ∃ vs, CarriesFields fs vs xs
  | .nil, _, h => by
    obtain rfl := h
    refine ⟨(), ?_, rfl, .nil⟩
    intro type s rest stack pos size ha hsize _
    obtain rfl : pos = size := by simpa [encodeList] using hsize
    exact ⟨s, rfl, ha⟩
  | .tail _ elem, xs, h => by
    obtain ⟨vs, hvs⟩ := carriesAll fun x hx => carries elem x (h x hx)
    exact ⟨vs, hvs.tail⟩
  | .cons _ T rest, _, h => by
    obtain ⟨y, ys, rfl, hy, hys⟩ := h
    obtain ⟨v, hv⟩ := carries T y hy
    obtain ⟨vs, hvs⟩ := carriesFields rest ys hys
    exact ⟨(v, vs), .cons hv hvs⟩

end

variable {S : Shape} {v : S.Val} {x : Item}

theorem Carries.decodeBytes_eq {b : Slice} (h : S.Carries v x) (hb : b.val = encode x) :
    S.decodeBytes b = .ok v := by
  have ha : At (Stream.new b.val) (encode x ++ []) [] := by
    rw [List.append_nil, ← hb]
    exact at_new b.val
  obtain ⟨s, hs, hat⟩ := h.decodes (ha.before trivial (hb ▸ b.property))
  rw [decodeBytes, Read.mapError_ok hs]
  exact if_neg (not_not.mpr hat.input)

theorem Carries.encodeToBytes_eq (h : S.Carries v x) : S.encodeToBytes v = .ok (S.rewritten x) := by
  obtain ⟨c, hc, hw⟩ := h.appends
  rw [encodeToBytes, hw, ← hc.toBytes]
  rfl

theorem raws_eq_iff (h : S.Carries v x) :
    S.raws v = (S.places x).map encode ↔ ∀ y ∈ S.places x, ¬Long y := by
  rw [h.raws, List.map_inj_left]
  exact forall₂_congr fun y _ => rawBytes_eq_encode_iff y

end Shape

-- The bytes are those of the input exactly where no long string is, for `Raw` at any position and for
-- a value with places of type `RawValue`.
theorem raw_exact_iff (S : Shape) (x : Item) (b : Slice) (hb : b.val = encode x)
    (hm : S.Matches x) :
    (∀ s rest stack, Before s x rest stack → ((Stream.raw s).fst = .ok (encode x) ↔ ¬Long x)) ∧
    ∃ v, S.decodeBytes b = .ok v ∧
      (S.raws v = (S.places x).map encode ↔ ∀ y ∈ S.places x, ¬Long y) ∧
      (S.encodeToBytes v = .ok b.val ↔ ∀ y ∈ S.places x, ¬Long y) := by
  constructor
  · intro s rest stack hbefore
    obtain ⟨s', hs, -⟩ := decodes_raw x hbefore
    rw [hs, ← rawBytes_eq_encode_iff, Except.ok.injEq]
  · obtain ⟨v, hv⟩ := S.carries x hm
    refine ⟨v, hv.decodeBytes_eq hb, Shape.raws_eq_iff hv, ?_⟩
    rw [hv.encodeToBytes_eq, hb, Except.ok.injEq]
    exact (S.rebuilt x hm).eq_iff

def sampleShape : Shape :=
  .struct (.cons "A" .raw (.tail "B" .raw))

def sampleItem : Item :=
  .list [.str [0x61, 0x62], .list [.str []], .str [1]]

theorem raw_exact_sample : ∃ v, sampleShape.decodeBytes ⟨encode sampleItem, by decide⟩ = .ok v ∧
    sampleShape.raws v = [[0x82, 0x61, 0x62], [0xC1, 0x80], [1]] ∧
    sampleShape.encodeToBytes v = .ok [0xC6, 0x82, 0x61, 0x62, 0xC1, 0x80, 1] := by
  have hm : sampleShape.Matches sampleItem :=
    ⟨_, rfl, _, _, rfl, trivial, fun _ _ => trivial⟩
  have hlong : ∀ y ∈ sampleShape.places sampleItem, ¬Long y := by
    simp [sampleShape, sampleItem, Shape.places, Shape.fieldPlaces, Shape.elems, Long]
  obtain ⟨-, v, hv, hraws, henc⟩ :=
    raw_exact_iff sampleShape sampleItem ⟨encode sampleItem, by decide⟩ rfl hm
  exact ⟨v, hv, hraws.mpr hlong, henc.mpr hlong⟩

-- The header of a string of 56 bytes comes back with another tag.
theorem raw_of_long :
    Shape.raw.decodeBytes ⟨0xB8 :: 56 :: List.replicate 56 0, by decide⟩ =
      .ok ((0xB9 :: 56 :: List.replicate 56 0 : Bytes)) ∧
    Shape.raw.encodeToBytes ((0xB9 :: 56 :: List.replicate 56 0 : Bytes)) =
      .ok (0xB9 :: 56 :: List.replicate 56 0) := by
  have hx : rawBytes (.str (List.replicate 56 0)) = 0xB9 :: 56 :: List.replicate 56 0 := by decide
  have hv := Shape.carries_raw (.str (List.replicate 56 0))
  exact ⟨hv.decodeBytes_eq (by decide), hv.encodeToBytes_eq.trans (congrArg Except.ok hx)⟩

end Rlp
