import GoEthereum.Rlp.Cursor
import GoEthereum.Rlp.Decode
import GoEthereum.Rlp.Encbuf

-- Decoding into an interface is the inverse of encoding.

namespace Rlp

open Rlp.Stream

variable {α : Type} {dec : Read α} {s s' : Stream} {input rest : Bytes} {stack : List ListPos}

namespace Read

variable {f : StreamError → StreamError} {a : α}

theorem mapError_ok (h : dec s = (.ok a, s')) :
    dec.mapError f s = (.ok a, s') := by
  simp only [mapError, h]

theorem mapError_fail {e : StreamError}
    (h : dec s = (Go.fail e, s')) : dec.mapError f s = (Go.fail (f e), s') := by
  simp only [mapError, h, Go.fail]

theorem mapError_eq_ok :
    dec.mapError f s = (.ok a, s') ↔ dec s = (.ok a, s') := by
  unfold mapError
  split
  case h_1 h => simp [h, Go.fail]
  case h_2   => rfl

theorem orEol_ok (h : dec s = (.ok a, s')) : dec.orEol s = (.ok (some a), s') := by
  simp only [orEol, h]

theorem orEol_eol (h : dec s = (Go.fail .eol, s')) : dec.orEol s = (.ok none, s') := by
  simp only [orEol, h, Go.fail]

theorem orEol_eq_some : dec.orEol s = (.ok (some a), s') ↔ dec s = (.ok a, s') := by
  unfold orEol
  split <;> simp_all

theorem orEol_eq_none : dec.orEol s = (.ok none, s') ↔ dec s = (Go.fail .eol, s') := by
  unfold orEol
  split <;> simp_all [Go.fail]

theorem noEol_orEol : NoEol dec.orEol := by
  intro s
  unfold orEol
  split <;> simp_all [Go.fail]

end Read

section

def Decodes (dec : Read α) (v : α) (x : Item) : Prop :=
  ∀ ⦃s : Stream⦄ ⦃rest : Bytes⦄ ⦃stack : List ListPos⦄, Before s x rest stack →
    ∃ s', dec s = (.ok v, s') ∧ At s' rest (advance stack (encode x).length)

def Stops (dec : Read α) : Prop :=
  ∀ ⦃s : Stream⦄ ⦃input : Bytes⦄ ⦃stack : List ListPos⦄, At s input stack → ended stack →
    ∃ s', dec s = (Go.fail .eol, s') ∧ At s' input stack

variable {vs : List α} {xs : List Item}

theorem decodeSliceElems.loop_ok {pos size rounds i : Nat} (hd : List.Forall₂ (Decodes dec) vs xs)
    (he : Stops dec) (ha : At s (encodeList xs ++ rest) (⟨pos, size⟩ :: stack))
    (hsize : pos + (encodeList xs).length = size) (hlt : size < 2 ^ 63) (hr : xs.length < rounds) :
    ∃ s', loop dec rounds i s = (.ok vs, s') ∧ At s' rest (⟨size, size⟩ :: stack) := by
  induction hd generalizing s pos rounds i
  case nil =>
    obtain ⟨rounds, rfl⟩ := Nat.exists_eq_add_one.mpr hr
    obtain rfl : pos = size := by simpa [encodeList] using hsize
    obtain ⟨s', hs, ha'⟩ := he ha (by simp [ended])
    refine ⟨s', ?_, ha'⟩
    rw [loop, Act.bind_ok (Read.orEol_eol (Read.mapError_fail hs))]
    rfl
  case cons v x vs xs hv hvs hi =>
    obtain ⟨rounds, rfl⟩ := Nat.exists_eq_add_one.mpr (Nat.zero_lt_of_lt hr)
    simp only [encodeList, List.append_assoc, List.length_append] at ha hsize
    have hb : Before s x _ _ := ha.before ⟨by dsimp only; omega, by dsimp only; omega⟩ (by omega)
    obtain ⟨t, ht, hat⟩ := hv hb
    have hat : At t _ (⟨pos + (encode x).length, size⟩ :: stack) := hat
    obtain ⟨s', hs, ha'⟩ := hi (i := i + 1) hat (by omega) (Nat.lt_of_succ_lt_succ hr)
    refine ⟨s', ?_, ha'⟩
    rw [loop, Act.bind_ok (Read.orEol_ok (Read.mapError_ok ht))]
    simp only [Act.bind_ok hs]
    rfl

theorem decodeSliceElems_ok {pos size : Nat} (hd : List.Forall₂ (Decodes dec) vs xs)
    (he : Stops dec) (ha : At s (encodeList xs ++ rest) (⟨pos, size⟩ :: stack))
    (hsize : pos + (encodeList xs).length = size) (hlt : size < 2 ^ 63) :
    ∃ s', decodeSliceElems dec s = (.ok vs, s') ∧ At s' rest (⟨size, size⟩ :: stack) := by
  have hl := encodeList_length_ge xs
  exact decodeSliceElems.loop_ok hd he ha hsize hlt (by simp [ha.input]; omega)

theorem Stream.Before.fits_list (hb : Before s (.list xs) rest stack) :
    Fits (advance stack (headsize (encodeList xs).length)) (encodeList xs).length ∧
      (encodeList xs).length < 2 ^ 63 ∧
      advance (advance stack (headsize (encodeList xs).length)) (encodeList xs).length =
        advance stack (encode (.list xs)).length := by
  have he : (encode (.list xs)).length =
      headsize (encodeList xs).length + (encodeList xs).length := by
    rw [encode, List.length_append, puthead_length]
  have hf := hb.fits
  have hl := hb.small
  rw [he] at hf hl ⊢
  exact ⟨fits_advance.mpr hf, by omega, advance_advance ..⟩

theorem decodeListSlice_ok (type : Ty) (hd : List.Forall₂ (Decodes dec) vs xs)
    (he : xs ≠ [] → Stops dec) : Decodes (decodeListSlice type dec) vs (.list xs) := by
  intro s rest stack hb
  obtain ⟨hf, hl, hadv⟩ := hb.fits_list
  obtain ⟨t, ht, hat⟩ := list_ok hb
  rw [decodeListSlice, Act.bind_ok (Read.mapError_ok ht)]
  split_ifs with hz
  · obtain rfl : xs = [] := by
      cases xs
      case nil       => rfl
      case cons x xs => simp [encodeList, encode_ne_nil] at hz
    cases hd
    obtain ⟨s', hs, ha'⟩ := listEnd_ok hat.toCursor hf
    exact ⟨s', by rw [Act.bind_ok hs]; rfl, hadv ▸ ha'⟩
  · obtain ⟨t', ht', hat'⟩ := decodeSliceElems_ok hd (he (by rintro rfl; exact hz rfl)) hat
      (Nat.zero_add _) hl
    obtain ⟨s', hs, ha'⟩ := listEnd_ok hat'.toCursor hf
    exact ⟨s', by rw [Act.bind_ok ht', Act.bind_ok hs]; rfl, hadv ▸ ha'⟩

theorem decodeInterface.stops_rec (rounds : Nat) : Stops (rec (rounds + 1)) := by
  intro s input stack ha he
  obtain ⟨s', hs, ha'⟩ := kindOf_eol ha he
  exact ⟨s', by rw [rec, Act.bind_error hs]; rfl, ha'⟩

theorem payload_lt_of_mem {x : Item} (h : x ∈ xs) : payload x < (encodeList xs).length :=
  (payload_lt_encode x).trans_le (encode_length_le_encodeList h)

-- Induction on the depth, which the content of the value bounds.
theorem decodeInterface.rec_ok {rounds : Nat} {x : Item} (hr : payload x < rounds) :
    Decodes (rec rounds) x x := by
  induction rounds generalizing x
  case zero => omega
  case succ rounds hi =>
    intro s rest stack hb
    obtain ⟨t, k, c, head, body, hp, hk, ha, hb'⟩ := hb.kindOf
    rw [rec, Act.bind_ok hk]
    dsimp only
    cases hp
    case list xs =>
      have hd : List.Forall₂ (Decodes (rec rounds)) xs xs := by
        apply List.forall₂_same.mpr
        intro x hx
        have hlt := payload_lt_of_mem hx
        exact hi (by simp only [payload] at hr; omega)
      have he : xs ≠ [] → Stops (rec rounds) := by
        intro hne
        obtain ⟨x, hx⟩ := List.exists_mem_of_ne_nil xs hne
        have hlt := payload_lt_of_mem hx
        obtain ⟨rounds, rfl⟩ : ∃ r, rounds = r + 1 :=
          Nat.exists_eq_add_one.mpr (by simp only [payload] at hr; omega)
        exact stops_rec rounds
      obtain ⟨s', hs, ha⟩ := decodeListSlice_ok (.slice .interface) hd he hb'
      exact ⟨s', by rw [if_pos rfl, Act.bind_ok hs]; rfl, ha⟩
    all_goals
      obtain ⟨s', hs, ha⟩ := bytes_ok hb'
      exact ⟨s', by rw [if_neg (by simp), Act.bind_ok hs]; rfl, ha⟩

theorem decodeInterface_ok (x : Item) : Decodes decodeInterface x x := by
  intro s rest stack hb
  exact decodeInterface.rec_ok (Nat.lt_succ_of_le hb.payload) hb

def Accepts (dec : Read Item) : Prop :=
  ∀ ⦃s s' : Stream⦄ ⦃input : Bytes⦄ ⦃stack : List ListPos⦄ ⦃x : Item⦄,
    At s input stack → Fits stack 0 → dec s = (.ok x, s') →
      ∃ rest, input = encode x ++ rest ∧ Fits stack (encode x).length ∧
        At s' rest (advance stack (encode x).length)

def StopsOnly (dec : Read α) : Prop :=
  ∀ ⦃s s' : Stream⦄ ⦃input : Bytes⦄ ⦃stack : List ListPos⦄,
    At s input stack → Fits stack 0 → dec s = (Go.fail .eol, s') →
      ended stack ∧ At s' input stack

variable {x : Item} {b head : Bytes} {k : Kind} {c : UInt8} {n : Nat}

theorem mapError_context_eol {ctx : Context}
    (h : dec.mapError (addErrorContext · ctx) s = (Go.fail .eol, s')) :
    dec s = (Go.fail .eol, s') := by
  unfold Read.mapError at h
  split at h
  case h_1 e t hs =>
    obtain ⟨he, rfl⟩ : addErrorContext e ctx = .eol ∧ t = s' := by simpa [Go.fail] using h
    obtain rfl : e = .eol := by cases e <;> simp_all [addErrorContext]
    exact hs
  case h_2 => exact h

theorem decodeSliceElems.loop_inv {dec : Read Item} {pos size rounds i : Nat} (hd : Accepts dec)
    (he : StopsOnly dec) (ha : At s input (⟨pos, size⟩ :: stack))
    (hw : Fits (⟨pos, size⟩ :: stack) 0) (hr : loop dec rounds i s = (.ok xs, s')) :
    ∃ rest, input = encodeList xs ++ rest ∧ pos + (encodeList xs).length = size ∧
      At s' rest (⟨size, size⟩ :: stack) := by
  induction rounds generalizing s input pos i xs
  case zero => simp [loop, Act.panics, Go.panics] at hr
  case succ rounds hi =>
    obtain ⟨v | v, t, hv, hr⟩ := Act.bind_eq_ok.mp hr
    case none =>
      obtain ⟨rfl, rfl⟩ : [] = xs ∧ t = s' := by simpa using hr
      obtain ⟨hend, hat⟩ := he ha hw (mapError_context_eol (Read.orEol_eq_none.mp hv))
      obtain rfl : pos = size := by simpa [ended] using hend
      exact ⟨input, rfl, rfl, hat⟩
    case some =>
      obtain ⟨vs, t', hvs, hr⟩ := Act.bind_eq_ok.mp hr
      obtain ⟨rfl, rfl⟩ : v :: vs = xs ∧ t' = s' := by simpa using hr
      have hv := Read.mapError_eq_ok.mp (Read.orEol_eq_some.mp hv)
      obtain ⟨rest, hin, hf, hat⟩ := hd ha hw hv
      obtain ⟨rest', hin', hpos, hat'⟩ := hi hat ⟨by simpa using hf.left, hf.right⟩ hvs
      refine ⟨rest', by rw [hin, hin', encodeList, List.append_assoc], ?_, hat'⟩
      simpa [encodeList, Nat.add_assoc] using hpos

theorem bytes_inv (ha : Ahead s k n c input (advance stack head.length)) (hh : Header k n c head)
    (hf : Fits stack (head.length + n)) (hr : bytes s = (.ok b, s')) :
    ∃ rest, head ++ input = encode (.str b) ++ rest ∧ Fits stack (encode (.str b)).length ∧
      At s' rest (advance stack (encode (.str b)).length) := by
  rw [bytes, Act.bind_ok (kindOf_ahead ha)] at hr
  cases hh
  case byte h =>
    obtain ⟨t, ht, hat⟩ := rearm_ok ha.toCursor
    simp only [Act.bind_ok (show Act.get s = (.ok s, s) from rfl), Act.bind_ok ht,
      Act.pure_apply, ha.byteval rfl, Prod.mk.injEq, Except.ok.injEq] at hr
    obtain ⟨rfl, rfl⟩ := hr
    have he : encode (.str [c]) = [c] := by rw [encode, encodeString_byte h]
    exact ⟨input, by rw [he], by rwa [he], by rwa [he]⟩
  case string h =>
    dsimp only at hr
    split_ifs at hr
    · simp [Act.panics, Go.panics] at hr
    obtain ⟨b', t, hb, hr⟩ := Act.bind_eq_ok.mp hr
    split_ifs at hr with hone
    · simp [Go.fail] at hr
    obtain ⟨rfl, rfl⟩ : b'.val = b ∧ t = s' := by simpa using hr
    obtain ⟨rest, hin, hf', hat⟩ := readFull_inv ha.toCursor
      (fits_advance.mpr (hf.le (Nat.le_add_right ..))) hb
    have he : encode (.str b'.val) = puthead 0x80 0xB7 n ++ b'.val := by
      rw [encode, encodeString_string, b'.property]
      intro c hc hlt
      exact hone ⟨by rw [← b'.property, hc]; rfl, by rw [hc]; exact UInt8.lt_iff_toNat_lt.mpr hlt⟩
    have hlen : (encode (.str b'.val)).length = (puthead 0x80 0xB7 n).length + n := by
      rw [he, List.length_append, b'.property]
    refine ⟨rest, by rw [he, hin, List.append_assoc], by rwa [hlen], ?_⟩
    rw [hlen, ← advance_advance]
    exact hat
  case list h => simp [Go.fail] at hr

theorem list_ahead (ha : Ahead s .list n c input stack) :
    ∃ s', list s = (.ok n, s') ∧ At s' input (⟨0, n⟩ :: stack) := by
  rw [list, Act.bind_ok (kindOf_ahead ha)]
  exact ⟨_, rfl, ⟨ha.input, ha.limited, ha.remaining, by simp [ha.stack]⟩, rfl⟩

theorem decodeListSlice_inv {dec : Read Item} (type : Ty) (hd : Accepts dec) (he : StopsOnly dec)
    (ha : Ahead s .list n c input (advance stack head.length)) (hh : Header .list n c head)
    (hf : Fits stack (head.length + n)) (hr : decodeListSlice type dec s = (.ok xs, s')) :
    ∃ rest, head ++ input = encode (.list xs) ++ rest ∧ Fits stack (encode (.list xs)).length ∧
      At s' rest (advance stack (encode (.list xs)).length) := by
  obtain ⟨t, ht, hat⟩ := list_ahead ha
  rw [decodeListSlice, Act.bind_ok (Read.mapError_ok ht)] at hr
  -- Both branches have read the elements up to the end of the list.
  obtain ⟨t', rest, hin, hlen, hat', hend⟩ : ∃ t' rest, input = encodeList xs ++ rest ∧
      (encodeList xs).length = n ∧ At t' rest (⟨n, n⟩ :: advance stack head.length) ∧
      listEnd t' = (.ok (), s') := by
    split_ifs at hr with hz
    · obtain ⟨u, t', hl, hr⟩ := Act.bind_eq_ok.mp hr
      obtain ⟨rfl, rfl⟩ : [] = xs ∧ t' = s' := by simpa using hr
      exact ⟨t, input, rfl, hz.symm, hz ▸ hat, hl⟩
    · obtain ⟨vs, t', hl, hr⟩ := Act.bind_eq_ok.mp hr
      obtain ⟨u, t'', hl', hr⟩ := Act.bind_eq_ok.mp hr
      obtain ⟨rfl, rfl⟩ : vs = xs ∧ t'' = s' := by simpa using hr
      have hn : n < 2 ^ 64 := by cases hh; assumption
      obtain ⟨rest, hin, hpos, hat'⟩ :=
        decodeSliceElems.loop_inv hd he hat ⟨by simp, by simpa using hn⟩ hl
      exact ⟨t', rest, hin, by omega, hat', hl'⟩
  obtain ⟨_, hs, ha'⟩ := listEnd_ok hat'.toCursor (fits_advance.mpr hf)
  obtain rfl : _ = s' := congrArg Prod.snd (hs.symm.trans hend)
  cases hh
  have he : encode (.list xs) = puthead 0xC0 0xF7 n ++ encodeList xs := by rw [encode, hlen]
  have hl : (encode (.list xs)).length = (puthead 0xC0 0xF7 n).length + n := by
    rw [he, List.length_append, hlen]
  exact ⟨rest, by rw [he, hin, List.append_assoc], by rwa [hl], by rw [hl]; simpa using ha'⟩

theorem noEol_listEnd : NoEol listEnd := by
  intro s
  unfold listEnd
  split
  · simp [Go.fail]
  · split_ifs <;> simp [Go.fail]

theorem decodeSliceElems.noEol_loop {rounds i : Nat} : NoEol (loop dec rounds i) := by
  induction rounds generalizing i
  case zero => simp [NoEol, loop, Act.panics, Go.panics, Go.fail]
  case succ rounds hi =>
    refine NoEol.bind Read.noEol_orEol fun v => ?_
    cases v
    case none   => exact .pure _
    case some v => exact NoEol.bind hi fun _ => .pure _

theorem decodeListSlice_ne_eol {type : Ty} (ha : Ahead s .list n c input stack) :
    decodeListSlice type dec s ≠ (Go.fail .eol, s') := by
  obtain ⟨t, ht, _⟩ := list_ahead ha
  rw [decodeListSlice, Act.bind_ok (Read.mapError_ok ht)]
  intro h
  have h := congrArg Prod.fst h
  split_ifs at h
  · exact NoEol.bind noEol_listEnd (fun _ => .pure _) _ h
  · exact NoEol.bind decodeSliceElems.noEol_loop
      (fun _ => NoEol.bind noEol_listEnd fun _ => .pure _) _ h

theorem bytes_ne_eol (ha : Ahead s k n c input stack) : bytes s ≠ (Go.fail .eol, s') := by
  rw [bytes, Act.bind_ok (kindOf_ahead ha)]
  intro h
  have h := congrArg Prod.fst h
  cases k
  case byte => simp [Act.get, bind, rearm, Act.modify, Go.fail] at h
  case string =>
    dsimp only at h
    split_ifs at h
    · simp [Act.panics, Go.panics, Go.fail] at h
    refine NoEol.bind (noEol_readFull n) (fun b => ?_) _ h
    split_ifs
    · exact .fail (by simp)
    · exact .pure _
  case list => simp [Go.fail] at h

theorem decodeInterface.stopsOnly_rec (rounds : Nat) : StopsOnly (rec rounds) := by
  intro s s' input stack ha hw hr
  cases rounds
  case zero => simp [rec, Act.panics, Go.panics, Go.fail] at hr
  case succ rounds =>
    rcases Act.bind_eq_fail.mp hr with hk | ⟨⟨k, n⟩, t, hk, hr⟩
    · exact kindOf_eol_inv ha hk
    · obtain ⟨head, c, rest, _, _, _, hat⟩ := kindOf_inv ha hw hk
      dsimp only at hr
      split_ifs at hr with hl
      · subst hl
        rcases Act.bind_eq_fail.mp hr with hd | ⟨xs, t', _, hr⟩
        · exact absurd hd (decodeListSlice_ne_eol hat)
        · simp [Go.fail] at hr
      · rcases Act.bind_eq_fail.mp hr with hb | ⟨b, t', _, hr⟩
        · exact absurd hb (bytes_ne_eol hat)
        · simp [Go.fail] at hr

theorem decodeInterface.accepts_rec (rounds : Nat) : Accepts (rec rounds) := by
  induction rounds
  case zero =>
    intro s s' input stack x ha hw hr
    simp [rec, Act.panics, Go.panics] at hr
  case succ rounds hi =>
    intro s s' input stack x ha hw hr
    obtain ⟨⟨k, n⟩, t, hk, hr⟩ := Act.bind_eq_ok.mp hr
    obtain ⟨head, c, rest, rfl, hh, hf, hat⟩ := kindOf_inv ha hw hk
    dsimp only at hr
    split_ifs at hr with hl
    · subst hl
      obtain ⟨xs, t', hxs, hr⟩ := Act.bind_eq_ok.mp hr
      obtain ⟨rfl, rfl⟩ : Item.list xs = x ∧ t' = s' := by simpa using hr
      exact decodeListSlice_inv _ hi (stopsOnly_rec rounds) hat hh hf hxs
    · obtain ⟨b, t', hb, hr⟩ := Act.bind_eq_ok.mp hr
      obtain ⟨rfl, rfl⟩ : Item.str b = x ∧ t' = s' := by simpa using hr
      exact bytes_inv hat hh hf hb

end

theorem Ty.decodeBytes_eq_ok {T : Ty} {b : Slice} {v : T.Val} :
    T.decodeBytes b = .ok v ↔ T.check = .ok () ∧
      ∃ s, decoder T .none (Stream.new b.val) = (.ok v, s) ∧ s.input = [] := by
  unfold Ty.decodeBytes
  split
  case h_1 e he => simp [he, Go.fail]
  case h_2 he =>
    have hm (s : Stream) : decoder T .none (Stream.new b.val) = (.ok v, s) ↔
        (decoder T .none).mapError (addTarget T) (Stream.new b.val) = (.ok v, s) :=
      Read.mapError_eq_ok.symm
    simp only [he, true_and, hm]
    split
    case h_1 hd => simp [hd, Go.fail]
    case h_2 hd => simp [hd, Go.panics]
    case h_3 w s hd =>
      split_ifs with hs
      · simp only [hd, Go.fail, Prod.mk.injEq, reduceCtorEq, false_iff, not_exists]
        rintro t ⟨⟨-, rfl⟩, ht⟩
        exact hs ht
      · simp only [hd, pure, Except.pure, Prod.mk.injEq, Except.ok.injEq]
        exact ⟨fun h => ⟨s, ⟨h, rfl⟩, not_not.mp hs⟩, fun h => h.choose_spec.left.left⟩

theorem decoder_interface_eq_ok {v : Ty.interface.Val} :
    decoder .interface .none s = (.ok v, s') ↔
      ∃ x, v = some x ∧ decodeInterface s = (.ok x, s') := by
  rw [decoder]
  constructor
  case mp =>
    intro h
    obtain ⟨x, t, hx, h⟩ := Act.bind_eq_ok.mp h
    obtain ⟨hv, rfl⟩ := Prod.mk.inj h
    exact ⟨x, (Except.ok.inj hv).symm, hx⟩
  case mpr =>
    rintro ⟨x, rfl, hx⟩
    rw [Act.bind_ok hx]
    rfl

-- Every item is decoded from its encoding, and nothing else is accepted: the encoding of what is
-- returned is the input.
theorem Ty.decodeBytes_interface_iff (b : Slice) (v : Ty.interface.Val) :
    Ty.interface.decodeBytes b = .ok v ↔ ∃ x, v = some x ∧ encodeToBytes x = b.val := by
  simp only [Ty.decodeBytes_eq_ok, decoder_interface_eq_ok, encodeToBytes_eq]
  constructor
  case mp =>
    rintro ⟨-, s, ⟨x, hv, hx⟩, hs⟩
    obtain ⟨rest, hin, _, hat⟩ := decodeInterface.accepts_rec _ (at_new b.val) trivial hx
    obtain rfl : [] = rest := hs.symm.trans hat.input
    exact ⟨x, hv, by rw [hin, List.append_nil]⟩
  case mpr =>
    rintro ⟨x, rfl, hx⟩
    have ha : At (Stream.new b.val) (encode x ++ []) [] := by
      rw [List.append_nil, hx]
      exact at_new b.val
    have hl : (encode x).length < 2 ^ 63 := by
      rw [hx]
      exact b.property
    obtain ⟨s, hs, hat⟩ := decodeInterface_ok x (ha.before trivial hl)
    exact ⟨rfl, s, ⟨x, rfl, hs⟩, hat.input⟩

end Rlp
