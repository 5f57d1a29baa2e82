import GoEthereum.Rlp.Decode

-- Reading from a stream only ever takes from its input.

namespace Rlp

open Rlp.Stream

-- No call puts anything back into the input.
def Consumes {α : Type} (x : Read α) : Prop :=
  ∀ s, (x s).snd.input.length ≤ s.input.length

namespace Consumes

variable {α β : Type} {x : Read α} {f : α → Read β}

theorem of_eq {s s' : Stream} {r : Go StreamError α} (hx : Consumes x) (h : x s = (r, s')) :
    s'.input.length ≤ s.input.length := by
  have hl := hx s
  rwa [h] at hl

theorem bind (hx : Consumes x) (hf : ∀ a, Consumes (f a)) : Consumes (x >>= f) := by
  intro s
  cases hr : x s
  case mk r t =>
  have hl := hx.of_eq hr
  cases r
  case error e => rw [Act.bind_error hr]; exact hl
  case ok a =>
    rw [Act.bind_ok hr]
    exact (hf a t).trans hl

theorem pure (a : α) : Consumes (pure a : Read α) :=
  fun _ => le_rfl

theorem fail (e : StreamError) : Consumes (Act.fail e : Read α) :=
  fun _ => le_rfl

theorem get : Consumes (Act.get : Read Stream) :=
  fun _ => le_rfl

theorem modify {g : Stream → Stream} (h : ∀ s, (g s).input = s.input) :
    Consumes (Act.modify g : Read Unit) :=
  fun s => (congrArg List.length (h s)).le

theorem mapError {g : StreamError → StreamError} (hx : Consumes x) : Consumes (x.mapError g) := by
  intro s
  have hl := hx s
  unfold Read.mapError
  split
  case h_1 h => rwa [h] at hl
  case h_2   => exact hl

theorem orEol (hx : Consumes x) : Consumes x.orEol := by
  intro s
  have hl := hx s
  unfold Read.orEol
  split <;> simp_all

end Consumes

theorem consumes_rearm : Consumes rearm :=
  .modify fun _ => rfl

theorem consumes_willRead (n : Nat) : Consumes (willRead n) := by
  refine consumes_rearm.bind fun _ => Consumes.bind (fun s => ?_) fun _ s => ?_
  case refine_1 =>
    unfold willReadList
    split
    case h_1 => exact le_rfl
    case h_2 => split <;> exact le_rfl
  case refine_2 =>
    unfold willReadLimit
    split_ifs <;> exact le_rfl

theorem consumes_readFull (n : Nat) : Consumes (readFull n) := by
  refine (consumes_willRead n).bind fun _ s => ?_
  unfold fill
  split
  case isTrue h  => simp
  case isFalse h => simp

theorem consumes_readByte : Consumes readByte :=
  (consumes_willRead 1).bind fun _ => Consumes.bind (fun s => by unfold fill; split <;> simp) fun _ => .pure _

theorem consumes_readUint (n : Nat) : Consumes (readUint n) := by
  unfold readUint
  split
  case h_1 => exact consumes_rearm.bind fun _ => .pure _
  case h_2 => exact consumes_readByte.bind fun _ => .pure _
  case h_3 =>
    refine (consumes_readFull _).bind fun b => ?_
    split
    case isTrue  => exact .fail _
    case isFalse => exact .pure _

theorem consumes_readSizeOf (k : Kind) (n : Nat) : Consumes (readSizeOf k n) := by
  intro s
  have hl := consumes_readUint n s
  unfold readSizeOf
  split <;> simp_all

theorem consumes_readKind : Consumes Stream.readKind := by
  intro s
  have hl := consumes_readByte s
  unfold Stream.readKind
  split
  case h_1 h => rwa [h] at hl
  case h_2 h => rwa [h] at hl
  case h_3 b t h =>
    rw [h] at hl
    have hs := fun k n => (consumes_readSizeOf k n { t with byteval := 0 }).trans hl
    split_ifs
    · exact hl
    · exact hl
    · exact hs _ _
    · exact hl
    · exact hs _ _

theorem consumes_kindOf : Consumes kindOf := by
  intro s
  unfold kindOf
  split
  case h_1 => split <;> exact le_rfl
  case h_2 =>
    simp only
    split
    case isTrue => exact le_rfl
    case isFalse =>
      have hl := consumes_readKind { s with kinderr := none }
      unfold cacheKind
      split
      case h_1 h => rwa [h] at hl
      case h_2 h =>
        rw [h] at hl
        simp only
        split <;> exact hl

theorem consumes_bytes : Consumes bytes := by
  refine consumes_kindOf.bind fun (kind, size) => ?_
  cases kind
  case byte => exact Consumes.get.bind fun _ => consumes_rearm.bind fun _ => .pure _
  case list => exact .fail _
  case string =>
    simp only
    split
    case isTrue => exact fun _ => le_rfl
    case isFalse =>
      refine (consumes_readFull size).bind fun b => ?_
      split
      case isTrue  => exact .fail _
      case isFalse => exact .pure _

theorem consumes_readInt (n : Nat) : Consumes (readInt n) := by
  intro s
  have hl := consumes_readUint n s
  unfold readInt
  split
  case h_1 h => rwa [h] at hl
  case h_2   => exact hl

theorem consumes_uint (maxbits : Nat) : Consumes (uint maxbits) := by
  refine consumes_kindOf.bind fun (kind, size) => ?_
  cases kind
  case byte =>
    refine Consumes.get.bind fun s => ?_
    split
    case isTrue  => exact .fail _
    case isFalse => exact consumes_rearm.bind fun _ => .pure _
  case list => exact .fail _
  case string =>
    simp only
    split
    case isTrue => exact .fail _
    case isFalse =>
      refine (consumes_readInt size).bind fun v => ?_
      split
      case isTrue  => exact .fail _
      case isFalse => exact .pure _

theorem consumes_list : Consumes list := by
  refine consumes_kindOf.bind fun (kind, size) => ?_
  simp only
  split
  case isTrue => exact .fail _
  case isFalse => exact Consumes.bind (.modify fun _ => rfl) fun _ => .pure _

theorem consumes_decodeUint (width : Width) : Consumes (decodeUint width) :=
  (consumes_uint width.bits).mapError.bind fun _ => .pure _

theorem consumes_decodeBigInt (type : Ty) : Consumes (decodeBigInt type) := by
  refine consumes_bytes.mapError.bind fun b => ?_
  split
  case isTrue  => exact .fail _
  case isFalse => exact .pure _

variable {α : Type} {s s' : Stream}

theorem Consumes.field {dec : Read α} (hd : Consumes dec) (type : Ty) (name : String) :
    Consumes (decodeField type name dec) := by
  refine hd.mapError.orEol.bind fun v => ?_
  cases v
  case none   => exact .fail _
  case some v => exact .pure _

theorem length_of_decodeByteArray {n : Nat} {b : { b : Bytes // b.length = n }}
    (hn : 1 < n) (h : decodeByteArray n s = (.ok b, s')) : n ≤ s.input.length := by
  obtain ⟨⟨kind, size⟩, t, hk, h⟩ := Act.bind_eq_ok.mp h
  have hl := consumes_kindOf.of_eq hk
  cases kind
  case byte =>
    rw [dif_neg (by omega), if_neg (by omega)] at h
    cases h
  case list => cases h
  case string =>
    simp only at h
    split at h
    case isTrue => cases h
    case isFalse =>
      split at h
      case isTrue => cases h
      case isFalse =>
        obtain ⟨b', t', hf, _⟩ := Act.bind_eq_ok.mp h
        obtain ⟨_, t'', hw, hf⟩ := Act.bind_eq_ok.mp hf
        have hl' := (consumes_willRead n).of_eq hw
        unfold fill at hf
        split at hf
        case isTrue hle => omega
        case isFalse    => cases hf

theorem mapError_eq_ok {x : Read α} {f : StreamError → StreamError} {a : α} :
    x.mapError f s = (.ok a, s') ↔ x s = (.ok a, s') := by
  unfold Read.mapError
  split
  case h_1 h => simp [h, Go.fail]
  case h_2   => rfl

theorem decodeField_eq_ok {dec : Read α} {type : Ty} {name : String} {v : α} :
    decodeField type name dec s = (.ok v, s') → dec s = (.ok v, s') := by
  intro h
  obtain ⟨v', t, ho, h⟩ := Act.bind_eq_ok.mp h
  cases v'
  case none => cases h
  case some v' =>
    cases h
    unfold Read.orEol at ho
    split at ho
    case h_1 a t' hm =>
      cases ho
      exact mapError_eq_ok.mp hm
    case h_2 => cases ho
    case h_3 => cases ho

end Rlp
