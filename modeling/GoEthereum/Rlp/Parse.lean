import GoEthereum.Rlp.Canonical
import GoEthereum.Rlp.Split

-- The two parsers of the package accept the same inputs.

namespace Rlp

-- The item with the given kind and content, of which the values are `xs` if it is a list.
def element (k : Kind) (content : Bytes) (xs : Go Error (List Item)) : Go Error Item :=
  if k = .list then xs.map .list else pure (.str content)

-- Recursive parsing with `Split`: the values that are one after another in `b`. Every value takes a
-- byte, so `b.length` rounds are enough.
def parseValues : Nat → Bytes → Go Error (List Item)
  | _,          []      => pure []
  | 0,          _ :: _  => Go.panics
  | rounds + 1, c :: tl => do
    let r ← split (c :: tl)
    let x ← element r.fst r.snd.fst (parseValues rounds r.snd.fst)
    let xs ← parseValues rounds r.snd.snd
    pure (x :: xs)

-- The value that `b` is. Anything else is rejected, with an error or a panic.
def parse (b : Bytes) : Option Item :=
  match split b with
  | .ok (k, content, []) => (element k content (parseValues content.length content)).toOption
  | _                    => none

section

variable {b : Bytes} {k : Kind} {head content : Bytes}

theorem Framed.encode_str (h : Framed k head content) (hk : k ≠ .list) :
    encode (.str content) = head ++ content := by
  cases h
  case byte hc     => rw [encode, encodeString_byte hc, List.nil_append]
  case string hc _ => rw [encode, encodeString_string hc]
  case list        => exact absurd rfl hk

variable {xs : List Item} {x : Item}

theorem Framed.encode_list (h : Framed .list head content)
    (hx : content = encodeList xs) : encode (.list xs) = head ++ content := by
  cases h
  rw [encode, hx]

theorem parseValues_nil (rounds : Nat) : parseValues rounds [] = .ok [] := by
  cases rounds <;> rfl

theorem encodeList_eq_nil_iff : encodeList xs = [] ↔ xs = [] := by
  cases xs
  case nil       => simp [encodeList]
  case cons x xs => simp [encodeList, encode_ne_nil]

theorem parseValues_succ {rounds : Nat} (hb : b ≠ []) : parseValues (rounds + 1) b =
    (split b >>= fun r => element r.fst r.snd.fst (parseValues rounds r.snd.fst) >>= fun x =>
      parseValues rounds r.snd.snd >>= fun xs => pure (x :: xs)) := by
  obtain ⟨c, tl, rfl⟩ := List.exists_cons_of_ne_nil hb
  rw [parseValues]

theorem Framed.of_encode (hf : Framed k head content) (hl : (head ++ content).length < 2 ^ 64)
    (h : encode x = head ++ content) : x.kind = k ∧ x.content = content := by
  have hc := content_length_le x
  rw [h] at hc
  have hs : split (encode x ++ []) = .ok (k, content, []) :=
    split_eq_ok_iff.mpr ⟨head, hf, by rw [h, List.append_assoc]⟩
  rw [split_encode [] (by omega)] at hs
  simp only [Except.ok.injEq, Prod.mk.injEq] at hs
  exact ⟨hs.left, hs.right.left⟩

theorem element_eq_ok_iff {vs : Go Error (List Item)} (hf : Framed k head content)
    (hl : (head ++ content).length < 2 ^ 64)
    (ih : ∀ xs, k = .list → (vs = .ok xs ↔ encodeList xs = content)) :
    element k content vs = .ok x ↔ encode x = head ++ content := by
  unfold element
  constructor
  case mp =>
    intro h
    split_ifs at h with hk
    case pos =>
      subst hk
      cases vs
      case error => cases h
      case ok xs =>
        cases h
        exact hf.encode_list ((ih xs rfl).mp rfl).symm
    case neg =>
      cases h
      exact hf.encode_str hk
  case mpr =>
    intro h
    obtain ⟨rfl, rfl⟩ := hf.of_encode hl h
    cases x
    case str b   => exact if_neg (kind_str_ne_list b)
    case list xs =>
      rw [(ih xs rfl).mpr rfl]
      exact if_pos rfl

-- Induction on the rounds. The values of a list and those after it are parsed with one less.
theorem parseValues_eq_ok_iff {rounds : Nat} (hr : b.length ≤ rounds)
    (hb : b.length < 2 ^ 64) : parseValues rounds b = .ok xs ↔ encodeList xs = b := by
  induction rounds generalizing b xs
  case zero =>
    obtain rfl := List.length_eq_zero_iff.mp (Nat.le_zero.mp hr)
    rw [parseValues_nil, Except.ok.injEq, encodeList_eq_nil_iff, eq_comm]
  case succ rounds ih =>
    by_cases hnil : b = []
    case pos =>
      subst hnil
      rw [parseValues_nil, Except.ok.injEq, encodeList_eq_nil_iff, eq_comm]
    case neg =>
      rw [parseValues_succ hnil]
      constructor
      case mp =>
        intro h
        obtain ⟨⟨k, content, rest⟩, hs, h⟩ := Go.bind_eq_ok.mp h
        obtain ⟨x, hx, h⟩ := Go.bind_eq_ok.mp h
        obtain ⟨xs', hxs, h⟩ := Go.bind_eq_ok.mp h
        cases h
        obtain ⟨head, hf, rfl⟩ := split_eq_ok_iff.mp hs
        have hpos := hf.length_pos
        simp only [List.length_append] at hr hb hpos hx hxs
        have hl : ∀ xs, k = .list → (parseValues rounds content = .ok xs ↔ encodeList xs = content) := by
          rintro xs rfl
          have := hf.content_lt
          rw [List.length_append] at this
          exact ih (by omega) (by omega)
        rw [encodeList, (element_eq_ok_iff hf (by rw [List.length_append]; omega) hl).mp hx, (ih (by omega) (by omega)).mp hxs,
          List.append_assoc]
      case mpr =>
        intro h
        cases xs
        case nil => exact absurd h.symm hnil
        case cons x xs =>
          subst h
          rw [encodeList, List.length_append] at hr hb
          have hc := content_length_le x
          obtain ⟨head, hf, he⟩ := framed_encode x (by omega)
          have hpos := hf.length_pos
          have hl : ∀ xs, x.kind = .list →
              (parseValues rounds x.content = .ok xs ↔ encodeList xs = x.content) := by
            intro xs hk
            rw [hk] at hf
            have := hf.content_lt
            rw [← he] at this
            exact ih (by omega) (by omega)
          rw [encodeList, split_encode _ (by omega), Go.ok_bind, (element_eq_ok_iff hf (by rw [← he]; omega) hl).mpr he,
            (ih (by rw [← he] at hpos; omega) (by omega)).mpr rfl]
          rfl

theorem parse_eq_some_iff (hb : b.length < 2 ^ 64) : parse b = some x ↔ encode x = b := by
  unfold parse
  constructor
  case mp =>
    intro h
    split at h
    case h_1 k content hs =>
      obtain ⟨head, hf, rfl⟩ := split_eq_ok_iff.mp hs
      simp only [List.append_nil, List.length_append] at hb ⊢
      have hx : element k content (parseValues content.length content) = .ok x := by
        cases he : element k content (parseValues content.length content)
        case error => simp [he, Except.toOption] at h
        case ok y  => simpa [he, Except.toOption] using h
      refine (element_eq_ok_iff hf (by rw [List.length_append]; omega) fun xs _ => ?_).mp hx
      exact parseValues_eq_ok_iff (Nat.le_refl _) (by omega)
    case h_2 => cases h
  case mpr =>
    rintro rfl
    have hc := content_length_le x
    obtain ⟨head, hf, he⟩ := framed_encode x (by omega)
    have hs := split_encode (x := x) [] (by omega)
    rw [List.append_nil] at hs
    have hx : element x.kind x.content (parseValues x.content.length x.content) = .ok x :=
      (element_eq_ok_iff hf (by rwa [← he]) fun xs _ =>
        parseValues_eq_ok_iff (Nat.le_refl _) (by omega)).mpr he
    simp only [hs, hx, Except.toOption]

end

-- An input is accepted by both parsers or by none, and they yield the same item.
theorem parse_iff_decodeBytes (b : Slice) :
    (∀ x, parse b.val = some x ↔ Ty.interface.decodeBytes b = .ok (some x)) ∧
      ((parse b.val).isSome ↔ ∃ v, Ty.interface.decodeBytes b = .ok v) := by
  have hb : b.val.length < 2 ^ 64 := b.property.trans (by norm_num)
  have hx : ∀ x, parse b.val = some x ↔ Ty.interface.decodeBytes b = .ok (some x) := by
    intro x
    refine (parse_eq_some_iff hb).trans (Iff.trans ?_ (Ty.decodeBytes_interface_iff b (some x)).symm)
    simp only [encodeToBytes_eq]
    constructor
    case mp =>
      intro h
      exact ⟨x, rfl, h⟩
    case mpr =>
      rintro ⟨y, hy, h⟩
      rwa [Option.some.inj hy]
  refine ⟨hx, ?_⟩
  rw [Option.isSome_iff_exists]
  constructor
  case mp =>
    rintro ⟨x, h⟩
    exact ⟨some x, (hx x).mp h⟩
  case mpr =>
    rintro ⟨v, h⟩
    obtain ⟨x, rfl, -⟩ := (Ty.decodeBytes_interface_iff b v).mp h
    exact ⟨x, (hx x).mpr h⟩

end Rlp
