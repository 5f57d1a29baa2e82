import GoEthereum.Abi.Unpack

-- Which outputs are read without a panic. The offsets and lengths in an output are those of the
-- contract, and the sums and products that are compared with the length of the output wrap around.

namespace Abi

section

variable (output : Slice)

-- The number in the word at some place.
def wordAt (x : Nat) : Nat :=
  low64 ((output.val.drop x).take 32)

-- The end of the word at `x` is an `int`, and `P` holds if the word is there.
def Within (x : Int) (P : Prop) : Prop :=
  (0 ≤ x ∧ x + 32 < 2 ^ 63) ∧ (x + 32 ≤ output.val.length → P)

def SafeData (u : Nat) : Prop :=
  Within output u (u + 32 + wordAt output u < 2 ^ 63)

-- No number of elements passes the check by a product that wraps around, except for one that is
-- negative itself, and there are no elements that can not be appended.
def SafeItems (t : Tag) (room : Int) (s : Nat) : Prop :=
  goInt (s * 32) ≤ room → 0 ≤ goInt (s * 32) ∧ (s < 2 ^ 63 → s < 2 ^ 58 ∧ (t = .bool → s = 0))

def SafeSlice (t : Tag) (u : Nat) : Prop :=
  Within output u (SafeItems t (output.val.length - (u + 32)) (wordAt output u))

def SafeArray (t : Tag) (index : Int) (n : Nat) : Prop :=
  goInt (index + 32) ≤ output.val.length → goInt (index + 32 * n) ≤ output.val.length →
    0 ≤ index ∧ index + 32 * n < 2 ^ 63 ∧ (t = .bool → n = 0)

def SafeSingle (t : Tag) (index : Int) : Prop :=
  Within output index (t = .string ∨ t = .bytes → SafeData output (wordAt output index.toNat))

def SafeSequence (t : Tag) (index : Int) : Option Nat → Prop
  | none   => Within output index (SafeSlice output t (wordAt output index.toNat))
  | some n => SafeArray output t index n

def Safe (i : Int) : AbiType → Prop
  | .elementary _ tag       => SafeSingle output tag (goInt (i * 32))
  | .sequence size elem tag =>
    if tag.IsData then SafeSingle output tag (goInt (i * 32))
    else (refElem elem.tag).isSome → SafeSequence output elem.tag (goInt (i * 32)) size

end

section

variable {b : Bytes} {x : Int} {P Q : Prop} {output : Slice}

theorem goInt_of_range (hl : -2 ^ 63 ≤ x) (hr : x < 2 ^ 63) : goInt x = x := by
  simp only [goInt, toSigned]
  omega

theorem goInt_range (x : Int) : -2 ^ 63 ≤ goInt x ∧ goInt x < 2 ^ 63 := by
  simp only [goInt, toSigned]
  omega

theorem low64_lt (b : Bytes) : low64 b < 2 ^ 64 :=
  Nat.mod_lt _ (by norm_num)

theorem Within.congr (h : 0 ≤ x → x + 32 ≤ output.val.length → (P ↔ Q)) :
    Within output x P ↔ Within output x Q :=
  and_congr_right fun hx => forall_congr' (h hx.left)

variable {u : Nat}

-- Where a word is an offset, it is either the number of its low 64 bits or negative.
theorem goInt_cases (hu : u < 2 ^ 64) : goInt u = u ∨ goInt u < 0 ∧ 2 ^ 63 ≤ u := by
  simp only [goInt, toSigned]
  omega

-- The next 32 bytes.
theorem reslice_word (hb : b.length < 2 ^ 63) (hl : -2 ^ 63 ≤ x) (hr : x < 2 ^ 63) :
    reslice b x (goInt (x + 32)) =
      if 0 ≤ x ∧ x + 32 ≤ b.length then .ok ((b.drop x.toNat).take 32) else Go.panics := by
  by_cases h : 0 ≤ x ∧ x + 32 ≤ b.length
  case pos =>
    have hg : goInt (x + 32) = x + 32 := goInt_of_range (by omega) (by omega)
    have hd : (x + 32 - x).toNat = 32 := by omega
    rw [hg, reslice, if_pos ⟨h.left, by omega, h.right⟩, if_pos h, hd]
  case neg =>
    rw [if_neg h, reslice, if_neg]
    simp only [goInt, toSigned]
    omega

-- A word is read after a check that it is there.
theorem read_ne_panics_iff {α : Type} {e : Go String α} {f : Bytes → Go String α}
    (he : e ≠ Go.panics) (hl : -2 ^ 63 ≤ x) (hr : x < 2 ^ 63)
    (hn : x < 0 → x + 32 ≤ output.val.length) :
    (if output.val.length < goInt (x + 32) then e
      else reslice output.val x (goInt (x + 32)) >>= f) ≠ Go.panics ↔
      Within output x (f ((output.val.drop x.toNat).take 32) ≠ Go.panics) := by
  have hb := output.property
  rw [reslice_word hb hl hr]
  by_cases hx : 0 ≤ x ∧ x + 32 < 2 ^ 63
  case pos =>
    rw [goInt_of_range (by omega) hx.right, Within, and_iff_right hx]
    by_cases hc : x + 32 ≤ output.val.length
    case pos => rw [if_neg (by omega), if_pos ⟨hx.left, hc⟩, Go.ok_bind, forall_prop_of_true hc]
    case neg => exact iff_of_true (by rwa [if_pos (by omega)]) (fun h => absurd h hc)
  case neg =>
    have hc : ¬ output.val.length < goInt (x + 32) := by
      simp only [goInt, toSigned]
      omega
    rw [if_neg hc, if_neg (by omega)]
    exact iff_of_false (fun h => h rfl) (fun h => hx h.left)

theorem index_range (i : Int) (h : goInt (i * 32) < 0) :
    goInt (i * 32) + 32 ≤ output.val.length := by
  simp only [goInt, toSigned] at h ⊢
  omega

variable {t : Tag}

theorem short_ne_panics {α : Type} {s : String} {n : Int} :
    (short s output n : Go String α) ≠ Go.panics := by
  intro h
  cases h

theorem convertOutput_ne_panics (kind : Kind) (b : Bytes) :
    convertOutput kind t b ≠ Go.panics := by
  have hu : unknownType t ≠ Go.panics := by
    intro h
    cases h
  have hn : ∀ k : IntKind,
      ((k.convert b).map fun n => (.ok (.num k n) : Go String Value)).getD (unknownType t) ≠
        Go.panics := by
    intro k
    cases k.convert b
    case none   => exact hu
    case some n => exact fun h => by cases h
  cases t <;> cases kind <;> first | exact hu | exact hn _ | exact fun h => by cases h

-- The number of bytes is added to an offset of a word that is there.
theorem reslice_data_iff {u s : Nat} (hu : (u : Int) + 32 ≤ output.val.length) (hs : s < 2 ^ 64) :
    (if output.val.length < goInt (u + 32 + goInt s) then
        (short "type: length insufficient" output (goInt (u + 32 + goInt s)) : Go String Bytes)
      else reslice output.val (goInt (u + 32)) (goInt (u + 32 + goInt s))) ≠ Go.panics ↔
      u + 32 + s < 2 ^ 63 := by
  have hg : goInt (u + 32) = u + 32 := goInt_of_range (by omega) (by omega)
  by_cases h : u + 32 + s < 2 ^ 63
  case pos =>
    refine iff_of_true ?_ h
    rw [goInt_of_range (x := s) (by omega) (by omega), goInt_of_range (by omega) (by omega)]
    by_cases hc : (output.val.length : Int) < u + 32 + s
    case pos =>
      rw [if_pos hc]
      exact short_ne_panics
    case neg =>
      rw [if_neg hc, reslice, if_pos (by omega)]
      exact fun h => by cases h
  case neg =>
    have hc : goInt (u + 32 + goInt s) < u + 32 := by
      simp only [goInt, toSigned]
      omega
    refine iff_of_false ?_ h
    rw [if_neg (by omega), reslice, if_neg (by omega)]
    exact fun h => h rfl

theorem dataOutput_ne_panics_iff (hu : u < 2 ^ 64) (h32 : 32 ≤ output.val.length) :
    dataOutput (goInt u) output ≠ Go.panics ↔ SafeData output u := by
  obtain ⟨hl, hr⟩ := goInt_range u
  rw [dataOutput, read_ne_panics_iff short_ne_panics hl hr (by omega)]
  obtain hg | ⟨hn, hu⟩ := goInt_cases hu
  case inl =>
    rw [hg]
    exact Within.congr fun _ hc => reslice_data_iff hc (low64_lt _)
  case inr => exact iff_of_false (fun h => by have := h.left.left; omega)
                (fun h => by have := h.left.right; omega)

theorem toGoSingle_ne_panics_iff (i : Int) (type : AbiType) :
    toGoSingle i type output ≠ Go.panics ↔ SafeSingle output type.tag (goInt (i * 32)) := by
  obtain ⟨hl, hr⟩ := goInt_range (i * 32)
  have ho : toGoSingle i type output ≠ Go.panics ↔ returnOutput i type.tag output ≠ Go.panics := by
    rw [toGoSingle, ne_eq, Go.bind_eq_panics, not_or]
    refine and_iff_left ?_
    rintro ⟨b, -, hb⟩
    exact convertOutput_ne_panics _ _ hb
  rw [ho, returnOutput, read_ne_panics_iff short_ne_panics hl hr (index_range i)]
  refine Within.congr fun _ hc => ?_
  by_cases ht : type.tag = .string ∨ type.tag = .bytes
  case pos =>
    rw [if_pos ht, forall_prop_of_true ht]
    exact dataOutput_ne_panics_iff (low64_lt _) (by omega)
  case neg =>
    rw [if_neg ht]
    exact iff_of_true (fun h => by cases h) (fun h => absurd h ht)

variable {ref : GoType}

-- The values have the type of the slice they are appended to, unless they are booleans.
theorem type_toGoElem_iff (hr : refElem t = some ref) (b : Bytes) :
    (toGoElem t b).type = ref ↔ t ≠ .bool := by
  cases t <;> cases hr <;> first
    | exact iff_of_true rfl (by decide)
    | exact iff_of_false (fun h => by cases h) (fun h => h rfl)

variable {slice : Bytes}

-- The loop goes as far as there are words, and does not get past a boolean.
theorem toGoItems_ne_panics_iff (hr : refElem t = some ref)
    (hb : slice.length < 2 ^ 63) (n i : Nat) (hi : i * 32 ≤ slice.length) :
    toGoItems t ref slice n i ≠ Go.panics ↔
      (i + n) * 32 ≤ slice.length ∧ (t = .bool → n = 0) := by
  induction n generalizing i
  case zero => exact iff_of_true (fun h => by cases h) ⟨hi, fun _ => rfl⟩
  case succ n ih =>
    have hg : goInt (i * 32) = i * 32 := goInt_of_range (by omega) (by omega)
    rw [toGoItems, reslice_word hb (by omega) (by omega)]
    by_cases hc : (i + 1) * 32 ≤ slice.length
    case neg =>
      rw [if_neg (by omega)]
      exact iff_of_false (fun h => h rfl) (by omega)
    case pos =>
      rw [if_pos (by omega), Go.ok_bind]
      by_cases ht : t = .bool
      case pos =>
        rw [if_pos (fun he => (type_toGoElem_iff hr _).mp he ht)]
        exact iff_of_false (fun h => h rfl) (fun h => Nat.succ_ne_zero n (h.right ht))
      case neg =>
        have hn : (i + 1 + n) * 32 = (i + (n + 1)) * 32 := by ring
        rw [if_neg (not_not.mpr ((type_toGoElem_iff hr _).mpr ht)), ne_eq, Go.bind_eq_panics,
          not_or, ← hn]
        refine (and_iff_left ?_).trans ((ih (i + 1) hc).trans ?_)
        · rintro ⟨items, -, h⟩
          cases h
        · exact and_congr_right fun _ => iff_of_true (fun h => absurd h ht) (fun h => absurd h ht)

theorem toGoList_ne_panics_iff (hr : refElem t = some ref) {size : Int}
    (hb : slice.length < 2 ^ 63) :
    toGoList t ref (slice, size) ≠ Go.panics ↔
      size.toNat * 32 ≤ slice.length ∧ (t = .bool → size.toNat = 0) := by
  have hi := toGoItems_ne_panics_iff hr hb size.toNat 0 (Nat.zero_le _)
  rw [Nat.zero_add] at hi
  rw [toGoList, ne_eq, Go.bind_eq_panics, not_or]
  refine (and_iff_left ?_).trans hi
  rintro ⟨items, -, h⟩
  cases h

theorem sliceItems_eq (hu : u + 32 ≤ output.val.length) :
    sliceItems u output =
      sizedItems u (goInt (wordAt output u)) (output.val.drop (u + 32)) output := by
  have hg : goInt (u + 32) = u + 32 := goInt_of_range (by omega) (by omega)
  have h1 : reslice output.val u output.val.length = .ok (output.val.drop u) := by
    rw [reslice, if_pos (by omega), List.take_of_length_le (by rw [List.length_drop]; omega)]
    rfl
  have h2 : reslice (output.val.drop u) 0 32 = .ok ((output.val.drop u).take 32) := by
    rw [reslice, if_pos (by rw [List.length_drop]; omega)]
    rfl
  have h3 : reslice (output.val.drop u) 32 (output.val.drop u).length =
      .ok (output.val.drop (u + 32)) := by
    rw [reslice, if_pos (by rw [List.length_drop]; omega),
      List.take_of_length_le (by rw [List.length_drop]; omega)]
    exact congrArg Except.ok List.drop_drop
  rw [sliceItems, if_neg (by omega), h1, Go.ok_bind, h2, Go.ok_bind, h3, Go.ok_bind]
  rfl

variable (hr : refElem t = some ref)
include hr

theorem sizedItems_ne_panics_iff {s : Nat} (hs : s < 2 ^ 64) (hb : slice.length < 2 ^ 63) (offset : Int) :
    (sizedItems offset (goInt s) slice output >>= toGoList t ref) ≠ Go.panics ↔
      SafeItems t slice.length s := by
  have hp : goInt (goInt s * 32) = goInt (s * 32) := by
    simp only [goInt, toSigned]
    omega
  rw [sizedItems, SafeItems, hp]
  by_cases hc : goInt (s * 32) ≤ slice.length
  case neg =>
    rw [if_pos (by omega)]
    exact iff_of_true (fun h => by cases h) (fun h => absurd h hc)
  case pos =>
    rw [if_neg (by omega), forall_prop_of_true hc, reslice]
    by_cases h0 : 0 ≤ goInt (s * 32)
    case neg =>
      rw [if_neg (by omega)]
      exact iff_of_false (fun h => h rfl) (fun h => h0 h.left)
    case pos =>
      rw [if_pos ⟨le_refl _, h0, hc⟩, Go.ok_bind]
      have hl : ((slice.drop (0 : Int).toNat).take (goInt (s * 32) - 0).toNat).length =
          (goInt (s * 32)).toNat := by
        rw [List.length_take, List.length_drop]
        omega
      rw [pure_bind, toGoList_ne_panics_iff hr (by omega), hl]
      by_cases ht : t = .bool
      case pos =>
        simp only [ht, forall_prop_of_true, goInt, toSigned] at h0 hc ⊢
        omega
      case neg =>
        simp only [ht, false_implies, and_true, goInt, toSigned] at h0 hc ⊢
        omega

theorem sliceItems_ne_panics_iff (hu : u < 2 ^ 64) (h32 : 32 ≤ output.val.length) :
    (sliceItems (goInt u) output >>= toGoList t ref) ≠ Go.panics ↔ SafeSlice output t u := by
  rw [SafeSlice, Within]
  by_cases hw : u + 32 < 2 ^ 63
  case pos =>
    rw [goInt_of_range (by omega) (by omega), and_iff_right (by omega)]
    by_cases hc : u + 32 ≤ output.val.length
    case pos =>
      have hl : ((output.val.length : Int) - (u + 32)) = (output.val.drop (u + 32)).length := by
        rw [List.length_drop]
        omega
      rw [forall_prop_of_true (by omega), hl, sliceItems_eq hc]
      exact sizedItems_ne_panics_iff hr (low64_lt _) (by omega) u
    case neg =>
      rw [sliceItems, goInt_of_range (by omega) (by omega), if_pos (by omega)]
      exact iff_of_true (fun h => by cases h) (by omega)
  case neg =>
    -- The offset passes the check, and the word does not fit behind it.
    have hg : goInt (goInt u + 32) ≤ output.val.length := by
      simp only [goInt, toSigned]
      omega
    refine iff_of_false ?_ (by omega)
    rw [sliceItems, if_neg (by omega), reslice]
    by_cases hx : 0 ≤ goInt u ∧ goInt u ≤ output.val.length
    case neg =>
      rw [if_neg (by omega)]
      exact fun h => h rfl
    case pos =>
      rw [if_pos ⟨hx.left, hx.right, le_refl _⟩, Go.ok_bind, reslice, if_neg]
      · exact fun h => h rfl
      · simp only [goInt, toSigned] at hx ⊢
        simp only [List.length_take, List.length_drop]
        omega

theorem arrayItems_ne_panics_iff (index : Int) (n : Nat) :
    (arrayItems index n output >>= toGoList t ref) ≠ Go.panics ↔
      (goInt (index + 32 * n) ≤ output.val.length →
        0 ≤ index ∧ index + 32 * n < 2 ^ 63 ∧ (t = .bool → n = 0)) := by
  have hm : index + n * 32 = index + 32 * n := by ring
  rw [arrayItems, hm]
  by_cases hc : goInt (index + 32 * n) ≤ output.val.length
  case neg =>
    rw [if_pos (by omega)]
    exact iff_of_true (fun h => by cases h) (fun h => absurd h hc)
  case pos =>
    rw [if_neg (by omega), forall_prop_of_true hc, reslice]
    by_cases hx : 0 ≤ index ∧ index ≤ goInt (index + 32 * n)
    case neg =>
      rw [if_neg (by omega)]
      refine iff_of_false (fun h => h rfl) fun h => hx ⟨h.left, ?_⟩
      rw [goInt_of_range (by omega) h.right.left]
      omega
    case pos =>
      have hl : ((output.val.drop index.toNat).take (goInt (index + 32 * n) - index).toNat).length =
          (goInt (index + 32 * n) - index).toNat := by
        rw [List.length_take, List.length_drop]
        omega
      rw [if_pos ⟨hx.left, hx.right, hc⟩, Go.ok_bind, pure_bind,
        toGoList_ne_panics_iff hr (by omega), hl, and_iff_right hx.left]
      refine and_congr_left fun _ => ?_
      simp only [goInt, toSigned] at hx hc ⊢
      omega

end

theorem toGoSlice_ne_panics_iff (i : Int) (size : Option Nat) (elem : AbiType) (output : Slice) :
    toGoSlice i size elem output ≠ Go.panics ↔
      ((refElem elem.tag).isSome → SafeSequence output elem.tag (goInt (i * 32)) size) := by
  obtain ⟨hl, hr⟩ := goInt_range (i * 32)
  unfold toGoSlice
  cases hf : refElem elem.tag
  case none =>
    refine iff_of_true ?_ (fun h => by cases h)
    by_cases hc : output.val.length < goInt (goInt (i * 32) + 32)
    · rw [if_pos hc]
      exact short_ne_panics
    · rw [if_neg hc]
      exact fun h => by cases h
  case some ref =>
    rw [Option.isSome_some, forall_prop_of_true rfl]
    cases size
    case none =>
      rw [read_ne_panics_iff short_ne_panics hl hr (index_range i)]
      exact Within.congr fun _ hc => sliceItems_ne_panics_iff hf (low64_lt _) (by omega)
    case some n =>
      simp only [SafeSequence, SafeArray]
      by_cases hc : goInt (goInt (i * 32) + 32) ≤ output.val.length
      case pos =>
        rw [if_neg (by omega), forall_prop_of_true hc]
        exact arrayItems_ne_panics_iff hf _ n
      case neg =>
        rw [if_pos (by omega)]
        exact iff_of_true short_ne_panics (fun h => absurd h hc)

-- A value or an error is returned if and only if nothing of this kind is in the output.
theorem toGoType_ne_panics_iff (i : Int) (t : AbiType) (output : Slice) :
    toGoType i t output ≠ Go.panics ↔ Safe output i t := by
  cases t
  case elementary kind tag => exact toGoSingle_ne_panics_iff i _
  case sequence size elem tag =>
    by_cases ht : tag.IsData
    case pos =>
      rw [toGoType_data ht, Safe, if_pos ht]
      exact toGoSingle_ne_panics_iff i _
    case neg =>
      rw [toGoType_list ht, Safe, if_neg ht]
      exact toGoSlice_ne_panics_iff i size elem output

-- A text at an offset of all ones, which is the `int` -1, and a list of one boolean.

theorem sampleText_length : (bigEndian 32 (2 ^ 64 - 1)).length < 2 ^ 63 := by
  decide

def sampleText : Slice :=
  ⟨bigEndian 32 (2 ^ 64 - 1), sampleText_length⟩

theorem sampleBools_length :
    (bigEndian 32 32 ++ (bigEndian 32 1 ++ bigEndian 32 1)).length < 2 ^ 63 := by
  decide

def sampleBools : Slice :=
  ⟨bigEndian 32 32 ++ (bigEndian 32 1 ++ bigEndian 32 1), sampleBools_length⟩

theorem toGoType_overflow :
    toGoType 0 .string sampleText = Go.panics ∧
      toGoType 0 (.slice .bool) sampleBools = Go.panics := by
  have ht : ¬ SafeSingle sampleText .string (goInt (0 * 32)) := by
    intro h
    exact absurd (h.right (by decide) (.inl rfl)).left.right (by decide +kernel)
  have hb : ¬ SafeSequence sampleBools .bool (goInt (0 * 32)) none := by
    intro h
    have hi := (h.right (by decide)).right (by decide +kernel) (by decide +kernel)
    exact absurd ((hi.right (by decide +kernel)).right rfl) (by decide +kernel)
  constructor
  · by_contra h
    exact ht ((toGoSingle_ne_panics_iff 0 .string).mp h)
  · by_contra h
    exact hb ((toGoSlice_ne_panics_iff 0 none .bool sampleBools).mp h rfl)

end Abi
