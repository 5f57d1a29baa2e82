import GoEthereum.Common
import Mathlib.Data.List.TakeWhile

-- The run-length encoding used for Ethereum data.

namespace Rle

open Common

inductive RleError
  -- A token is encountered without proceeding bytes.
  | reading
  deriving DecidableEq

def token : UInt8 := 0xfe
def emptyShaToken : UInt8 := 0xfd
def emptyListShaToken : UInt8 := 0xfe
def tokenToken : UInt8 := 0xff

section

variable (keccak : Bytes → Hash)

def empty : Bytes :=
  (keccak []).val

def emptyList : Bytes :=
  (keccak [0x80]).val

def expand (b : UInt8) : Bytes :=
  if b = emptyShaToken then
    empty keccak
  else if b = emptyListShaToken then
    emptyList keccak
  else if b = tokenToken then
    [token]
  else
    List.replicate (b - 2).toNat 0

def decompress : Bytes → Except RleError Bytes
  | []            => .ok []
  | [b]           => if b = token then .error .reading else .ok [b]
  | b :: c :: dat =>
    if b = token then
      (decompress dat).map (expand keccak c ++ ·)
    else
      (decompress (c :: dat)).map (b :: ·)

def zeros (dat : Bytes) : Nat :=
  ((dat.take 255).takeWhile (· = 0)).length

-- The code for the beginning of the data `b :: dat`, and how many bytes it stands for.
def compressChunk (b : UInt8) (dat : Bytes) : Bytes × Nat :=
  if b = token then
    ([token, tokenToken], 1)
  else if b = 0 ∧ dat.head? = some 0 then
    let j := zeros (b :: dat)
    ([token, UInt8.ofNat (j + 2)], j)
  else if (b :: dat).take 32 = empty keccak then
    ([token, emptyShaToken], 32)
  else if (b :: dat).take 32 = emptyList keccak then
    ([token, emptyListShaToken], 32)
  else
    ([b], 1)

-- The loop of `Compress`, with the number of its iterations at most.
def compressLoop : Nat → Bytes → Bytes
  | 0,     _        => []
  | _,     []       => []
  | n + 1, b :: dat =>
    let (ret, k) := compressChunk keccak b dat
    ret ++ compressLoop n ((b :: dat).drop k)

def compress (dat : Bytes) : Bytes :=
  compressLoop keccak dat.length dat

end

-- The lengths of the runs of zeros before, between and after the other bytes.
def runs (dat : Bytes) : List Nat :=
  (dat.splitOnP (· ≠ 0)).map List.length

-- The numbers of zeros that leave, in pieces of 255, one whose code means something else.
def Collides (n : Nat) : Prop :=
  251 ≤ n % 255 ∧ n % 255 ≤ 253

-- The runs of zeros whose code means something else.
def Ambiguous (piece : Bytes) : Prop :=
  ∃ n, 251 ≤ n ∧ n ≤ 253 ∧ piece = List.replicate n 0

def Lossy (dat : Bytes) : Prop :=
  ∃ n ∈ runs dat, Collides n

theorem runs_ne_nil (dat : Bytes) : runs dat ≠ [] := by
  simp [runs]

variable {b : UInt8} {n : Nat}

theorem runs_cons (h : b ≠ 0) (dat : Bytes) : runs (b :: dat) = 0 :: runs dat := by
  simp [runs, List.splitOnP_cons_eq_if_modifyHead, h]

theorem runs_append (h : b ≠ 0) (pre dat : Bytes) :
    runs (pre ++ b :: dat) = runs pre ++ runs dat := by
  rw [runs, List.splitOnP_append_cons _ _ (by simpa using h), List.map_append]
  rfl

theorem runs_zero (dat : Bytes) : runs (0 :: dat) = (runs dat).modifyHead (· + 1) := by
  rw [runs, List.splitOnP_cons_eq_if_modifyHead, runs]
  cases dat.splitOnP (· ≠ 0)
  case nil        => rfl
  case cons p ps  => rfl

theorem runs_zeros (j : Nat) (dat : Bytes) :
    runs (List.replicate j 0 ++ dat) = (runs dat).modifyHead (· + j) := by
  induction j
  case zero      =>
    obtain ⟨n, ns, he⟩ := List.exists_cons_of_ne_nil (runs_ne_nil dat)
    rw [List.replicate_zero, List.nil_append, he]
    rfl
  case succ j hi =>
    rw [List.replicate_succ, List.cons_append, runs_zero, hi, List.modifyHead_modifyHead]
    rfl

theorem exists_runs (dat : Bytes) :
    ∃ n ns, runs dat = n :: ns ∧ (dat.head? ≠ some 0 → n = 0) := by
  cases dat
  case nil => exact ⟨0, [], rfl, fun _ => rfl⟩
  case cons b dat =>
    by_cases h : b = 0
    · subst h
      obtain ⟨n, ns, he⟩ := List.exists_cons_of_ne_nil (runs_ne_nil (0 :: dat))
      exact ⟨n, ns, he, fun hn => absurd rfl hn⟩
    · exact ⟨0, _, runs_cons h dat, fun _ => rfl⟩

theorem le_length_of_mem_runs {dat : Bytes} (h : n ∈ runs dat) : n ≤ dat.length := by
  induction dat generalizing n
  case nil =>
    obtain rfl := List.mem_singleton.mp h
    exact le_rfl
  case cons b dat hi =>
    by_cases hb : b = 0
    · subst hb
      obtain ⟨m, ns, he, -⟩ := exists_runs dat
      rw [runs_zero, he] at h
      rw [he] at hi
      obtain rfl | h := List.mem_cons.mp h
      · exact Nat.succ_le_succ (hi List.mem_cons_self)
      · exact (hi (List.mem_cons_of_mem _ h)).trans (Nat.le_succ _)
    · rw [runs_cons hb] at h
      obtain rfl | h := List.mem_cons.mp h
      · exact Nat.zero_le _
      · exact (hi h).trans (Nat.le_succ _)

-- A short piece that ends in another byte neither has such a run nor changes the ones after it.
theorem lossy_append {piece dat : Bytes} (hl : piece.length < 251) (hne : piece ≠ [])
    (h : piece.getLast hne ≠ 0) : Lossy (piece ++ dat) ↔ Lossy dat := by
  rw [Lossy, ← List.dropLast_append_getLast hne, List.append_assoc, List.singleton_append,
    runs_append h]
  constructor
  · rintro ⟨n, hn, hc⟩
    obtain hn | hn := List.mem_append.mp hn
    · have := le_length_of_mem_runs hn
      rw [List.length_dropLast] at this
      obtain ⟨hc, -⟩ := hc
      omega
    · exact ⟨n, hn, hc⟩
  · rintro ⟨n, hn, hc⟩
    exact ⟨n, List.mem_append_right _ hn, hc⟩

theorem lossy_zeros {j : Nat} {dat : Bytes} (h : j ≤ 255) (hd : j = 255 ∨ dat.head? ≠ some 0) :
    Lossy (List.replicate j 0 ++ dat) ↔ Ambiguous (List.replicate j 0) ∨ Lossy dat := by
  have ha : Ambiguous (List.replicate j 0) ↔ 251 ≤ j ∧ j ≤ 253 := by
    constructor
    · rintro ⟨n, h₁, h₂, he⟩
      have := congrArg List.length he
      rw [List.length_replicate, List.length_replicate] at this
      omega
    · rintro ⟨h₁, h₂⟩
      exact ⟨j, h₁, h₂, rfl⟩
  obtain ⟨n, ns, he, hn⟩ := exists_runs dat
  rw [ha, Lossy, runs_zeros, Lossy, he, List.modifyHead_cons]
  simp only [List.mem_cons, exists_eq_or_imp, Collides]
  obtain rfl | hd := hd
  · simp
  · rw [hn hd]
    by_cases hj : j = 255
    · subst hj
      simp
    · rw [Nat.mod_eq_of_lt (by omega)]
      simp

variable {keccak : Bytes → Hash}

theorem decompress_token (c : UInt8) (dat : Bytes) :
    decompress keccak (token :: c :: dat) = (decompress keccak dat).map (expand keccak c ++ ·) := by
  rw [decompress, if_pos rfl]

theorem decompress_byte (h : b ≠ token) (dat : Bytes) :
    decompress keccak (b :: dat) = (decompress keccak dat).map (b :: ·) := by
  cases dat
  case nil        => simp [decompress, h, Except.map]
  case cons c dat => rw [decompress, if_neg h]

structure Decodes (keccak : Bytes → Hash) (ret piece out : Bytes) : Prop where
  decompress : ∀ dat, decompress keccak (ret ++ dat) = (decompress keccak dat).map (out ++ ·)
  eq         : ¬ Ambiguous piece → out = piece
  lt         : Ambiguous piece → out.length < piece.length

theorem Ambiguous.le_length {piece : Bytes} (h : Ambiguous piece) : 251 ≤ piece.length := by
  obtain ⟨n, h₁, -, rfl⟩ := h
  rwa [List.length_replicate]

theorem decodes_of_length {ret piece : Bytes} (hl : piece.length < 251)
    (h : ∀ dat, decompress keccak (ret ++ dat) = (decompress keccak dat).map (piece ++ ·)) :
    Decodes keccak ret piece piece where
  decompress := h
  eq _       := rfl
  lt ha      := absurd ha.le_length (not_le_of_gt hl)

-- The byte for a run of zeros wraps around for the two longest ones.
theorem decodes_zeros {j : Nat} (h₁ : 2 ≤ j) (h₂ : j ≤ 255) :
    ∃ out, Decodes keccak [token, UInt8.ofNat (j + 2)] (List.replicate j 0) out := by
  refine ⟨expand keccak (UInt8.ofNat (j + 2)), fun dat => decompress_token _ _, fun ha => ?_,
    fun ha => ?_⟩
  · have hj : j < 251 ∨ 253 < j := by
      by_contra hn
      exact ha ⟨j, by omega, by omega, rfl⟩
    have hne : ∀ c : UInt8, 253 ≤ c.toNat → UInt8.ofNat (j + 2) ≠ c := by
      intro c hc he
      have := congrArg UInt8.toNat he
      rw [UInt8.toNat_ofNat'] at this
      omega
    rw [expand, if_neg (hne _ (by decide)), if_neg (hne _ (by decide)), if_neg (hne _ (by decide))]
    congr 1
    rw [UInt8.toNat_sub, UInt8.toNat_ofNat']
    have h2 : (2 : UInt8).toNat = 2 := rfl
    omega
  · obtain ⟨n, hn₁, hn₂, he⟩ := ha
    have hj := congrArg List.length he
    rw [List.length_replicate, List.length_replicate] at hj
    rw [List.length_replicate]
    obtain rfl | rfl | rfl : j = 251 ∨ j = 252 ∨ j = 253 := by omega
    · show (keccak []).val.length < 251
      rw [(keccak []).property]
      decide
    · show (keccak [0x80]).val.length < 252
      rw [(keccak [0x80]).property]
      decide
    · show [token].length < 253
      decide

theorem take_zeros (dat : Bytes) : dat.take (zeros dat) = List.replicate (zeros dat) 0 := by
  have hp : (dat.take 255).takeWhile (· = 0) <+: dat :=
    (List.takeWhile_prefix _).trans (List.take_prefix 255 dat)
  rw [zeros, ← List.prefix_iff_eq_take.mp hp, List.eq_replicate_iff]
  exact ⟨rfl, fun b hb => by simpa using List.mem_takeWhile_imp hb⟩

theorem zeros_le (dat : Bytes) : zeros dat ≤ 255 ∧ zeros dat ≤ dat.length := by
  have hl := (List.takeWhile_prefix (l := dat.take 255) (fun b => b = 0)).length_le
  rw [List.length_take] at hl
  exact le_min_iff.mp hl

theorem le_zeros (n : Nat) (dat : Bytes) : min 255 n ≤ zeros (List.replicate n 0 ++ dat) := by
  rw [zeros, List.take_append, List.take_replicate, List.takeWhile_append_of_pos (by simp),
    List.length_append, List.length_replicate]
  exact Nat.le_add_right _ _

theorem drop_zeros (dat : Bytes) :
    zeros dat = 255 ∨ (dat.drop (zeros dat)).head? ≠ some 0 := by
  by_contra hn
  obtain ⟨hz, hh⟩ := not_or.mp hn
  obtain ⟨rest, he⟩ := List.head?_eq_some_iff.mp (not_not.mp hh)
  have hd : dat = List.replicate (zeros dat + 1) 0 ++ rest := by
    rw [List.replicate_succ', List.append_assoc, List.singleton_append, ← he, ← take_zeros,
      List.take_append_drop]
  have := le_zeros (zeros dat + 1) rest
  rw [← hd] at this
  obtain ⟨h, -⟩ := zeros_le dat
  omega

-- What the hashes with an abbreviation must not end in, for the runs of zeros to be seen whole.
structure Separated (keccak : Bytes → Hash) : Prop where
  empty     : (empty keccak).getLast? ≠ some 0
  emptyList : (emptyList keccak).getLast? ≠ some 0

-- The code of the next piece, and what is left of the runs of zeros.
structure Chunk (keccak : Bytes → Hash) (dat : Bytes) (c : Bytes × Nat) (out : Bytes) : Prop where
  decodes : Decodes keccak c.fst (dat.take c.snd) out
  pos     : 1 ≤ c.snd
  lossy   : Lossy dat ↔ Ambiguous (dat.take c.snd) ∨ Lossy (dat.drop c.snd)

theorem Chunk.of_getLast {dat ret : Bytes} {k : Nat} (hk : 1 ≤ k) (hl : (dat.take k).length < 251)
    (hne : dat ≠ []) (hz : (dat.take k).getLast? ≠ some 0)
    (h : ∀ rest, decompress keccak (ret ++ rest) =
      (decompress keccak rest).map (dat.take k ++ ·)) :
    Chunk keccak dat (ret, k) (dat.take k) where
  decodes := decodes_of_length hl h
  pos     := hk
  lossy   := by
    have ht : dat.take k ≠ [] := by
      intro he
      obtain h | h := List.take_eq_nil_iff.mp he
      · omega
      · exact hne h
    have hlast : (dat.take k).getLast ht ≠ 0 := by
      intro he
      exact hz (by rw [List.getLast?_eq_some_getLast ht, he])
    have := @lossy_append _ (dat.drop k) hl ht hlast
    rw [List.take_append_drop] at this
    rw [this]
    exact ⟨Or.inr, fun hor => hor.resolve_left fun ha => absurd ha.le_length (not_le_of_gt hl)⟩

theorem Chunk.of_hash {dat : Bytes} {hash : Hash} (he : dat.take 32 = hash.val)
    (hz : hash.val.getLast? ≠ some 0) (hb : expand keccak b = hash.val) :
    Chunk keccak dat ([token, b], 32) (dat.take 32) := by
  have hl := hash.property
  rw [← he] at hz hl
  refine Chunk.of_getLast (by decide) (by rw [hl]; decide) ?_ hz fun rest => ?_
  · rintro rfl
    cases hl
  · rw [he, ← hb]
    exact decompress_token _ _

theorem two_le_zeros {dat : Bytes} (h : dat.head? = some 0) : 2 ≤ zeros (0 :: dat) := by
  cases dat
  case nil => cases h
  case cons c dat =>
    cases h
    exact le_zeros 2 dat |>.trans' (by decide)

theorem Chunk.of_byte {ret dat : Bytes} (hz : b = 0 → dat.head? ≠ some 0)
    (h : ∀ rest, decompress keccak (ret ++ rest) = (decompress keccak rest).map ([b] ++ ·)) :
    Chunk keccak (b :: dat) (ret, 1) [b] := by
  by_cases hb : b = 0
  · subst hb
    exact ⟨decodes_of_length (by simp) h, le_rfl,
      @lossy_zeros 1 dat (by decide) (Or.inr (hz rfl))⟩
  · exact Chunk.of_getLast le_rfl (by simp) (by simp) (by simpa using hb) h

theorem exists_chunk (hs : Separated keccak) (b : UInt8) (dat : Bytes) :
    ∃ out, Chunk keccak (b :: dat) (compressChunk keccak b dat) out := by
  rw [compressChunk]
  split_ifs with ht hz he hl
  · subst ht
    exact ⟨_, Chunk.of_byte (fun hb => absurd hb (by decide)) fun rest => decompress_token _ _⟩
  · obtain ⟨rfl, hz⟩ := hz
    have h₁ := two_le_zeros hz
    obtain ⟨h₂, -⟩ := zeros_le (0 :: dat)
    obtain ⟨out, ho⟩ := @decodes_zeros keccak _ h₁ h₂
    have hlossy := lossy_zeros h₂ (drop_zeros (0 :: dat))
    rw [← take_zeros, List.take_append_drop] at hlossy
    exact ⟨out, take_zeros (0 :: dat) ▸ ho, one_le_two.trans h₁, hlossy⟩
  · exact ⟨_, Chunk.of_hash he hs.empty rfl⟩
  · exact ⟨_, Chunk.of_hash hl hs.emptyList rfl⟩
  · exact ⟨_, Chunk.of_byte (fun hb hh => hz ⟨hb, hh⟩) fun rest => decompress_byte ht _⟩

theorem decompress_compressLoop (hs : Separated keccak) {dat : Bytes} (h : dat.length ≤ n) :
    ∃ out, decompress keccak (compressLoop keccak n dat) = .ok out ∧
      (¬ Lossy dat → out = dat) ∧ (Lossy dat → out.length < dat.length) := by
  have hnil : ∃ out, decompress keccak [] = .ok out ∧
      (¬ Lossy [] → out = []) ∧ (Lossy [] → out.length < 0) :=
    ⟨[], rfl, fun _ => rfl, by simp [Lossy, runs, Collides]⟩
  induction n generalizing dat
  case zero =>
    obtain rfl := List.length_eq_zero_iff.mp (Nat.le_zero.mp h)
    exact hnil
  case succ n hi =>
    cases dat
    case nil => exact hnil
    case cons b dat =>
      obtain ⟨out₁, hc⟩ := exists_chunk hs b dat
      rw [compressLoop]
      generalize compressChunk keccak b dat = c at hc
      have hk := hc.pos
      have hd : ((b :: dat).drop c.snd).length ≤ n := by
        rw [List.length_drop]
        omega
      obtain ⟨out₂, h₂, heq, hlt⟩ := hi hd
      refine ⟨out₁ ++ out₂, ?_, fun hno => ?_, fun hlossy => ?_⟩
      · rw [hc.decodes.decompress, h₂]
        rfl
      · obtain ⟨h₁, hno⟩ := not_or.mp (mt hc.lossy.mpr hno)
        rw [hc.decodes.eq h₁, heq hno, List.take_append_drop]
      · -- One of the two parts is shorter, and neither is longer.
        have hsplit := congrArg List.length (List.take_append_drop c.snd (b :: dat))
        have hle₁ : out₁.length ≤ ((b :: dat).take c.snd).length := by
          by_cases ha : Ambiguous ((b :: dat).take c.snd)
          · exact (hc.decodes.lt ha).le
          · rw [hc.decodes.eq ha]
        have hle₂ : out₂.length ≤ ((b :: dat).drop c.snd).length := by
          by_cases ha : Lossy ((b :: dat).drop c.snd)
          · exact (hlt ha).le
          · rw [heq ha]
        rw [List.length_append] at hsplit
        rw [List.length_append]
        obtain ha | ha := hc.lossy.mp hlossy
        · have := hc.decodes.lt ha
          omega
        · have := hlt ha
          omega

-- Compression can be undone exactly when the last piece of every run of zeros, cut into pieces of
-- 255, has neither 251 nor 252 nor 253 of them.
theorem decompress_compress_iff (keccak : Bytes → Hash) (hs : Separated keccak) (dat : Bytes) :
    decompress keccak (compress keccak dat) = .ok dat ↔ ∀ n ∈ runs dat, ¬ Collides n := by
  obtain ⟨out, ho, heq, hlt⟩ := decompress_compressLoop hs (@le_rfl _ _ dat.length)
  rw [compress, ho]
  constructor
  · intro he n hn hc
    have := hlt ⟨n, hn, hc⟩
    rw [Except.ok.inj he] at this
    exact lt_irrefl _ this
  · intro hall
    rw [heq]
    rintro ⟨n, hn, hc⟩
    exact hall n hn hc

-- Keccak256 of the two inputs that have an abbreviation, and something else for the other ones.
def keccakSample (b : Bytes) : Hash :=
  if b = [] then
    bytesToHash [0xc5, 0xd2, 0x46, 0x01, 0x86, 0xf7, 0x23, 0x3c,
      0x92, 0x7e, 0x7d, 0xb2, 0xdc, 0xc7, 0x03, 0xc0,
      0xe5, 0x00, 0xb6, 0x53, 0xca, 0x82, 0x27, 0x3b,
      0x7b, 0xfa, 0xd8, 0x04, 0x5d, 0x85, 0xa4, 0x70]
  else if b = [0x80] then
    bytesToHash [0x56, 0xe8, 0x1f, 0x17, 0x1b, 0xcc, 0x55, 0xa6,
      0xff, 0x83, 0x45, 0xe6, 0x92, 0xc0, 0xf8, 0x6e,
      0x5b, 0x48, 0xe0, 0x1b, 0x99, 0x6c, 0xad, 0xc0,
      0x01, 0x62, 0x2f, 0xb5, 0xe3, 0x63, 0xb4, 0x21]
  else
    Hash.zero

theorem decompress_compress_sample :
    Separated keccakSample ∧ (∀ n ∈ runs [0x01, 0x00, 0x00, 0xfe], ¬ Collides n) ∧
      decompress keccakSample (compress keccakSample [0x01, 0x00, 0x00, 0xfe]) =
        .ok [0x01, 0x00, 0x00, 0xfe] := by
  have hs : Separated keccakSample := ⟨by decide, by decide⟩
  have hr : ∀ n ∈ runs [0x01, 0x00, 0x00, 0xfe], ¬ Collides n := by
    unfold Collides
    decide
  exact ⟨hs, hr, (decompress_compress_iff keccakSample hs _).mpr hr⟩

theorem compress_zeros (keccak : Bytes → Hash) (h : n + 2 ≤ 255) :
    compress keccak (List.replicate (n + 2) 0) = [token, UInt8.ofNat (n + 4)] := by
  have hz : zeros (List.replicate (n + 2) 0) = n + 2 := by
    have hle := le_zeros (n + 2) []
    obtain ⟨-, hge⟩ := zeros_le (List.replicate (n + 2) 0)
    rw [List.append_nil] at hle
    rw [List.length_replicate] at hge
    omega
  rw [compress, List.length_replicate, List.replicate_succ, compressLoop, compressChunk,
    if_neg (by decide), if_pos ⟨rfl, by rfl⟩, ← List.replicate_succ]
  dsimp only
  rw [hz, List.drop_replicate, Nat.sub_self]
  rfl

-- The count of 253 zeros is the token for a token.
theorem decompress_compress_zeros :
    (∀ keccak : Bytes → Hash,
      decompress keccak (compress keccak (List.replicate 253 0)) = .ok [token]) ∧
    List.replicate 253 0 ≠ [token] := by
  constructor
  · intro keccak
    rw [compress_zeros keccak (by decide)]
    rfl
  · intro he
    have := congrArg List.length he
    rw [List.length_replicate] at this
    exact absurd this (by decide)

end Rle
