import GoEthereum.State.Invariant

-- Going over the storage of an object, and the form in which the storage trie keeps its values.

namespace Common

def Hash.toNat (h : Hash) : Nat :=
  ofBigEndian h.bytes

theorem Hash.toNat_injective : Function.Injective Hash.toNat := by
  intro h h' he
  apply Hash.bytes_injective
  rw [← bigEndian_ofBigEndian h.bytes, ← bigEndian_ofBigEndian h'.bytes, Hash.bytes_length,
    Hash.bytes_length]
  exact congrArg _ he

theorem Hash.toNat_eq_zero {h : Hash} : h.toNat = 0 ↔ h = Hash.zero :=
  ⟨fun he => Hash.toNat_injective he, fun he => he ▸ by decide⟩

theorem toNat_bytesToHash (b : Bytes) : (bytesToHash b).toNat = ofBigEndian b % 256 ^ 32 := by
  have hd : ofBigEndian b =
      ofBigEndian (b.take (b.length - 32)) * 256 ^ (b.drop (b.length - 32)).length
        + ofBigEndian (b.drop (b.length - 32)) := by
    rw [← ofBigEndian_append, List.take_append_drop]
  have hl : (bytesToHash b).toNat = ofBigEndian (b.drop (b.length - 32)) :=
    ofBigEndian_zeros_append _ _
  have hlt := ofBigEndian_lt (b.drop (b.length - 32))
  rw [hl, hd]
  rcases Nat.lt_or_ge b.length 32 with hb | hb
  case inl =>
    have hz : b.length - 32 = 0 := by omega
    have hp : 256 ^ b.length ≤ 256 ^ 32 := Nat.pow_le_pow_right (by decide) hb.le
    simp only [hz, List.take_zero, List.drop_zero] at hlt ⊢
    rw [show ofBigEndian [] = 0 from rfl, Nat.zero_mul, Nat.zero_add, Nat.mod_eq_of_lt (by omega)]
  case inr =>
    have hn : (b.drop (b.length - 32)).length = 32 := by
      rw [List.length_drop]
      omega
    rw [hn] at hlt ⊢
    rw [Nat.mul_add_mod_self_right, Nat.mod_eq_of_lt hlt]

end Common

namespace State

open Common

-- What `updateTrie` writes for a value that is not zero.
def encodeValue (value : Hash) : Bytes :=
  Rlp.encodeString (value.bytes.dropWhile (· = 0))

-- What `GetState` reads from a leaf.
def decodeValue (enc : Bytes) : Option Hash :=
  match Rlp.split enc with
  | .ok (_, content, _) => some (bytesToHash content)
  | .error _            => none

theorem trim_length_le (value : Hash) : (value.bytes.dropWhile (· = 0)).length ≤ 32 := by
  rw [← value.bytes_length]
  exact (List.dropWhile_suffix _).length_le

-- A value whose leaf, taken as a number, is the value: one byte that encodes itself, or bytes
-- that fill a hash, of whose encoding `BytesToHash` crops the head.
def Plain (value : Hash) : Prop :=
  value.toNat < 0x80 ∨ 2 ^ 248 ≤ value.toNat

instance (value : Hash) : Decidable (Plain value) :=
  inferInstanceAs (Decidable (_ ∨ _))

section

variable {b : Bytes}

theorem ofBigEndian_encodeString (hs : ∀ c, b = [c] → ¬(c.toNat < 0x80)) (hl : b.length ≤ 32) :
    ofBigEndian (Rlp.encodeString b) = (0x80 + b.length) * 256 ^ b.length + ofBigEndian b := by
  have hc : (UInt8.ofNat (0x80 + b.length)).toNat = 0x80 + b.length :=
    UInt8.toNat_ofNat_of_lt' (show _ < 256 by omega)
  rw [Rlp.encodeString_string hs, Rlp.puthead, if_pos (by omega), List.singleton_append,
    ofBigEndian_cons, hc]

theorem encodeString_mod_eq_iff (hs : ∀ c, b = [c] → ¬(c.toNat < 0x80)) (hl : b.length ≤ 32) :
    ofBigEndian (Rlp.encodeString b) % 256 ^ 32 = ofBigEndian b ↔ b.length = 32 := by
  have hlt := ofBigEndian_lt b
  rw [ofBigEndian_encodeString hs hl]
  constructor
  case mp =>
    intro h
    by_contra hne
    have hp : 0 < 256 ^ b.length := by positivity
    have hb : (0x80 + b.length) * 256 ^ b.length + ofBigEndian b < 256 ^ 32 :=
      calc (0x80 + b.length) * 256 ^ b.length + ofBigEndian b
        _ < (0x80 + b.length) * 256 ^ b.length + 256 ^ b.length := by omega
        _ = (0x80 + b.length + 1) * 256 ^ b.length := by ring
        _ ≤ 256 * 256 ^ b.length := Nat.mul_le_mul_right _ (by omega)
        _ = 256 ^ (b.length + 1) := by ring
        _ ≤ 256 ^ 32 := Nat.pow_le_pow_right (by decide) (by omega)
    have hm : 0 < (0x80 + b.length) * 256 ^ b.length := Nat.mul_pos (by omega) hp
    omega
  case mpr =>
    intro h
    rw [h] at hlt ⊢
    rw [Nat.mul_add_mod_self_right, Nat.mod_eq_of_lt hlt]

theorem length_eq_iff_plain (hz : b.head? ≠ some 0) (hn : b ≠ [])
    (hs : ∀ c, b = [c] → ¬(c.toNat < 0x80)) (hl : b.length ≤ 32) :
    b.length = 32 ↔ ofBigEndian b < 0x80 ∨ 2 ^ 248 ≤ ofBigEndian b := by
  obtain ⟨c, b, rfl⟩ := List.exists_cons_of_ne_nil hn
  have hc : c ≠ 0 := by simpa using hz
  have hlt := ofBigEndian_lt (c :: b)
  have hge := ofBigEndian_ge hc b
  rw [List.length_cons] at hl hlt ⊢
  constructor
  case mp =>
    intro h
    right
    rw [show b.length = 31 by omega] at hge
    simpa using hge
  case mpr =>
    rintro (h | h)
    case inl =>
      rcases b with _ | ⟨d, b⟩
      · exact absurd (by simpa [ofBigEndian] using h) (hs c rfl)
      · have hp : 256 ^ 1 ≤ 256 ^ (d :: b).length := Nat.pow_le_pow_right (by decide) (by simp)
        omega
    case inr =>
      by_contra hne
      have hp : 256 ^ (b.length + 1) ≤ 256 ^ 31 := Nat.pow_le_pow_right (by decide) (by omega)
      omega

end

theorem bytesToHash_encodeValue {value : Hash} (hv : value ≠ Hash.zero) :
    bytesToHash (encodeValue value) = value ↔ Plain value := by
  have hn : value.toNat ≠ 0 := mt Hash.toNat_eq_zero.mp hv
  have hb : ofBigEndian (value.bytes.dropWhile (· = 0)) = value.toNat := ofBigEndian_trim _
  have hl := trim_length_le value
  have hz : (value.bytes.dropWhile (· = 0)).head? ≠ some 0 := by
    intro h
    simpa [h] using List.head?_dropWhile_not (· = 0) value.bytes
  rw [← Hash.toNat_injective.eq_iff, toNat_bytesToHash, encodeValue, Plain, ← hb]
  generalize value.bytes.dropWhile (· = 0) = b at hb hl hz ⊢
  have hne : b ≠ [] := by
    rintro rfl
    exact hn hb.symm
  by_cases hs : ∃ c, b = [c] ∧ c.toNat < 0x80
  case pos =>
    obtain ⟨c, rfl, hc⟩ := hs
    have hc' : ofBigEndian [c] = c.toNat := by simp [ofBigEndian]
    rw [Rlp.encodeString_byte hc]
    omega
  case neg =>
    have hs : ∀ c, b = [c] → ¬(c.toNat < 0x80) := fun c he hc => hs ⟨c, he, hc⟩
    rw [encodeString_mod_eq_iff hs hl, length_eq_iff_plain hz hne hs hl]

theorem bytesToHash_encodeValue_ne_zero {value : Hash} (hv : value ≠ Hash.zero) :
    bytesToHash (encodeValue value) ≠ Hash.zero := by
  have hn : value.toNat ≠ 0 := mt Hash.toNat_eq_zero.mp hv
  have hb : ofBigEndian (value.bytes.dropWhile (· = 0)) = value.toNat := ofBigEndian_trim _
  have hl := trim_length_le value
  intro h
  rw [← Hash.toNat_eq_zero, toNat_bytesToHash, encodeValue] at h
  generalize value.bytes.dropWhile (· = 0) = b at hb hl h
  by_cases hs : ∃ c, b = [c] ∧ c.toNat < 0x80
  case pos =>
    obtain ⟨c, rfl, hc⟩ := hs
    rw [Rlp.encodeString_byte hc, hb, ← hb, show ofBigEndian [c] = c.toNat by simp [ofBigEndian]] at h
    rw [show ofBigEndian [c] = c.toNat by simp [ofBigEndian]] at hb
    omega
  case neg =>
    have hs : ∀ c, b = [c] → ¬(c.toNat < 0x80) := fun c he hc => hs ⟨c, he, hc⟩
    have hd : 256 ^ b.length ∣ ofBigEndian b := by
      have hm : 256 ^ b.length ∣ 256 ^ 32 := Nat.pow_dvd_pow _ hl
      have hx := hm.trans (Nat.dvd_of_mod_eq_zero h)
      rw [ofBigEndian_encodeString hs hl] at hx
      exact (Nat.dvd_add_right (Dvd.intro_left _ rfl)).mp hx
    exact hn (hb ▸ Nat.eq_zero_of_dvd_of_lt hd (ofBigEndian_lt b))

-- What the iterator of a storage trie goes over: the hash of a key and the encoded value. `keys`
-- are in the order of their hashes.
def iterator (H : Hashing) (t : StorageTrie) (keys : List Hash) : List (Hash × Bytes) :=
  keys.map fun key => (H.keccak key.bytes, encodeValue (t key))

structure Keys (t : StorageTrie) (keys : List Hash) : Prop where
  nodup   : keys.Nodup
  mem_iff : ∀ {key : Hash}, key ∈ keys ↔ t key ≠ Hash.zero

-- `SecureTrie.GetKey`. A preimage that neither the cache nor the database has is nil.
def getKey (preimages : Hash → Option Bytes) (shaKey : Hash) : Bytes :=
  (preimages shaKey).getD []

namespace StateObject

-- The calls of the callback, in their order.
def forEachStorage (preimages : Hash → Option Bytes) (it : List (Hash × Bytes)) (o : StateObject) :
    List (Hash × Hash) :=
  -- When iterating over the storage check the cache first.
  (o.cachedStorage.entries.map fun e => (e.fst, e.snd)) ++ it.filterMap fun leaf =>
    let key := bytesToHash (getKey preimages leaf.1)
    -- Ignore cached values.
    if (o.cachedStorage.lookup key).isSome then none else some (key, bytesToHash leaf.2)

-- Each key with a value is called for once, and always with its value.
structure Complete (db : Database) (o : StateObject) (calls : List (Hash × Hash)) : Prop where
  once  : ∀ key, (o.getState db key).1 ≠ Hash.zero → (calls.map Prod.fst).count key = 1
  value : ∀ call ∈ calls, call.2 = (o.getState db call.1).1

-- A key that the iterator gives back from its hash. For the zero key a missing preimage does no harm.
def Known (H : Hashing) (preimages : Hash → Option Bytes) (key : Hash) : Prop :=
  key = Hash.zero ∨ preimages (H.keccak key.bytes) = some key.bytes

-- What is only in the trie has its preimage and a plain value, and no key without its preimage is
-- taken for the zero key.
structure Iterable (H : Hashing) (preimages : Hash → Option Bytes) (t : StorageTrie)
    (o : StateObject) : Prop where
  stored : ∀ key, o.cachedStorage.lookup key = none → t key ≠ Hash.zero →
    Known H preimages key ∧ Plain (t key)
  zero   : (o.cachedStorage.lookup Hash.zero).isSome ∨ ∀ key, t key ≠ Hash.zero →
    Known H preimages key

section

variable {H : Hashing} {db : Database} {preimages : Hash → Option Bytes} {t : StorageTrie}
variable {keys : List Hash} {o : StateObject} {key : Hash}

def leafKey (H : Hashing) (preimages : Hash → Option Bytes) (key : Hash) : Hash :=
  bytesToHash (getKey preimages (H.keccak key.bytes))

def leafCall (H : Hashing) (preimages : Hash → Option Bytes) (t : StorageTrie) (o : StateObject)
    (key : Hash) : Option (Hash × Hash) :=
  if (o.cachedStorage.lookup (leafKey H preimages key)).isSome then none
  else some (leafKey H preimages key, bytesToHash (encodeValue (t key)))

theorem bytesToHash_bytes (h : Hash) : bytesToHash h.bytes = h := by
  apply Hash.bytes_injective
  change List.replicate (32 - h.bytes.length) 0 ++ h.bytes.drop (h.bytes.length - 32) = h.bytes
  rw [h.bytes_length]
  rfl

section

variable (hp : preimages (H.keccak key.bytes) = none ∨ preimages (H.keccak key.bytes) = some key.bytes)
include hp

theorem leafKey_of_known (h : Known H preimages key) :
    leafKey H preimages key = key := by
  rw [leafKey, getKey]
  obtain hp | hp := hp
  case inl =>
    obtain rfl | h := h
    case inl =>
      rw [hp]
      rfl
    case inr => simp [hp] at h
  case inr =>
    rw [hp]
    exact bytesToHash_bytes key

theorem leafKey_of_not_known (h : ¬Known H preimages key) :
    leafKey H preimages key = Hash.zero := by
  obtain hp | hp := hp
  case inl =>
    rw [leafKey, getKey, hp]
    rfl
  case inr => exact absurd (.inr hp) h

end

theorem forEachStorage_iterator : o.forEachStorage preimages (iterator H t keys) =
    (o.cachedStorage.entries.map fun e => (e.fst, e.snd)) ++
      keys.filterMap (leafCall H preimages t o) := by
  rw [forEachStorage, iterator, List.filterMap_map]
  rfl

theorem mem_cached_calls {call : Hash × Hash} :
    call ∈ (o.cachedStorage.entries.map fun e => (e.fst, e.snd)) ↔
      o.cachedStorage.lookup call.1 = some call.2 := by
  rw [List.mem_map]
  constructor
  case mp =>
    rintro ⟨e, he, rfl⟩
    exact AList.mem_lookup_iff.mpr he
  case mpr =>
    intro h
    exact ⟨⟨call.1, call.2⟩, AList.mem_lookup_iff.mp h, rfl⟩

theorem count_cached_calls : ((o.cachedStorage.entries.map fun e => (e.fst, e.snd)).map
    Prod.fst).count key = if (o.cachedStorage.lookup key).isSome then 1 else 0 := by
  have hn : o.cachedStorage.keys.Nodup := o.cachedStorage.nodupKeys
  rw [List.map_map]
  split_ifs with h
  · exact List.count_eq_one_of_mem hn (AList.mem_keys.mp (AList.lookup_isSome.mp h))
  · exact List.count_eq_zero_of_not_mem fun hm => h (AList.lookup_isSome.mpr (AList.mem_keys.mpr hm))

theorem mem_leafCalls {call : Hash × Hash} : call ∈ keys.filterMap (leafCall H preimages t o) ↔
    ∃ key ∈ keys, o.cachedStorage.lookup (leafKey H preimages key) = none ∧
      call = (leafKey H preimages key, bytesToHash (encodeValue (t key))) := by
  rw [List.mem_filterMap]
  refine exists_congr fun key => and_congr_right fun _ => ?_
  rw [leafCall]
  split_ifs with h
  · simp [Option.isSome_iff_ne_none.mp h]
  · simp [Option.not_isSome_iff_eq_none.mp h, eq_comm]

theorem Iterable.leafCall_eq (hi : Iterable H preimages t o) (hk : t key ≠ Hash.zero)
    (hp : preimages (H.keccak key.bytes) = none ∨ preimages (H.keccak key.bytes) = some key.bytes) :
    leafCall H preimages t o key =
      if (o.cachedStorage.lookup key).isSome then none else some (key, t key) := by
  by_cases hn : Known H preimages key
  case pos =>
    rw [leafCall, leafKey_of_known hp hn]
    split_ifs with hc
    · rfl
    · have hv := (hi.stored key (Option.not_isSome_iff_eq_none.mp hc) hk).right
      rw [(bytesToHash_encodeValue hk).mpr hv]
  case neg =>
    have hc : (o.cachedStorage.lookup key).isSome := by
      rw [Option.isSome_iff_ne_none]
      exact fun hc => hn (hi.stored key hc hk).left
    have hz : (o.cachedStorage.lookup Hash.zero).isSome := hi.zero.resolve_right fun h => hn (h key hk)
    rw [leafCall, leafKey_of_not_known hp hn, if_pos hz, if_pos hc]

theorem Iterable.complete (hi : Iterable H preimages (o.getTrie db).1 o)
    (hk : Keys (o.getTrie db).1 keys) (hp : ∀ key ∈ keys, preimages (H.keccak key.bytes) = none ∨
      preimages (H.keccak key.bytes) = some key.bytes) :
    Complete db o (o.forEachStorage preimages (iterator H (o.getTrie db).1 keys)) := by
  have hl : keys.filterMap (leafCall H preimages (o.getTrie db).1 o) =
      (keys.filter fun key => o.cachedStorage.lookup key = none).map fun key =>
        (key, (o.getTrie db).1 key) := by
    rw [← List.filterMap_eq_map', List.filterMap_filter]
    refine List.filterMap_congr fun key hm => ?_
    rw [hi.leafCall_eq (hk.mem_iff.mp hm) (hp key hm)]
    cases o.cachedStorage.lookup key <;> rfl
  rw [forEachStorage_iterator, hl]
  constructor
  case once =>
    intro key hv
    rw [getState_fst] at hv
    rw [List.map_append, List.count_append, count_cached_calls, List.map_map]
    change _ + (List.map id _).count key = 1
    rw [List.map_id]
    split_ifs with hc
    · rw [List.count_eq_zero_of_not_mem]
      simp [Option.isSome_iff_ne_none.mp hc]
    · have hc := Option.not_isSome_iff_eq_none.mp hc
      rw [hc, Option.getD_none] at hv
      rw [List.count_eq_one_of_mem (hk.nodup.filter _)]
      simp [hk.mem_iff, hv, hc]
  case value =>
    intro call hm
    rw [getState_fst]
    obtain hm | hm := List.mem_append.mp hm
    case inl => rw [mem_cached_calls.mp hm, Option.getD_some]
    case inr =>
      obtain ⟨key, hm', rfl⟩ := List.mem_map.mp hm
      have hc : o.cachedStorage.lookup key = none := by simpa using (List.mem_filter.mp hm').right
      rw [hc, Option.getD_none]

theorem Complete.iterable (hk : Keys (o.getTrie db).1 keys) (hp : ∀ key ∈ keys,
      preimages (H.keccak key.bytes) = none ∨ preimages (H.keccak key.bytes) = some key.bytes)
    (hc : Complete db o (o.forEachStorage preimages (iterator H (o.getTrie db).1 keys))) :
    Iterable H preimages (o.getTrie db).1 o := by
  rw [forEachStorage_iterator] at hc
  -- A leaf whose key is not cached is called for, so its value must be right.
  have hcall : ∀ key, (o.getTrie db).1 key ≠ Hash.zero →
      o.cachedStorage.lookup (leafKey H preimages key) = none →
      bytesToHash (encodeValue ((o.getTrie db).1 key)) =
        (o.getTrie db).1 (leafKey H preimages key) := by
    intro key hv hn
    have h := hc.value _ (List.mem_append_right _
      (mem_leafCalls.mpr ⟨key, hk.mem_iff.mpr hv, hn, rfl⟩))
    rwa [getState_fst, hn] at h
  constructor
  case stored =>
    intro key hn hv
    have hknown : Known H preimages key := by
      have hone := hc.once key (by rwa [getState_fst, hn])
      obtain ⟨call, hm, rfl⟩ := List.mem_map.mp (List.count_pos_iff.mp (by rw [hone]; decide))
      obtain hm | hm := List.mem_append.mp hm
      case inl => simp [mem_cached_calls.mp hm] at hn
      case inr =>
        obtain ⟨key, hm', -, rfl⟩ := mem_leafCalls.mp hm
        by_cases h : Known H preimages key
        case pos => simpa only [leafKey_of_known (hp key hm') h] using h
        case neg => exact .inl (leafKey_of_not_known (hp key hm') h)
    have hl := leafKey_of_known (hp key (hk.mem_iff.mpr hv)) hknown
    have h := hcall key hv (by rw [hl, hn])
    rw [hl] at h
    exact ⟨hknown, (bytesToHash_encodeValue hv).mp h⟩
  case zero =>
    by_contra h
    push Not at h
    obtain ⟨hn, key, hv, hknown⟩ := h
    have hn : o.cachedStorage.lookup Hash.zero = none := Option.not_isSome_iff_eq_none.mp hn
    have hm := hk.mem_iff.mpr hv
    have hl := leafKey_of_not_known (hp key hm) hknown
    have h := hcall key hv (by rw [hl, hn])
    rw [hl] at h
    have hz : (o.getTrie db).1 Hash.zero ≠ Hash.zero := h ▸ bytesToHash_encodeValue_ne_zero hv
    -- The zero key is called for twice.
    have hone := hc.once Hash.zero (by rwa [getState_fst, hn])
    have hlz := leafKey_of_known (hp Hash.zero (hk.mem_iff.mpr hz)) (.inl rfl)
    have hmz : Hash.zero ∈ keys.erase key := by
      rw [hk.nodup.mem_erase_iff]
      exact ⟨fun he => hknown (.inl he.symm), hk.mem_iff.mpr hz⟩
    have hperm := (List.perm_cons_erase hm).trans ((List.perm_cons_erase hmz).cons key)
    have htwo := ((hperm.filterMap (leafCall H preimages (o.getTrie db).1 o)).map
      Prod.fst).count_eq Hash.zero
    have hcalled : ∀ key, leafKey H preimages key = Hash.zero →
        leafCall H preimages (o.getTrie db).1 o key =
          some (Hash.zero, bytesToHash (encodeValue ((o.getTrie db).1 key))) := by
      intro key hl
      rw [leafCall, hl, hn]
      rfl
    rw [List.map_append, List.count_append, htwo, List.filterMap_cons_some (hcalled key hl),
      List.filterMap_cons_some (hcalled _ hlz), List.map_cons, List.map_cons, List.count_cons_self,
      List.count_cons_self] at hone
    omega

-- Iteration is complete exactly on the objects that can be iterated.
theorem forEachStorage_complete_iff (hk : Keys (o.getTrie db).1 keys) (hp : ∀ key ∈ keys,
      preimages (H.keccak key.bytes) = none ∨ preimages (H.keccak key.bytes) = some key.bytes) :
    Complete db o (o.forEachStorage preimages (iterator H (o.getTrie db).1 keys)) ↔
      Iterable H preimages (o.getTrie db).1 o :=
  ⟨Complete.iterable hk hp, fun hi => hi.complete hk hp⟩

end

def sampleHashing : Hashing where
  keccak      := bytesToHash
  storageRoot := fun _ => Hash.zero
  accountRoot := fun _ => Hash.zero

def sampleDb : Database where
  accounts := fun _ => none
  storages := fun _ => none
  codes    := fun _ => none

def sampleStored (value : Hash) : StateObject :=
  { newObject Address.zero (newAccount sampleHashing) with
    trie := some (Function.update StorageTrie.empty (bytesToHash [1]) value) }

theorem sampleStored_keys {value : Hash} (h : value ≠ Hash.zero) :
    Keys ((sampleStored value).getTrie sampleDb).1 [bytesToHash [1]] where
  nodup   := List.nodup_singleton _
  mem_iff := by
    intro key
    change key ∈ _ ↔ Function.update StorageTrie.empty (bytesToHash [1]) value key ≠ _
    by_cases hk : key = bytesToHash [1]
    · simp [hk, h]
    · simp [hk, StorageTrie.empty]

def samplePreimages (shaKey : Hash) : Option Bytes :=
  some shaKey.bytes

theorem samplePreimages_eq (key : Hash) :
    samplePreimages (sampleHashing.keccak key.bytes) = some key.bytes :=
  congrArg (fun h : Hash => some h.bytes) (bytesToHash_bytes key)

theorem sampleStored_iterable {value : Hash} (h : Plain value) : Iterable sampleHashing
    samplePreimages ((sampleStored value).getTrie sampleDb).1 (sampleStored value) where
  stored := by
    intro key _ hv
    change Function.update StorageTrie.empty (bytesToHash [1]) value key ≠ _ at hv
    refine ⟨.inr (samplePreimages_eq key), ?_⟩
    change Plain (Function.update StorageTrie.empty (bytesToHash [1]) value key)
    by_cases hk : key = bytesToHash [1]
    · rwa [hk]
    · simp [hk, StorageTrie.empty] at hv
  zero   := .inr fun key _ => .inr (samplePreimages_eq key)

theorem sampleStored_complete : Complete sampleDb (sampleStored (bytesToHash [5]))
    [(bytesToHash [1], bytesToHash [5])] := by
  have hcalls : (sampleStored (bytesToHash [5])).forEachStorage samplePreimages
      (iterator sampleHashing ((sampleStored (bytesToHash [5])).getTrie sampleDb).1
        [bytesToHash [1]]) = [(bytesToHash [1], bytesToHash [5])] := by
    decide +kernel
  refine (forEachStorage_complete_iff (sampleStored_keys (by decide)) ?_).mpr
    (sampleStored_iterable (by decide))
  exact fun key _ => .inr (samplePreimages_eq key)

-- A value of two bytes is reported with the head of its encoding.
theorem sampleStored_not_complete :
    Keys ((sampleStored (bytesToHash [1, 0])).getTrie sampleDb).1 [bytesToHash [1]] ∧
      (∀ key : Hash, samplePreimages (sampleHashing.keccak key.bytes) = some key.bytes) ∧
      ¬Complete sampleDb (sampleStored (bytesToHash [1, 0]))
        ((sampleStored (bytesToHash [1, 0])).forEachStorage samplePreimages
          (iterator sampleHashing ((sampleStored (bytesToHash [1, 0])).getTrie sampleDb).1
            [bytesToHash [1]])) := by
  refine ⟨sampleStored_keys (by decide), samplePreimages_eq, fun h => ?_⟩
  have hv := h.value (bytesToHash [1], bytesToHash [0x82, 1, 0]) (by decide +kernel)
  revert hv
  decide +kernel

end StateObject

end State
