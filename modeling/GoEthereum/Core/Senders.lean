import GoEthereum.Core.Signer

-- The senders of signed transactions, with and without a cache.

namespace Core

open Common

section

variable {v c : Int}

theorem bitLen_le {n : Nat} : bitLen v ≤ n ↔ v.natAbs < 2 ^ n :=
  Nat.size_le

theorem bitLen_pos : 0 < bitLen c ↔ c ≠ 0 := by
  rw [bitLen, Nat.size_pos, Int.natAbs_pos]

theorem uint64_toNat (h : v.natAbs < 2 ^ 64) : (uint64 v).toNat = v.natAbs :=
  Nat.mod_eq_of_lt h

theorem uint64_eq_iff (h : v.natAbs < 2 ^ 64) {n : UInt64} :
    uint64 v = n ↔ v.natAbs = n.toNat := by
  rw [← UInt64.toNat_inj, uint64_toNat h]

theorem uint64_ne_std (h : 35 ≤ v) (hb : v.natAbs < 2 ^ 64) : uint64 v ≠ 27 ∧ uint64 v ≠ 28 := by
  have h27 : (27 : UInt64).toNat = 27 := rfl
  have h28 : (28 : UInt64).toNat = 28 := rfl
  rw [Ne, Ne, uint64_eq_iff hb, uint64_eq_iff hb]
  omega

theorem isProtectedV_of_le (h : 35 ≤ v) : isProtectedV v = true := by
  rw [isProtectedV]
  split_ifs with hb
  · rw [bitLen_le] at hb
    exact decide_eq_true (uint64_ne_std h (by omega))
  · rfl

theorem deriveChainId_of_le (h : 35 ≤ v) : deriveChainId v = (v - 35) / 2 := by
  rw [deriveChainId]
  split_ifs with hb hs
  · obtain ⟨h₁, h₂⟩ := uint64_ne_std h (bitLen_le.mp hb)
    exact absurd hs (not_or.mpr ⟨h₁, h₂⟩)
  · rw [bitLen_le] at hb
    have hu := uint64_toNat hb
    have h35 : (35 : UInt64).toNat = 35 := rfl
    have h2 : (2 : UInt64).toNat = 2 := rfl
    rw [UInt64.toNat_div, UInt64.toNat_sub_of_le _ _ (by rw [UInt64.le_iff_toNat_le]; omega), h2]
    omega
  · rfl

-- The value of V that the signer of a chain writes for a recovery id.
def protectedV (c : Int) (recid : UInt8) : Int :=
  recid.toNat + 35 + c * 2

variable {recid : UInt8}

theorem chainId_protectedV (hc : 0 < c) (h : recid = 0 ∨ recid = 1) :
    deriveChainId (protectedV c recid) = c := by
  have hr : recid.toNat ≤ 1 := by obtain rfl | rfl := h <;> decide
  rw [protectedV, deriveChainId_of_le (by omega)]
  omega

theorem normaliseV_protectedV (hc : 0 < c) (h : recid = 0 ∨ recid = 1) :
    normaliseV (newEIP155Signer c) (protectedV c recid) = .ok (recid + 27) := by
  have hstd : ¬ (bitLen (protectedV c recid) ≤ 8 ∧
      (uint64 (protectedV c recid) = 27 ∨ uint64 (protectedV c recid) = 28)) := by
    rintro ⟨hb, hs⟩
    rw [bitLen_le] at hb
    obtain ⟨h₁, h₂⟩ := @uint64_ne_std (protectedV c recid) (by rw [protectedV]; omega) (by omega)
    exact hs.elim h₁ h₂
  have hsub : protectedV c recid - c * 2 = recid.toNat + 35 := by
    rw [protectedV]
    omega
  rw [newEIP155Signer, normaliseV, if_pos ⟨bitLen_pos.mpr hc.ne', hstd⟩, hsub]
  obtain rfl | rfl := h <;> rfl

end

-- What is taken from the curve: a signature has a recovery id of 0 or 1 and a low s, its public
-- key is recovered from it, and public keys are uncompressed.
structure Crypto.Lawful {Key : Type} (C : Crypto Key) (pub : Key → Bytes) : Prop where
  sign : ∀ entropy hash prv, ∃ (r s : Nat) (recid : UInt8),
    (1 ≤ r ∧ r < curveN) ∧ (1 ≤ s ∧ s ≤ curveHalfN) ∧ (recid = 0 ∨ recid = 1) ∧
    C.sign entropy hash prv = .ok (bigEndian 32 r ++ bigEndian 32 s ++ [recid]) ∧
    C.ecrecover hash (bigEndian 32 r ++ bigEndian 32 s ++ [recid]) = .ok (pub prv)
  pub  : ∀ prv, (pub prv).head? = some 4

section

variable {Key : Type} {C : Crypto Key} {pub : Key → Bytes} {prv : Key} {hash : Hash}
variable {r s : Nat} {recid : UInt8} {tx : Transaction}

theorem encodeSignature_eq (hr : r < curveN) (hs : s ≤ curveHalfN) :
    encodeSignature (recid + 27) r s = .ok (bigEndian 32 r ++ bigEndian 32 s ++ [recid]) := by
  have hr' : r < 256 ^ 32 := by
    have : curveN < 256 ^ 32 := by decide
    omega
  have hs' : s < 256 ^ 32 := by
    have : curveHalfN < 256 ^ 32 := by decide
    omega
  have hlr := leastBigEndian_length_le hr'
  have hls := leastBigEndian_length_le hs'
  rw [encodeSignature, Int.natAbs_natCast, Int.natAbs_natCast, if_neg (by omega),
    zeros_append_leastBigEndian hr', List.append_assoc (bigEndian 32 r),
    zeros_append_leastBigEndian hs', UInt8.add_sub_cancel]

theorem recoverKey_eq (hr : 1 ≤ r ∧ r < curveN) (hs : 1 ≤ s ∧ s ≤ curveHalfN)
    (hi : recid = 0 ∨ recid = 1)
    (he : C.ecrecover hash (bigEndian 32 r ++ bigEndian 32 s ++ [recid]) = .ok (pub prv))
    (hp : (pub prv).head? = some 4) :
    recoverKey C hash (recid + 27) r s true = .ok (pub prv) := by
  have hv : validateSignatureValues (recid + 27) r s true = true := by
    have hn : curveHalfN < curveN := by decide
    rw [validateSignatureValues, if_neg (by omega), if_neg (by omega), if_neg (by omega)]
    refine decide_eq_true ⟨hr.right, ?_⟩
    obtain rfl | rfl := hi <;> decide
  rw [recoverKey, if_neg (not_not.mpr hv), encodeSignature_eq hr.right hs.right, Go.ok_bind, he]
  exact if_pos hp

theorem modify_length {α : Type} (l : List α) (a : α) (f : α → α) :
    (l ++ [a]).modify l.length f = l ++ [f a] := by
  induction l
  case nil         => rfl
  case cons b l hi => simp [hi]

theorem signature_parts (hr : r < 256 ^ 32) (hs : s < 256 ^ 32) (v : UInt8) :
    let sig := bigEndian 32 r ++ bigEndian 32 s ++ [v]
    sig.length = 65 ∧ ofBigEndian (sig.take 32) = r ∧ ofBigEndian ((sig.drop 32).take 32) = s ∧
      sig.getD 64 0 = v ∧
      sig.modify 64 (· + 27) = bigEndian 32 r ++ bigEndian 32 s ++ [v + 27] := by
  have hlr := bigEndian_length 32 r
  have hls := bigEndian_length 32 s
  have hr' := ofBigEndian_bigEndian 32 r
  have hs' := ofBigEndian_bigEndian 32 s
  rw [Nat.mod_eq_of_lt hr] at hr'
  rw [Nat.mod_eq_of_lt hs] at hs'
  generalize bigEndian 32 r = br at *
  generalize bigEndian 32 s = bs at *
  refine ⟨?_, ?_, ?_, ?_, ?_⟩
  · simp [hlr, hls]
  · simp [hlr, hr']
  · simp [hlr, hls, hs']
  · simp [hlr, hls]
  · have := modify_length (br ++ bs) v (· + 27)
    rwa [List.length_append, hlr, hls] at this

theorem Crypto.Lawful.exists_signature (hC : C.Lawful pub) (entropy : Bytes) (hash : Hash)
    (prv : Key) :
    ∃ (r s : Nat) (recid : UInt8), (recid = 0 ∨ recid = 1) ∧
      signEthereum C entropy hash prv =
        .ok (bigEndian 32 r ++ bigEndian 32 s ++ [recid + 27]) ∧
      (r < 256 ^ 32 ∧ s < 256 ^ 32) ∧
      recoverKey C hash (recid + 27) r s true = .ok (pub prv) := by
  obtain ⟨r, s, recid, hr, hs, hi, hsign, hrec⟩ := hC.sign entropy hash prv
  have hlt : r < 256 ^ 32 ∧ s < 256 ^ 32 := by
    have h₁ : curveN < 256 ^ 32 := by decide
    have h₂ : curveHalfN < 256 ^ 32 := by decide
    omega
  refine ⟨r, s, recid, hi, ?_, hlt, recoverKey_eq hr hs hi hrec (hC.pub prv)⟩
  obtain ⟨-, -, -, -, hm⟩ := signature_parts hlt.left hlt.right recid
  rw [signEthereum, hsign]
  rfl

theorem bitLen_std {recid : UInt8} (hi : recid = 0 ∨ recid = 1) :
    bitLen ((recid + 27).toNat : Int) ≤ 8 ∧ isProtectedV ((recid + 27).toNat : Int) = false ∧
      (uint64 ((recid + 27).toNat : Int)).toUInt8 = recid + 27 := by
  obtain rfl | rfl := hi
  · decide
  · decide

theorem Crypto.Lawful.homestead (hC : C.Lawful pub) (entropy : Bytes) (tx : Transaction)
    (prv : Key) :
    ∃ signed, signECDSA C entropy .homestead tx prv = .ok signed ∧
      signed.protected_ = false ∧ plainPublicKey C true signed = .ok (pub prv) := by
  obtain ⟨r, s, recid, hi, hsign, hlt, hrec⟩ :=
    hC.exists_signature entropy (Signer.homestead.hash C.keccak tx) prv
  obtain ⟨hlen, hr, hs, hv, -⟩ := signature_parts hlt.left hlt.right (recid + 27)
  obtain ⟨hb, hp, hu⟩ := bitLen_std hi
  refine ⟨{ tx with r := r, s := s, v := (recid + 27).toNat }, ?_, hp, ?_⟩
  · rw [signECDSA, hsign]
    dsimp only
    rw [withSignature, if_neg (not_not.mpr hlen), hr, hs, hv]
  · rw [plainPublicKey, if_neg (not_lt.mpr hb), hu]
    exact hrec

variable {c : Int} {mul : Option Int}

theorem publicKey_unprotected (hp : tx.protected_ = false) :
    (Signer.eip155 c mul).publicKey C tx = plainPublicKey C true tx := by
  rw [Signer.publicKey, if_pos (by rw [hp]; exact Bool.false_ne_true)]

theorem publicKey_of_ne (hp : tx.protected_ = true) (hid : tx.chainId ≠ c) :
    (Signer.eip155 c mul).publicKey C tx = Go.fail .invalidChainId := by
  rw [Signer.publicKey, if_neg (not_not.mpr hp), if_pos hid]

theorem publicKey_protected (hp : tx.protected_ = true) (hid : tx.chainId = c) :
    (Signer.eip155 c mul).publicKey C tx =
      normaliseV (.eip155 c mul) tx.v >>= fun v =>
        recoverKey C ((Signer.eip155 c mul).hash C.keccak tx) v tx.r tx.s true := by
  rw [Signer.publicKey, if_neg (not_not.mpr hp), if_neg (not_not.mpr hid)]

theorem Crypto.Lawful.eip155 (hC : C.Lawful pub) (entropy : Bytes) (hc : 0 < c)
    (tx : Transaction) (prv : Key) :
    ∃ signed, signECDSA C entropy (newEIP155Signer c) tx prv = .ok signed ∧
      signed.protected_ = true ∧ signed.chainId = c ∧
      (newEIP155Signer c).publicKey C signed = .ok (pub prv) := by
  obtain ⟨r, s, recid, hi, hsign, hlt, hrec⟩ :=
    hC.exists_signature entropy ((newEIP155Signer c).hash C.keccak tx) prv
  obtain ⟨hlen, hr, hs, hv, -⟩ := signature_parts hlt.left hlt.right (recid + 27)
  have hp : isProtectedV (protectedV c recid) = true :=
    isProtectedV_of_le (by rw [protectedV]; omega)
  have hid := chainId_protectedV hc hi
  refine ⟨{ tx with r := r, s := s, v := protectedV c recid }, ?_, hp, hid, ?_⟩
  · have hv35 : ((recid + 27 - 27 + 35).toNat : Int) + c * 2 = protectedV c recid := by
      obtain rfl | rfl := hi <;> rfl
    rw [signECDSA, hsign]
    dsimp only
    rw [withSignature, if_neg (not_not.mpr hlen), hr, hs, hv, newEIP155Signer]
    dsimp only
    rw [if_pos (bitLen_pos.mpr hc.ne'), hv35]
  · have hn := normaliseV_protectedV hc hi
    rw [newEIP155Signer] at *
    refine (publicKey_protected ?_ ?_).trans ?_
    · exact hp
    · exact hid
    · rw [hn]
      exact hrec

theorem sender_fresh (signer : Signer) (tx : Transaction) :
    (sender C signer (.fresh tx)).fst = (signer.publicKey C tx).map (pubkeyAddress C) := by
  change (deriveSender C signer (.fresh tx)).fst = _
  rw [deriveSender, CachedTx.fresh]
  cases signer.publicKey C tx <;> rfl

end

-- The sender of a signed transaction is the address of the key. The signer of another chain refuses
-- it, and one without protection is recovered by the signers of all chains.
theorem eip155_sender {Key : Type} (C : Crypto Key) (pub : Key → Bytes) (hC : C.Lawful pub)
    (entropy : Bytes) (tx : Transaction) (prv : Key) :
    (∀ c : Int, 0 < c → ∃ signed,
      signECDSA C entropy (newEIP155Signer c) tx prv = .ok signed ∧
      (sender C (newEIP155Signer c) (.fresh signed)).fst = .ok (pubkeyAddress C (pub prv)) ∧
      ∀ c' mul, c' ≠ c →
        (sender C (.eip155 c' mul) (.fresh signed)).fst = Go.fail .invalidChainId) ∧
    (∃ signed, signECDSA C entropy .homestead tx prv = .ok signed ∧
      ∀ c mul, (sender C (.eip155 c mul) (.fresh signed)).fst =
        .ok (pubkeyAddress C (pub prv))) := by
  constructor
  · intro c hc
    obtain ⟨signed, hsign, hp, hid, hpub⟩ := hC.eip155 entropy hc tx prv
    refine ⟨signed, hsign, ?_, fun c' mul hne => ?_⟩
    · rw [sender_fresh, hpub]
      rfl
    · rw [sender_fresh, publicKey_of_ne hp fun he => hne (he.symm.trans hid)]
      rfl
  · obtain ⟨signed, hsign, hp, hpub⟩ := hC.homestead entropy tx prv
    refine ⟨signed, hsign, fun c mul => ?_⟩
    rw [sender_fresh, publicKey_unprotected hp, hpub]
    rfl

def samplePub (prv : Bool) : Bytes :=
  4 :: List.replicate 64 (if prv then 1 else 2)

def sampleCrypto : Crypto Bool where
  keccak    := bytesToHash
  sign      := fun _ _ prv => .ok (bigEndian 32 (if prv then 1 else 2) ++ bigEndian 32 1 ++ [0])
  ecrecover := fun _ sig => .ok (samplePub (sig.getD 31 0 = 1))

theorem sampleCrypto_lawful : sampleCrypto.Lawful samplePub where
  sign _ _ prv := by
    refine ⟨if prv then 1 else 2, 1, 0, ?_, by decide, Or.inl rfl, rfl, ?_⟩
    · cases prv <;> decide
    · cases prv <;> rfl
  pub prv      := rfl

def signedTx (v : Int) : Transaction where
  accountNonce := 0
  price        := 1
  gasLimit     := 21000
  recipient    := none
  amount       := 0
  payload      := []
  v            := v
  r            := 1
  s            := 1

theorem eip155_sender_sample : sampleCrypto.Lawful samplePub ∧ ∃ signed,
    signECDSA sampleCrypto [] (newEIP155Signer 1) (signedTx 0) true = .ok signed ∧
    (sender sampleCrypto (newEIP155Signer 1) (.fresh signed)).fst =
      .ok (pubkeyAddress sampleCrypto (samplePub true)) ∧
    (sender sampleCrypto (newEIP155Signer 2) (.fresh signed)).fst = Go.fail .invalidChainId := by
  obtain ⟨h, -⟩ := eip155_sender _ _ sampleCrypto_lawful [] (signedTx 0) true
  obtain ⟨signed, hs, hr, hc⟩ := h 1 (by decide)
  exact ⟨sampleCrypto_lawful, signed, hs, hr, hc 2 _ (by decide)⟩

section

variable {Key : Type} {C : Crypto Key} {tx : Transaction} {s s' : Signer}

namespace Signer

-- The signers that the package makes: with twice the chain id, or without it.
def Made : Signer → Prop
  | eip155 c mul => mul = none ∨ mul = some (c * 2)
  | _            => True

-- A signer that needs twice the chain id for the transaction, and does not have it.
def Lacks (tx : Transaction) : Signer → Prop
  | eip155 c none => tx.protected_ = true ∧ tx.chainId = c ∧ c ≠ 0
  | _             => False

theorem newEIP155Signer_made (c : Int) : (newEIP155Signer c).Made :=
  Or.inr rfl

end Signer

variable {homestead : Bool}

theorem range_of_validate {v : UInt8} {r s : Int}
    (h : validateSignatureValues v r s homestead = true) :
    (1 ≤ r ∧ r < curveN) ∧ (1 ≤ s ∧ s < curveN) := by
  rw [validateSignatureValues] at h
  split_ifs at h
  have := (of_decide_eq_true h).left
  omega

theorem length_leastBigEndian_le {n : Int} (h : 1 ≤ n ∧ n < curveN) :
    (leastBigEndian n.natAbs).length ≤ 32 := by
  apply leastBigEndian_length_le
  have : curveN < 256 ^ 32 := by decide
  omega

theorem recoverKey_ne_panics {hash : Hash} {v : UInt8} {r s : Int} :
    recoverKey C hash v r s homestead ≠ Go.panics := by
  rw [recoverKey]
  by_cases hv : validateSignatureValues v r s homestead = true
  · obtain ⟨hr, hs⟩ := range_of_validate hv
    have hlr := length_leastBigEndian_le hr
    have hls := length_leastBigEndian_le hs
    rw [if_neg (not_not.mpr hv), encodeSignature, if_neg (by omega), Go.ok_bind]
    cases C.ecrecover hash _
    case error e => exact fun h => by cases h
    case ok pub  =>
      dsimp only
      split_ifs
      · exact fun h => by cases h
      · exact fun h => by cases h
  · rw [if_pos hv]
    exact fun h => by cases h

theorem plainPublicKey_ne_panics :
    plainPublicKey C homestead tx ≠ Go.panics := by
  rw [plainPublicKey]
  split_ifs
  · exact fun h => by cases h
  · exact recoverKey_ne_panics

theorem not_std_of_protected {v : Int} (h : isProtectedV v = true) :
    ¬ (bitLen v ≤ 8 ∧ (uint64 v = 27 ∨ uint64 v = 28)) := by
  rintro ⟨hb, hs⟩
  rw [isProtectedV, if_pos hb] at h
  obtain ⟨h₁, h₂⟩ := of_decide_eq_true h
  exact hs.elim h₁ h₂

theorem normaliseV_panics_iff {c v : Int} {mul : Option Int} (h : isProtectedV v = true) :
    normaliseV (.eip155 c mul) v = Go.panics ↔ mul = none ∧ c ≠ 0 := by
  have hs := not_std_of_protected h
  cases mul
  case none =>
    rw [normaliseV]
    by_cases hc : c = 0
    · rw [if_neg fun hb => bitLen_pos.mp hb.left hc]
      exact iff_of_false (fun h => by cases h) fun h => h.right hc
    · rw [if_pos ⟨bitLen_pos.mpr hc, hs⟩]
      exact iff_of_true rfl ⟨rfl, hc⟩
  case some m =>
    refine iff_of_false (fun h => ?_) fun h => by cases h.left
    rw [normaliseV] at h
    split_ifs at h <;> cases h

theorem Signer.lacks_eip155 {c : Int} {mul : Option Int} :
    (Signer.eip155 c mul).Lacks tx ↔
      mul = none ∧ tx.protected_ = true ∧ tx.chainId = c ∧ c ≠ 0 := by
  cases mul <;> simp [Lacks]

theorem publicKey_panics_iff : s.publicKey C tx = Go.panics ↔ s.Lacks tx := by
  cases s
  case frontier  => exact iff_of_false plainPublicKey_ne_panics id
  case homestead => exact iff_of_false plainPublicKey_ne_panics id
  case eip155 c mul =>
    rw [Signer.lacks_eip155]
    cases hp : tx.protected_
    case false =>
      rw [publicKey_unprotected hp]
      exact iff_of_false plainPublicKey_ne_panics fun h => by cases h.right.left
    case true =>
      by_cases hid : tx.chainId = c
      · rw [publicKey_protected hp hid, Go.bind_eq_panics, normaliseV_panics_iff hp]
        constructor
        · rintro (⟨hm, hc⟩ | ⟨v, -, hr⟩)
          · exact ⟨hm, rfl, hid, hc⟩
          · exact absurd hr recoverKey_ne_panics
        · exact fun h => Or.inl ⟨h.left, h.right.right.right⟩
      · rw [publicKey_of_ne hp hid]
        exact iff_of_false (fun h => by cases h) fun h => hid h.right.right.left

theorem publicKey_congr (hm : s.Made) (hm' : s'.Made) (he : s.equal s' = true)
    (hl : ¬ s.Lacks tx) (hl' : ¬ s'.Lacks tx) : s.publicKey C tx = s'.publicKey C tx := by
  cases s <;> cases s' <;> try cases he
  case frontier.frontier   => rfl
  case homestead.homestead => rfl
  case eip155.eip155 c mul c' mul' =>
    obtain rfl : c' = c := of_decide_eq_true he
    cases hp : tx.protected_
    case false => rw [publicKey_unprotected hp, publicKey_unprotected hp]
    case true =>
      by_cases hid : tx.chainId = c'
      · rw [Signer.lacks_eip155] at hl hl'
        by_cases hc : c' = 0
        · subst hc
          rfl
        · have h₁ := hm.resolve_left fun h => hl ⟨h, hp, hid, hc⟩
          have h₂ := hm'.resolve_left fun h => hl' ⟨h, hp, hid, hc⟩
          rw [h₁, h₂]
      · rw [publicKey_of_ne hp hid, publicKey_of_ne hp hid]

def CachedTx.Sound (C : Crypto Key) (tx : CachedTx) : Prop :=
  ∀ sc addr, tx.from_ = some (sc, addr) →
    sc.Made ∧ (sc.publicKey C tx.data).map (pubkeyAddress C) = .ok addr

theorem CachedTx.fresh_sound (tx : Transaction) : (CachedTx.fresh tx).Sound C := by
  intro sc addr h
  cases h

theorem deriveSender_step {tx : CachedTx} (h : tx.Sound C) (hm : s.Made) :
    (deriveSender C s tx).fst = (sender C s (.fresh tx.data)).fst ∧
      (deriveSender C s tx).snd.Sound C ∧ (deriveSender C s tx).snd.data = tx.data := by
  rw [sender_fresh, deriveSender]
  cases hk : s.publicKey C tx.data
  case error e => exact ⟨rfl, h, rfl⟩
  case ok pub  =>
    refine ⟨rfl, fun sc addr he => ?_, rfl⟩
    cases he
    exact ⟨hm, by rw [hk]; rfl⟩

theorem sender_step {tx : CachedTx} (h : tx.Sound C) (hm : s.Made) (hl : ¬ s.Lacks tx.data) :
    (sender C s tx).fst = (sender C s (.fresh tx.data)).fst ∧ (sender C s tx).snd.Sound C ∧
      (sender C s tx).snd.data = tx.data := by
  cases hf : tx.from_
  case none =>
    have hx : sender C s tx = deriveSender C s tx := by rw [sender, hf]
    rw [hx]
    exact deriveSender_step h hm
  case some sc =>
    obtain ⟨sc, addr⟩ := sc
    by_cases he : sc.equal s = true
    · have hx : sender C s tx = (.ok addr, tx) := by
        rw [sender, hf]
        exact if_pos he
      obtain ⟨hsc, hk⟩ := h sc addr hf
      have hlsc : ¬ sc.Lacks tx.data := by
        rw [← @publicKey_panics_iff _ C]
        intro hp
        rw [hp] at hk
        cases hk
      rw [hx, sender_fresh, ← publicKey_congr hsc hm he hlsc hl, hk]
      exact ⟨rfl, h, rfl⟩
    · have hx : sender C s tx = deriveSender C s tx := by
        rw [sender, hf]
        exact if_neg he
      rw [hx]
      exact deriveSender_step h hm

def senders (C : Crypto Key) : List Signer → CachedTx → List (Go SigError Address)
  | [],           _  => []
  | s :: signers, tx => (sender C s tx).fst :: senders C signers (sender C s tx).snd

theorem senders_eq_fresh {signers : List Signer} {tx : CachedTx} (h : tx.Sound C)
    (hm : ∀ s ∈ signers, s.Made) (hl : ∀ s ∈ signers, ¬ s.Lacks tx.data) :
    senders C signers tx = signers.map fun s => (sender C s (.fresh tx.data)).fst := by
  induction signers generalizing tx
  case nil => rfl
  case cons s signers hi =>
    obtain ⟨hm₁, hm⟩ := List.forall_mem_cons.mp hm
    obtain ⟨hl₁, hl⟩ := List.forall_mem_cons.mp hl
    obtain ⟨hr, hs, hd⟩ := sender_step h hm₁ hl₁
    rw [senders, List.map_cons, hr, hi hs hm (hd.symm ▸ hl), hd]

theorem sender_fresh_panics_iff :
    (sender C s (.fresh tx)).fst = Go.panics ↔ s.Lacks tx := by
  rw [sender_fresh, ← @publicKey_panics_iff _ C]
  cases s.publicKey C tx
  case error e => exact ⟨fun h => by cases h; rfl, fun h => by cases h; rfl⟩
  case ok pub  => exact iff_of_false (fun h => by cases h) fun h => by cases h

end

-- Every call returns what it returns on a fresh copy, and none panics, exactly when no call is made
-- with a signer that lacks twice the chain id that it needs for the transaction.
theorem senders_fresh_iff {Key : Type} (C : Crypto Key) (tx : Transaction) (signers : List Signer)
    (hm : ∀ s ∈ signers, s.Made) :
    (senders C signers (.fresh tx) = signers.map (fun s => (sender C s (.fresh tx)).fst) ∧
      Go.panics ∉ senders C signers (.fresh tx)) ↔
    ∀ s ∈ signers, ¬ s.Lacks tx := by
  constructor
  · rintro ⟨he, hn⟩ s hs hl
    rw [he] at hn
    exact hn (List.mem_map.mpr ⟨s, hs, sender_fresh_panics_iff.mpr hl⟩)
  · intro hl
    have he : senders C signers (.fresh tx) =
        signers.map fun s => (sender C s (.fresh tx)).fst :=
      senders_eq_fresh (CachedTx.fresh_sound tx) hm hl
    refine ⟨he, fun hp => ?_⟩
    rw [he] at hp
    obtain ⟨s, hs, hp⟩ := List.mem_map.mp hp
    exact hl s hs (sender_fresh_panics_iff.mp hp)

theorem senders_fresh_sample :
    senders sampleCrypto [.homestead, newEIP155Signer 1, deriveSigner 27] (.fresh (signedTx 27)) =
      [.homestead, newEIP155Signer 1, deriveSigner 27].map
        (fun s => (sender sampleCrypto s (.fresh (signedTx 27))).fst) ∧
    Go.panics ∉ senders sampleCrypto [.homestead, newEIP155Signer 1, deriveSigner 27]
      (.fresh (signedTx 27)) := by
  have hd : deriveSigner 27 = .homestead := by decide +kernel
  apply (senders_fresh_iff sampleCrypto (signedTx 27) _ ?_).mpr
  · rw [hd]
    simp [Signer.Lacks, newEIP155Signer]
  · rw [hd]
    simp [Signer.Made, newEIP155Signer]

-- A protected transaction, with the signer that is derived from it.
theorem senders_derived :
    senders sampleCrypto [deriveSigner 37] (.fresh (signedTx 37)) = [Go.panics] := by
  have hd : deriveSigner 37 = .eip155 1 none := by decide +kernel
  have hl : (Signer.eip155 1 none).Lacks (signedTx 37) := ⟨by decide +kernel, by decide +kernel,
    by decide⟩
  rw [hd, senders, senders, sender_fresh_panics_iff.mpr hl]

end Core
