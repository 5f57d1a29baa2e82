import GoEthereum.Rlp.Consume
import GoEthereum.Rlp.RoundTrip

-- The frames of the RLPx transport.

namespace P2p

open Common

-- The ciphers and the hash, as functions of the keys and their input. A stream cipher is the
-- sequence of the bytes that its input is combined with.
structure Primitives (Key : Type) where
  keyStream : Key → Nat → UInt8
  encrypt   : Key → Bytes → { b : Bytes // b.length = 16 }
  sum       : Bytes → Hash

-- `XORKeyStream`, from some place of the sequence on.
def xorKeyStream (stream : Nat → UInt8) : Nat → Bytes → Bytes
  | _, []     => []
  | n, c :: b => (c ^^^ stream n) :: xorKeyStream stream (n + 1) b

variable {Key : Type}

-- A hash is what has been written to it.
structure Secrets (Key : Type) where
  aes        : Key
  mac        : Key
  egressMac  : Bytes
  ingressMac : Bytes

def Secrets.mirror (s : Secrets Key) : Secrets Key :=
  { s with egressMac := s.ingressMac, ingressMac := s.egressMac }

-- `enc` and `dec` are the numbers of bytes that the ciphers have processed.
structure FrameRW (Key : Type) extends Secrets Key where
  enc : Nat
  dec : Nat

structure Msg where
  code    : Fin (2 ^ 64)
  size    : UInt32
  payload : Bytes
  deriving DecidableEq

def newRLPXFrameRW (s : Secrets Key) : FrameRW Key :=
  { s with enc := 0, dec := 0 }

inductive FrameError
  | tooLarge
  | eof
  | unexpectedEof
  | badHeaderMac
  | badFrameMac
  | decode (e : Rlp.StreamError)

section

variable (P : Primitives Key)

-- Reseeds the hash with the encrypted seed, and gives the first 16 bytes of its sum.
def updateMac (key : Key) (mac seed : Bytes) : Bytes × Bytes :=
  let mac := mac ++ List.zipWith (· ^^^ ·) (P.encrypt key (P.sum mac).bytes).val seed
  (mac, (P.sum mac).bytes.take 16)

def maxUint24 : UInt32 :=
  0xFFFFFF

def zeroHeader : Bytes :=
  [0xC2, 0x80, 0x80]

-- The error of `rlp.EncodeToBytes` is dropped.
def Msg.ptype (msg : Msg) : Bytes :=
  ((Rlp.Ty.uint .w64).encodeToBytes msg.code).toOption.getD []

def Msg.fsize (msg : Msg) : UInt32 :=
  UInt32.ofNat msg.ptype.length + msg.size

def padding (fsize : Nat) : Nat :=
  if fsize % 16 > 0 then 16 - fsize % 16 else 0

-- Encrypts the data, and writes it to the connection and to the hash.
def FrameRW.tee (rw : FrameRW Key) (data : Bytes) : Bytes × FrameRW Key :=
  let data' := xorKeyStream (P.keyStream rw.aes) rw.enc data
  (data', { rw with enc := rw.enc + data.length, egressMac := rw.egressMac ++ data' })

-- What is written to the connection. Writing to it does not fail.
def FrameRW.writeMsg (rw : FrameRW Key) (msg : Msg) : Go FrameError (Bytes × FrameRW Key) :=
  if msg.fsize > maxUint24 then Go.fail .tooLarge
  else
    let head := bigEndian 3 msg.fsize.toNat ++ zeroHeader ++ List.replicate 10 0
    let head := xorKeyStream (P.keyStream rw.aes) rw.enc head
    let (mac, headMac) := updateMac P rw.mac rw.egressMac head
    let rw := { rw with enc := rw.enc + 16, egressMac := mac }
    let (code, rw) := rw.tee P msg.ptype
    let (payload, rw) := rw.tee P msg.payload
    let (zeros, rw) := rw.tee P (List.replicate (padding msg.fsize.toNat) 0)
    let (mac, frameMac) := updateMac P rw.mac rw.egressMac (P.sum rw.egressMac).bytes
    .ok (head ++ headMac ++ code ++ payload ++ zeros ++ frameMac, { rw with egressMac := mac })

def readFull (n : Nat) (conn : Bytes) : Go FrameError (Bytes × Bytes) :=
  if n ≤ conn.length then .ok (conn.take n, conn.drop n)
  else if conn = [] then Go.fail .eof
  else Go.fail .unexpectedEof

-- `rlp.Decode` of the code, and what is left behind it.
def decodeCode (content : Bytes) : Go FrameError (Fin (2 ^ 64) × Bytes) :=
  match Rlp.decodeUint .w64 (Rlp.Stream.new content) with
  | (.ok code, s)          => .ok (code, s.input)
  | (.error (.error e), _) => Go.fail (.decode e)
  | (.error .panic, _)     => Go.panics

-- With what is left on the connection.
def FrameRW.readMsg (rw : FrameRW Key) (conn : Bytes) :
    Go FrameError (Msg × Bytes × FrameRW Key) := do
  let (headbuf, conn) ← readFull 32 conn
  let (mac, shouldMac) := updateMac P rw.mac rw.ingressMac (headbuf.take 16)
  if shouldMac ≠ headbuf.drop 16 then Go.fail .badHeaderMac else do
  let head := xorKeyStream (P.keyStream rw.aes) rw.dec (headbuf.take 16)
  let fsize := ofBigEndian (head.take 3)
  let (framebuf, conn) ← readFull (fsize + padding fsize) conn
  let mac := mac ++ framebuf
  let (frameMac, conn) ← readFull 16 conn
  let (mac, shouldMac) := updateMac P rw.mac mac (P.sum mac).bytes
  if shouldMac ≠ frameMac then Go.fail .badFrameMac else do
  let frame := xorKeyStream (P.keyStream rw.aes) (rw.dec + 16) framebuf
  let (code, payload) ← decodeCode (frame.take fsize)
  pure (⟨code, UInt32.ofNat payload.length, payload⟩, conn,
    { rw with dec := rw.dec + 16 + framebuf.length, ingressMac := mac })

-- All messages are passed to `WriteMsg`. Those that are accepted, and what the connection has then.
def FrameRW.writeAll (rw : FrameRW Key) : List Msg → List Msg × Bytes
  | []          => ([], [])
  | msg :: msgs =>
    match rw.writeMsg P msg with
    | .ok (b, rw) => (msg :: (rw.writeAll msgs).fst, b ++ (rw.writeAll msgs).snd)
    | .error _    => rw.writeAll msgs

-- The messages that as many calls of `ReadMsg` return, and what is left then.
def FrameRW.readAll (rw : FrameRW Key) : Nat → Bytes → Go FrameError (List Msg × Bytes)
  | 0,     conn => .ok ([], conn)
  | n + 1, conn => do
    let (msg, conn, rw) ← rw.readMsg P conn
    let (msgs, conn) ← rw.readAll n conn
    pure (msg :: msgs, conn)

variable {stream : Nat → UInt8} {n : Nat} {a b : Bytes}

theorem length_xorKeyStream : (xorKeyStream stream n b).length = b.length := by
  induction b generalizing n
  case nil       => rfl
  case cons c b hi => exact congrArg Nat.succ hi

theorem xorKeyStream_append :
    xorKeyStream stream n (a ++ b) =
      xorKeyStream stream n a ++ xorKeyStream stream (n + a.length) b := by
  induction a generalizing n
  case nil       => rfl
  case cons c a hi =>
    rw [List.cons_append, xorKeyStream, xorKeyStream, hi, List.length_cons, List.cons_append,
      Nat.add_assoc, Nat.add_comm 1]

-- What is encrypted from some place of the stream on is decrypted from there.
theorem xorKeyStream_xorKeyStream :
    xorKeyStream stream n (xorKeyStream stream n b) = b := by
  induction b generalizing n
  case nil       => rfl
  case cons c b hi =>
    rw [xorKeyStream, xorKeyStream, hi, UInt8.xor_assoc, UInt8.xor_self, UInt8.xor_zero]

theorem readFull_append (h : a.length = n) : readFull n (a ++ b) = .ok (a, b) := by
  rw [readFull, if_pos (by simp [h]), List.take_left' h, List.drop_left' h]

end

theorem Msg.ptype_eq (msg : Msg) : msg.ptype = Rlp.encode (.str (leastBigEndian msg.code.val)) := by
  rw [ptype, @Rlp.Ty.encodeToBytes_eq (.uint .w64) msg.code rfl trivial]
  rfl

theorem Msg.length_ptype_le (msg : Msg) : msg.ptype.length ≤ 17 := by
  have hl := @leastBigEndian_length_le msg.code.val 8 msg.code.isLt
  have := Rlp.encodeString_length_le (leastBigEndian msg.code.val)
  rw [ptype_eq, Rlp.encode]
  omega

theorem decodeCode_ptype (msg : Msg) (payload : Bytes) :
    decodeCode (msg.ptype ++ payload) = .ok (msg.code, payload) := by
  have hl := msg.length_ptype_le
  have ha := Rlp.Stream.at_new (msg.ptype ++ payload)
  rw [msg.ptype_eq] at ha hl ⊢
  obtain ⟨s, hs, hc⟩ := Rlp.decodes_decodeUint .w64 msg.code (ha.before trivial (by omega))
  rw [decodeCode, hs]
  exact congrArg (fun b => Except.ok (msg.code, b)) hc.input

section

variable {P : Primitives Key} {rw rd : FrameRW Key} {msg : Msg}

theorem length_updateMac (key : Key) (mac seed : Bytes) :
    (updateMac P key mac seed).snd.length = 16 := by
  rw [updateMac, List.length_take, Hash.bytes_length]
  rfl

structure InStep (rw rd : FrameRW Key) : Prop where
  aes  : rd.aes = rw.aes
  mac  : rd.mac = rw.mac
  pos  : rd.dec = rw.enc
  hash : rd.ingressMac = rw.egressMac

def Msg.head (msg : Msg) : Bytes :=
  bigEndian 3 msg.fsize.toNat ++ zeroHeader ++ List.replicate 10 0

def Msg.frame (msg : Msg) : Bytes :=
  msg.ptype ++ msg.payload ++ List.replicate (padding msg.fsize.toNat) 0

theorem writeMsg_eq (h : ¬ msg.fsize > maxUint24) :
    rw.writeMsg P msg =
      let head := xorKeyStream (P.keyStream rw.aes) rw.enc msg.head
      let headMac := updateMac P rw.mac rw.egressMac head
      let frame := xorKeyStream (P.keyStream rw.aes) (rw.enc + 16) msg.frame
      let frameMac := updateMac P rw.mac (headMac.fst ++ frame) (P.sum (headMac.fst ++ frame)).bytes
      .ok (head ++ (headMac.snd ++ (frame ++ frameMac.snd)),
        { rw with enc := rw.enc + 16 + msg.frame.length, egressMac := frameMac.fst }) := by
  rw [FrameRW.writeMsg, if_neg h]
  simp only [FrameRW.tee, Msg.frame, Msg.head, xorKeyStream_append, List.append_assoc,
    List.length_append, Nat.add_assoc]

theorem readMsg_eq {head frame rest : Bytes} {headMac frameMac : Bytes × Bytes} {fsize : Nat}
    (hh : head.length = 16) (hm : updateMac P rd.mac rd.ingressMac head = headMac)
    (hs : ofBigEndian ((xorKeyStream (P.keyStream rd.aes) rd.dec head).take 3) = fsize)
    (hf : frame.length = fsize + padding fsize)
    (hm' : updateMac P rd.mac (headMac.fst ++ frame) (P.sum (headMac.fst ++ frame)).bytes =
      frameMac) :
    rd.readMsg P (head ++ (headMac.snd ++ (frame ++ (frameMac.snd ++ rest)))) = (do
      let content := xorKeyStream (P.keyStream rd.aes) (rd.dec + 16) frame
      let (code, payload) ← decodeCode (content.take fsize)
      pure (⟨code, UInt32.ofNat payload.length, payload⟩, rest,
        { rd with dec := rd.dec + 16 + frame.length, ingressMac := frameMac.fst })) := by
  have hl : headMac.snd.length = 16 := hm ▸ length_updateMac ..
  have hl' : frameMac.snd.length = 16 := hm' ▸ length_updateMac ..
  have hb : (head ++ headMac.snd).length = 32 := by rw [List.length_append, hh, hl]
  rw [FrameRW.readMsg, ← List.append_assoc, readFull_append hb]
  simp only [List.take_left' hh, List.drop_left' hh, hm, ne_eq, not_true_eq_false, if_false, hs,
    readFull_append hf, Go.ok_bind, readFull_append hl', hm']

-- The size of a frame does not wrap around.
def Msg.Bounded (msg : Msg) : Prop :=
  msg.ptype.length + msg.size.toNat < 2 ^ 32

def Msg.Sized (msg : Msg) : Prop :=
  msg.size.toNat = msg.payload.length

def Msg.Small (msg : Msg) : Prop :=
  msg.ptype.length + msg.size.toNat ≤ maxUint24.toNat

instance Msg.decidableSmall : DecidablePred Msg.Small :=
  fun _ => inferInstanceAs (Decidable (_ ≤ _))

theorem Msg.toNat_fsize (msg : Msg) :
    msg.fsize.toNat = (msg.ptype.length + msg.size.toNat) % 2 ^ 32 := by
  rw [fsize, UInt32.toNat_add, UInt32.toNat_ofNat', Nat.mod_add_mod]

theorem Msg.fsize_gt_iff (msg : Msg) (h : msg.Bounded) : msg.fsize > maxUint24 ↔ ¬ msg.Small := by
  rw [Small, Nat.not_le, gt_iff_lt, UInt32.lt_iff_toNat_lt, toNat_fsize, Nat.mod_eq_of_lt h]

-- The size wraps around to less than the length of the code.
theorem Msg.not_fsize_gt (msg : Msg) (h : ¬ msg.Bounded) :
    ¬ msg.fsize > maxUint24 ∧ ¬ msg.Small := by
  have hp := msg.length_ptype_le
  have hs := msg.size.toNat_lt
  rw [Bounded] at h
  rw [Small, gt_iff_lt, UInt32.lt_iff_toNat_lt, toNat_fsize, maxUint24]
  simp
  omega

theorem readMsg_writeMsg (hst : InStep rw rd) (hs : msg.Sized) (hb : msg.Bounded)
    (h : ¬ msg.fsize > maxUint24) :
    ∃ b rw', rw.writeMsg P msg = .ok (b, rw') ∧
      ∀ rest, ∃ rd', rd.readMsg P (b ++ rest) = .ok (msg, rest, rd') ∧ InStep rw' rd' := by
  obtain ⟨ha, hm, hp, hg⟩ := hst
  have hf : msg.fsize.toNat = msg.ptype.length + msg.payload.length := by
    rw [msg.toNat_fsize, Nat.mod_eq_of_lt hb, hs]
  have hl : ¬ maxUint24.toNat < msg.fsize.toNat := UInt32.lt_iff_toNat_lt.not.mp h
  have hlen : msg.frame.length = msg.fsize.toNat + padding msg.fsize.toNat := by
    rw [Msg.frame, List.length_append, List.length_append, List.length_replicate, hf]
  have hsize : ofBigEndian ((xorKeyStream (P.keyStream rd.aes) rd.dec
      (xorKeyStream (P.keyStream rw.aes) rw.enc msg.head)).take 3) = msg.fsize.toNat := by
    rw [ha, hp, xorKeyStream_xorKeyStream, Msg.head, List.append_assoc,
      List.take_left' (bigEndian_length 3 _), ofBigEndian_bigEndian]
    exact Nat.mod_eq_of_lt (lt_of_le_of_lt (Nat.not_lt.mp hl) (by decide))
  have hc : (xorKeyStream (P.keyStream rd.aes) (rd.dec + 16)
      (xorKeyStream (P.keyStream rw.aes) (rw.enc + 16) msg.frame)).take msg.fsize.toNat =
        msg.ptype ++ msg.payload := by
    rw [ha, hp, xorKeyStream_xorKeyStream, hf]
    exact List.take_left' List.length_append
  have hsz : UInt32.ofNat msg.payload.length = msg.size := by rw [← hs, UInt32.ofNat_toNat]
  refine ⟨_, _, writeMsg_eq h, ?_⟩
  intro rest
  have hr := @readMsg_eq Key P rd _ (xorKeyStream (P.keyStream rw.aes) (rw.enc + 16) msg.frame) rest
    _ _ _ length_xorKeyStream (by rw [hm, hg]) hsize (length_xorKeyStream.trans hlen) (by rw [hm])
  simp only [hc, decodeCode_ptype, Go.ok_bind, hsz, length_xorKeyStream] at hr
  simp only [List.append_assoc]
  exact ⟨_, hr, ha, hm, congrArg (· + 16 + msg.frame.length) hp, rfl⟩

theorem writeAll_fst (msgs : List Msg) :
    (rw.writeAll P msgs).fst = msgs.filter fun msg => ¬ msg.fsize > maxUint24 := by
  induction msgs generalizing rw
  case nil => rfl
  case cons msg msgs hi =>
    rw [FrameRW.writeAll, List.filter_cons]
    by_cases h : msg.fsize > maxUint24
    case pos =>
      rw [FrameRW.writeMsg]
      simpa [h, Go.fail] using hi
    case neg =>
      rw [writeMsg_eq h]
      simpa [h] using hi

-- The messages that are accepted are read, whatever stands behind them on the connection.
theorem readAll_writeAll {msgs : List Msg} (hst : InStep rw rd)
    (hm : ∀ msg ∈ msgs, msg.Sized ∧ msg.Bounded) (rest : Bytes) :
    rd.readAll P (rw.writeAll P msgs).fst.length ((rw.writeAll P msgs).snd ++ rest) =
      .ok ((rw.writeAll P msgs).fst, rest) := by
  induction msgs generalizing rw rd
  case nil => rfl
  case cons msg msgs hi =>
    obtain ⟨⟨hs, hb⟩, hm⟩ := List.forall_mem_cons.mp hm
    rw [FrameRW.writeAll]
    by_cases h : msg.fsize > maxUint24
    case pos =>
      rw [FrameRW.writeMsg, if_pos h]
      exact hi hst hm
    case neg =>
      obtain ⟨b, rw', hw, hr⟩ := readMsg_writeMsg hst hs hb h
      obtain ⟨rd', hr, hst'⟩ := hr ((rw'.writeAll P msgs).snd ++ rest)
      rw [hw]
      simp only [List.length_cons, FrameRW.readAll, List.append_assoc, hr, Go.ok_bind,
        hi hst' hm]
      rfl

-- The messages that are too large are refused, and all others come out at the other end.
def Delivers (P : Primitives Key) (s : Secrets Key) (msgs : List Msg) : Prop :=
  let sent := (newRLPXFrameRW s).writeAll P msgs
  sent.fst = msgs.filter Msg.Small ∧
    (newRLPXFrameRW s.mirror).readAll P sent.fst.length sent.snd = .ok (sent.fst, [])

theorem delivers_iff (P : Primitives Key) (s : Secrets Key) {msgs : List Msg}
    (hs : ∀ msg ∈ msgs, msg.Sized) : Delivers P s msgs ↔ ∀ msg ∈ msgs, msg.Bounded := by
  rw [Delivers, writeAll_fst]
  constructor
  case mp =>
    rintro ⟨hf, -⟩ msg hm
    by_contra hb
    obtain ⟨hg, hn⟩ := msg.not_fsize_gt hb
    have hw := hf ▸ List.mem_filter.mpr ⟨hm, decide_eq_true hg⟩
    exact hn (of_decide_eq_true (List.mem_filter.mp hw).right)
  case mpr =>
    intro hb
    have hst : InStep (newRLPXFrameRW s) (newRLPXFrameRW s.mirror) := ⟨rfl, rfl, rfl, rfl⟩
    have hr := @readAll_writeAll Key P _ _ msgs hst (fun msg hm => ⟨hs msg hm, hb msg hm⟩) []
    rw [writeAll_fst, List.append_nil] at hr
    refine ⟨List.filter_congr fun msg hm => ?_, hr⟩
    simp [msg.fsize_gt_iff (hb msg hm)]

theorem decodeCode_length_le {content payload : Bytes} {code : Fin (2 ^ 64)}
    (h : decodeCode content = .ok (code, payload)) : payload.length ≤ content.length := by
  have hc := Rlp.consumes_decodeUint .w64 (Rlp.Stream.new content)
  rw [decodeCode] at h
  cases hd : Rlp.decodeUint .w64 (Rlp.Stream.new content)
  case mk r s =>
    rw [hd] at h hc
    cases r
    case ok    => cases h; exact hc
    case error e => cases e <;> cases h

-- No more is returned than the header announces.
theorem readMsg_length_le {head rest rest' : Bytes} {rd' : FrameRW Key} (hl : head.length = 16)
    (h : rd.readMsg P (head ++ rest) = .ok (msg, rest', rd')) :
    msg.payload.length ≤ ofBigEndian ((xorKeyStream (P.keyStream rd.aes) rd.dec head).take 3) := by
  obtain ⟨⟨headbuf, conn⟩, h₁, h⟩ := Go.bind_eq_ok.mp h
  have hh : headbuf.take 16 = head := by
    rw [readFull] at h₁
    by_cases hn : 32 ≤ (head ++ rest).length
    case pos =>
      rw [if_pos hn] at h₁
      cases h₁
      exact (List.take_take ..).trans (List.take_left' hl)
    case neg =>
      rw [if_neg hn] at h₁
      split at h₁ <;> cases h₁
  simp only [hh] at h
  split at h
  case isTrue  => cases h
  case isFalse =>
    obtain ⟨⟨framebuf, conn⟩, -, h⟩ := Go.bind_eq_ok.mp h
    obtain ⟨⟨frameMac, conn⟩, -, h⟩ := Go.bind_eq_ok.mp h
    split at h
    case isTrue  => cases h
    case isFalse =>
      obtain ⟨⟨code, payload⟩, hd, h⟩ := Go.bind_eq_ok.mp h
      cases h
      exact (decodeCode_length_le hd).trans (List.length_take_le ..)

end

def samplePrimitives : Primitives Unit where
  keyStream _ _ := 0
  encrypt _ _   := ⟨List.replicate 16 0, List.length_replicate ..⟩
  sum _         := Hash.zero

def sampleSecrets : Secrets Unit :=
  ⟨(), (), [], []⟩

theorem delivers_sample : Delivers samplePrimitives sampleSecrets [⟨5, 1, [7]⟩] := by
  have hs : Msg.Sized ⟨5, 1, [7]⟩ := rfl
  refine (delivers_iff _ _ (List.forall_mem_singleton.mpr hs)).mpr ?_
  have hl := Msg.length_ptype_le ⟨5, 1, [7]⟩
  exact List.forall_mem_singleton.mpr (lt_of_le_of_lt (Nat.add_le_add_right hl _) (by decide))

-- The code takes one byte, and with it the size is zero again.
def hugeMsg : Msg where
  code    := 0
  size    := 0xFFFFFFFF
  payload := List.replicate 0xFFFFFFFF 0

theorem writeMsg_wraps :
    hugeMsg.Sized ∧ ¬ hugeMsg.Small ∧
      ∃ b rw, (newRLPXFrameRW sampleSecrets).writeMsg samplePrimitives hugeMsg = .ok (b, rw) ∧
        ∀ rest rd, (newRLPXFrameRW sampleSecrets.mirror).readMsg samplePrimitives b ≠
          .ok (hugeMsg, rest, rd) := by
  have hp : hugeMsg.ptype.length = 1 := by
    have he := Rlp.encodeList_zero
    rw [Rlp.encodeList, Rlp.encodeList, List.append_nil] at he
    rw [Msg.ptype_eq]
    exact congrArg List.length he
  have hb : ¬ hugeMsg.Bounded := by
    rw [Msg.Bounded]
    decide
  have hf : hugeMsg.fsize.toNat = 0 := by
    decide
  have hs : hugeMsg.payload.length = 0xFFFFFFFF := List.length_replicate ..
  obtain ⟨hg, hn⟩ := hugeMsg.not_fsize_gt hb
  refine ⟨hs.symm, hn, _, _, writeMsg_eq hg, ?_⟩
  intro rest rd h
  have hl := readMsg_length_le length_xorKeyStream h
  change _ ≤ ofBigEndian ((xorKeyStream (fun _ => 0) 0
    (xorKeyStream (fun _ => 0) 0 hugeMsg.head)).take 3) at hl
  rw [hs, Msg.head] at hl
  exact absurd hl (by decide)

end P2p
