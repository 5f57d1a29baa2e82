import GoEthereum.Common

-- Cheques, the inbox that they are received in, and the payments of the accounting protocol.

namespace Swarm

open Common

-- What is used of `crypto`. Keys are as they are encoded.
structure Crypto where
  keccak256 : Bytes → Bytes
  publicKey : Bytes → Bytes
  sign      : (hash prv : Bytes) → Option Bytes
  sigToPub  : (hash sig : Bytes) → Option Bytes

-- Data to sign: contract address, beneficiary, cumulative amount of funds ever sent.
def Crypto.sigHash (C : Crypto) (contract beneficiary : Address) (sum : Int) : Bytes :=
  let bigamount := leastBigEndian sum.natAbs
  if 32 < bigamount.length then []
  else C.keccak256 (contract.val ++ beneficiary.val ++ (bytesToHash bigamount).bytes)

-- A payment promise to a single beneficiary.
structure Cheque where
  contract    : Address
  beneficiary : Address
  amount      : Int
  sig         : Bytes
  deriving DecidableEq

inductive PaymentError
  | units
  | backend
  | beneficiary
  | contract
  | amount
  | signature
  | signer
  | price

def Cheque.verify (C : Crypto) (ch : Cheque) (signer : Bytes) (contract beneficiary : Address)
    (sum : Int) : Except PaymentError Int :=
  if ch.beneficiary ≠ beneficiary then .error .beneficiary
  else if ch.contract ≠ contract then .error .contract
  else if ch.amount - sum ≤ 0 then .error .amount
  else match C.sigToPub (C.sigHash ch.contract beneficiary ch.amount) ch.sig with
    | none        => .error .signature
    | some pubKey => if pubKey ≠ signer then .error .signer else .ok (ch.amount - sum)

structure Inbox where
  contract    : Address
  beneficiary : Address
  signer      : Bytes
  cheque      : Option Cheque
  cashed      : Int
  maxUncashed : Option Int

namespace Inbox

-- The cheque is cashed if more than `maxUncashed` has not been.
def accept (inbox : Inbox) (ch : Cheque) : Inbox :=
  { inbox with
    cheque := some ch
    cashed :=
      match inbox.maxUncashed with
      | none     => inbox.cashed
      | some max => if max < ch.amount - inbox.cashed then ch.amount else inbox.cashed }

-- `sent` is the tally of the contract, or `none` if the backend fails. It is the sum to check
-- against before there is a cheque.
def receive (C : Crypto) (inbox : Inbox) (sent : Option Int) (ch : Cheque) :
    Except PaymentError Int × Inbox :=
  match (inbox.cheque.map Cheque.amount).or sent with
  | none     => (.error .backend, inbox)
  | some sum =>
    match ch.verify C inbox.signer inbox.contract inbox.beneficiary sum with
    | .error e   => (.error e, inbox)
    | .ok amount => (.ok amount, inbox.accept ch)

end Inbox

-- The parameters of the node, and of its peer as far as they are used.
structure Params where
  sellAt : Int
  buyAt  : Option Int
  dropAt : UInt64
  buys   : Bool
  sells  : Bool
  payAt  : UInt64
  price  : Int

structure Swap where
  balance : Int64
  inbox   : Inbox

-- A payment that is received, with the tally that the contract reports then. A payment to the peer
-- may be due after it: `issues` are the amounts that a cheque can be issued for.
structure Payment where
  units  : Int64
  cheque : Cheque
  sent   : Option Int
  issues : Int → Bool

namespace Swap

def send (P : Params) (issues : Int → Bool) (balance : Int64) : Int64 :=
  if P.buyAt.isSome ∧ balance < 0 ∧ issues ((-balance).toInt * P.price) then 0 else balance

-- `false` stands for an error. The balance is changed in any case.
def add (P : Params) (issues : Int → Bool) (balance n : Int64) : Bool × Int64 :=
  let balance := balance + n
  if !P.sells && 0 < balance then (false, balance)
  else if !P.buys && balance < 0 then (false, balance)
  else if P.dropAt.toInt64 ≤ balance then (false, balance)
  else if balance ≤ -P.payAt.toInt64 then (true, send P issues balance)
  else (true, balance)

def receive (C : Crypto) (P : Params) (s : Swap) (p : Payment) : Except PaymentError Unit × Swap :=
  if p.units ≤ 0 then (.error .units, s)
  else
    match s.inbox.receive C p.sent p.cheque with
    | (.error e, inbox)   => (.error e, { s with inbox := inbox })
    | (.ok amount, inbox) =>
      if p.units.toInt * P.sellAt ≠ amount then (.error .price, { s with inbox := inbox })
      else (.ok (), ⟨(add P p.issues s.balance (-p.units)).snd, inbox⟩)

end Swap

variable {C : Crypto} {P : Params} {ch : Cheque} {inbox : Inbox} {s s₀ : Swap} {p : Payment}
  {credited start sum : Int}

-- The cheque is made out to the owner of the inbox and signed by its peer.
structure Cheque.Genuine (C : Crypto) (inbox : Inbox) (ch : Cheque) : Prop where
  beneficiary : ch.beneficiary = inbox.beneficiary
  contract    : ch.contract = inbox.contract
  signer      : C.sigToPub (C.sigHash ch.contract ch.beneficiary ch.amount) ch.sig = some inbox.signer

-- The cheque is checked against `sum` and has to be for more.
structure Inbox.Takes (C : Crypto) (inbox : Inbox) (sent : Option Int) (ch : Cheque) (sum : Int) :
    Prop where
  checked : (inbox.cheque.map Cheque.amount).or sent = some sum
  genuine : ch.Genuine C inbox
  higher  : sum < ch.amount

theorem Cheque.verify_eq_ok_iff {amount : Int} :
    ch.verify C inbox.signer inbox.contract inbox.beneficiary sum = .ok amount ↔
      ch.Genuine C inbox ∧ sum < ch.amount ∧ amount = ch.amount - sum := by
  rw [verify]
  constructor
  case mp =>
    intro h
    split_ifs at h with hb hc ha
    rw [not_not] at hb hc
    split at h
    case h_1 => cases h
    case h_2 hs =>
      split_ifs at h with hk
      cases h
      exact ⟨⟨hb, hc, by rw [hb, hs, not_not.mp hk]⟩, by omega, rfl⟩
  case mpr =>
    rintro ⟨⟨hb, hc, hs⟩, ha, rfl⟩
    rw [hb] at hs
    rw [if_neg (not_not.mpr hb), if_neg (not_not.mpr hc), if_neg (by omega), hs]
    exact if_neg (not_not.mpr rfl)

theorem Inbox.receive_cases (C : Crypto) (inbox : Inbox) (sent : Option Int) (ch : Cheque) :
    (∃ e, inbox.receive C sent ch = (.error e, inbox) ∧ ∀ sum, ¬ inbox.Takes C sent ch sum) ∨
    ∃ sum, inbox.Takes C sent ch sum ∧
      inbox.receive C sent ch = (.ok (ch.amount - sum), inbox.accept ch) := by
  rw [receive]
  split
  case h_1 hs => exact .inl ⟨_, rfl, fun sum h => by cases hs.symm.trans h.checked⟩
  case h_2 sum hs =>
    split
    case h_1 e he =>
      refine .inl ⟨e, rfl, fun n h => ?_⟩
      obtain rfl : n = sum := Option.some.inj (h.checked.symm.trans hs)
      cases he.symm.trans (Cheque.verify_eq_ok_iff.mpr ⟨h.genuine, h.higher, rfl⟩)
    case h_2 amount he =>
      obtain ⟨hg, hlt, rfl⟩ := Cheque.verify_eq_ok_iff.mp he
      exact .inr ⟨sum, ⟨hs, hg, hlt⟩, rfl⟩

-- The sum that has been received, or else the tally at the start.
def Inbox.tally (inbox : Inbox) (start : Int) : Int :=
  (inbox.cheque.map Cheque.amount).getD start

namespace Payment

-- The units are worth what the cheque adds, if the inbox takes it.
def Priced (C : Crypto) (P : Params) (s : Swap) (p : Payment) : Prop :=
  0 < p.units → ∀ sum, s.inbox.Takes C p.sent p.cheque sum →
    p.units.toInt * P.sellAt = p.cheque.amount - sum

def credit (C : Crypto) (P : Params) (s : Swap) (p : Payment) : Int :=
  match (s.receive C P p).fst with
  | .ok _    => p.units.toInt
  | .error _ => 0

end Payment

namespace Swap

-- The units that have been credited after payments that were all priced right.
inductive Reached (C : Crypto) (P : Params) (start : Int) (s₀ : Swap) : Swap → Int → Prop
  | refl : Reached C P start s₀ s₀ 0
  | receive {s : Swap} {credited : Int} {p : Payment} (h : Reached C P start s₀ s credited)
      (hs : ∀ t ∈ p.sent, t = start) (hp : p.Priced C P s) :
      Reached C P start s₀ (s.receive C P p).snd (credited + p.credit C P s)

theorem receive_cases (C : Crypto) (P : Params) (s : Swap) (p : Payment) :
    (∃ e, s.receive C P p = (.error e, s) ∧ p.Priced C P s) ∨
    0 < p.units ∧ ∃ sum, s.inbox.Takes C p.sent p.cheque sum ∧
      s.receive C P p =
        if p.units.toInt * P.sellAt ≠ p.cheque.amount - sum then
          (.error .price, { s with inbox := s.inbox.accept p.cheque })
        else (.ok (), ⟨(add P p.issues s.balance (-p.units)).snd, s.inbox.accept p.cheque⟩) := by
  rw [receive]
  split
  case isTrue hu => exact .inl ⟨_, rfl, fun hpos => absurd hpos (Int64.not_lt.mpr hu)⟩
  case isFalse hu =>
    obtain ⟨e, he, hn⟩ | ⟨sum, ht, he⟩ := s.inbox.receive_cases C p.sent p.cheque <;> rw [he]
    · exact .inl ⟨e, rfl, fun _ sum h => absurd h (hn sum)⟩
    · exact .inr ⟨Int64.not_le.mp hu, sum, ht, rfl⟩

theorem tally_of_takes (hs : ∀ t ∈ p.sent, t = start) (h : s.inbox.Takes C p.sent p.cheque sum) :
    s.inbox.tally start = sum := by
  have hc := h.checked
  rw [Inbox.tally]
  cases hl : s.inbox.cheque.map Cheque.amount <;> rw [hl] at hc
  case none   => exact (hs sum hc).symm
  case some n => exact Option.some.inj hc

theorem settled_step (hs : ∀ t ∈ p.sent, t = start) (hp : p.Priced C P s)
    (h : credited * P.sellAt = s.inbox.tally start - s₀.inbox.tally start) :
    (credited + p.credit C P s) * P.sellAt =
      (s.receive C P p).snd.inbox.tally start - s₀.inbox.tally start := by
  obtain ⟨e, he, -⟩ | ⟨hu, sum, ht, he⟩ := receive_cases C P s p
  · simp only [Payment.credit, he, add_zero, h]
  · have hprice := hp hu sum ht
    rw [if_neg (not_not.mpr hprice)] at he
    simp only [Payment.credit, he]
    rw [Int.add_mul, h, tally_of_takes hs ht, hprice]
    show _ = p.cheque.amount - _
    omega

theorem Reached.settled (h : Reached C P start s₀ s credited) :
    credited * P.sellAt = s.inbox.tally start - s₀.inbox.tally start := by
  induction h
  case refl              => omega
  case receive hs hp hi => exact settled_step hs hp hi

-- A payment that is refused changes nothing, and what is credited has been received: this is so
-- after the next payment if and only if it is priced right, too.
theorem Reached.all_or_nothing_iff (h : Reached C P start s₀ s credited)
    (hs : ∀ t ∈ p.sent, t = start) :
    ((∀ e s', s.receive C P p = (.error e, s') →
        s'.inbox.cheque = s.inbox.cheque ∧ s'.balance = s.balance) ∧
      (credited + p.credit C P s) * P.sellAt =
        (s.receive C P p).snd.inbox.tally start - s₀.inbox.tally start) ↔ p.Priced C P s := by
  constructor
  case mp =>
    rintro ⟨hr, -⟩ hu sum ht
    by_contra hne
    obtain ⟨e, -, hp⟩ | ⟨-, n, hn, he⟩ := receive_cases C P s p
    · exact hne (hp hu sum ht)
    · obtain rfl : n = sum := Option.some.inj (hn.checked.symm.trans ht.checked)
      rw [if_pos hne] at he
      have hc := ht.checked
      rw [← (hr _ _ he).left] at hc
      have := ht.higher
      simp only [Inbox.accept, Option.map_some, Option.some_or, Option.some.injEq] at hc
      omega
  case mpr =>
    intro hp
    refine ⟨fun e s' he => ?_, settled_step hs hp h.settled⟩
    obtain ⟨e', he', -⟩ | ⟨hu, sum, ht, he'⟩ := receive_cases C P s p
    · cases he'.symm.trans he
      exact ⟨rfl, rfl⟩
    · rw [if_neg (not_not.mpr (hp hu sum ht))] at he'
      cases he'.symm.trans he

-- Every signature is the peer's, and a unit costs 1.

def sampleCrypto : Crypto :=
  ⟨id, id, fun _ _ => some [], fun _ _ => some []⟩

def sampleParams : Params :=
  ⟨1, none, 100, true, true, 100, 1⟩

def sampleSwap : Swap :=
  ⟨0, ⟨Address.zero, Address.zero, [], none, 0, none⟩⟩

def samplePayment (units : Int64) (amount : Int) : Payment :=
  ⟨units, ⟨Address.zero, Address.zero, amount, []⟩, some 0, fun _ => true⟩

-- A unit is offered for a cheque over 2, which is refused and kept. The next cheque is over 3 and
-- pays for one unit.
theorem receive_keeps_refused :
    sampleSwap.receive sampleCrypto sampleParams (samplePayment 1 2) =
      (.error .price, { sampleSwap with
        inbox := sampleSwap.inbox.accept (samplePayment 1 2).cheque }) ∧
    (receive sampleCrypto sampleParams
      (sampleSwap.receive sampleCrypto sampleParams (samplePayment 1 2)).snd
      (samplePayment 1 3)).fst = .ok () :=
  ⟨rfl, rfl⟩

theorem all_or_nothing_samplePayment :
    (0 + (samplePayment 2 2).credit sampleCrypto sampleParams sampleSwap) * sampleParams.sellAt =
      (sampleSwap.receive sampleCrypto sampleParams (samplePayment 2 2)).snd.inbox.tally 0 -
        sampleSwap.inbox.tally 0 := by
  refine ((Reached.all_or_nothing_iff .refl fun t ht => ?_).mpr fun _ sum ht => ?_).right
  · exact (Option.some.inj ht).symm
  · obtain rfl : 0 = sum := Option.some.inj ht.checked
    rfl

end Swap

end Swarm
